import PartProgram.Proofs.Lines.Shift
import PartProgram.Proofs.RoundTrip.Tree

/-!
# Positions around an operand

What may follow a name, an operand and an expression, and what the readers do with the token
that is held. The readers recurse on a number of characters, and what is said of them holds
whenever there are enough of these.
-/

set_option autoImplicit false

namespace PartProgram

namespace Cursor

def EndsName (c : Cursor) : Prop :=
  ∀ t ∈ c.held, t.is .brace "(" = false ∧ t.is .fieldBrace "[" = false ∧
    (t.kind = .number → t.spaced = true)

/-- An operand may end in front of the token held; no exponent follows a number directly. -/
def EndsOperand (c : Cursor) : Prop :=
  ∀ t ∈ c.held, t.is .brace "(" = false ∧ t.is .fieldBrace "[" = false ∧
    (t.isKeyword "EX" = true ∨ t.kind = .number → t.spaced = true)

/-- An expression may end in front of the token held. -/
def EndsExpression (c : Cursor) : Prop :=
  c.EndsOperand ∧ ∀ t ∈ c.held, t.kind = .operator → t.text = "="

theorem EndsOperand.endsName {c : Cursor} (h : c.EndsOperand) : c.EndsName := by
  intro t ht
  obtain ⟨hround, hfield, hspaced⟩ := h t ht
  exact ⟨hround, hfield, fun hk => hspaced (.inr hk)⟩

theorem EndsName.not_round {c : Cursor} (h : c.EndsName) : c.holds .brace "(" = false := by
  rw [holds]
  cases hc : c.held with
  | none => rfl
  | some t => exact (h t hc).1

theorem EndsName.not_field {c : Cursor} (h : c.EndsName) : c.holds .fieldBrace "[" = false := by
  rw [holds]
  cases hc : c.held with
  | none => rfl
  | some t => exact (h t hc).2.1

end Cursor

theorem parted_blank (rest : List Char) : Parted (lead true ++ rest) :=
  parted_cons (by decide) (by decide) (by decide)

theorem isOperatorName_letter (c : Char) : Scan.isOperatorName [c] = false := by
  simp [Scan.isOperatorName, Scan.operatorNames, sameLetters]

theorem joins_minus (b : Char) : Scan.joins '-' b = false := by
  simp [Scan.joins]

theorem stands_word {w : String} (hw : Scan.IsWord w.toList) (line : Nat) (spaced : Bool)
    {rest : List Char} (hr : Parted rest) :
    Stands line (lead spaced ++ (w.toList ++ rest))
      ⟨rest, line, some ⟨if Scan.isOperatorName w.toList then .operator else .identifier, w, spaced,
        line⟩⟩ := by
  obtain ⟨c, cs, hcs⟩ := List.exists_cons_of_ne_nil hw.ne_nil
  have hc : Scan.isNameChar c = true := hw.first c (by rw [hcs]; rfl)
  have hl : Scan.lexeme {} c (cs ++ rest) =
      .found (if Scan.isOperatorName w.toList then .operator else .identifier) w.toList rest := by
    rw [Scan.lexeme_nameChar hc, ← List.cons_append, ← hcs, Scan.name_word hw hr]
  have hs := stands_lexeme line spaced (Scan.ne_of_isNameChar hc).1 hl (by split <;> decide)
  have happ : w.toList ++ rest = c :: (cs ++ rest) := by
    rw [hcs, List.cons_append]
  rw [String.ofList_toList] at hs
  rw [happ]
  exact hs

theorem stands_identifier {w : String} (h : IsIdentifier w) (line : Nat) (spaced : Bool)
    {rest : List Char} (hr : Parted rest) :
    Stands line (lead spaced ++ (w.toList ++ rest))
      ⟨rest, line, some ⟨.identifier, w, spaced, line⟩⟩ := by
  have hs := stands_word h.1 line spaced hr
  rw [h.2] at hs
  exact hs

theorem stands_letter {letter digit : Char} (hl : Scan.isNameChar letter = true)
    (hd : digit.isDigit = true) (line : Nat) (spaced : Bool) (rest : List Char) :
    Stands line (lead spaced ++ letter :: digit :: rest)
      ⟨digit :: rest, line, some ⟨.identifier, String.ofList [letter], spaced, line⟩⟩ := by
  apply stands_lexeme line spaced (Scan.ne_of_isNameChar hl).1
  · rw [Scan.lexeme_nameChar hl, Scan.name_letter hd hl, isOperatorName_letter]
    rfl
  · decide

theorem stands_binary (op : BinaryOp) (line : Nat) (spaced : Bool) {rest : List Char}
    (hname : op.isNamed = true → Parted rest)
    (hsign : ∀ a ∈ op.symbol.toList.getLast?, ∀ b ∈ rest.head?, Scan.joins a b = false) :
    Stands line (lead spaced ++ (op.symbol.toList ++ rest))
      ⟨rest, line, some ⟨.operator, op.symbol, spaced, line⟩⟩ := by
  have hword : Scan.IsWord op.symbol.toList → Scan.isOperatorName op.symbol.toList = true →
      op.isNamed = true → Stands line (lead spaced ++ (op.symbol.toList ++ rest))
        ⟨rest, line, some ⟨.operator, op.symbol, spaced, line⟩⟩ := by
    intro hw ho hn
    have hs := stands_word hw line spaced (hname hn)
    rw [ho] at hs
    exact hs
  cases op with
  | mul | div | add | sub | gt | lt =>
    exact stands_lexeme line spaced (by decide)
      (Scan.lexeme_sign (by decide) (fun b hb => hsign _ rfl b hb)) (by decide)
  | concat | eq | ne | ge | le =>
    exact stands_lexeme line spaced (by decide) (Scan.lexeme_signs (by decide) rest) (by decide)
  | intDiv | mod | bitAnd | bitXor | bitOr | and | xor | or =>
    apply hword
    · decide
    · decide
    · decide

/-- Reading with enough characters ahead. -/
def Reads {α : Type} (p : List Char → Reader α) (c : Cursor) (a : α) (after : Cursor) : Prop :=
  ∃ n, ∀ ahead : List Char, n ≤ ahead.length → p ahead c = .ok a after

theorem eq_of_same {α : Type} {n m : Nat} {r r' : EStateM.Result ReadError Cursor α}
    (h : Same 0 (Cursor.Below 0) n m r r') : r = r' := by
  have heq : ∀ {c c' : Cursor}, Cursor.Below 0 c c' → c = c' := by
    intro c c' hc
    rw [Cursor.Below, Cursor.below_zero] at hc
    exact hc.symm
  cases r <;> cases r'
  · obtain ⟨rfl, hr, -, -⟩ := h
    rw [heq hr]
  · exact h.elim
  · exact h.elim
  · obtain ⟨⟨rfl, -⟩, hr⟩ := h
    rw [heq hr]
    rfl

namespace Reader

def nested (ahead : List Char) : Reader Expr := expressionOf {} (operand {} ahead) ahead

theorem nested_eq_expression {c : Cursor} {ahead : List Char} (h : c.size ≤ ahead.length) :
    nested ahead c = expression {} c := by
  have hlength := c.ahead_length
  have L := lockstep_below {} 0
  have hsame : Same 0 (Cursor.Below 0) c.size c.size (nested ahead c) (expression {} c) :=
    L.expressionOf (L.operand ahead c.ahead) (by omega) (by omega) c.size c.size c c
      c.below_zero.symm (by omega) (by omega) (by omega) (by omega)
  exact eq_of_same hsame

theorem expression_of_reads {c after : Cursor} {e : Expr} (h : Reads nested c e after) :
    expression {} c = .ok e after := by
  obtain ⟨n, hn⟩ := h
  obtain ⟨long, hlong⟩ : ∃ long : List Char, long.length = max n c.size :=
    ⟨List.replicate (max n c.size) ' ', by simp⟩
  have hread := hn long (by omega)
  rwa [nested_eq_expression (by omega)] at hread

theorem reads_of_expression {c after : Cursor} {e : Expr} (h : expression {} c = .ok e after) :
    Reads nested c e after :=
  ⟨c.size, fun _ hahead => (nested_eq_expression hahead).trans h⟩

variable {d : Dialect} {c after : Cursor} {t : Token}

theorem heldOperator_none (h : ∀ t ∈ c.held, t.kind = .operator → t.text = "=") :
    heldOperator c = .ok none c := by
  have hf : c.held.filter (fun t => t.kind == .operator && t.text != "=") = none := by
    rw [Option.filter_eq_none_iff]
    intro t ht
    by_cases hk : t.kind = .operator
    · simp [h t ht hk]
    · simp [hk]
  simp only [heldOperator, run_get, hf]
  rfl

theorem heldOperator_some (h : c.held = some t) (hk : t.kind = .operator) (ht : t.text ≠ "=") :
    heldOperator c = .ok (some t.text) c := by
  have hf : c.held.filter (fun t => t.kind == .operator && t.text != "=") = some t := by
    rw [h, Option.filter_eq_some_iff]
    simp [hk, ht]
  simp only [heldOperator, run_get, hf]
  rfl

theorem accept_held {kind : TokenKind} {text : String} (h : c.holds kind text = true)
    (ha : advance d c = .ok () after) : accept d kind text c = .ok true after := by
  simp only [accept, run_get, h, if_true]
  rw [run_bind, ha]
  rfl

theorem expect_held {kind : TokenKind} {text : String} (cause : String → ReadCause)
    (h : c.holds kind text = true) (ha : advance d c = .ok () after) :
    expect d kind text cause c = .ok () after := by
  simp only [expect, run_get, h, if_true, ha]

theorem acceptKeyword_held {word : String} (h : c.holdsKeyword word = true)
    (ha : advance d c = .ok () after) : acceptKeyword d word c = .ok true after := by
  simp only [acceptKeyword, run_get, h, if_true]
  rw [run_bind, ha]
  rfl

theorem acceptKeyword_missing {word : String} (h : c.holdsKeyword word = false) :
    acceptKeyword d word c = .ok false c := by
  simp only [acceptKeyword, run_get, h, Bool.false_eq_true, if_false]
  rfl

theorem operations_end (h : ∀ t ∈ c.held, t.kind = .operator → t.text = "=") (p : Reader Expr)
    (ahead : List Char) (pending : Pending) (current : Expr) :
    operations d p ahead pending current c = .ok (pending.unwind current) c := by
  cases ahead with
  | nil => rfl
  | cons x ahead =>
    have hb : binaryOperator d c = .ok none c := by
      rw [binaryOperator, run_bind, heldOperator_none h]
      rfl
    rw [operations, run_bind, hb]
    rfl

theorem operations_operator (h : c.held = some t) (hk : t.kind = .operator) (ht : t.text ≠ "=")
    {op : BinaryOp} (hop : BinaryOp.ofText t.text = some op) (ha : advance d c = .ok () after)
    (p : Reader Expr) (x : Char) (ahead : List Char) (pending : Pending) (current : Expr) :
    operations d p (x :: ahead) pending current c =
      (p >>= operations d p ahead
        ((op, (pending.reduce op current).2) :: (pending.reduce op current).1)) after := by
  have hb : binaryOperator d c = .ok (some op) after := by
    rw [binaryOperator, run_bind, heldOperator_some h hk ht]
    simp only [hop]
    rw [run_bind, ha]
    rfl
  rw [operations, run_bind, hb]

theorem operand_plain (h : ∀ t ∈ c.held, t.kind ≠ .operator) (x : Char) (ahead : List Char) :
    operand {} (x :: ahead) c = operandOf {} (nested ahead) ahead c := by
  have hu : unaryOperator {} c = .ok none c := by
    rw [unaryOperator, run_bind, heldOperator_none (fun t ht hk => absurd hk (h t ht))]
    rfl
  rw [operand, run_bind, hu]
  rfl

theorem operand_prefixed {op : UnaryOp} (h : c.held = some t) (hk : t.kind = .operator)
    (hof : UnaryOp.ofText t.text = some op) (ha : advance d c = .ok () after) (x : Char)
    (ahead : List Char) : operand d (x :: ahead) c = (op.apply <$> operand d ahead) after := by
  have hne : ∀ text : String, UnaryOp.ofText text = none → t.text ≠ text := by
    rintro text hnone rfl
    rw [hnone] at hof
    cases hof
  have hu : unaryOperator d c = .ok (some op) after := by
    rw [unaryOperator, run_bind, heldOperator_some h hk (hne "=" (by decide))]
    simp only [hof, hne "+" (by decide), if_false]
    rw [run_bind, ha]
    rfl
  rw [operand, run_bind, hu]
  rfl

theorem operandOf_held (h : c.held = some t) (hk : t.kind ≠ .newLine) (hc : t.kind ≠ .comment)
    (e : Reader Expr) (ahead : List Char) :
    operandOf d e ahead c = (match t.kind with
      | .number => Expr.num <$> number d t
      | .identifier => variableOrCall d t.text e ahead
      | .string => do advance d; return Expr.str t.text
      | .brace => if t.text = "(" then bracket d e else fail (.expectedOperand t.text)
      | _ => fail (.expectedOperand t.text)) c := by
  have hl : c.atLineEnd = false := by simp [Cursor.atLineEnd, h, hk, hc]
  have hm : expectMore c = .ok () c := by
    simp only [expectMore, run_get, hl, Bool.false_eq_true, if_false]
    rfl
  rw [operandOf, run_bind, hm]
  obtain ⟨rest, line, _⟩ := c
  cases h
  rfl

end Reader

theorem utf8Size_nameChar {c : Char} (h : Scan.isNameChar c = true) : c.utf8Size = 1 := by
  obtain ⟨-, hu⟩ := Scan.toNat_nameChar h
  rw [Char.utf8Size, if_pos]
  rw [UInt32.le_iff_toNat_le]
  show c.toNat ≤ 127
  omega

theorem letter_utf8ByteSize {c : Char} (h : Scan.isNameChar c = true) :
    (String.ofList [c]).utf8ByteSize = 1 := by
  simp [utf8Size_nameChar h]

theorem leadingWord_identifier {name : String} (h : IsIdentifier name) :
    leadingWord name = name := by
  unfold leadingWord
  split
  · rename_i letter digit rest heq
    split
    · rename_i hd
      have hcut := h.1.cut
      rw [heq] at hcut
      cases rest <;> simp [Scan.cutName, hd] at hcut
    · rfl
  · rfl

theorem stands_name {name : String} (hn : IsName name) (hd : DigitsOnly name) (line : Nat)
    (spaced : Bool) {rest : List Char} {after : Cursor} (hr : NumberEnds rest)
    (hp : IsIdentifier name → Parted rest) (hs : Stands line rest after)
    (he : ∀ t ∈ after.held, t.kind = .number → t.spaced = true) :
    ∃ c mid, Stands line (lead spaced ++ (name.toList ++ rest)) c ∧
      c.held = some ⟨.identifier, leadingWord name, spaced, line⟩ ∧
      Reader.advance {} c = .ok () mid ∧ (mid.holds .brace "(" = true → mid = after) ∧
      Reader.gluedDigits {} (leadingWord name) mid = .ok name after := by
  rcases hn with hi | ⟨letter, digit, tail, hname, hletter, hdigit⟩
  · refine ⟨_, after, stands_identifier hi line spaced (hp hi), ?_, hs.advance _, fun _ => rfl, ?_⟩
    · rw [leadingWord_identifier hi]
    · rw [leadingWord_identifier hi]
      simp only [Reader.gluedDigits, Reader.run_get]
      cases ht : after.held with
      | none => rfl
      | some t =>
        have hglue : (decide (name.utf8ByteSize = 1) && !t.spaced && t.isDecimal &&
            !t.text.toList.contains '.') = false := by
          by_cases hk : t.kind = .number
          · simp [he t ht hk]
          · simp [Token.isDecimal, hk]
        simp only [hglue]
        rfl
  · have hword : leadingWord name = String.ofList [letter] := by
      simp [leadingWord, hname, hdigit]
    have hdigits : ∀ c ∈ digit :: tail, c.isDigit = true := by
      rintro c (_ | ⟨_, hc⟩)
      · exact hdigit
      · exact hd letter digit tail hname hdigit c hc
    have hnumber := (Spelling.digits (List.cons_ne_nil digit tail) hdigits).stands line false hr
    have hpoint : (digit :: tail).contains '.' = false := by
      apply not_contains_point
      rintro c hc rfl
      exact absurd (hdigits _ hc) (by decide)
    rw [hname, hword]
    refine ⟨_, _, stands_letter hletter hdigit line spaced (tail ++ rest), rfl,
      Stands.advance hnumber _, ?_, ?_⟩
    · intro hround
      simp [Cursor.holds, Token.is] at hround
    · have hdecimal : (Token.mk .number (String.ofList (digit :: tail)) false line).isDecimal =
          true := by
        simp [Token.isDecimal, hdigit]
      have hjoin : String.ofList [letter] ++ String.ofList (digit :: tail) = name := by
        rw [← String.toList_inj, hname]
        simp
      simp only [Reader.gluedDigits, Reader.run_get, letter_utf8ByteSize hletter, hdecimal,
        String.toList_ofList, hpoint, decide_true, Bool.not_false, Bool.and_self, if_true]
      rw [Reader.run_bind, Stands.advance hs, hjoin]
      rfl

end PartProgram
