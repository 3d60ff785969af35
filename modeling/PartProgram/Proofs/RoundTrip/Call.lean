import PartProgram.Block.Printer
import PartProgram.Proofs.RoundTrip.Operand

/-!
# Reading written variables, calls and signs

A brace behind a name belongs to it: a round one makes it a call, a square one opens the
fields of a variable. A written sign stands directly in front of its operand.
-/

set_option autoImplicit false

namespace PartProgram

namespace Reader

variable {c mid after : Cursor} {word name : String}

theorem variableOrCall_call (ha : advance {} c = .ok () mid) (hm : mid.holds .brace "(" = true)
    (e : Reader Expr) (ahead : List Char) :
    variableOrCall {} word e ahead c = (Expr.call word <$> braced {} .round e ahead) mid := by
  rw [variableOrCall, run_bind, ha]
  simp only [run_get, hm, if_true]
  rfl

theorem variableOrCall_var (ha : advance {} c = .ok () mid) (hm : mid.holds .brace "(" = false)
    (hg : gluedDigits {} word mid = .ok name after) (e : Reader Expr) (ahead : List Char) :
    variableOrCall {} word e ahead c =
      (if after.holds .fieldBrace "[" then (Expr.var name ∘ some) <$> braced {} .field e ahead
        else pure (Expr.var name none)) after := by
  rw [variableOrCall, run_bind, ha]
  simp only [run_get, hm, Bool.false_eq_true, if_false]
  rw [run_bind, hg]
  simp only [run_get]
  split
  · rfl
  · rfl

theorem operand_name {t : Token} (h : c.held = some t) (hk : t.kind = .identifier) (x : Char)
    (ahead : List Char) :
    operand {} (x :: ahead) c = variableOrCall {} t.text (nested ahead) ahead c := by
  rw [operand_plain (by rw [h]; rintro t ⟨⟩; simp [hk]),
    operandOf_held h (by simp [hk]) (by simp [hk]), hk]

end Reader

def plainFields (fields : Option Slots) : Option Slots := fields.map Expr.plainSlots

theorem plain_var (name : String) (fields : Option Slots) :
    (Expr.var name fields).plain = .var name (plainFields fields) := by
  cases fields <;> rfl

theorem text_var (name : String) (fields : Option Slots) :
    (Expr.var name fields).text.toList = name.toList ++ (Expr.fieldsText fields).toList := by
  cases fields with
  | none => simp [Expr.text, Expr.fieldsText]
  | some slots => simp [Expr.text, Expr.fieldsText]

theorem fieldsText_some (slots : Slots) :
    (Expr.fieldsText (some slots)).toList = '[' :: (slotsText slots ++ [']']) := by
  simp [Expr.fieldsText, inBraces, slotsText]

theorem text_call (name : String) (args : Slots) :
    (Expr.call name args).text.toList = name.toList ++ '(' :: (slotsText args ++ [')']) := by
  simp [Expr.text, inBraces, slotsText]

theorem reads_braced (b : Braces) {read : Expr → Expr} {slots : Slots} {line : Nat}
    (h : ∀ e, some e ∈ slots → ListedText line e.text.toList (read e)) {rest : List Char}
    {after : Cursor} (hs : Stands line rest after) {c : Cursor}
    (hu : c.unread = slotsText slots ++ (b.closing.toList ++ rest)) (hl : c.line = line) :
    Reads (fun ahead => Reader.braced {} b (Reader.nested ahead) ahead) c
      ((Slots.dropGap slots).map (Option.map read)) after := by
  obtain ⟨mid, hmid, n, hn⟩ := reads_slots b h hs
  refine ⟨n, ?_⟩
  intro ahead hahead
  simp only
  rw [Reader.braced, Reader.run_bind, hmid.next hu hl]
  exact hn ahead ahead hahead hahead

theorem reads_braced_plain (b : Braces) {slots : Slots}
    (h : ∀ e, some e ∈ slots → ExpressionText e.text.toList e.plain) (line : Nat)
    {rest : List Char} {after : Cursor} (hs : Stands line rest after) {c : Cursor}
    (hu : c.unread = slotsText slots ++ (b.closing.toList ++ rest)) (hl : c.line = line) :
    ∃ n, ∀ ahead : List Char, n ≤ ahead.length →
      Reader.braced {} b (Reader.nested ahead) ahead c = .ok (Expr.plainSlots slots) after := by
  rw [Expr.plainSlots_eq]
  exact reads_braced b (fun e he => (h e he).listedText line) hs hu hl

theorem reads_variable {name : String} (hn : IsName name) (hd : DigitsOnly name) (line : Nat)
    (spaced : Bool) {rest : List Char} {after : Cursor} (hr : NumberEnds rest)
    (hp : IsIdentifier name → Parted rest) (hs : Stands line rest after) (he : after.EndsName) :
    ∃ c, Stands line (lead spaced ++ (name.toList ++ rest)) c ∧
      c.held = some ⟨.identifier, leadingWord name, spaced, line⟩ ∧
      Reads (Reader.operand {}) c (.var name none) after := by
  obtain ⟨c, mid, hc, hheld, hadv, hround, hglue⟩ := stands_name hn hd line spaced hr hp hs
    (fun t ht => (he t ht).2.2)
  have hmid : mid.holds .brace "(" = false := by
    by_contra hm
    rw [Bool.not_eq_false] at hm
    rw [hround hm, he.not_round] at hm
    cases hm
  refine ⟨c, hc, hheld, 1, ?_⟩
  rintro (_ | ⟨x, ahead⟩) hahead
  · simp at hahead
  · rw [Reader.operand_name hheld rfl, Reader.variableOrCall_var hadv hmid hglue, he.not_field]
    rfl

theorem reads_var {name : String} {fields : Option Slots} (hn : IsName name) (hd : DigitsOnly name)
    (h : ∀ slots ∈ fields, ∀ e, some e ∈ slots → ExpressionText e.text.toList e.plain) (line : Nat)
    (spaced : Bool) {rest : List Char} {after : Cursor} (hr : Parted rest)
    (hs : Stands line rest after) (he : after.EndsName) :
    ∃ c, Stands line (lead spaced ++ ((Expr.var name fields).text.toList ++ rest)) c ∧
      c.held = some ⟨.identifier, leadingWord name, spaced, line⟩ ∧
      Reads (Reader.operand {}) c (.var name (plainFields fields)) after := by
  rw [text_var]
  cases fields with
  | none =>
    have hvar := reads_variable hn hd line spaced hr.numberEnds (fun _ => hr) hs he
    simpa [Expr.fieldsText, plainFields] using hvar
  | some slots =>
    have hopen : Stands line (lead false ++ '[' :: (slotsText slots ++ (']' :: rest)))
        ⟨slotsText slots ++ (']' :: rest), line, some ⟨.fieldBrace, "[", false, line⟩⟩ :=
      stands_lexeme line false (by decide) rfl (by decide)
    have hparted : Parted ('[' :: (slotsText slots ++ (']' :: rest))) :=
      parted_cons (by decide) (by decide) (by decide)
    obtain ⟨n, hbraced⟩ := reads_braced_plain .field (h slots rfl) line hs
      (c := ⟨slotsText slots ++ (']' :: rest), line, some ⟨.fieldBrace, "[", false, line⟩⟩) rfl rfl
    obtain ⟨c, mid, hc, hheld, hadv, hround, hglue⟩ := stands_name hn hd line spaced
      hparted.numberEnds (fun _ => hparted) hopen.close (by rintro t ⟨⟩ hk; cases hk)
    have hmid : mid.holds .brace "(" = false := by
      by_contra hm
      rw [Bool.not_eq_false] at hm
      rw [hround hm] at hm
      cases hm
    refine ⟨c, ?_, hheld, n + 1, ?_⟩
    · simpa [fieldsText_some] using hc
    · rintro (_ | ⟨x, ahead⟩) hahead
      · simp at hahead
      · rw [Reader.operand_name hheld rfl, Reader.variableOrCall_var hadv hmid hglue]
        simp only [Cursor.holds, Option.any_some, Token.is, beq_self_eq_true, Bool.and_self,
          if_true]
        rw [Reader.run_map, hbraced ahead (by simpa using hahead)]
        rfl

theorem reads_call {name : String} {args : Slots} (hn : IsIdentifier name)
    (h : ∀ e, some e ∈ args → ExpressionText e.text.toList e.plain) (line : Nat)
    (spaced : Bool) {rest : List Char} {after : Cursor} (hs : Stands line rest after) :
    ∃ c, Stands line (lead spaced ++ ((Expr.call name args).text.toList ++ rest)) c ∧
      c.held = some ⟨.identifier, name, spaced, line⟩ ∧
      Reads (Reader.operand {}) c (.call name (Expr.plainSlots args)) after := by
  have hopen : Stands line (lead false ++ '(' :: (slotsText args ++ (')' :: rest)))
      ⟨slotsText args ++ (')' :: rest), line, some ⟨.brace, "(", false, line⟩⟩ :=
    stands_lexeme line false (by decide) rfl (by decide)
  obtain ⟨n, hbraced⟩ := reads_braced_plain .round h line hs
    (c := ⟨slotsText args ++ (')' :: rest), line, some ⟨.brace, "(", false, line⟩⟩) rfl rfl
  have hparted : Parted ('(' :: (slotsText args ++ (')' :: rest))) :=
    parted_cons (by decide) (by decide) (by decide)
  have hc := stands_identifier hn line spaced hparted
  refine ⟨⟨'(' :: (slotsText args ++ (')' :: rest)), line, some ⟨.identifier, name, spaced, line⟩⟩,
    ?_, rfl, n + 1, ?_⟩
  · simpa [text_call] using hc
  · rintro (_ | ⟨x, ahead⟩) hahead
    · simp at hahead
    · rw [Reader.operand_name rfl rfl, Reader.variableOrCall_call (hopen.close.advance _) rfl,
        Reader.run_map, hbraced ahead (by simpa using hahead)]

theorem unaryText_eq (op : UnaryOp) (arg : String) :
    ∃ spaced, (unaryText op arg).toList = op.symbol.toList ++ (lead spaced ++ arg.toList) ∧
      ∀ (line : Nat) (before : Bool) (rest : List Char),
        Stands line (lead before ++ (op.symbol.toList ++ (lead spaced ++ rest)))
          ⟨lead spaced ++ rest, line, some ⟨.operator, op.symbol, before, line⟩⟩ := by
  have hname : ∀ word : String, Scan.IsWord word.toList → Scan.isOperatorName word.toList = true →
      ∀ (line : Nat) (before : Bool) (rest : List Char),
        Stands line (lead before ++ (word.toList ++ (lead true ++ rest)))
          ⟨lead true ++ rest, line, some ⟨.operator, word, before, line⟩⟩ := by
    intro word hw ho line before rest
    have hs := stands_word hw line before (parted_blank rest)
    rw [ho] at hs
    exact hs
  cases op with
  | not =>
    exact ⟨true, by simp [unaryText, UnaryOp.symbol, lead],
      hname "NOT" (by decide) (by decide)⟩
  | bitNot =>
    exact ⟨true, by simp [unaryText, UnaryOp.symbol, lead],
      hname "B_NOT" (by decide) (by decide)⟩
  | negate =>
    refine ⟨false, by simp [unaryText, UnaryOp.symbol, lead], ?_⟩
    intro line before rest
    exact stands_lexeme line before (by decide)
      (Scan.lexeme_sign (by decide) (fun b _ => joins_minus b)) (by decide)
  | toText =>
    refine ⟨false, by simp [unaryText, UnaryOp.symbol, lead], ?_⟩
    intro line before rest
    exact stands_lexeme line before (by decide) (Scan.lexeme_signs (by decide) rest) (by decide)

theorem operandText_un {op : UnaryOp} {arg : Expr} (h : OperandText arg.text.toList arg.plain)
    (hop : op = .negate → ∀ n, arg ≠ .num n) :
    OperandText (Expr.un op arg).text.toList (.un op arg.plain) := by
  intro line spaced rest after hr hs he
  obtain ⟨blank, htext, hstands⟩ := unaryText_eq op arg.text
  obtain ⟨mid, -, hmid, -, -, n, hn⟩ := h line blank rest after hr hs he
  have happly : op.apply arg.plain = .un op arg.plain := by
    cases op with
    | negate =>
      cases arg with
      | num n => exact absurd rfl (hop rfl n)
      | var name fields => cases fields <;> rfl
      | _ => rfl
    | _ => rfl
  have hc := hstands line spaced (arg.text.toList ++ rest)
  rw [Expr.text, htext, List.append_assoc, List.append_assoc]
  refine ⟨_, _, hc, rfl, .inr (.inr (.inr (.inl rfl))), n + 1, ?_⟩
  rintro (_ | ⟨x, ahead⟩) hahead
  · simp at hahead
  · have hof : UnaryOp.ofText op.symbol = some op := by cases op <;> decide
    rw [Reader.operand_prefixed (t := ⟨.operator, op.symbol, spaced, line⟩) rfl rfl hof
      (hmid.advance _), Reader.run_map, hn ahead (by simpa using hahead)]
    simp only [happly]

end PartProgram
