import PartProgram.Expr.Value
import PartProgram.Proofs.Lines
import PartProgram.Proofs.RoundTrip.Block
import PartProgram.Proofs.SignedWord.Preceded

/-!
# Signed address words

A letter with a sign behind it, as in `X-5`, is first read as a sum or difference and then taken
apart at the outermost operation. The value is then what the rest of the text is read as when it
stands alone.
-/

set_option autoImplicit false

namespace PartProgram

namespace Expr

variable {op : BinaryOp} {e : Expr} {name : String}

def behindSign (op : BinaryOp) (e : Expr) : Expr := if op = .sub then e.negated else e

theorem evaluate_negated (scope : Scope) (e : Expr) :
    e.negated.evaluate scope = (un .negate e).evaluate scope := by
  cases e <;> rfl

theorem evaluate_behindSign (scope : Scope) (op : BinaryOp) (e : Expr) :
    (behindSign op e).evaluate scope =
      (if op = .sub then un .negate e else e).evaluate scope := by
  unfold behindSign
  split
  · exact evaluate_negated scope e
  · rfl

theorem priority_sign (hop : op = .add ∨ op = .sub) : op.priority = 9 := by
  rcases hop with rfl | rfl <;> rfl

theorem signedWord?_tight (hop : op = .add ∨ op = .sub) (hname : name.utf8ByteSize = 1)
    (h : 10 ≤ e.tightness) :
    (preceded op (var name none) e).signedWord? = some (name, behindSign op e) := by
  have hpriority := priority_sign hop
  rw [preceded_tight (by omega)]
  rcases hop with rfl | rfl <;> simp [signedWord?, behindSign, hname]

theorem signedWord?_loose (hop : op = .add ∨ op = .sub) (h : e.tightness < 10) :
    (preceded op (var name none) e).signedWord? = none := by
  have hpriority := priority_sign hop
  cases e with
  | bin top a b =>
    have hle : top.priority ≤ op.priority := by
      rw [tightness] at h
      omega
    obtain ⟨top', a', b', hlhs⟩ := exists_preceded_eq_bin op (var name none) a
    rw [preceded, if_pos hle, hlhs]
    cases top <;> rfl
  | _ => simp [tightness] at h

end Expr

theorem isReserved_letter {letter : Char} (hg : letter.toUpper ≠ 'G') (hm : letter.toUpper ≠ 'M') :
    isReserved (String.ofList [letter]) = false := by
  simp [isReserved, sameLetters, JumpDirection.ofText, JumpDirection.all, JumpDirection.suffix,
    FlowKeyword.ofText, FlowKeyword.all, FlowKeyword.word, ofWord, hg, hm]

/-- Reading stands at a word, and the text follows it. -/
structure Cursor.InFront (word : String) (rest : List Char) (c : Cursor) : Prop where
  held : ∃ t, c.held = some t ∧ t.kind = .identifier ∧ t.text = word
  unread : c.unread = rest
  counted : 1 ≤ c.line

namespace Reader

variable {c mid after : Cursor} {e : Expr} {op : BinaryOp}

theorem expression_preceded {word sign : Token} (hs : c.Steps [word, sign] mid)
    (hk : word.kind = .identifier) (hop : sign.binary? = some op)
    (he : expression {} mid = .ok e after) (hr : e.Ranked) :
    expression {} c = .ok (Expr.preceded op (.var word.text none) e) after := by
  obtain ⟨ts, hts, hspells, hend⟩ := expression_ok he
  have hkind : sign.kind = .operator :=
    (Token.isOperator_iff.mp (Token.binary_iff.mp hop).1).1
  have hword : Spells [word] (.var word.text none) (some sign) := by
    refine .operand (.var (.word hk ?_) ?_)
    · rintro _ ⟨⟩
      simp [Token.is, Token.glues, Token.isDecimal, hkind]
    · rintro _ ⟨⟩
      simp [Token.is, hkind]
  have hranked : (Expr.preceded op (.var word.text none) e).Ranked :=
    Expr.ranked_preceded op (Expr.every_leaf rfl trivial) rfl hr
  have hall := hword.preceded hop hspells hr
  exact expression_of_reads ((hall.reads hranked (hs.append hts) rfl).reads hend)

theorem assignmentOrInstruction_bin {top : BinaryOp} {a b : Expr}
    (h : expression {} c = .ok (.bin top a b) after) :
    assignmentOrInstruction {} c = match (Expr.bin top a b).signedWord? with
      | some (name, value) => .ok (.assign name none value) after
      | none => .error ⟨after.errorLine, .expectedAssignmentOrInstruction⟩ after := by
  rw [assignmentOrInstruction, run_bind, h]
  simp only
  cases (Expr.bin top a b).signedWord? <;> rfl

end Reader

section Sign

variable {op : BinaryOp}

theorem stands_sign (hop : op = .add ∨ op = .sub) (line : Nat) (rest : List Char) :
    Stands line (op.symbol.toList ++ rest)
      ⟨rest, line, some ⟨.operator, op.symbol, false, line⟩⟩ := by
  rcases hop with rfl | rfl
  · exact (stands_binary .add line false (by simp [BinaryOp.isNamed, BinaryOp.symbol])
      (by simp [BinaryOp.symbol, Scan.joins])).close
  · exact (stands_binary .sub line false (by simp [BinaryOp.isNamed, BinaryOp.symbol])
      (by simp [BinaryOp.symbol, Scan.joins])).close

theorem parted_sign (hop : op = .add ∨ op = .sub) (rest : List Char) :
    Parted (op.symbol.toList ++ rest) := by
  rcases hop with rfl | rfl <;> exact parted_cons (by decide) (by decide) (by decide)

theorem stands_letter_sign {letter : Char} (hletter : Scan.isNameChar letter = true)
    (hop : op = .add ∨ op = .sub) (text : String) :
    ∃ c, Stands 1 (String.ofList [letter] ++ op.symbol ++ text).toList c ∧ c.line = 1 ∧
      c.InFront (String.ofList [letter]) (op.symbol.toList ++ text.toList) := by
  have hs := stands_identifier (isIdentifier_letter hletter) 1 false
    (parted_sign hop text.toList)
  have htext : (String.ofList [letter] ++ op.symbol ++ text).toList =
      (String.ofList [letter]).toList ++ (op.symbol.toList ++ text.toList) := by simp
  rw [htext]
  exact ⟨_, hs.close, rfl, ⟨_, rfl, rfl, rfl⟩, rfl, Nat.le_refl 1⟩

end Sign

theorem Token.binary?_symbol (op : BinaryOp) (spaced : Bool) (line : Nat) :
    Token.binary? ⟨.operator, op.symbol, spaced, line⟩ = some op := by
  have hof : BinaryOp.ofText op.symbol = some op := by cases op <;> decide
  have hne : op.symbol ≠ "=" := by cases op <;> decide
  exact binary_iff.mpr ⟨isOperator_iff.mpr ⟨rfl, hne⟩, hof⟩

namespace Reader

variable {c : Cursor} {e : Expr} {op : BinaryOp} {letter : Char} {text : String}

theorem expression_signed (hop : op = .add ∨ op = .sub) (ho : OneLine text)
    (he : Expr.parse text = .ok e) {word : String}
    (hc : c.InFront word (op.symbol.toList ++ text.toList)) :
    expression {} c = .ok (Expr.preceded op (.var word none) e) ⟨[], c.line, none⟩ := by
  obtain ⟨⟨t, hheld, hk, rfl⟩, hunread, hline⟩ := hc
  obtain ⟨start, hstart, hread⟩ := Expr.reads_oneLine ho he hline
  obtain ⟨-, -, -, -, hranked⟩ := Expr.spells_of_parse he
  have hsign := (stands_sign hop c.line text.toList).advance c.held
  have hadvance : advance {} c =
      .ok () ⟨text.toList, c.line, some ⟨.operator, op.symbol, false, c.line⟩⟩ := by
    rw [← hunread] at hsign
    exact hsign
  have hfirst := steps_advance hheld (by simp [hk]) (by simp [hk]) hadvance
  have hsecond : Cursor.Steps ⟨text.toList, c.line, some ⟨.operator, op.symbol, false, c.line⟩⟩
      [⟨.operator, op.symbol, false, c.line⟩] start :=
    steps_advance rfl (by simp) (by simp) (hstart.advance _)
  exact expression_preceded (hfirst.append hsecond) hk (Token.binary?_symbol op _ _) hread hranked

theorem assignmentOrInstruction_signed (hletter : Scan.isNameChar letter = true)
    (hop : op = .add ∨ op = .sub) (ho : OneLine text) (he : Expr.parse text = .ok e)
    (hc : c.InFront (String.ofList [letter]) (op.symbol.toList ++ text.toList)) :
    assignmentOrInstruction {} c =
      if 10 ≤ e.tightness then
        .ok (.assign (String.ofList [letter]) none (Expr.behindSign op e)) ⟨[], c.line, none⟩
      else .error ⟨c.line, .expectedAssignmentOrInstruction⟩ ⟨[], c.line, none⟩ := by
  have hread := expression_signed hop ho he hc
  obtain ⟨top, a, b, htree⟩ :=
    Expr.exists_preceded_eq_bin op (.var (String.ofList [letter]) none) e
  rw [htree] at hread
  rw [assignmentOrInstruction_bin hread, ← htree]
  by_cases htight : 10 ≤ e.tightness
  · rw [if_pos htight, Expr.signedWord?_tight hop (letter_utf8ByteSize hletter) htight]
  · rw [if_neg htight, Expr.signedWord?_loose hop (Nat.lt_of_not_le htight)]
    rfl

theorem statement_free {t : Token} (hc : c.held = some t) (hk : t.kind = .identifier)
    (hfree : isReserved t.text = false) :
    statement {} c = (some <$> assignmentOrInstruction {}) c := by
  have hline : c.atLineEnd = false := by simp [Cursor.atLineEnd, hc, hk]
  simp only [statement, run_get, hline, hc, hk, namedStatement_free hfree, Bool.false_eq_true,
    if_false, if_true]

theorem statement_signed (hletter : Scan.isNameChar letter = true)
    (hfree : isReserved (String.ofList [letter]) = false)
    (hop : op = .add ∨ op = .sub) (ho : OneLine text) (he : Expr.parse text = .ok e)
    (hc : c.InFront (String.ofList [letter]) (op.symbol.toList ++ text.toList)) :
    statement {} c =
      if 10 ≤ e.tightness then
        .ok (some (.assign (String.ofList [letter]) none (Expr.behindSign op e)))
          ⟨[], c.line, none⟩
      else .error ⟨c.line, .expectedAssignmentOrInstruction⟩ ⟨[], c.line, none⟩ := by
  obtain ⟨t, hheld, hk, hword⟩ := hc.held
  rw [statement_free hheld hk (by rw [hword]; exact hfree), run_map,
    assignmentOrInstruction_signed hletter hop ho he hc]
  by_cases htight : 10 ≤ e.tightness
  · rw [if_pos htight, if_pos htight]
  · rw [if_neg htight, if_neg htight]

end Reader

namespace Program

variable {c : Cursor} {text : String}

theorem parse_statement {s : Statement} (hc : Stands 1 text.toList c)
    (hs : Reader.statement {} c = .ok (some s) ⟨[], 1, none⟩) (hn : ¬ s.IsNumber) :
    parse {} text = .ok ⟨[{ line := 1, statements := [s] }]⟩ := by
  have hstops : Cursor.Stops ⟨[], 1, none⟩ := ⟨rfl, by rintro t ⟨⟩, by rintro t ⟨⟩⟩
  have hbody : ReadsBody (some s) ⟨[], 1, none⟩ [] [s] ⟨[], 1, none⟩ :=
    ⟨some s, _, Reader.labels_none rfl, Reader.statements_more (Reader.remaining_stop hstops)⟩
  have hnumber := @blockNumber_none (some s) (by rintro _ ⟨⟩; exact hn) ⟨[], 1, none⟩
  have hcontent := Reader.blockContent_plain hs hnumber (Reader.blockBody_reads hbody rfl 1 none)
  rw [parse_ok_iff]
  exact blocksAt_of_last (Reader.nextBlock_final hc hcontent (by simp)) rfl

theorem parse_failed {t : Token} {error : ReadError} {after : Cursor}
    (hc : Stands 1 text.toList c) (ht : c.held = some t) (hk : t.kind ≠ .newLine)
    (hs : Reader.statement {} c = .error error after) : parse {} text = .error error := by
  have hblock : Reader.nextBlock {} ⟨text.toList, 1, none⟩ = .error error after := by
    rw [nextBlock_start {} rfl, Reader.run_bind, hc]
    simp only [Reader.heldBlock, Reader.run_get, ht, hk, if_false]
    rw [Reader.run_map, Reader.blockFrom, Reader.run_bind, Reader.blockContent]
    simp only [Reader.run_get]
    rw [Reader.run_bind, hs]
  rw [parse_error_iff]
  exact blocksAt_of_error hblock

end Program

/-- A letter with a sign and a text behind it assigns the signed value of the text to the letter,
if no operator of the text outside brackets and lists binds less tight than a product. Otherwise it
is no statement. Where a block begins the letter `N` gives the number of the block instead. -/
theorem parse_signed_word (letter : Char) (hletter : Scan.isNameChar letter = true)
    (hg : letter.toUpper ≠ 'G') (hm : letter.toUpper ≠ 'M') (op : BinaryOp)
    (hop : op = .add ∨ op = .sub) (text : String) (ho : OneLine text) (e : Expr)
    (he : Expr.parse text = .ok e) :
    let word := String.ofList [letter]
    ((∀ top ∈ e.outerOperators, 10 ≤ top.priority) → ∃ value,
      (∀ scope, value.evaluate scope =
        (if op = .sub then Expr.un .negate e else e).evaluate scope) ∧
      (∀ c : Cursor, c.InFront word (op.symbol.toList ++ text.toList) →
        Reader.statement {} c = .ok (some (.assign word none value)) ⟨[], c.line, none⟩) ∧
      (letter.toUpper ≠ 'N' → Program.parse {} (word ++ op.symbol ++ text) =
        .ok ⟨[{ line := 1, statements := [.assign word none value] }]⟩)) ∧
    ((∃ top ∈ e.outerOperators, top.priority < 10) →
      (∀ c : Cursor, c.InFront word (op.symbol.toList ++ text.toList) →
        Reader.statement {} c =
          .error ⟨c.line, .expectedAssignmentOrInstruction⟩ ⟨[], c.line, none⟩) ∧
      Program.parse {} (word ++ op.symbol ++ text) =
        .error ⟨1, .expectedAssignmentOrInstruction⟩) := by
  intro word
  obtain ⟨-, -, -, -, hranked⟩ := Expr.spells_of_parse he
  have hstatement := fun (c : Cursor) (hc : c.InFront word (op.symbol.toList ++ text.toList)) =>
    Reader.statement_signed hletter (isReserved_letter hg hm) hop ho he hc
  -- The whole text is read from the letter on.
  obtain ⟨start, hstands, hline, hfront⟩ := stands_letter_sign hletter hop text
  have hfirst := hstatement start hfront
  rw [hline] at hfirst
  constructor
  · intro htight
    have htight := (Expr.outerOperators_tight_iff hranked (by decide)).mp htight
    simp only [htight, if_true] at hstatement hfirst
    refine ⟨Expr.behindSign op e, fun scope => Expr.evaluate_behindSign scope op e, hstatement, ?_⟩
    intro hn
    apply Program.parse_statement hstands hfirst
    simp [Statement.IsNumber, sameLetters, hn]
  · rintro ⟨top, htop, hlow⟩
    have hloose : ¬ 10 ≤ e.tightness := by
      have hle := Expr.tightness_le_priority hranked htop
      omega
    simp only [hloose, if_false] at hstatement hfirst
    obtain ⟨t, hheld, hk, -⟩ := hfront.held
    exact ⟨hstatement, Program.parse_failed hstands hheld (by simp [hk]) hfirst⟩

theorem FirstLine.parse_pair {text : String} {op : BinaryOp}
    (h : FirstLine text [⟨.identifier, "A", false, 1⟩, ⟨.operator, op.symbol, false, 1⟩,
      ⟨.identifier, "B", false, 1⟩] none) :
    Expr.parse text = .ok (.bin op (.var "A" none) (.var "B" none)) := by
  have hlt := Expr.priority_lt op
  have hranked : (Expr.bin op (.var "A" none) (.var "B" none)).Ranked :=
    Expr.every_bin (Expr.inOrder_bin.mpr ⟨hlt.le, hlt⟩) (Expr.every_leaf rfl trivial)
      (Expr.every_leaf rfl trivial)
  exact Expr.parse_of_spells h (.bin (Expr.spells_word "A" (by simp))
    (Token.binary?_symbol op _ _) (Expr.spells_word "B" (by simp))) hranked

theorem parse_product : Expr.parse "A*B" = .ok (.bin .mul (.var "A" none) (.var "B" none)) :=
  FirstLine.parse_pair ⟨_, _, rfl, ⟨rfl, rfl, _, rfl, rfl, rfl, _, rfl, rfl, rfl, _, rfl, rfl⟩,
    rfl, rfl⟩

theorem parse_sum : Expr.parse "A+B" = .ok (.bin .add (.var "A" none) (.var "B" none)) :=
  FirstLine.parse_pair ⟨_, _, rfl, ⟨rfl, rfl, _, rfl, rfl, rfl, _, rfl, rfl, rfl, _, rfl, rfl⟩,
    rfl, rfl⟩

theorem parse_signed_word_pair :
    (∃ value, (∀ scope, value.evaluate scope =
        (Expr.un .negate (.bin .mul (.var "A" none) (.var "B" none))).evaluate scope) ∧
      Program.parse {} "X-A*B" = .ok ⟨[{ line := 1, statements := [.assign "X" none value] }]⟩) ∧
    Program.parse {} "X-A+B" = .error ⟨1, .expectedAssignmentOrInstruction⟩ := by
  constructor
  · obtain ⟨value, hvalue, -, hparse⟩ := (parse_signed_word 'X' (by decide) (by decide) (by decide)
      .sub (.inr rfl) "A*B" (by decide) _ parse_product).1
      (by simp [Expr.outerOperators, BinaryOp.priority])
    exact ⟨value, hvalue, hparse (by decide)⟩
  · exact ((parse_signed_word 'X' (by decide) (by decide) (by decide) .sub (.inr rfl) "A+B"
      (by decide) _ parse_sum).2 (by simp [Expr.outerOperators, BinaryOp.priority])).2

end PartProgram
