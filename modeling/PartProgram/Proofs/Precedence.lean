import PartProgram.Proofs.Precedence.Descent
import PartProgram.Proofs.Precedence.Finding
import PartProgram.Proofs.Precedence.Reading
import PartProgram.Proofs.Shape.Expr

/-!
# Precedence of operators

The tokens of a text spell many trees, of which one at most is ranked: there no operation stands
below another one that binds tighter, and operations that bind alike are done from left to right.
That tree is what a text is read as, with a stack of waiting operands or level by level.
-/

set_option autoImplicit false

namespace PartProgram

/-- The tokens of a text up to the end of its first line or a comment there, and what ends them. -/
def FirstLine (text : String) (ts : List Token) (next : Option Token) : Prop :=
  ∃ c after, Reader.advance {} (Cursor.ofText text) = .ok () c ∧ c.Steps ts after ∧
    after.atLineEnd = true ∧ after.held = next

namespace Expr

theorem Shaped.ranked {source : List Char} {e : Expr} (h : e.Shaped source) : e.Ranked :=
  fun node hn => (h node hn).formed.inOrder

theorem parse_eq_ok {text : String} {e : Expr} :
    Expr.parse text = .ok e ↔
      ∃ after, Reader.wholeExpression {} (Cursor.ofText text) = .ok e after := by
  rw [Expr.parse]
  cases Reader.wholeExpression {} (Cursor.ofText text) with
  | ok e' after => simp
  | error error after => simp

theorem spells_of_parse {text : String} {e : Expr} (h : Expr.parse text = .ok e) :
    ∃ ts next, FirstLine text ts next ∧ Spells ts e next ∧ e.Ranked := by
  obtain ⟨last, hwhole⟩ := parse_eq_ok.mp h
  obtain ⟨_, c, ha, hrest⟩ := Reader.ok_bind hwhole
  obtain ⟨e', after, he, hend⟩ := Reader.ok_bind hrest
  simp only [Reader.run_get] at hend
  split at hend
  · rename_i hline
    cases hend
    obtain ⟨ts, hts, hspells, -⟩ := Reader.expression_ok he
    have hproper : c.Proper text.toList := Reader.advance_proper List.suffix_rfl ha
    have hshaped := (Reader.yields_expression c hproper e _ he).1
    exact ⟨ts, _, ⟨c, _, ha, hts, hline, rfl⟩, hspells, hshaped.ranked⟩
  · cases hend

theorem parse_of_spells {text : String} {ts : List Token} {next : Option Token} {e : Expr}
    (hline : FirstLine text ts next) (h : Spells ts e next) (hr : e.Ranked) :
    Expr.parse text = .ok e := by
  obtain ⟨c, after, ha, hs, hend, hn⟩ := hline
  have hoperator : ∀ t ∈ after.held, t.isOperator = false := by
    intro t ht
    have hkind : t.kind = .newLine ∨ t.kind = .comment := by
      simpa [Cursor.atLineEnd, Option.mem_def.mp ht] using hend
    rcases hkind with hk | hk <;> simp [Token.isOperator, hk]
  have hread := Reader.expression_of_reads ((h.reads hr hs hn).reads hoperator)
  apply parse_eq_ok.mpr
  refine ⟨after, ?_⟩
  rw [Reader.wholeExpression, Reader.run_bind, ha]
  simp only
  rw [Reader.run_bind, hread]
  simp only [Reader.run_get, hend, if_true]
  rfl

/-- A text is read as the ranked tree that its tokens spell. There is one such tree at most, and
level by level the text is read alike. -/
theorem parse_ranked_tree (text : String) :
    (∀ e, Expr.parse text = .ok e ↔
      ∃ ts next, FirstLine text ts next ∧ Spells ts e next ∧ e.Ranked) ∧
    (∀ ts next e e', FirstLine text ts next → Spells ts e next → e.Ranked →
      Spells ts e' next → e'.Ranked → e' = e) ∧
    Expr.descend text = Expr.parse text := by
  refine ⟨fun e => ⟨spells_of_parse, ?_⟩, ?_, descend_eq_parse text⟩
  · rintro ⟨ts, next, hline, hspells, hranked⟩
    exact parse_of_spells hline hspells hranked
  · intro ts next e e' hline hspells hranked hspells' hranked'
    have h := parse_of_spells hline hspells hranked
    rw [parse_of_spells hline hspells' hranked'] at h
    exact Except.ok.inj h

def differenceTokens : List Token :=
  [⟨.identifier, "A", false, 1⟩, ⟨.operator, "-", false, 1⟩, ⟨.identifier, "B", false, 1⟩,
    ⟨.operator, "-", false, 1⟩, ⟨.identifier, "C", false, 1⟩, ⟨.operator, "*", false, 1⟩,
    ⟨.identifier, "D", false, 1⟩]

theorem firstLine_difference : FirstLine "A-B-C*D" differenceTokens none :=
  ⟨_, _, rfl, ⟨rfl, rfl, _, rfl, rfl, rfl, _, rfl, rfl, rfl, _, rfl, rfl, rfl, _, rfl, rfl, rfl, _,
    rfl, rfl, rfl, _, rfl, rfl, rfl, _, rfl, rfl⟩, rfl, rfl⟩

theorem spells_word (name : String) {next : Option Token} (h : ∀ u ∈ next, u.kind = .operator) :
    Spells [⟨.identifier, name, false, 1⟩] (.var name none) next := by
  refine .operand (.var (.word rfl fun u hu => ?_) fun u hu => ?_)
  · simp [Token.is, Token.glues, Token.isDecimal, h u hu]
  · simp [Token.is, h u hu]

def leftDifference : Expr :=
  .bin .sub (.bin .sub (.var "A" none) (.var "B" none))
    (.bin .mul (.var "C" none) (.var "D" none))

def rightDifference : Expr :=
  .bin .sub (.var "A" none)
    (.bin .sub (.var "B" none) (.bin .mul (.var "C" none) (.var "D" none)))

theorem spells_leftDifference : Spells differenceTokens leftDifference none :=
  .bin (.bin (spells_word "A" (by simp)) (by decide) (spells_word "B" (by simp))) (by decide)
    (.bin (spells_word "C" (by simp)) (by decide) (spells_word "D" (by simp)))

theorem spells_rightDifference : Spells differenceTokens rightDifference none :=
  .bin (spells_word "A" (by simp)) (by decide)
    (.bin (spells_word "B" (by simp)) (by decide)
      (.bin (spells_word "C" (by simp)) (by decide) (spells_word "D" (by simp))))

theorem ranked_leftDifference : leftDifference.Ranked := by
  simp [Ranked, Every, leftDifference, nodes, InOrder, BinaryOp.priority]

theorem not_ranked_rightDifference : ¬ rightDifference.Ranked := by
  simp [Ranked, Every, rightDifference, nodes, InOrder, BinaryOp.priority]

/-- Of two trees that the tokens spell the ranked one is read. -/
theorem parse_ranked_tree_difference :
    FirstLine "A-B-C*D" differenceTokens none ∧ Spells differenceTokens leftDifference none ∧
      Spells differenceTokens rightDifference none ∧ leftDifference.Ranked ∧
      ¬ rightDifference.Ranked ∧ Expr.parse "A-B-C*D" = .ok leftDifference ∧
      Expr.descend "A-B-C*D" = .ok leftDifference := by
  obtain ⟨hparse, -, hdescend⟩ := parse_ranked_tree "A-B-C*D"
  have h : Expr.parse "A-B-C*D" = .ok leftDifference :=
    (hparse leftDifference).mpr
      ⟨differenceTokens, none, firstLine_difference, spells_leftDifference, ranked_leftDifference⟩
  exact ⟨firstLine_difference, spells_leftDifference, spells_rightDifference,
    ranked_leftDifference, not_ranked_rightDifference, h, hdescend.trans h⟩

end Expr

end PartProgram
