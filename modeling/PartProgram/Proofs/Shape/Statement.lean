import PartProgram.Proofs.Shape.Instruction

/-!
# The form of what is read: declarations and statements

Lengths that are read fit into their words, and the first name of a declaration is none of
the words of a clause. The dialect decides whether a G code may have arguments.
-/

set_option autoImplicit false

namespace PartProgram

namespace Reader

open PartProgram.Expr (Shaped ShapedSlots IsOperand)

variable {d : Dialect} {source : List Char} {name : String} {c after : Cursor}

theorem yields_clause {α : Type} {P : α → Prop} (word : String) {body : Reader α}
    (h : Yields source body P) :
    Yields source (clause d word body) (fun found => ∀ a ∈ found, P a) := by
  apply (yields_acceptKeyword word).bind
  intro found _
  split
  · exact h.map (by simp)
  · exact yields_pure (by simp)

theorem yields_literal : Yields source (literal d) (fun _ => True) := by
  apply yields_get
  intro c hc
  refine yields_expression.bind (fun e _ => ?_) c hc
  split
  · exact yields_pure trivial
  · exact yields_fail _

theorem yields_variableType : Yields source (variableType d) (fun _ => True) := by
  apply yields_get
  intro c hc
  split
  · exact yields_advance.bind (fun _ _ => yields_pure trivial) c hc
  · exact yields_failWith _ c hc

theorem yields_stringLength (type : VariableType) :
    Yields source (stringLength d type)
      (fun length => ∀ n ∈ length, type = .string ∧ n < 2 ^ 32) := by
  apply yields_get
  intro c hc
  split
  · rename_i hstring
    simp only [Bool.and_eq_true, decide_eq_true_eq] at hstring
    refine yields_advance.bind (fun _ _ => yields_natural.bind (fun n hn => ?_)) c hc
    exact (yields_expect _ _ _).bind (fun _ _ => yields_pure (by simpa using ⟨hstring.1, hn⟩))
  · exact yields_pure (by simp) c hc

theorem yields_dimensions :
    Yields source (dimensions d) (fun found =>
      ∀ lengths ∈ found, lengths ≠ [] ∧ ∀ n ∈ lengths, n < 2 ^ 32) := by
  apply yields_get
  intro c hc
  split
  · exact (yields_fieldEntries yields_natural).map (by simp) c hc
  · exact yields_pure (by simp) c hc

theorem yields_initialValue :
    Yields source (initialValue d) (fun found => ∀ e ∈ found, e.Shaped source) := by
  apply (yields_accept _ _).bind
  intro found _
  split
  · exact yields_expression.map (by simp)
  · exact yields_pure (by simp)

theorem yields_declaredVariable :
    Yields source (declaredVariable d) (fun v => v.Formed ∧ ∀ e ∈ v.parts, e.Shaped source) := by
  apply yields_get
  intro c hc
  split
  · rename_i t ht
    obtain ⟨hheld, hk⟩ := Option.filter_eq_some_iff.mp ht
    have hname := (hc.held t hheld).name (by simpa using hk)
    refine yields_advance.bind (fun _ _ => (yields_gluedDigits hname).bind (fun name hn => ?_)) c hc
    apply yields_dimensions.bind
    intro dimensions hdimensions
    apply yields_initialValue.bind
    intro initial hinitial
    apply yields_pure
    refine ⟨hdimensions, ?_⟩
    simp only [DeclaredVariable.parts, List.mem_cons, Option.mem_toList]
    rintro e (rfl | he)
    · exact Expr.every_var hn (by simp)
    · exact hinitial e he
  · exact yields_failWith _ c hc

theorem gluedDigits_leadingWord {name glued : String} (hn : IsIdentifier name)
    (h : gluedDigits d name c = .ok glued after) : leadingWord glued = name := by
  rw [gluedDigits, run_get] at h
  cases hheld : c.held with
  | none =>
    rw [hheld] at h
    cases h
    exact leadingWord_identifier hn
  | some t =>
    rw [hheld] at h
    simp only at h
    split at h
    · rename_i hglued
      simp only [Bool.and_eq_true, decide_eq_true_eq] at hglued
      obtain ⟨⟨⟨hsize, -⟩, hdecimal⟩, -⟩ := hglued
      obtain ⟨letter, rfl, -⟩ := letter_of_utf8ByteSize (.inl hn) hsize
      obtain ⟨digit, rest, htext, hdigit⟩ := Token.isDecimal_head hdecimal
      obtain ⟨_, mid, -, hpure⟩ := ok_bind h
      cases hpure
      simp [leadingWord, htext, hdigit]
    · cases h
      exact leadingWord_identifier hn

theorem declaredVariable_leadingWord {v : DeclaredVariable} (hc : c.Proper source)
    (h : declaredVariable d c = .ok v after) :
    ∃ t, c.held = some t ∧ t.kind = .identifier ∧ leadingWord v.name = t.text := by
  rw [declaredVariable, run_get] at h
  cases ht : c.held.filter (·.kind == .identifier) with
  | none =>
    rw [ht] at h
    cases h
  | some t =>
    rw [ht] at h
    obtain ⟨hheld, hk⟩ := Option.filter_eq_some_iff.mp ht
    have hkind : t.kind = .identifier := by simpa using hk
    obtain ⟨_, _, -, h⟩ := ok_bind h
    obtain ⟨name, _, hglued, h⟩ := ok_bind h
    obtain ⟨dimensions, _, -, h⟩ := ok_bind h
    obtain ⟨initial, _, -, h⟩ := ok_bind h
    cases h
    exact ⟨t, hheld, hkind, gluedDigits_leadingWord ((hc.held t hheld).name hkind) hglued⟩

theorem clause_missing {α : Type} {word : String} {body : Reader α}
    (h : clause d word body c = .ok none after) : after = c ∧ c.holdsKeyword word = false := by
  cases hk : c.holdsKeyword word with
  | true =>
    obtain ⟨found, mid, hfound, hrest⟩ := ok_bind h
    simp only [acceptKeyword, run_get, hk, if_true] at hfound
    obtain ⟨_, _, -, hpure⟩ := ok_bind hfound
    cases hpure
    rw [if_pos rfl] at hrest
    obtain ⟨_, -, hnone⟩ := ok_map hrest
    cases hnone
  | false =>
    obtain ⟨found, mid, hfound, hrest⟩ := ok_bind h
    rw [acceptKeyword_missing hk] at hfound
    cases hfound
    cases hrest
    exact ⟨rfl, rfl⟩

theorem entries_head {α : Type} {entry : Reader α} {list : List α}
    (h : entries d entry c = .ok list after) :
    ∃ a rest mid, list = a :: rest ∧ entry c = .ok a mid := by
  unfold entries at h
  cases hahead : c.ahead with
  | nil =>
    rw [hahead] at h
    obtain ⟨a, mid, ha, h⟩ := ok_bind h
    cases h
    exact ⟨a, [], _, rfl, ha⟩
  | cons x ahead =>
    rw [hahead] at h
    obtain ⟨a, mid, ha, h⟩ := ok_bind h
    obtain ⟨more, _, -, h⟩ := ok_bind h
    split at h
    · obtain ⟨rest, _, -, h⟩ := ok_bind h
      cases h
      exact ⟨a, rest, mid, rfl, ha⟩
    · cases h
      exact ⟨a, [], mid, rfl, ha⟩

theorem yields_declaration :
    Yields source (declaration d)
      (fun decl => decl.Formed ∧ ∀ e ∈ decl.parts, e.Shaped source) := by
  apply yields_advance.bind
  intro _ _
  apply yields_expectMore.bind
  intro _ _
  apply yields_variableType.bind
  intro type _
  apply (yields_stringLength type).bind
  intro length hlength c hc decl after h
  obtain ⟨unit, cl, hunit, h⟩ := ok_bind h
  obtain ⟨lower, cu, hlower, h⟩ := ok_bind h
  obtain ⟨upper, cn, hupper, h⟩ := ok_bind h
  obtain ⟨declared, last, hdeclared, h⟩ := ok_bind h
  cases h
  obtain ⟨hu, hcl⟩ := yields_clause "PHU" yields_integer c hc unit cl hunit
  obtain ⟨-, hcu⟩ := yields_clause "LLI" yields_literal cl hcl lower cu hlower
  obtain ⟨-, hcn⟩ := yields_clause "ULI" yields_literal cu hcu upper cn hupper
  obtain ⟨⟨-, hvariables⟩, hlast⟩ :=
    yields_entries yields_declaredVariable cn hcn declared _ hdeclared
  obtain ⟨v, vs, mid, rfl, hfirst⟩ := entries_head hdeclared
  obtain ⟨t, hheld, hkind, hword⟩ := declaredVariable_leadingWord hcn hfirst
  have hnot {word : String} (hk : cn.holdsKeyword word = false) :
      sameLetters (leadingWord v.name) word = false := by
    simpa [Cursor.holdsKeyword, hheld, Token.isKeyword, hkind, hword] using hk
  refine ⟨⟨⟨hlength, hu, ⟨v, vs, rfl, ?_⟩, fun v hv => (hvariables v hv).1⟩, ?_⟩, hlast⟩
  · constructor
    · rintro rfl
      obtain ⟨rfl, hk⟩ := clause_missing hupper
      exact hnot hk
    · rintro rfl rfl
      obtain ⟨rfl, -⟩ := clause_missing hupper
      obtain ⟨rfl, hk⟩ := clause_missing hlower
      exact hnot hk
    · rintro rfl rfl rfl
      obtain ⟨rfl, -⟩ := clause_missing hupper
      obtain ⟨rfl, -⟩ := clause_missing hlower
      obtain ⟨rfl, hk⟩ := clause_missing hunit
      exact hnot hk
  · intro e he
    obtain ⟨v, hv, hev⟩ := List.mem_flatMap.mp he
    exact (hvariables v hv).2 e hev

theorem yields_namedStatement (name : String) :
    Yields source (namedStatement d name) (Statement.Shaped d source) := by
  unfold namedStatement
  split
  · exact yields_gcode
  split
  · exact yields_codeNumber.map
      (fun id hid => ⟨hid, by simp [Statement.expressions, Statement.parts]⟩)
  split
  · exact yields_jump _
  split
  · exact yields_declaration.map (fun decl hdecl => hdecl)
  split
  · exact (yields_flow _).map (fun f hf => hf)
  · exact yields_assignmentOrInstruction

theorem yields_statement :
    Yields source (statement d) (fun found => ∀ s ∈ found, s.Shaped d source) := by
  apply yields_get
  intro c hc
  split
  · exact yields_pure (by simp) c hc
  split
  · split
    · exact (yields_namedStatement _).map (by simp) c hc
    · exact yields_assignmentOrInstruction.map (by simp) c hc
  · exact yields_pure (by simp) c hc

end Reader

end PartProgram
