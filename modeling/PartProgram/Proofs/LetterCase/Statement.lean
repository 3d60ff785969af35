import PartProgram.Proofs.LetterCase.Expr
import PartProgram.Statement.Reader

/-!
# Statements in upper case

The statement that is read in a text in upper case has its names in upper case.
An instruction that is a string is the exception: it is the same in both texts.
-/

set_option autoImplicit false

namespace PartProgram

namespace Statement

abbrev upper (s : Statement) : Statement := s.rename PartProgram.upper

/-- A statement, and what is read for it in the text in upper case. -/
def FoldsTo (s s' : Statement) : Prop :=
  s' = s.upper ∨ ∃ name, s = .instruction name none ∧ s' = s

theorem FoldsTo.upper_eq {s s' : Statement} (h : s.FoldsTo s') : s'.upper = s.upper := by
  rcases h with rfl | ⟨name, -, rfl⟩
  · exact s.rename_twice upper_upper
  · rfl

end Statement

namespace Expr

theorem upper_negated (e : Expr) : e.negated.upper = e.upper.negated := by
  cases e with
  | var name fields => cases fields <;> rfl
  | _ => rfl

theorem signedWord?_upper (e : Expr) :
    e.upper.signedWord? = e.signedWord?.map (fun word => (PartProgram.upper word.1, word.2.upper)) := by
  cases e with
  | var name fields => cases fields <;> rfl
  | bin op lhs rhs =>
    cases lhs with
    | var name fields =>
      cases fields with
      | some fields => cases op <;> rfl
      | none =>
        by_cases h : name.utf8ByteSize = 1
        · cases op with
          | sub => simp [signedWord?, rename, utf8ByteSize_upper, h, upper_negated]
          | add => simp [signedWord?, rename, utf8ByteSize_upper, h]
          | _ => rfl
        · cases op with
          | add | sub => simp [signedWord?, rename, utf8ByteSize_upper, h]
          | _ => rfl
    | _ => cases op <;> rfl
  | _ => rfl

end Expr

namespace Reader

variable (d : Dialect)

section Lists

variable {α β : Type} {g : α → β} {entry : Reader α} {entry' : Reader β}

theorem folds_separated (h : FoldsBy d g entry entry') {ahead ahead' : List Char}
    (hlength : ahead'.length = ahead.length) :
    FoldsBy d (List.map g) (separated d entry ahead) (separated d entry' ahead') := by
  induction ahead generalizing ahead' with
  | nil =>
    cases List.eq_nil_of_length_eq_zero hlength
    exact h.bind (fun _ => .pure rfl)
  | cons _ ahead ih =>
    cases ahead' with
    | nil => cases hlength
    | cons _ ahead' =>
      apply h.bind
      intro first
      apply (folds_accept d .separator (by decide)).bind
      intro more
      apply Folds.ite Iff.rfl
      · exact (ih (Nat.succ.inj hlength)).bind (fun _ => .pure rfl)
      · exact .pure rfl

theorem folds_entries (h : FoldsBy d g entry entry') :
    FoldsBy d (List.map g) (entries d entry) (entries d entry') :=
  fun c => folds_separated d h (c.ahead_fold d) c

theorem folds_fieldEntries (h : FoldsBy d g entry entry') :
    FoldsBy d (List.map g) (fieldEntries d entry) (fieldEntries d entry') := by
  apply (folds_advance d).bind
  intro _
  apply (folds_entries d h).bind
  intro list
  exact (folds_expect d .fieldBrace (by decide) (fun _ _ => rfl)).bind (fun _ => .pure rfl)

theorem folds_clause (word : String) (h : FoldsBy d g entry entry') :
    FoldsBy d (Option.map g) (clause d word entry) (clause d word entry') := by
  apply (folds_acceptKeyword d word).bind
  intro found
  apply Folds.ite Iff.rfl
  · exact h.map (fun _ => rfl)
  · exact .pure rfl

end Lists

theorem folds_codeNumber : FoldsBy d id (codeNumber d) (codeNumber d) :=
  (folds_advance d).bind (fun _ => (folds_expectMore d).bind (fun _ => folds_natural d))

theorem folds_gcode : FoldsBy d Statement.upper (gcode d) (gcode d) := by
  apply (folds_codeNumber d).bind
  intro id
  apply Folds.get
  intro c
  apply Folds.ite (by rw [c.holds_fold d _ (by decide)])
  · exact (folds_fieldEntries d (folds_expression d)).bind (fun _ => .pure rfl)
  · exact .pure rfl

theorem folds_jump (direction : JumpDirection) :
    FoldsBy d Statement.upper (jump d direction) (jump d direction) := by
  apply (folds_advance d).bind
  intro _
  apply Folds.ite Iff.rfl
  · exact .pure rfl
  · exact (folds_expression d).bind (fun _ => .pure rfl)

theorem folds_literal : FoldsBy d id (literal d) (literal d) := by
  apply Folds.get
  intro c
  apply (folds_expression d).bind
  intro e
  cases e with
  | num n => exact .pure rfl
  | var name fields => cases fields <;> exact folds_fail rfl
  | _ => exact folds_fail rfl

theorem identifier_fold (c : Cursor) :
    (c.fold d).held.filter (·.kind == .identifier) =
      (c.held.filter (·.kind == .identifier)).map Token.fold := by
  cases h : c.held with
  | none => simp [Cursor.fold, h]
  | some t =>
    have hkind : t.fold.kind = t.kind := rfl
    by_cases hk : t.kind = .identifier <;> simp [Cursor.fold, h, Option.filter, hkind, hk]

theorem folds_variableType : FoldsBy d id (variableType d) (variableType d) := by
  apply Folds.get
  intro c
  have htype : ∀ t : Token, VariableType.ofText t.fold.text = VariableType.ofText t.text :=
    fun t => ofWord_congr t.upper_text_fold _
  have hheld : ((c.fold d).held.filter (·.kind == .identifier)).bind (VariableType.ofText ·.text) =
      (c.held.filter (·.kind == .identifier)).bind (VariableType.ofText ·.text) := by
    rw [identifier_fold, Option.bind_map]
    exact congrArg _ (funext htype)
  rw [hheld]
  cases (c.held.filter (·.kind == .identifier)).bind (VariableType.ofText ·.text) with
  | none => exact folds_failWith (fun _ _ => rfl)
  | some type => exact folds_advance_pure d rfl

theorem folds_stringLength (type : VariableType) :
    FoldsBy d id (stringLength d type) (stringLength d type) := by
  apply Folds.get
  intro c
  apply Folds.ite (by rw [c.holds_fold d _ (by decide)])
  · apply (folds_advance d).bind
    intro _
    apply (folds_natural d).bind
    intro length
    exact (folds_expect d .fieldBrace (by decide) (fun _ _ => rfl)).bind (fun _ => .pure rfl)
  · exact .pure rfl

theorem folds_dimensions : FoldsBy d id (dimensions d) (dimensions d) := by
  apply Folds.get
  intro c
  apply Folds.ite (by rw [c.holds_fold d _ (by decide)])
  · apply (folds_fieldEntries d (folds_natural d)).map
    intro list
    rw [List.map_id]
    rfl
  · exact .pure rfl

theorem folds_initialValue :
    FoldsBy d (Option.map Expr.upper) (initialValue d) (initialValue d) := by
  apply (folds_accept d .operator (by decide)).bind
  intro assigned
  apply Folds.ite Iff.rfl
  · exact (folds_expression d).map (fun _ => rfl)
  · exact .pure rfl

theorem folds_declaredVariable :
    FoldsBy d (DeclaredVariable.rename upper) (declaredVariable d) (declaredVariable d) := by
  apply Folds.get
  intro c
  rw [identifier_fold]
  cases h : c.held.filter (·.kind == .identifier) with
  | none => exact folds_failWith (fun _ _ => rfl)
  | some t =>
    have hkind : t.kind = .identifier := by
      simpa using (Option.filter_eq_some_iff.mp h).2
    simp only [Option.map_some, t.text_fold hkind rfl]
    apply (folds_advance d).bind
    intro _
    apply (folds_gluedDigits d t.text).bind
    intro name
    apply (folds_dimensions d).bind
    intro dimensions
    exact (folds_initialValue d).bind (fun _ => .pure rfl)

theorem folds_declaration :
    FoldsBy d (Declaration.rename upper) (declaration d) (declaration d) := by
  apply (folds_advance d).bind
  intro _
  apply (folds_expectMore d).bind
  intro _
  apply (folds_variableType d).bind
  intro type
  apply (folds_stringLength d type).bind
  intro length
  apply (folds_clause d "PHU" (folds_integer d)).bind
  intro unit
  apply (folds_clause d "LLI" (folds_literal d)).bind
  intro least
  apply (folds_clause d "ULI" (folds_literal d)).bind
  intro greatest
  apply (folds_entries d (folds_declaredVariable d)).bind
  intro declared
  apply Folds.pure
  simp [Declaration.rename]

theorem folds_variableStatement (name : String) (fields : Option Slots) :
    FoldsBy d Statement.upper (variableStatement d name fields)
      (variableStatement d (upper name) (fields.map Expr.upperSlots)) := by
  apply (folds_accept d .operator (by decide)).bind
  intro assigned
  apply Folds.ite Iff.rfl
  · exact (folds_expression d).bind (fun _ => .pure rfl)
  apply Folds.ite (by rw [Option.isSome_map])
  · exact folds_fail rfl
  rw [upper_toList]
  cases hname : name.toList with
  | nil => exact .pure rfl
  | cons letter rest =>
    cases rest with
    | nil => exact (folds_expression d).bind (fun _ => .pure rfl)
    | cons digit rest =>
      have hinteger := readInteger_toUpper 10 (digit :: rest)
      rw [List.map_cons] at hinteger
      simp only [List.map_cons, hinteger]
      apply Folds.ite (by rw [isDigit_toUpper])
      · cases readInteger 10 (digit :: rest) with
        | some n =>
          apply Folds.pure
          have hletter : upper (String.singleton letter) = String.singleton letter.toUpper := by
            rw [← String.toList_inj, upper_toList]
            simp
          rw [Statement.upper, Statement.rename, hletter]
          rfl
        | none => exact folds_fail rfl
      · exact .pure rfl

theorem FoldsBy.statement {p q : Reader Statement} (h : FoldsBy d Statement.upper p q) :
    Folds d Statement.FoldsTo p q :=
  Folds.mono h (fun _ _ => .inl)

theorem folds_assignmentOrInstruction :
    Folds d Statement.FoldsTo (assignmentOrInstruction d) (assignmentOrInstruction d) := by
  apply (folds_expression d).bind
  intro e
  cases e with
  | var name fields =>
    rw [Expr.upper, Expr.rename_var]
    exact (folds_variableStatement d name fields).statement
  | call name args => exact .pure (.inl rfl)
  | str text =>
    apply Folds.ite Iff.rfl
    · exact .pure (.inr ⟨_, rfl, rfl⟩)
    · exact folds_fail rfl
  | bin op lhs rhs =>
    have hword := (Expr.bin op lhs rhs).signedWord?_upper
    simp only [Expr.upper, Expr.rename] at hword ⊢
    rw [hword]
    cases (Expr.bin op lhs rhs).signedWord? with
    | some word => exact .pure (.inl rfl)
    | none => exact folds_fail rfl
  | _ => exact folds_fail rfl

theorem folds_forLoop : FoldsBy d (Flow.rename upper) (forLoop d) (forLoop d) := by
  apply (folds_assignmentOrInstruction d).bind
  rintro s s' (rfl | ⟨name, rfl, rfl⟩)
  · cases s with
    | assign name fields initial =>
      apply (folds_acceptKeyword d "TO").bind
      intro found
      apply Folds.ite Iff.rfl
      · apply (folds_expression d).bind
        intro last
        apply Folds.pure
        rw [Flow.rename, Expr.rename_var]
      · exact folds_fail rfl
    | _ => exact folds_fail rfl
  · exact folds_fail rfl

theorem folds_flow (keyword : FlowKeyword) :
    FoldsBy d (Flow.rename upper) (flow d keyword) (flow d keyword) := by
  apply (folds_advance d).bind
  intro _
  cases keyword with
  | ifThen | whileDo | untilTrue => exact (folds_expression d).map (fun _ => rfl)
  | forTo => exact folds_forLoop d
  | _ => exact .pure rfl

theorem folds_namedStatement (name : String) :
    Folds d Statement.FoldsTo (namedStatement d name) (namedStatement d (upper name)) := by
  have hname := upper_upper name
  have hjump : JumpDirection.ofText (upper name) = JumpDirection.ofText name := ofWord_congr hname _
  have hflow : FlowKeyword.ofText (upper name) = FlowKeyword.ofText name := ofWord_congr hname _
  unfold namedStatement
  rw [hjump, hflow, sameLetters_congr hname]
  apply Folds.ite Iff.rfl
  · exact (folds_gcode d).statement
  apply Folds.ite Iff.rfl
  · exact (folds_codeNumber d).map (fun _ => .inl rfl)
  cases JumpDirection.ofText name with
  | some direction => exact (folds_jump d direction).statement
  | none =>
    apply Folds.ite Iff.rfl
    · exact (folds_declaration d).map (fun _ => .inl rfl)
    cases FlowKeyword.ofText name with
    | some keyword => exact (folds_flow d keyword).map (fun _ => .inl rfl)
    | none => exact folds_assignmentOrInstruction d

theorem folds_statement :
    Folds d (Option.Rel Statement.FoldsTo) (statement d) (statement d) := by
  apply Folds.get
  intro c
  apply Folds.ite (by rw [c.atLineEnd_fold])
  · exact .pure .none
  cases h : c.held with
  | none =>
    simp only [Cursor.fold, h, Option.map_none]
    exact .pure .none
  | some t =>
    have hkind : t.fold.kind = t.kind := rfl
    simp only [Cursor.fold, h, Option.map_some, hkind]
    by_cases hk : t.kind = .identifier
    · simp only [if_pos hk, t.text_fold hk rfl]
      exact (folds_namedStatement d t.text).map (fun _ _ => .some)
    · simp only [if_neg hk]
      exact (folds_assignmentOrInstruction d).map (fun _ _ => .some)

end Reader

end PartProgram
