import PartProgram.Proofs.Lockstep.Expr
import PartProgram.Statement.Reader

/-!
# Statements in lockstep

The readers of statements agree at related positions. A statement takes a token
at least, and where the line has ended both positions find none.
-/

set_option autoImplicit false

namespace PartProgram

namespace Lockstep

variable {d : Dialect} {k : Nat} {R : Cursor → Cursor → Prop} {n m : Nat} {c c' : Cursor}
variable (L : Lockstep d k R)
include L

omit L in
theorem separated_last {α : Type} (entry : Reader α) (ahead : List Char) (first : α)
    (h : c.inLine = none) :
    (do
      if ← Reader.accept d .separator "," then
        return first :: (← Reader.separated d entry ahead)
      else return [first] : Reader (List α)) c = .ok [first] c := by
  rw [Reader.run_bind, accept_ended h (by decide)]
  rfl

theorem separated {α : Type} {F F' : Nat} {entry : Reader α} (he : Takes k R F F' entry entry)
    (ahead ahead' : List Char) (h : R c c') (hF : c.size ≤ F) (hF' : c'.size ≤ F')
    (ha : c.size ≤ ahead.length) (ha' : c'.size ≤ ahead'.length) (hn : c.size ≤ n + 1)
    (hm : c'.size ≤ m + 1) :
    Same k R n m (Reader.separated d entry ahead c) (Reader.separated d entry ahead' c') := by
  induction ahead generalizing ahead' c c' n m with
  | nil =>
    simp only [List.length_nil] at ha
    cases ahead' with
    | nil =>
      exact (he n m c c' h hF hF' hn hm).bind (fun _ _ _ h h1 h2 => Same.pure _ h h1 h2)
    | cons _ ahead' =>
      -- Nothing is left behind the entry at one position, so no comma is at the other.
      refine (he 0 (c'.size - 1) c c' h hF hF' (by omega) (by omega)).bind
        (fun first c c' h h1 h2 => ?_)
      have hc' := (L.ended h).mpr (Cursor.inLine_of_size_zero (Nat.le_zero.mp h1))
      rw [separated_last entry ahead' first hc']
      exact Same.pure _ h (by omega) (by omega)
  | cons _ ahead ih =>
    cases ahead' with
    | nil =>
      simp only [List.length_nil] at ha'
      refine (he (c.size - 1) 0 c c' h hF hF' (by omega) (by omega)).bind
        (fun first c c' h h1 h2 => ?_)
      have hc := (L.ended h).mp (Cursor.inLine_of_size_zero (Nat.le_zero.mp h2))
      rw [separated_last entry ahead first hc]
      exact Same.pure _ h (by omega) (by omega)
    | cons _ ahead' =>
      simp only [List.length_cons] at ha ha'
      refine (he (c.size - 1) (c'.size - 1) c c' h hF hF' (by omega) (by omega)).bind
        (fun first c c' h h1 h2 => ?_)
      refine (L.accept h (by decide) "," h1 h2).bind (fun more c c' h h1 h2 => ?_)
      refine Same.ite (fun _ => ?_) (fun _ => Same.pure _ h (by omega) (by omega))
      exact (ih ahead' h (by omega) (by omega) (by omega) (by omega) (by omega)
        (by omega)).bind (fun _ _ _ h h1 h2 => Same.pure _ h h1 h2)

theorem entries {α : Type} {entry : Reader α} (he : ∀ F F' : Nat, Takes k R F F' entry entry)
    (h : R c c') (hn : c.size ≤ n + 1) (hm : c'.size ≤ m + 1) :
    Same k R n m (Reader.entries d entry c) (Reader.entries d entry c') := by
  have hc := c.ahead_length
  have hc' := c'.ahead_length
  exact L.separated (he c.size c'.size) _ _ h (by omega) (by omega) (by omega) (by omega) hn hm

theorem fieldEntries {α : Type} {entry : Reader α}
    (he : ∀ F F' : Nat, Takes k R F F' entry entry) (h : R c c') (ht : c.inLine.isSome = true)
    (hn : c.size ≤ n + 1) (hm : c'.size ≤ m + 1) :
    Same k R n m (Reader.fieldEntries d entry c) (Reader.fieldEntries d entry c') := by
  refine (L.advance h ht hn hm).bind (fun _ c c' h h1 h2 => ?_)
  refine (L.entries (n := c.size) (m := c'.size) he h (by omega) (by omega)).bind
    (fun list c c' h h1 h2 => ?_)
  refine (L.expect h (by decide) "]" _ h1 h2).bind (fun _ c c' h h1 h2 => ?_)
  exact Same.pure _ h (by omega) (by omega)

theorem codeNumber (h : R c c') (ht : c.inLine.isSome = true) (hn : c.size ≤ n + 1)
    (hm : c'.size ≤ m + 1) :
    Same k R n m (Reader.codeNumber d c) (Reader.codeNumber d c') := by
  refine (L.advance h ht hn hm).bind (fun _ c c' h h1 h2 => ?_)
  refine (L.expectMore h h1 h2).bind (fun _ c c' h h1 h2 => ?_)
  exact L.natural h (by omega) (by omega)

theorem gcode (h : R c c') (ht : c.inLine.isSome = true) (hn : c.size ≤ n + 1)
    (hm : c'.size ≤ m + 1) : Same k R n m (Reader.gcode d c) (Reader.gcode d c') := by
  refine (L.codeNumber h ht hn hm).bind (fun id c c' h h1 h2 => ?_)
  simp only [Reader.run_get, L.holds h .fieldBrace (by decide)]
  refine Same.ite (fun ht => ?_) (fun _ => Same.pure _ h h1 h2)
  have ht : c.holds .fieldBrace "[" = true := by simp_all
  exact (L.fieldEntries L.expression h (Cursor.inLine_of_holds (by decide) ht) (by omega)
    (by omega)).bind (fun _ _ _ h h1 h2 => Same.pure _ h h1 h2)

theorem jump (direction : JumpDirection) (h : R c c') (ht : c.inLine.isSome = true)
    (hn : c.size ≤ n + 1) (hm : c'.size ≤ m + 1) :
    Same k R n m (Reader.jump d direction c) (Reader.jump d direction c') := by
  refine (L.advance h ht hn hm).bind (fun _ c c' h h1 h2 => ?_)
  refine Same.ite (fun _ => Same.pure _ h h1 h2) (fun _ => ?_)
  exact (L.expression_within h h1 h2).bind (fun _ _ _ h h1 h2 => Same.pure _ h h1 h2)

theorem literal (h : R c c') (hn : c.size ≤ n) (hm : c'.size ≤ m) :
    Same k R n m (Reader.literal d c) (Reader.literal d c') := by
  simp only [Reader.literal, Reader.run_get, L.found h]
  refine (L.expression_within h hn hm).bind (fun e c c' h h1 h2 => ?_)
  cases e with
  | num x => exact Same.pure _ h h1 h2
  | _ => exact L.fail h _

theorem clause {α : Type} {body : Reader α} (word : String)
    (hb : ∀ (n m : Nat) (c c' : Cursor), R c c' → c.size ≤ n → c'.size ≤ m →
      Same k R n m (body c) (body c'))
    (h : R c c') (hn : c.size ≤ n) (hm : c'.size ≤ m) :
    Same k R n m (Reader.clause d word body c) (Reader.clause d word body c') := by
  refine (L.acceptKeyword h word hn hm).bind (fun found c c' h h1 h2 => ?_)
  exact Same.ite (fun _ => (hb _ _ _ _ h h1 h2).map _) (fun _ => Same.pure _ h h1 h2)

theorem variableType (h : R c c') (hn : c.size ≤ n + 1) (hm : c'.size ≤ m + 1) :
    Same k R n m (Reader.variableType d c) (Reader.variableType d c') := by
  have hs := L.select h (fun t => t.kind == .identifier) (by intro t ht; simp [ht]) (fun _ => rfl)
  simp only [Reader.variableType, Reader.run_get, hs]
  cases hi : c.held.filter (fun t => t.kind == .identifier) with
  | none => exact L.failWith h _
  | some t =>
    obtain ⟨hc, ht⟩ := Option.filter_eq_some_iff.mp hi
    have hk : t.kind ≠ .newLine := fun hk => by simp [hk] at ht
    simp only [Option.map_some, Option.bind_some, Token.text_below]
    cases VariableType.ofText t.text with
    | none => exact L.failWith h _
    | some type => exact L.advance_held_yield _ h hc hk hn hm

theorem stringLength (type : VariableType) (h : R c c') (hn : c.size ≤ n) (hm : c'.size ≤ m) :
    Same k R n m (Reader.stringLength d type c) (Reader.stringLength d type c') := by
  simp only [Reader.stringLength, Reader.run_get, L.holds h .fieldBrace (by decide)]
  refine Same.ite (fun ht => ?_) (fun _ => Same.pure _ h hn hm)
  have ht : c.holds .fieldBrace "[" = true := by simp_all
  refine (L.advance_within h (Cursor.inLine_of_holds (by decide) ht) hn hm).bind
    (fun _ c c' h h1 h2 => ?_)
  refine (L.natural h (Nat.le_succ_of_le h1) (Nat.le_succ_of_le h2)).bind
    (fun length c c' h h1 h2 => ?_)
  refine (L.expect h (by decide) "]" _ h1 h2).bind (fun _ c c' h h1 h2 => ?_)
  exact Same.pure _ h (by omega) (by omega)

theorem dimensions (h : R c c') (hn : c.size ≤ n) (hm : c'.size ≤ m) :
    Same k R n m (Reader.dimensions d c) (Reader.dimensions d c') := by
  simp only [Reader.dimensions, Reader.run_get, L.holds h .fieldBrace (by decide)]
  refine Same.ite (fun ht => ?_) (fun _ => Same.pure _ h hn hm)
  refine (L.fieldEntries ?_ h (Cursor.inLine_of_holds (by decide) ht) (by omega) (by omega)).map _
  intro F F' n m c c' h _ _ hn hm
  exact L.natural h hn hm

theorem initialValue (h : R c c') (hn : c.size ≤ n) (hm : c'.size ≤ m) :
    Same k R n m (Reader.initialValue d c) (Reader.initialValue d c') := by
  refine (L.accept h (by decide) "=" hn hm).bind (fun found c c' h h1 h2 => ?_)
  exact Same.ite (fun _ => (L.expression_within h h1 h2).map _) (fun _ => Same.pure _ h h1 h2)

theorem declaredVariable (F F' : Nat) :
    Takes k R F F' (Reader.declaredVariable d) (Reader.declaredVariable d) := by
  intro n m c c' h _ _ hn hm
  have hs := L.select h (fun t => t.kind == .identifier) (by intro t ht; simp [ht]) (fun _ => rfl)
  simp only [Reader.declaredVariable, Reader.run_get, hs]
  cases hi : c.held.filter (fun t => t.kind == .identifier) with
  | none => exact L.failWith h _
  | some t =>
    obtain ⟨hc, ht⟩ := Option.filter_eq_some_iff.mp hi
    have hk : t.kind ≠ .newLine := fun hk => by simp [hk] at ht
    refine (L.advance_held h hc hk hn hm).bind (fun _ c c' h h1 h2 => ?_)
    refine (L.gluedDigits t.text h h1 h2).bind (fun name c c' h h1 h2 => ?_)
    refine (L.dimensions h h1 h2).bind (fun sizes c c' h h1 h2 => ?_)
    refine (L.initialValue h h1 h2).bind (fun initial c c' h h1 h2 => ?_)
    exact Same.pure _ h h1 h2

theorem declaration (h : R c c') (ht : c.inLine.isSome = true) (hn : c.size ≤ n + 1)
    (hm : c'.size ≤ m + 1) :
    Same k R n m (Reader.declaration d c) (Reader.declaration d c') := by
  refine (L.advance h ht hn hm).bind (fun _ c c' h h1 h2 => ?_)
  refine (L.expectMore h h1 h2).bind (fun _ c c' h h1 h2 => ?_)
  refine (L.variableType h (Nat.le_succ_of_le h1) (Nat.le_succ_of_le h2)).bind
    (fun type c c' h h1 h2 => ?_)
  refine (L.stringLength type h h1 h2).bind (fun length c c' h h1 h2 => ?_)
  refine (L.clause "PHU" (fun n m c c' h hn hm => L.integer h (by omega) (by omega)) h h1 h2).bind
    (fun unit c c' h h1 h2 => ?_)
  refine (L.clause "LLI" (fun n m c c' h hn hm => L.literal h hn hm) h h1 h2).bind
    (fun lower c c' h h1 h2 => ?_)
  refine (L.clause "ULI" (fun n m c c' h hn hm => L.literal h hn hm) h h1 h2).bind
    (fun upper c c' h h1 h2 => ?_)
  refine (L.entries L.declaredVariable h (Nat.le_succ_of_le h1) (Nat.le_succ_of_le h2)).bind
    (fun declared c c' h h1 h2 => ?_)
  exact Same.pure _ h h1 h2

theorem variableStatement (name : String) (fields : Option Slots) (h : R c c')
    (hn : c.size ≤ n) (hm : c'.size ≤ m) :
    Same k R n m (Reader.variableStatement d name fields c)
      (Reader.variableStatement d name fields c') := by
  refine (L.accept h (by decide) "=" hn hm).bind (fun found c c' h h1 h2 => ?_)
  refine Same.ite (fun _ => ?_) (fun _ => Same.ite (fun _ => L.fail h _) (fun _ => ?_))
  · exact (L.expression_within h h1 h2).bind (fun _ _ _ h h1 h2 => Same.pure _ h h1 h2)
  · match name.toList with
    | [] => exact Same.pure _ h h1 h2
    | [_] => exact (L.expression_within h h1 h2).bind (fun _ _ _ h h1 h2 => Same.pure _ h h1 h2)
    | letter :: digit :: rest =>
      refine Same.ite (fun _ => ?_) (fun _ => Same.pure _ h h1 h2)
      cases readInteger 10 (digit :: rest) with
      | none => exact L.fail h _
      | some x => exact Same.pure _ h h1 h2

theorem assignmentOrInstruction (h : R c c') (hn : c.size ≤ n + 1) (hm : c'.size ≤ m + 1) :
    Same k R n m (Reader.assignmentOrInstruction d c) (Reader.assignmentOrInstruction d c') := by
  refine (L.expression_at h hn hm).bind (fun e c c' h h1 h2 => ?_)
  cases e with
  | var name fields => exact L.variableStatement name fields h h1 h2
  | call name args => exact Same.pure _ h h1 h2
  | str text => exact Same.ite (fun _ => Same.pure _ h h1 h2) (fun _ => L.fail h _)
  | bin op lhs rhs =>
    dsimp only
    cases (Expr.bin op lhs rhs).signedWord? with
    | none => exact L.fail h _
    | some word => exact Same.pure _ h h1 h2
  | _ => exact L.fail h _

theorem forLoop (h : R c c') (hn : c.size ≤ n) (hm : c'.size ≤ m) :
    Same k R n m (Reader.forLoop d c) (Reader.forLoop d c') := by
  refine (L.assignmentOrInstruction h (Nat.le_succ_of_le hn) (Nat.le_succ_of_le hm)).bind
    (fun s c c' h h1 h2 => ?_)
  cases s with
  | assign name fields initial =>
    refine (L.acceptKeyword h "TO" h1 h2).bind (fun found c c' h h1 h2 => ?_)
    refine Same.ite (fun _ => ?_) (fun _ => L.fail h _)
    exact (L.expression_within h h1 h2).bind (fun _ _ _ h h1 h2 => Same.pure _ h h1 h2)
  | _ => exact L.fail h _

theorem flow (keyword : FlowKeyword) (h : R c c') (ht : c.inLine.isSome = true)
    (hn : c.size ≤ n + 1) (hm : c'.size ≤ m + 1) :
    Same k R n m (Reader.flow d keyword c) (Reader.flow d keyword c') := by
  refine (L.advance h ht hn hm).bind (fun _ c c' h h1 h2 => ?_)
  cases keyword with
  | ifThen | whileDo | untilTrue => exact (L.expression_within h h1 h2).map _
  | forTo => exact L.forLoop h h1 h2
  | _ => exact Same.pure _ h h1 h2

theorem namedStatement (name : String) (h : R c c') (ht : c.inLine.isSome = true)
    (hn : c.size ≤ n + 1) (hm : c'.size ≤ m + 1) :
    Same k R n m (Reader.namedStatement d name c) (Reader.namedStatement d name c') := by
  refine Same.ite (fun _ => L.gcode h ht hn hm) (fun _ => ?_)
  refine Same.ite (fun _ => (L.codeNumber h ht hn hm).map _) (fun _ => ?_)
  cases JumpDirection.ofText name with
  | some direction => exact L.jump direction h ht hn hm
  | none =>
    refine Same.ite (fun _ => (L.declaration h ht hn hm).map _) (fun _ => ?_)
    cases FlowKeyword.ofText name with
    | some keyword => exact (L.flow keyword h ht hn hm).map _
    | none => exact L.assignmentOrInstruction h hn hm

omit L in
theorem statement_none (h : c.atLineEnd = true) : Reader.statement d c = .ok none c := by
  simp only [Reader.statement, Reader.run_get, h, if_true]
  rfl

/-- Where the line has not ended a statement is read, which takes a token at least. -/
theorem statement_more (h : R c c') (hl : c.atLineEnd = false) (hn : c.size ≤ n + 1)
    (hm : c'.size ≤ m + 1) :
    Same k R n m (Reader.statement d c) (Reader.statement d c') := by
  rcases L.cases h with ⟨t, hk, hc, hc'⟩ | ⟨hc, -⟩
  · have ht : c.inLine.isSome = true := by simp [Cursor.inLine, hc, Option.filter, hk]
    simp only [Reader.statement, Reader.run_get, L.atLineEnd h, hl, hc, hc', Token.kind_below,
      Token.text_below, Bool.false_eq_true, if_false]
    refine Same.ite (fun _ => ?_) (fun _ => ?_)
    · exact (L.namedStatement t.text h ht hn hm).map _
    · exact (L.assignmentOrInstruction h hn hm).map _
  · rw [Cursor.atLineEnd_inLine, hc] at hl
    cases hl

theorem statement (h : R c c') (hn : c.size ≤ n + 1) (hm : c'.size ≤ m + 1) :
    (Reader.statement d c = .ok none c ∧ Reader.statement d c' = .ok none c') ∨
      Same k R n m (Reader.statement d c) (Reader.statement d c') := by
  cases hl : c.atLineEnd with
  | true => exact .inl ⟨statement_none hl, statement_none ((L.atLineEnd h).trans hl)⟩
  | false => exact .inr (L.statement_more h hl hn hm)

theorem statement_within (h : R c c') (hn : c.size ≤ n) (hm : c'.size ≤ m) :
    Same k R n m (Reader.statement d c) (Reader.statement d c') := by
  rcases L.statement h (Nat.le_succ_of_le hn) (Nat.le_succ_of_le hm) with ⟨hs, hs'⟩ | hs
  · rw [hs, hs']
    exact Same.pure _ h hn hm
  · exact hs

end Lockstep

end PartProgram
