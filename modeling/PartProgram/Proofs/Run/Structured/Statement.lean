import PartProgram.Proofs.Run.Structured.Stream

/-!
# Statements in a walk

A statement that is neither a branch nor a jump does the same in a run and in a
walk, if so do the subprograms.
-/

set_option autoImplicit false

namespace PartProgram

theorem Flow.step_loop {f : Flow} (hf : (Statement.flow f).isBranch = false) (scope : Scope)
    (branches : List Branch) :
    f.step scope branches =
      if skipping branches then .ok branches else .error (.unsupportedFlow f.keyword) := by
  cases f with
  | ifThen _ | otherwise | endIf => cases hf
  | _ => rfl

namespace Exec

variable {programs : Table Program} {program : Program} {steps : Nat} {r : Run}

/-- A run and a walk end alike: with the same error, or without one and, unless the
program has ended, with the given branches open. A run that has too few steps and a
walk that is too shallow are excused. -/
def Corresponds (short shallow : Prop) (branches : List Branch)
    (x y : EStateM.Result Halt Run Unit) : Prop :=
  (short ∧ ∃ s, x = .error .exhausted s) ∨ (shallow ∧ ∃ s, y = .error .exhausted s) ∨
    (∃ halt s, x = .error halt s ∧ y = .error halt s.erase) ∨
    ∃ s, x = .ok () s ∧ y = .ok () s.erase ∧ s.control.jump = none ∧
      (s.control.stopped = true ∨ s.control.branches = branches)

variable {short shallow : Prop} {call : Program → Exec Unit}

theorem Corresponds.mono {short' shallow' : Prop} {branches : List Branch}
    {x y : EStateM.Result Halt Run Unit} (h : Corresponds short shallow branches x y)
    (hs : short → short') (hd : shallow → shallow') :
    Corresponds short' shallow' branches x y := by
  rcases h with ⟨h, hx⟩ | ⟨h, hy⟩ | h
  · exact .inl ⟨hs h, hx⟩
  · exact .inr (.inl ⟨hd h, hy⟩)
  · exact .inr (.inr h)

def CallsCorrespond (programs : Table Program) (short shallow : Prop) (steps : Nat)
    (call : Program → Exec Unit) (s : Statement) : Prop :=
  ∀ name callee, s.callee? programs = some (name, callee) → ∀ r : Run,
    skipping r.control.branches = false → r.control.jump = none → r.control.stopped = false →
      Corresponds short shallow r.control.branches (runFrom programs steps callee 0 r)
        (call callee r.erase)

theorem corresponds_of_mirrors {x : Exec Unit} (hm : Mirrors x) (hs : Along SamePlace x)
    (hj : r.control.jump = none) :
    Corresponds short shallow r.control.branches (x r) (x r.erase) := by
  rw [hm r]
  cases hx : x r with
  | error halt s => exact .inr (.inr (.inl ⟨halt, s, rfl, rfl⟩))
  | ok a s =>
    have hr := (hs r).of_ok hx
    exact .inr (.inr (.inr ⟨s, rfl, rfl, hr.2.trans hj, .inr hr.1⟩))

theorem unlessSkipping_run (body : Exec Unit) (h : skipping r.control.branches = false) :
    unlessSkipping body r = body r := by
  rw [unlessSkipping, run_get, if_neg (by simp [h])]

theorem unlessSkipping_erase (body : Exec Unit) (r : Run) :
    unlessSkipping body r.erase = body r.erase :=
  unlessSkipping_run body rfl

theorem callSubprogram_corresponds {s : Statement}
    (hcall : CallsCorrespond programs short shallow steps call s) (line : Nat) {name : String}
    {callee : Program} (hs : s.callee? programs = some (name, callee))
    (hskip : skipping r.control.branches = false) (hj : r.control.jump = none)
    (hstop : r.control.stopped = false) :
    Corresponds short shallow r.control.branches
      (callSubprogram (fun callee => runFrom programs steps callee 0) line name callee r)
      (callSubprogram call line name callee r.erase) := by
  simp only [callSubprogram, emit, run_modify]
  rw [← Run.erase_push r rfl, run_bind, run_bind]
  generalize hentered :
    { r with events := r.events.push (.enter name callee.blocks.length) } = entered
  have hbranches : entered.control.branches = r.control.branches := by rw [← hentered]
  have h := hcall name callee hs entered (by rw [hbranches, hskip])
    (by rw [← hentered]; exact hj) (by rw [← hentered]; exact hstop)
  simp only [EStateM.adaptExcept]
  rcases h with ⟨hs, s, hx⟩ | ⟨hd, s, hy⟩ | ⟨halt, s, hx, hy⟩ | ⟨s, hx, hy, hnone, hend⟩
  · rw [hx]
    exact .inl ⟨hs, s, rfl⟩
  · rw [hy]
    exact .inr (.inl ⟨hd, s, rfl⟩)
  · rw [hx, hy]
    exact .inr (.inr (.inl ⟨_, s, rfl, rfl⟩))
  · rw [hx, hy]
    simp only [run_get]
    by_cases hst : s.control.stopped = true
    · rw [if_neg (by simp [hst]), if_neg (by simp [hst])]
      exact .inr (.inr (.inr ⟨s, rfl, rfl, hnone, .inl hst⟩))
    · rw [if_pos (by simp [hst]), if_pos (by simp [hst])]
      refine .inr (.inr (.inr ⟨_, rfl, ?_, hnone, .inr ?_⟩))
      · rw [Run.erase_push s rfl]
        rfl
      · rw [← hbranches]
        exact hend.resolve_left hst

theorem instruction_corresponds (line : Nat) (name : String) (args : Option Slots)
    (hcall : CallsCorrespond programs short shallow steps call (.instruction name args))
    (hskip : skipping r.control.branches = false)
    (hj : r.control.jump = none) (hstop : r.control.stopped = false) :
    Corresponds short shallow r.control.branches
      (instruction programs (fun callee => runFrom programs steps callee 0) line name args r)
      (instruction programs call line name args r.erase) := by
  unfold instruction
  cases hframe : frameInstruction? name with
  | some replace =>
    exact corresponds_of_mirrors (mirrors_beginFrame replace) (samePlace_beginFrame replace) hj
  | none =>
    cases hp : programs.find? (upper name) with
    | none =>
      exact corresponds_of_mirrors (mirrors_emit rfl) (fun _ => leads_modify ⟨rfl, rfl⟩) hj
    | some callee =>
      dsimp only
      by_cases hargs : (args.getD []).isEmpty = true
      · rw [if_pos hargs, if_pos hargs]
        exact callSubprogram_corresponds hcall line (Statement.callee?_instruction hframe hp hargs)
          hskip hj hstop
      · rw [if_neg hargs, if_neg hargs]
        exact corresponds_of_mirrors (mirrors_orFail line _) (samePlace_passage.orFail line _) hj

theorem statement_corresponds {s : Statement}
    (hcall : CallsCorrespond programs short shallow steps call s) (line : Nat)
    (hb : s.isBranch = false) (hs : s.isJump = false)
    (hskip : skipping r.control.branches = false) (hj : r.control.jump = none)
    (hstop : r.control.stopped = false) :
    Corresponds short shallow r.control.branches
      (statement programs (fun callee => runFrom programs steps callee 0) program line s r)
      (statement programs call program line s r.erase) := by
  cases s with
  | flow f =>
    have hstep : ∀ branches, skipping branches = false →
        f.step r.state.scope branches = .error (.unsupportedFlow f.keyword) := by
      intro branches hbr
      rw [Flow.step_loop hb, if_neg (by simp [hbr])]
    have hflat : flow line f r =
        .error (.failed { line, cause := .unsupportedFlow f.keyword }) r := by
      simp only [flow, run_get, hstep _ hskip]
      rfl
    have hwalk : flow line f r.erase =
        .error (.failed { line, cause := .unsupportedFlow f.keyword }) r.erase := by
      simp only [flow, run_get, Run.erase_state, hstep r.erase.control.branches rfl]
      rfl
    exact .inr (.inr (.inl ⟨_, r, hflat, hwalk⟩))
  | jump direction target => cases hs
  | declare d =>
    simp only [statement, unlessSkipping_run _ hskip, unlessSkipping_erase]
    exact corresponds_of_mirrors (mirrors_declare line d) (samePlace_declare line d) hj
  | assign name fields value =>
    simp only [statement, unlessSkipping_run _ hskip, unlessSkipping_erase]
    exact corresponds_of_mirrors (mirrors_assign line name value) (samePlace_assign line name value)
      hj
  | gcode id args =>
    simp only [statement, unlessSkipping_run _ hskip, unlessSkipping_erase]
    exact corresponds_of_mirrors (mirrors_gcode id args) (samePlace_gcode id args) hj
  | mcode id =>
    have hid : id ≠ 17 := by simpa [Statement.isJump] using hs
    simp only [statement, unlessSkipping_run _ hskip, unlessSkipping_erase]
    exact corresponds_of_mirrors (mirrors_mcode id) (samePlace_mcode hid) hj
  | instruction name args =>
    simp only [statement, unlessSkipping_run _ hskip, unlessSkipping_erase]
    exact instruction_corresponds line name args hcall hskip hj hstop

end Exec

end PartProgram
