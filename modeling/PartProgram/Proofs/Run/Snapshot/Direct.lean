import PartProgram.Proofs.Run.Execution
import PartProgram.Proofs.Run.Structured.Statement

/-!
# Direct statements

What a statement does that calls no subprogram, sets no frame and declares nothing: it
notes a coordinate or leaves alone all that a motion depends on.
-/

set_option autoImplicit false

namespace PartProgram

namespace Statement

/-- A statement that has to do neither with subprograms, frames, declarations and branches nor
with a dwell. -/
def isDirect (programs : Table Program) : Statement → Bool
  | assign .. | mcode _ | jump .. => true
  | gcode id _ => id != 4
  | instruction name args =>
    ((instruction name args).callee? programs).isNone && !(instruction name args).beginsFrame
  | declare _ | flow _ => false

def upToEnd : List Statement → List Statement
  | [] => []
  | st :: rest => st :: if st.endsProgram then [] else upToEnd rest

end Statement

namespace Exec

variable {programs : Table Program} {call : Program → Exec Unit} {program : Program}
  {line : Nat} {r s t : Run}

/-- What a direct statement leaves alone. It reports no motion. -/
structure Keeps (r s : Run) : Prop where
  machine : s.state.machine = r.state.machine
  frame : s.state.frame = r.state.frame
  framing : s.control.framing = r.control.framing
  waiting : s.control.waiting = r.control.waiting
  branches : s.control.branches = r.control.branches
  events : ∃ told, s.events.toList = r.events.toList ++ told ∧ ∀ e ∈ told, e.isMotion = false

theorem Keeps.quiet (hm : s.state.machine = r.state.machine) (hf : s.state.frame = r.state.frame)
    (hframing : s.control.framing = r.control.framing)
    (hwaiting : s.control.waiting = r.control.waiting)
    (hbranches : s.control.branches = r.control.branches) (he : s.events = r.events) :
    Keeps r s :=
  ⟨hm, hf, hframing, hwaiting, hbranches, [], by simp [he], by simp⟩

theorem Keeps.report {e : Event} (he : e.isMotion = false) : Keeps r (r.report e) :=
  ⟨rfl, rfl, rfl, rfl, rfl, [e], Array.toList_push, by simpa using he⟩

theorem keeps_passage : Passage Keeps where
  refl _ := .quiet rfl rfl rfl rfl rfl rfl
  trans := by
    rintro r s t ⟨h1, h2, h3, h4, h5, first, h6, h7⟩ ⟨h1', h2', h3', h4', h5', second, h6', h7'⟩
    refine ⟨h1'.trans h1, h2'.trans h2, h3'.trans h3, h4'.trans h4, h5'.trans h5,
      first ++ second, ?_, ?_⟩
    · rw [h6', h6, List.append_assoc]
    · intro e he
      rcases List.mem_append.mp he with he | he
      · exact h7 e he
      · exact h7' e he

/-- What an assignment outside a frame does: it notes a coordinate, a centre or the radius, or
sets a variable that is no axis. -/
inductive Writes (name : String) (x : Float) (r s : Run) : Prop where
  | notes (scope : s.state.scope = r.state.scope)
    (motion : s.control.motion = some ((r.control.motion.getD {}).write
      (r.state.machine.isTemporary name) (r.state.scope.canonical name)
      (r.state.scope.getD (r.state.scope.canonical name)) x))
  | sets (other : r.state.machine.isCoordinate name = false)
    (scope : s.state.scope = r.state.scope.set name x)
    (motion : s.control.motion = r.control.motion)

structure Performs (st : Statement) (r s : Run) : Prop where
  keeps : Keeps r s
  stopped : s.control.stopped = (r.control.stopped || st.endsProgram)
  writes : (∃ name fields value x, st = .assign name fields value ∧
      r.state.assigned r.control.framing name value = .ok x ∧ Writes name x r s) ∨
    ((∀ name fields value, st ≠ .assign name fields value) ∧
      s.state.scope = r.state.scope ∧ s.control.motion = r.control.motion)

theorem assign_performs (hf : r.control.framing = false) (hw : r.control.waiting = false)
    {name : String} {fields : Option Slots} {value : Expr}
    (h : assign line name value r = .ok () s) : Performs (.assign name fields value) r s := by
  simp only [assign, run_get, hf, hw, Bool.false_eq_true, if_false, Bool.false_and] at h
  obtain ⟨x, hx, h⟩ := orFail_bind_ok h
  have hsome : ∀ w : Writes name x r s, ∃ name' fields' value' x',
      Statement.assign name fields value = .assign name' fields' value' ∧
        r.state.assigned r.control.framing name' value' = .ok x' ∧ Writes name' x' r s :=
    fun w => ⟨name, fields, value, x, rfl, hf ▸ hx, w⟩
  by_cases hn : (r.state.machine.isTemporary name ||
      r.state.machine.isCoordinateOrCenter name) = true
  · rw [if_pos hn] at h
    cases h
    exact ⟨.quiet rfl rfl rfl rfl rfl rfl, by simp [Statement.endsProgram],
      .inl (hsome (.notes rfl rfl))⟩
  · rw [if_neg hn] at h
    cases h
    refine ⟨.quiet rfl rfl rfl rfl rfl rfl, by simp [Statement.endsProgram],
      .inl (hsome (.sets ?_ rfl rfl))⟩
    simp only [Machine.isCoordinateOrCenter, Bool.or_eq_true, not_or] at hn
    simpa using hn.2.1

theorem gcode_performs {id : Nat} {args : Option (List Expr)} (hid : id ≠ 4)
    (h : gcode id args r = .ok () s) : Performs (.gcode id args) r s := by
  have hnone : ∀ name fields value, Statement.gcode id args ≠ .assign name fields value := by simp
  have hgo : r.control.stopped = (r.control.stopped || false) := by simp
  unfold gcode at h
  split at h
  case h_5 => exact absurd rfl hid
  case h_10 =>
    cases h
    exact ⟨.report rfl, hgo, .inr ⟨hnone, rfl, rfl⟩⟩
  all_goals
    cases h
    exact ⟨.quiet rfl rfl rfl rfl rfl rfl, hgo, .inr ⟨hnone, rfl, rfl⟩⟩

theorem mcode_performs {id : Nat} (h : mcode id r = .ok () s) : Performs (.mcode id) r s := by
  have hnone : ∀ name fields value, Statement.mcode id ≠ .assign name fields value := by simp
  by_cases hend : (id = 2 || id = 30) = true
  · rw [mcode, if_pos hend] at h
    cases h
    have hkeeps : Keeps r r.ended :=
      ⟨rfl, rfl, rfl, rfl, rfl, [.ended], r.toList_ended, by simp [Event.isMotion]⟩
    have hends : (Statement.mcode id).endsProgram = true := by
      simpa [Statement.endsProgram] using hend
    exact ⟨hkeeps, by simp [hends], .inr ⟨hnone, rfl, rfl⟩⟩
  · have hends : (Statement.mcode id).endsProgram = false := by
      simpa [Statement.endsProgram] using hend
    have hgo : r.control.stopped = (r.control.stopped || (Statement.mcode id).endsProgram) := by
      simp [hends]
    rw [mcode, if_neg hend] at h
    split at h
    · cases h
      exact ⟨.quiet rfl rfl rfl rfl rfl rfl, hgo, .inr ⟨hnone, rfl, rfl⟩⟩
    · cases h
      exact ⟨.report rfl, hgo, .inr ⟨hnone, rfl, rfl⟩⟩

theorem statement_performs {st : Statement} (hd : st.isDirect programs = true)
    (hf : r.control.framing = false) (hw : r.control.waiting = false)
    (hskip : skipping r.control.branches = false)
    (h : statement programs call program line st r = .ok () s) : Performs st r s := by
  cases st with
  | assign name fields value =>
    rw [statement, unlessSkipping_run _ hskip] at h
    exact assign_performs hf hw h
  | gcode id args =>
    rw [statement, unlessSkipping_run _ hskip] at h
    exact gcode_performs (by simpa [Statement.isDirect] using hd) h
  | mcode id =>
    rw [statement, unlessSkipping_run _ hskip] at h
    exact mcode_performs h
  | jump direction target =>
    rw [statement, unlessSkipping_run _ hskip, jump] at h
    obtain ⟨index, -, h⟩ := orFail_bind_ok h
    cases h
    exact ⟨.quiet rfl rfl rfl rfl rfl rfl, by simp [Statement.endsProgram],
      .inr ⟨by simp, rfl, rfl⟩⟩
  | instruction name args =>
    simp only [Statement.isDirect, Statement.beginsFrame, Bool.and_eq_true, Bool.not_eq_true',
      Option.isNone_iff_eq_none, Option.isSome_eq_false_iff] at hd
    rw [statement, unlessSkipping_run _ hskip, instruction, hd.2] at h
    cases hp : programs.find? (upper name) with
    | none =>
      simp only [hp] at h
      cases h
      exact ⟨.report rfl, by simp [Statement.endsProgram], .inr ⟨by simp, rfl, rfl⟩⟩
    | some callee =>
      simp only [hp] at h
      split at h
      · rename_i hargs
        simp [Statement.callee?, hd.2, hargs, hp] at hd
      · cases h
  | declare d => cases hd
  | flow f => cases hd

end Exec

end PartProgram
