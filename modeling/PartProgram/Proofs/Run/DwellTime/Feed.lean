import PartProgram.Proofs.Run.BlockReport
import PartProgram.Proofs.Run.View

/-!
# Words of the feed

Behind the code for a dwell the word of the feed gives a time, and otherwise the feed. The time
goes the way of every value that is assigned: in inches it is converted like a feed, and on a
machine with an axis of that name it can be relative.
-/

set_option autoImplicit false

namespace PartProgram

def Event.delay? : Event → Option (Option Float)
  | dwell delay => some delay
  | _ => none

theorem Statement.delay?_report {programs : Table Program} {st : Statement} {e : Event}
    (h : st.report? programs = some e) : e.delay? = none := by
  cases st with
  | gcode | mcode | instruction =>
    simp only [report?] at h
    split at h <;> grind [Event.delay?]
  | _ => cases h

namespace Scope

theorem get?_setAll_other {s : Scope} (h : s.Plain) {table : Table Float} {key : String}
    (hkey : ∀ entry ∈ table, upper entry.1 ≠ upper key) :
    (s.setAll table).get? key = s.get? key := by
  induction table generalizing s with
  | nil => rfl
  | cons first rest ih =>
    have hrest := ih (plain_set h first.1 first.2)
      (fun entry he => hkey entry (List.mem_cons_of_mem first he))
    refine hrest.trans ?_
    rw [get?_set_plain h, if_neg (hkey first List.mem_cons_self).symm]

end Scope

namespace State

/-- The time that a dwell takes for a number behind the word of the feed. -/
def dwellTime (s : State) (number : Float) : Float :=
  let x := if s.metric then number else millimetresPerInch * number
  if s.isAbsolute false feedName then x else s.scope.getD (s.machine.reference feedName) + x

theorem dwellTime_metric {s : State} (hmetric : s.metric = true)
    (haxis : s.machine.isCoordinateOrCenter feedName = false) (number : Float) :
    s.dwellTime number = number := by
  have hcenter : s.machine.isCenter feedName = false := by
    rw [Machine.isCoordinateOrCenter, Bool.or_eq_false_iff] at haxis
    exact haxis.2
  have hrelative : s.machine.isRelative feedName = false := by
    rw [Machine.isRelative, haxis]
    decide
  have habsolute : s.isAbsolute false feedName = true := by
    simp [isAbsolute, Machine.isAbsolute, hcenter, hrelative]
  simp [dwellTime, hmetric, habsolute]

theorem assigned_feed {s : State} {name : String} {value : Expr}
    (hname : sameLetters name feedName = true) (hmark : value.marked? = none) :
    s.assigned false name value = (value.evaluateNumber s.scope).map s.dwellTime := by
  have hupper : upper name = upper feedName := (sameLetters_iff _ _).mp hname
  have hfeed : ∀ number, s.machine.inchesToMillimetres feedName number =
      millimetresPerInch * number := by
    intro number
    have hisFeed : Machine.isFeed feedName = true := by decide
    rw [Machine.inchesToMillimetres, hisFeed, Bool.or_true, if_pos rfl]
  cases hvalue : value.evaluateNumber s.scope with
  | error cause =>
    simp only [assigned, hmark, Option.getD_none, hvalue]
    rfl
  | ok number =>
    simp only [assigned, hmark, Option.getD_none, hvalue, isAbsolute_congr hupper,
      Machine.inchesToMillimetres_congr hupper, hfeed, Machine.getD_reference_congr hupper,
      Bool.false_eq_true, if_false]
    cases habsolute : s.isAbsolute false feedName <;> simp [Except.map, dwellTime, habsolute]

end State

/-- Among the executed statements a dwell comes before the first word of the feed. -/
def DwellFirst (made : List Execution) : Prop :=
  ∃ before dwell after, made = before ++ dwell :: after ∧ dwell.statement.isDwell = true ∧
    ∀ e ∈ before, e.statement.givesFeed = false

theorem DwellFirst.cons {e : Execution} {made : List Execution} (h : DwellFirst (e :: made)) :
    e.statement.givesFeed = false ∧ (e.statement.isDwell = true ∨ DwellFirst made) := by
  obtain ⟨before, dwell, after, hmade, hdwell, hbefore⟩ := h
  cases before with
  | nil =>
    obtain ⟨rfl, -⟩ := List.cons.inj hmade
    refine ⟨?_, .inl hdwell⟩
    cases hst : e.statement with
    | gcode => rfl
    | _ => simp [hst, Statement.isDwell] at hdwell
  | cons first before =>
    obtain ⟨rfl, rfl⟩ := List.cons.inj hmade
    exact ⟨hbefore e List.mem_cons_self, .inr ⟨before, dwell, after, rfl, hdwell,
      fun e' he => hbefore e' (List.mem_cons_of_mem e he)⟩⟩

theorem Execution.assigned?_of_not_feed {e : Execution} (h : e.statement.givesFeed = false) :
    e.assigned? feedName = none := by
  obtain ⟨st, r⟩ := e
  cases st with
  | assign name fields value =>
    rw [Statement.givesFeed] at h
    simp [assigned?, h]
  | _ => rfl

namespace Exec

variable {programs : Table Program} {call : Program → Exec Unit} {program : Program}
  {line : Nat} {r s : Run}

/-- Neither the variables nor what is collected for the end of the block has changed. -/
structure Steady (r s : Run) : Prop where
  scope : s.state.scope = r.state.scope
  motion : s.control.motion = r.control.motion
  delay : s.control.delay = r.control.delay

theorem steady_passage : Passage Steady where
  refl _ := ⟨rfl, rfl, rfl⟩
  trans h h' := ⟨h'.1.trans h.1, h'.2.trans h.2, h'.3.trans h.3⟩

theorem instruction_steady {name : String} {args : Option Slots}
    (hcall : (Statement.instruction name args).callee? programs = none)
    (hframe : frameInstruction? name = none) :
    Leads Steady (instruction programs call line name args) r := by
  refine steady_passage.instruction_at ?_ ?_ ⟨rfl, rfl, rfl⟩
  · intro replace hreplace
    rw [hframe] at hreplace
    cases hreplace
  · intro callee _ hfind hargs
    simp [Statement.callee?, hframe, hargs, hfind] at hcall

theorem statement_steady {st : Statement} (hcall : st.callee? programs = none)
    (hframe : st.beginsFrame = false) (hdeclare : ∀ d, st ≠ .declare d)
    (hassign : ∀ name fields value, st ≠ .assign name fields value) :
    Leads Steady (statement programs call program line st) r := by
  have hP := steady_passage
  cases st with
  | flow f => exact hP.flow_at (fun _ => ⟨rfl, rfl, rfl⟩)
  | declare d => exact absurd rfl (hdeclare d)
  | assign name fields value => exact absurd rfl (hassign name fields value)
  | gcode id args =>
    exact hP.unlessSkipping_at
      (fun _ => leads_gcode (fun _ _ _ => ⟨rfl, rfl, rfl⟩) ⟨rfl, rfl, rfl⟩ ⟨rfl, rfl, rfl⟩)
  | mcode id =>
    exact hP.unlessSkipping_at
      (fun _ => leads_mcode ⟨rfl, rfl, rfl⟩ (fun _ => ⟨rfl, rfl, rfl⟩) ⟨rfl, rfl, rfl⟩)
  | jump direction target =>
    exact hP.unlessSkipping_at (fun _ => hP.jump_at (fun _ => ⟨rfl, rfl, rfl⟩))
  | instruction name args =>
    refine hP.unlessSkipping_at (fun _ => instruction_steady hcall ?_)
    simpa [Statement.beginsFrame] using hframe

theorem assign_cases {name : String} {value : Expr} (hf : r.control.framing = false)
    (h : assign line name value r = .ok () s) : ∃ x, r.state.assigned false name value = .ok x ∧
      if (r.control.waiting && sameLetters name feedName) = true then
        s = { r with control := { r.control with delay := some x } }
      else Writes name x r s ∧ s.control.delay = r.control.delay := by
  simp only [assign, run_get, hf, Bool.false_eq_true, if_false] at h
  obtain ⟨x, hx, h⟩ := orFail_bind_ok h
  refine ⟨x, hx, ?_⟩
  by_cases hw : (r.control.waiting && sameLetters name feedName) = true
  · rw [if_pos hw] at h ⊢
    cases h
    rfl
  rw [if_neg hw] at h ⊢
  by_cases hn : (r.state.machine.isTemporary name ||
      r.state.machine.isCoordinateOrCenter name) = true
  · rw [if_pos hn] at h
    cases h
    exact ⟨.notes rfl rfl, rfl⟩
  · rw [if_neg hn] at h
    cases h
    refine ⟨.sets ?_ rfl rfl, rfl⟩
    simp only [Machine.isCoordinateOrCenter, Bool.or_eq_true, not_or] at hn
    simpa using hn.2.1

end Exec

end PartProgram
