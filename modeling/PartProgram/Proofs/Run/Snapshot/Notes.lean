import PartProgram.Proofs.Run.Execution
import PartProgram.Proofs.Run.Snapshot.Plane

/-!
# What a motion notes

For each axis that is written a motion notes the value in the variables and the last one
written. The start and the end of the motion are the variables with the one or the other laid
over them, taken out of the frame.
-/

set_option autoImplicit false

namespace PartProgram

def Execution.assigned? (name : String) (e : Execution) : Option Float :=
  match e.statement with
  | .assign key _ value =>
    if sameLetters key name then
      (e.run.state.assigned e.run.control.framing key value).toOption
    else none
  | _ => none

/-- The value of the last assignment to a variable. -/
def lastAssigned? (name : String) (list : List Execution) : Option Float :=
  (list.filterMap (·.assigned? name)).getLast?

theorem lastAssigned?_append (name : String) (list : List Execution) (e : Execution) :
    lastAssigned? name (list ++ [e]) = (e.assigned? name).or (lastAssigned? name list) := by
  cases h : e.assigned? name <;> simp [lastAssigned?, h]

/-- What a motion notes after some assignments: for each axis that they write, the value in the
variables and the last one written. -/
structure Motion.Notes (m : Machine) (s : Scope) (list : List Execution) (motion : Motion) :
    Prop where
  start : motion.start.Proper
  finish : motion.finish.Proper
  old : ∀ axis, m.isCoordinate axis = true →
    motion.start.find? (upper axis) = (lastAssigned? axis list).map (fun _ => s.getD axis)
  new : ∀ axis, m.isCoordinate axis = true →
    motion.finish.find? (upper axis) = lastAssigned? axis list

namespace Motion.Notes

variable {m : Machine} {s : Scope} {list : List Execution} {motion : Motion}

theorem empty (m : Machine) (s : Scope) : Motion.Notes m s [] {} :=
  ⟨Table.proper_nil, Table.proper_nil, fun _ _ => rfl, fun _ _ => rfl⟩

theorem skip (h : motion.Notes m s list) {e : Execution}
    (he : ∀ axis, m.isCoordinate axis = true → e.assigned? axis = none) :
    motion.Notes m s (list ++ [e]) where
  start := h.start
  finish := h.finish
  old axis ha := by rw [lastAssigned?_append, he axis ha, Option.none_or, h.old axis ha]
  new axis ha := by rw [lastAssigned?_append, he axis ha, Option.none_or, h.new axis ha]

theorem write (h : motion.Notes m s list) (hm : m.AxesApart) {e : Execution} {name : String}
    {x old : Float}
    (he : ∀ axis, e.assigned? axis = if upper axis = upper name then some x else none)
    (hold : m.isCoordinate name = true → old = s.getD name) (hs : s.Plain) :
    (motion.write (m.isTemporary name) (upper name) old x).Notes m s (list ++ [e]) := by
  cases ht : m.isTemporary name with
  | true =>
    have hother : ∀ axis, m.isCoordinate axis = true → upper axis ≠ upper name := by
      intro axis ha heq
      have := hm axis ha
      rw [Machine.isTemporary_congr heq, ht] at this
      cases this
    have hskip := h.skip (fun axis ha => (he axis).trans (if_neg (hother axis ha)))
    refine ⟨hskip.start.insert (upper_upper name) x, hskip.finish, fun axis ha => ?_, hskip.new⟩
    refine (Table.find?_insert ..).trans ?_
    rw [if_neg (hother axis ha)]
    exact hskip.old axis ha
  | false =>
    refine ⟨h.start.insert (upper_upper name) old, h.finish.insert (upper_upper name) x,
      fun axis ha => ?_, fun axis ha => ?_⟩
    · refine (Table.find?_insert ..).trans ?_
      rw [lastAssigned?_append, he axis]
      by_cases heq : upper axis = upper name
      · have hname : m.isCoordinate name = true := (Machine.isCoordinate_congr heq).symm.trans ha
        rw [if_pos heq, if_pos heq, hold hname, Scope.getD_congr hs heq]
        rfl
      · rw [if_neg heq, if_neg heq, Option.none_or, h.old axis ha]
    · refine (Table.find?_insert ..).trans ?_
      rw [lastAssigned?_append, he axis]
      by_cases heq : upper axis = upper name
      · rw [if_pos heq, if_pos heq]
        rfl
      · rw [if_neg heq, if_neg heq, Option.none_or, h.new axis ha]

theorem get?_commit (h : motion.Notes m s list) (hs : s.Plain) {axis : String}
    (ha : m.isCoordinate axis = true) :
    (s.setAll motion.finish).get? axis = (lastAssigned? axis list).or (s.get? axis) := by
  rw [Scope.get?_setAll hs h.finish, h.new axis ha]

theorem get?_finish (h : motion.Notes m s list) (hs : s.Plain) {axis : String}
    (ha : m.isCoordinate axis = true) :
    ((s.setAll motion.finish).push.setAll motion.finish).get? axis =
      (lastAssigned? axis list).or (s.get? axis) := by
  rw [Scope.get?_setAll (Scope.plain_push (Scope.plain_setAll hs _)) h.finish, h.new axis ha,
    Scope.get?_push, h.get?_commit hs ha]
  cases lastAssigned? axis list <;> rfl

theorem get?_start (h : motion.Notes m s list) (hs : s.Plain) {axis : String}
    (ha : m.isCoordinate axis = true) :
    ((s.setAll motion.finish).push.setAll motion.start).get? axis =
      if (lastAssigned? axis list).isSome then some (s.getD axis) else s.get? axis := by
  rw [Scope.get?_setAll (Scope.plain_push (Scope.plain_setAll hs _)) h.start, h.old axis ha,
    Scope.get?_push, h.get?_commit hs ha]
  cases lastAssigned? axis list <;> rfl

theorem getD_start (h : motion.Notes m s list) (hs : s.Plain) {axis : String}
    (ha : m.isCoordinate axis = true) :
    ((s.setAll motion.finish).push.setAll motion.start).getD axis = s.getD axis := by
  rw [Scope.getD, h.get?_start hs ha]
  split <;> rfl

theorem congr {s' : Scope} (h : motion.Notes m s list) (hs : m.SameAxes s s') :
    motion.Notes m s' list where
  start := h.start
  finish := h.finish
  old axis ha := by rw [h.old axis ha, Scope.getD, Scope.getD, hs axis ha]
  new := h.new

end Motion.Notes

section Snapshots

variable {state : State} {list : List Execution} {motion : Motion}

theorem startOf_leave (hm : state.machine.AxesApart) (hs : state.scope.Plain) (motion : Motion) :
    ∃ base : Scope, base.Plain ∧
      (state.commit motion).startOf motion = state.frame.leave state.machine base ∧
      state.machine.SameAxes
        ((state.scope.setAll motion.finish).push.setAll motion.start) base := by
  have hstart :=
    Scope.plain_setAll (Scope.plain_push (Scope.plain_setAll hs motion.finish)) motion.start
  have hplain := (setArcCenter_axes (state.commit motion) hm
    ((state.commit motion).scope.push.setAll motion.finish) hstart).1
  exact ⟨_, (setMissingCenters_axes (state.commit motion) hm hplain).1, rfl,
    setMissingCenters_same (state.commit motion) hm hplain
      (setArcCenter_same (state.commit motion) hm _ hstart)⟩

variable (hm : state.machine.AxesApart) (hs : state.scope.Plain)
  (h : motion.Notes state.machine state.scope list)
include hm hs h

theorem startOf_aside {axis : String} (ha : state.machine.isCoordinate axis = true)
    (haside : state.machine.Aside axis) :
    ((state.commit motion).startOf motion).get? axis =
      if (lastAssigned? axis list).isSome then some (state.scope.getD axis)
      else state.scope.get? axis := by
  obtain ⟨base, hplain, hleave, hsame⟩ := startOf_leave hm hs motion
  rw [hleave, leave_aside hm _ hplain ha haside, hsame axis ha, h.get?_start hs ha]

theorem finishOf_aside {axis : String} (ha : state.machine.isCoordinate axis = true)
    (haside : state.machine.Aside axis) :
    ((state.commit motion).finishOf motion).get? axis =
      (lastAssigned? axis list).or (state.scope.get? axis) := by
  have hplain :=
    Scope.plain_setAll (Scope.plain_push (Scope.plain_setAll hs motion.finish)) motion.finish
  exact (leave_aside hm state.frame hplain ha haside).trans (h.get?_finish hs ha)

variable (hd : state.machine.AxesDistinct) {g : AxisGroup} (hg : g ∈ state.machine.linear)
  {x y : String} (hplane : g.plane? = some (x, y))
include hd hg hplane

theorem startOf_plane :
    ((state.commit motion).startOf motion).get? x =
        some (state.frame.toMachine ⟨state.scope.getD x, state.scope.getD y⟩).x ∧
      ((state.commit motion).startOf motion).get? y =
        some (state.frame.toMachine ⟨state.scope.getD x, state.scope.getD y⟩).y := by
  obtain ⟨base, hplain, hleave, hsame⟩ := startOf_leave hm hs motion
  have hbase : ∀ axis ∈ g.names, base.getD axis = state.scope.getD axis := by
    intro axis ha
    have hc := isCoordinate_of_mem hg ha
    rw [← h.getD_start hs hc, Scope.getD, Scope.getD, hsame axis hc]
  obtain ⟨hx, hy⟩ := mem_of_plane? hplane
  rw [hleave, ← hbase x hx, ← hbase y hy]
  exact leave_plane hd hm state.frame hplain hg hplane

theorem finishOf_plane :
    let new := fun axis => ((lastAssigned? axis list).or (state.scope.get? axis)).getD 0.0
    ((state.commit motion).finishOf motion).get? x =
        some (state.frame.toMachine ⟨new x, new y⟩).x ∧
      ((state.commit motion).finishOf motion).get? y =
        some (state.frame.toMachine ⟨new x, new y⟩).y := by
  have hplain :=
    Scope.plain_setAll (Scope.plain_push (Scope.plain_setAll hs motion.finish)) motion.finish
  obtain ⟨hx, hy⟩ := mem_of_plane? hplane
  simp only [← h.get?_finish hs (isCoordinate_of_mem hg hx),
    ← h.get?_finish hs (isCoordinate_of_mem hg hy)]
  exact leave_plane hd hm state.frame hplain hg hplane

end Snapshots

end PartProgram
