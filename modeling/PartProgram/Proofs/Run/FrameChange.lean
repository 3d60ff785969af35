import PartProgram.Proofs.Run.Executed
import PartProgram.Proofs.Run.Isolation

/-!
# Frames in a block

An instruction for a frame takes the coordinates out of the frame that it finds,
and the end of the block takes them into the new one. The frame is set by the
assignments behind the instruction. With one such instruction in a block the old
frame is left once and the new one is entered once. With more of them each later
one leaves the frame that the block has set so far, which was never entered.
-/

set_option autoImplicit false

namespace PartProgram

def Frame.leaveAll (m : Machine) (frames : List Frame) (s : Scope) : Scope :=
  frames.foldl (fun s t => t.leave m s) s

def Statement.setsFrame : Statement → Bool
  | assign .. => true
  | s => s.beginsFrame

theorem Statement.setsFrame_of_beginsFrame {s : Statement} (h : s.beginsFrame = true) :
    s.setsFrame = true := by
  cases s with
  | instruction => exact h
  | _ => cases h

theorem Control.idle_of_due {c : Control} (h : c.due = {}) :
    c.waiting = false ∧ c.motion = none ∧ c.framing = false := by
  obtain ⟨stopped, jump, waiting, delay, framing, motion, branches⟩ := c
  cases waiting <;> simp_all [due]

/-- The frames that are left, each as its instruction finds it. -/
def framesLeft (list : List Execution) : List Frame :=
  (list.filter (·.statement.beginsFrame)).map (·.run.state.frame)

theorem framesLeft_append (first second : List Execution) :
    framesLeft (first ++ second) = framesLeft first ++ framesLeft second := by
  simp [framesLeft]

namespace Exec

variable {programs : Table Program} {call : Program → Exec Unit} {program : Program}
  {line : Nat} {r s : Run}

/-- What remains of a statement that sets the frame: where it leaves one the coordinates
change, and from then on the block has a frame to enter. -/
structure Sets (frames : List Frame) (r s : Run) : Prop where
  control : s.control = { r.control with framing := true }
  machine : s.state.machine = r.state.machine
  scope : s.state.scope = Frame.leaveAll r.state.machine frames r.state.scope

theorem Sets.trans {t : Run} {first second : List Frame} (h : Sets first r s)
    (h' : Sets second s t) : Sets (first ++ second) r t where
  control := by rw [h'.control, h.control]
  machine := h'.machine.trans h.machine
  scope := by rw [h'.scope, h.scope, h.machine, Frame.leaveAll, Frame.leaveAll, Frame.leaveAll,
    List.foldl_append]

theorem assign_sets (hf : r.control.framing = true) {name : String} {value : Expr}
    (h : assign line name value r = .ok () s) : Sets [] r s := by
  simp only [assign, run_get, hf, if_true] at h
  obtain ⟨x, -, h⟩ := orFail_bind_ok h
  cases h
  exact ⟨by simp [← hf], rfl, rfl⟩

theorem beginFrame_sets {replace : Bool} (h : beginFrame replace r = .ok () s) :
    Sets [r.state.frame] r s := by
  cases replace <;> cases h <;> exact ⟨rfl, rfl, rfl⟩

theorem statement_sets {st : Statement} (hset : st.setsFrame = true)
    (hf : st.beginsFrame = true ∨ r.control.framing = true)
    (hskip : skipping r.control.branches = false)
    (h : statement programs call program line st r = .ok () s) :
    Sets (framesLeft [⟨st, r⟩]) r s := by
  cases st with
  | assign name fields value =>
    rw [statement, unlessSkipping_run _ hskip] at h
    exact assign_sets (hf.resolve_left (by simp [Statement.beginsFrame])) h
  | instruction name args =>
    obtain ⟨replace, hname⟩ := Option.isSome_iff_exists.mp hset
    rw [statement, unlessSkipping_run _ hskip, instruction, hname] at h
    simpa [framesLeft, Statement.beginsFrame, hname] using beginFrame_sets h
  | _ => cases hset

theorem framesLeft_cons (st : Statement) (rest : List Statement)
    (hgo : r.control.stopped = false) (hskip : skipping r.control.branches = false) :
    framesLeft (executed programs call program line (st :: rest) r) =
      framesLeft [⟨st, r⟩] ++
        match statement programs call program line st r with
        | .ok _ after => framesLeft (executed programs call program line rest after)
        | .error .. => [] := by
  rw [executed_cons st rest hgo, if_pos (st.isExecuted_of_not_skipping hskip), framesLeft_append]
  cases statement programs call program line st r <;> rfl

theorem statements_sets {list : List Statement} (hset : ∀ st ∈ list, st.setsFrame = true)
    (hf : r.control.framing = true) (hgo : r.control.stopped = false)
    (hskip : skipping r.control.branches = false)
    (h : statements programs call program line list r = .ok () s) :
    Sets (framesLeft (executed programs call program line list r)) r s := by
  induction list generalizing r with
  | nil =>
    cases h
    exact ⟨by simp [← hf], rfl, rfl⟩
  | cons st rest ih =>
    obtain ⟨t, hx, h⟩ := statements_cons_ok hgo h
    have hst := statement_sets (hset st List.mem_cons_self) (.inr hf) hskip hx
    rw [framesLeft_cons st rest hgo hskip, hx]
    refine hst.trans (ih (fun st' h' => hset st' (List.mem_cons_of_mem st h')) ?_ ?_ ?_ h)
    · rw [hst.control]
    · rw [hst.control]
      exact hgo
    · rw [hst.control]
      exact hskip

theorem endBlock_enters (hwait : s.control.waiting = false) (hmotion : s.control.motion = none)
    (hf : s.control.framing = true) :
    s.endBlock.state = s.state.mapScope (s.state.frame.enter s.state.machine) := by
  simp [Run.endBlock, Run.endDwell, Run.endMotion, Run.endFrame, hwait, hmotion, hf]

theorem block_sets {b : Block} {first : Statement} {rest : List Statement}
    (hgo : r.control.stopped = false) (hskip : skipping r.control.branches = false)
    (hb : b.statements = first :: rest) (hfirst : first.beginsFrame = true)
    (hrest : ∀ st ∈ rest, st.setsFrame = true)
    (h : block programs call program b r = .ok () s) :
    ∃ t, s = t.endBlock ∧
      Sets (framesLeft (executed programs call program b.line b.statements r)) r t := by
  rw [block_run, hb, statements_cons first rest hgo] at h
  cases hx : statement programs call program b.line first r with
  | error halt u =>
    rw [hx] at h
    cases h
  | ok a u =>
    simp only [hx] at h
    have hu := statement_sets (Statement.setsFrame_of_beginsFrame hfirst) (.inl hfirst) hskip hx
    split at h
    · rename_i t ht
      cases h
      have hall := statements_sets hrest (by rw [hu.control]) (by rw [hu.control]; exact hgo)
        (by rw [hu.control]; exact hskip) ht
      refine ⟨t, rfl, ?_⟩
      rw [hb, framesLeft_cons first rest hgo hskip, hx]
      exact hu.trans hall
    · cases h

theorem framesLeft_single {first : Statement} {rest : List Statement}
    (hgo : r.control.stopped = false) (hskip : skipping r.control.branches = false)
    (hfirst : first.beginsFrame = true) (hrest : ∀ st ∈ rest, st.beginsFrame = false) :
    framesLeft (executed programs call program line (first :: rest) r) = [r.state.frame] := by
  have hnone : ∀ u, framesLeft (executed programs call program line rest u) = [] := by
    intro u
    rw [framesLeft, List.map_eq_nil_iff, List.filter_eq_nil_iff]
    intro e he
    simpa using hrest _ (mem_of_executed he)
  have hone : framesLeft [⟨first, r⟩] = [r.state.frame] := by simp [framesLeft, hfirst]
  rw [framesLeft_cons first rest hgo hskip, hone]
  cases statement programs call program line first r <;> simp [hnone]

/-- A block of instructions for frames with their parameters leaves each frame that an
instruction finds and enters the last one. With a single instruction that is the frame before
the block, left once, and the frame behind it, entered once. -/
theorem frame_change (programs : Table Program) (call : Program → Exec Unit) (program : Program)
    (b : Block) (r s : Run) {first : Statement} {rest : List Statement}
    (hdue : r.control.due = {}) (hgo : r.control.stopped = false)
    (hskip : skipping r.control.branches = false) (hb : b.statements = first :: rest)
    (hfirst : first.beginsFrame = true) (hrest : ∀ st ∈ rest, st.setsFrame = true)
    (h : block programs call program b r = .ok () s) :
    s.state.scope = s.state.frame.enter r.state.machine (Frame.leaveAll r.state.machine
      (framesLeft (executed programs call program b.line b.statements r)) r.state.scope) ∧
    ((∀ st ∈ rest, st.beginsFrame = false) →
      s.state.scope = s.state.frame.enter r.state.machine
        (r.state.frame.leave r.state.machine r.state.scope)) := by
  obtain ⟨hwait, hmotion, -⟩ := Control.idle_of_due hdue
  obtain ⟨t, rfl, ht⟩ := block_sets hgo hskip hb hfirst hrest h
  have hend : t.endBlock.state = t.state.mapScope (t.state.frame.enter t.state.machine) :=
    endBlock_enters (by rw [ht.control]; exact hwait) (by rw [ht.control]; exact hmotion)
      (by rw [ht.control])
  have hall : t.endBlock.state.scope = t.endBlock.state.frame.enter r.state.machine
      (Frame.leaveAll r.state.machine
        (framesLeft (executed programs call program b.line b.statements r)) r.state.scope) := by
    rw [hend, State.mapScope, ht.machine, ht.scope]
  refine ⟨hall, fun hone => ?_⟩
  have hleft : framesLeft (executed programs call program b.line b.statements r) =
      [r.state.frame] := by
    rw [hb]
    exact framesLeft_single hgo hskip hfirst hone
  rw [hall, hleft]
  rfl

def shifted : Run where
  state :=
    { scope := (({} : Scope).set "X" 5.0).set "Y" 5.0
      frame := ⟨({} : Scope).set "X" 10.0⟩ }

def addShift : Block :=
  { line := 1, statements := [.instruction "ATRANS" none, .assign "Y" none (.int 1)] }

theorem frame_change_added : ∃ s,
    block [] (fun _ => pure ()) ⟨[]⟩ addShift shifted = .ok () s ∧
      s.state.scope = s.state.frame.enter {} (shifted.state.frame.leave {} shifted.state.scope) ∧
      s.state.scope.get? "X" = some 5.0 ∧ s.state.scope.get? "Y" = some 4.0 := by
  refine ⟨_, rfl, ?_, by decide +kernel, by decide +kernel⟩
  exact (frame_change [] (fun _ => pure ()) ⟨[]⟩ addShift shifted _ rfl rfl rfl rfl rfl
    (by simp [Statement.setsFrame]) rfl).2 (by simp [Statement.beginsFrame])

def twoShifts : Block where
  line := 1
  statements := [.instruction "TRANS" none, .assign "X" none (.int 10),
    .instruction "ATRANS" none, .assign "Y" none (.int 1)]

/-- The second instruction of a block leaves a frame that was never entered, so that the first
axis does not change although the frame is shifted. -/
theorem two_frame_changes_unbalanced : ∃ s,
    block [] (fun _ => pure ()) ⟨[]⟩ twoShifts
        { state := { scope := (({} : Scope).set "X" 5.0).set "Y" 5.0 } } = .ok () s ∧
      s.state.scope.get? "X" = some 5.0 ∧
      (s.state.frame.enter {} (({} : Frame).leave {}
        ((({} : Scope).set "X" 5.0).set "Y" 5.0))).get? "X" = some (-5.0) ∧
      s.state.scope ≠ s.state.frame.enter {} (({} : Frame).leave {}
        ((({} : Scope).set "X" 5.0).set "Y" 5.0)) :=
  ⟨_, rfl, by decide +kernel, by decide +kernel, by decide +kernel⟩

end Exec

end PartProgram
