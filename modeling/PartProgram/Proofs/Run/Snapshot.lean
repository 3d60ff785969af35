import PartProgram.Proofs.Run.Continuity
import PartProgram.Proofs.Run.FrameChange
import PartProgram.Proofs.Run.Snapshot.Direct
import PartProgram.Proofs.Run.Snapshot.Notes

/-!
# Snapshots of a motion

A block stores what it writes to the axes before it reports its motion, so both
snapshots are taken in the state behind the block. Of several values for one axis the last one
counts.
-/

set_option autoImplicit false

namespace PartProgram

namespace Exec

variable {programs : Table Program} {call : Program → Exec Unit} {program : Program}
variable {line : Nat} {r s t : Run}

/-- From the start of a block to a run in which it has executed some statements: the axes have
kept their values, and the motion has noted those that the statements wrote. -/
structure Collected (r : Run) (list : List Execution) (s : Run) : Prop where
  keeps : Keeps r s
  plain : s.state.scope.Plain
  axes : r.state.machine.SameAxes r.state.scope s.state.scope
  notes : (s.control.motion.getD {}).Notes r.state.machine r.state.scope list

theorem Collected.start (hplain : r.state.scope.Plain) (hmotion : r.control.motion = none) :
    Collected r [] r where
  keeps := keeps_passage.refl r
  plain := hplain
  axes _ _ := rfl
  notes := by
    rw [hmotion]
    exact Motion.Notes.empty _ _

theorem assigned?_assign {name : String} (fields : Option Slots) {value : Expr} {x : Float}
    (hx : r.state.assigned r.control.framing name value = .ok x) (axis : String) :
    Execution.assigned? axis ⟨.assign name fields value, r⟩ =
      if upper axis = upper name then some x else none := by
  simp only [Execution.assigned?, hx, sameLetters_iff]
  by_cases h : upper axis = upper name
  · rw [if_pos h, if_pos h.symm]
    rfl
  · rw [if_neg h, if_neg (Ne.symm h)]

theorem Collected.step {list : List Execution} {st : Statement} (h : Collected r list s)
    (hm : r.state.machine.AxesApart) (hr : r.state.scope.Plain) (hst : Performs st s t) :
    Collected r (list ++ [⟨st, s⟩]) t := by
  have hkeeps := keeps_passage.trans h.keeps hst.keeps
  rcases hst.writes with ⟨name, fields, value, x, rfl, hx, hw⟩ | ⟨hnone, hscope, hmotion⟩
  · have he := assigned?_assign fields hx
    cases hw with
    | notes hscope hmotion =>
      refine ⟨hkeeps, hscope ▸ h.plain, hscope ▸ h.axes, ?_⟩
      rw [hmotion, Scope.canonical_plain h.plain, h.keeps.machine]
      refine h.notes.write hm he (fun hname => ?_) hr
      rw [Scope.getD_congr h.plain (upper_upper name), Scope.getD, h.axes name hname]
      rfl
    | sets hother hscope hmotion =>
      rw [h.keeps.machine] at hother
      refine ⟨hkeeps, hscope ▸ Scope.plain_set h.plain name x,
        hscope ▸ h.axes.set h.plain hother x, ?_⟩
      rw [hmotion]
      refine h.notes.skip (fun axis ha => (he axis).trans (if_neg ?_))
      intro heq
      rw [Machine.isCoordinate_congr heq, hother] at ha
      cases ha
  · refine ⟨hkeeps, hscope ▸ h.plain, hscope ▸ h.axes, ?_⟩
    rw [hmotion]
    refine h.notes.skip (fun axis _ => ?_)
    cases st with
    | assign name fields value => exact absurd rfl (hnone name fields value)
    | _ => rfl

theorem Collected.statements {before : List Execution} {list : List Statement}
    (h : Collected r before s) (hm : r.state.machine.AxesApart) (hr : r.state.scope.Plain)
    (hf : r.control.framing = false) (hw : r.control.waiting = false)
    (hskip : skipping r.control.branches = false)
    (hd : ∀ st ∈ list, st.isDirect programs = true)
    (hrun : Exec.statements programs call program line list s = .ok () t) :
    Collected r (before ++ executed programs call program line list s) t ∧
      (s.control.stopped = false →
        (executed programs call program line list s).map (·.statement) =
          Statement.upToEnd list) := by
  induction list generalizing before s with
  | nil =>
    cases hrun
    exact ⟨by simpa [executed] using h, fun _ => rfl⟩
  | cons st rest ih =>
    cases hstop : s.control.stopped with
    | true =>
      rw [Exec.statements, run_get, if_pos hstop] at hrun
      cases hrun
      rw [executed_stopped _ hstop, List.append_nil]
      exact ⟨h, by simp⟩
    | false =>
      have hskip' : skipping s.control.branches = false := h.keeps.branches ▸ hskip
      obtain ⟨u, hx, hrun⟩ := statements_cons_ok hstop hrun
      rw [executed_cons st rest hstop, if_pos (st.isExecuted_of_not_skipping hskip'), hx]
      have hperforms := statement_performs (hd st List.mem_cons_self)
        (h.keeps.framing.trans hf) (h.keeps.waiting.trans hw) hskip' hx
      obtain ⟨hrest, hmade⟩ := ih (h.step hm hr hperforms)
        (fun st' h' => hd st' (List.mem_cons_of_mem st h')) hrun
      refine ⟨by simpa using hrest, fun _ => ?_⟩
      rw [Statement.upToEnd, List.map_append, List.map_singleton, List.singleton_append]
      cases hend : st.endsProgram with
      | true =>
        have hu : u.control.stopped = true := by rw [hperforms.stopped, hend, Bool.or_true]
        simp [executed_stopped rest hu]
      | false =>
        have hu : u.control.stopped = false := by rw [hperforms.stopped, hend, hstop]; rfl
        simpa using hmade hu

theorem motion_of_told {told before : List Event} {start finish : Scope} {state : State}
    (hbefore : t.events.toList = r.events.toList ++ before)
    (hquiet : ∀ e ∈ before, e.isMotion = false) (hw : t.control.waiting = false)
    (htold : t.endBlock.events.toList = r.events.toList ++ told)
    (hmotion : .motion start finish state ∈ told) :
    ∃ motion, t.control.motion = some motion ∧
      start = (t.state.commit motion).startOf motion ∧
      finish = (t.state.commit motion).finishOf motion := by
  have hall : told = before ++ t.dueEvents := by
    rw [Run.endBlock_events, hbefore, List.append_assoc] at htold
    exact (List.append_cancel_left htold).symm
  rw [hall] at hmotion
  rcases List.mem_append.mp hmotion with hmem | hmem
  · cases hquiet _ hmem
  · simp only [Run.dueEvents, hw, Bool.false_eq_true, if_false, List.nil_append] at hmem
    split at hmem
    · rename_i motion hx
      cases List.mem_singleton.mp hmem
      exact ⟨motion, hx, rfl, rfl⟩
    · cases hmem

theorem endBlock_commits {motion : Motion} (hw : t.control.waiting = false)
    (hf : t.control.framing = false) (hx : t.control.motion = some motion) :
    t.endBlock.state = t.state.commit motion := by
  simp [Run.endBlock, Run.endDwell, Run.endMotion, Run.endFrame, hw, hx, hf]

/-- The two snapshots of the motion that a block reports. For every axis the state behind the
block has the value of the last assignment to it, or the one before the block. Outside the planes
the motion goes from the value before to that value, and in a plane both ends are taken out of
the frame. All statements of the block are executed, up to one that ends the program. -/
theorem motion_snapshots (programs : Table Program) (call : Program → Exec Unit)
    (program : Program) (b : Block) (r s : Run) (told : List Event) (start finish : Scope)
    (state : State) (hdistinct : r.state.machine.AxesDistinct)
    (hapart : r.state.machine.AxesApart) (hplain : r.state.scope.Plain)
    (hdue : r.control.due = {}) (hskip : skipping r.control.branches = false)
    (hdirect : ∀ st ∈ b.statements, st.isDirect programs = true)
    (h : block programs call program b r = .ok () s)
    (htold : s.events.toList = r.events.toList ++ told)
    (hmotion : .motion start finish state ∈ told) :
    let made := executed programs call program b.line b.statements r
    let old := r.state.scope.get?
    let new := fun axis => (lastAssigned? axis made).or (old axis)
    made.map (·.statement) = Statement.upToEnd b.statements ∧
      (∀ axis, r.state.machine.isCoordinate axis = true → s.state.scope.get? axis = new axis) ∧
      (∀ axis, r.state.machine.isCoordinate axis = true → r.state.machine.Aside axis →
        start.get? axis =
            (if (lastAssigned? axis made).isSome then some ((old axis).getD 0.0) else old axis) ∧
          finish.get? axis = new axis) ∧
      ∀ g ∈ r.state.machine.linear, ∀ x y, g.plane? = some (x, y) →
        let p := r.state.frame.toMachine ⟨(old x).getD 0.0, (old y).getD 0.0⟩
        let q := r.state.frame.toMachine ⟨(new x).getD 0.0, (new y).getD 0.0⟩
        start.get? x = some p.x ∧ start.get? y = some p.y ∧
          finish.get? x = some q.x ∧ finish.get? y = some q.y := by
  obtain ⟨hw, hnone, hf⟩ := Control.idle_of_due hdue
  rw [block_run] at h
  split at h
  · rename_i t ht
    cases h
    obtain ⟨hc, hmade⟩ := (Collected.start hplain hnone).statements hapart hplain hf hw hskip
      hdirect ht
    rw [List.nil_append] at hc
    have htw : t.control.waiting = false := hc.keeps.waiting.trans hw
    have htf : t.control.framing = false := hc.keeps.framing.trans hf
    obtain ⟨before, hbefore, hquiet⟩ := hc.keeps.events
    obtain ⟨motion, hx, rfl, rfl⟩ := motion_of_told hbefore hquiet htw htold hmotion
    -- Where a motion was collected the program has not ended itself before.
    have hgo : r.control.stopped = false := by
      cases hstop : r.control.stopped with
      | false => rfl
      | true =>
        rw [statements_stopped _ hstop] at ht
        cases ht
        rw [hnone] at hx
        cases hx
    have hnotes := hc.notes.congr hc.axes
    rw [hx, Option.getD_some, ← hc.keeps.machine] at hnotes
    have hm : t.state.machine.AxesApart := hc.keeps.machine ▸ hapart
    have hd : t.state.machine.AxesDistinct := hc.keeps.machine ▸ hdistinct
    have hold := hc.axes
    simp only [endBlock_commits htw htf hx, ← hc.keeps.machine, ← hc.keeps.frame] at hold ⊢
    refine ⟨hmade hgo, fun axis ha => ?_, fun axis ha haside => ⟨?_, ?_⟩, fun g hg x y hp => ?_⟩
    · rw [← hold axis ha]
      exact hnotes.get?_commit hc.plain ha
    · rw [← hold axis ha]
      exact startOf_aside hm hc.plain hnotes ha haside
    · rw [← hold axis ha]
      exact finishOf_aside hm hc.plain hnotes ha haside
    · obtain ⟨hmemx, hmemy⟩ := mem_of_plane? hp
      rw [← hold x (isCoordinate_of_mem hg hmemx), ← hold y (isCoordinate_of_mem hg hmemy)]
      obtain ⟨h1, h2⟩ := startOf_plane hm hc.plain hnotes hd hg hp
      obtain ⟨h3, h4⟩ := finishOf_plane hm hc.plain hnotes hd hg hp
      exact ⟨h1, h2, h3, h4⟩
  · cases h

def plunge : Block where
  line := 1
  statements := [.assign "X" none (.int 1), .assign "Z" none (.int 3), .assign "x" none (.int 7)]

theorem motion_snapshots_plunge : ∃ s start finish state,
    block [] (fun _ => pure ()) ⟨[]⟩ plunge shifted = .ok () s ∧
      .motion start finish state ∈ s.events.toList ∧
      s.state.scope.get? "X" = some 7.0 ∧ s.state.scope.get? "Y" = some 5.0 ∧
      start.get? "Z" = some 0.0 ∧ finish.get? "Z" = some 3.0 ∧
      start.get? "X" = some 15.0 ∧ finish.get? "X" = some 17.0 := by
  have hplain : shifted.state.scope.Plain :=
    Scope.plain_set (Scope.plain_set (by simp [Scope.Plain, Scope.layers]) "X" 5.0) "Y" 5.0
  have hz : shifted.state.machine.Aside "Z" := by
    intro g hg x y hp
    cases List.mem_singleton.mp hg
    cases hp
    decide
  obtain ⟨-, hstate, haside, hplane⟩ := motion_snapshots [] (fun _ => pure ()) ⟨[]⟩ plunge shifted
    _ _ _ _ _ (by decide) axesApart_default hplain rfl rfl
    (by simp [plunge, Statement.isDirect]) rfl rfl (List.mem_of_mem_getLast? rfl)
  obtain ⟨hzs, hzf⟩ := haside "Z" (by decide) hz
  obtain ⟨hxs, -, hxf, -⟩ := hplane _ (List.mem_singleton.mpr rfl) "X" "Y" rfl
  refine ⟨_, _, _, _, rfl, List.mem_of_mem_getLast? rfl, ?_, ?_, ?_, ?_, ?_, ?_⟩
  · exact (hstate "X" (by decide)).trans (by decide +kernel)
  · exact (hstate "Y" (by decide)).trans (by decide +kernel)
  · exact hzs.trans (by decide +kernel)
  · exact hzf.trans (by decide +kernel)
  · exact hxs.trans (by decide +kernel)
  · exact hxf.trans (by decide +kernel)

end Exec

end PartProgram
