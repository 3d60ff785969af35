import PartProgram.Proofs.Run.DwellTime.Feed

/-!
# The time of a dwell

The end of a block reports the last time given in it, as it was evaluated where its statement
was reached, and the feed itself keeps its value.
-/

set_option autoImplicit false

namespace PartProgram

namespace Exec

variable {programs : Table Program} {call : Program → Exec Unit} {program : Program}
variable {line : Nat} {r s t : Run}

/-- From the start of a block to a run in which it has executed some statements: the feed has kept
its value, and the delay is the last value that was given for it. -/
structure Timed (r : Run) (made : List Execution) (s : Run) : Prop where
  plain : s.state.scope.Plain
  framing : s.control.framing = false
  feed : s.state.scope.get? feedName = r.state.scope.get? feedName
  finish : ∀ entry ∈ (s.control.motion.getD {}).finish, upper entry.1 ≠ upper feedName
  delay : s.control.delay = lastAssigned? feedName made
  given : ∀ e ∈ made, e.statement.givesFeed = true →
    e.run.control.framing = false ∧ (e.assigned? feedName).isSome = true

theorem Timed.start (hplain : r.state.scope.Plain) (hdue : r.control.due = {})
    (hdelay : r.control.delay = none) : Timed r [] r := by
  obtain ⟨-, hmotion, hf⟩ := Control.idle_of_due hdue
  exact ⟨hplain, hf, rfl, by simp [hmotion], by simp [hdelay, lastAssigned?], by simp⟩

namespace Timed

variable {made : List Execution} {st : Statement}

theorem other (h : Timed r made s) (hfeed : st.givesFeed = false) (hplain : t.state.scope.Plain)
    (hframing : t.control.framing = false)
    (hkept : t.state.scope.get? feedName = s.state.scope.get? feedName)
    (hfinish : ∀ entry ∈ (t.control.motion.getD {}).finish, upper entry.1 ≠ upper feedName)
    (hdelay : t.control.delay = s.control.delay) : Timed r (made ++ [⟨st, s⟩]) t where
  plain := hplain
  framing := hframing
  feed := hkept.trans h.feed
  finish := hfinish
  delay := by
    rw [hdelay, h.delay, lastAssigned?_append, Execution.assigned?_of_not_feed hfeed,
      Option.none_or]
  given e he hgives := by
    rcases List.mem_append.mp he with he | he
    · exact h.given e he hgives
    · cases List.mem_singleton.mp he
      exact absurd hgives (Bool.eq_false_iff.mp hfeed)

theorem time (h : Timed r made s) {name : String} {fields : Option Slots} {value : Expr} {x : Float}
    (hname : sameLetters name feedName = true)
    (hx : s.state.assigned false name value = .ok x) :
    Timed r (made ++ [⟨.assign name fields value, s⟩])
      { s with control := { s.control with delay := some x } } := by
  have hassigned : Execution.assigned? feedName ⟨.assign name fields value, s⟩ = some x := by
    rw [assigned?_assign fields (h.framing.symm ▸ hx),
      if_pos ((sameLetters_iff _ _).mp hname).symm]
  refine ⟨h.plain, h.framing, h.feed, h.finish, ?_, fun e he hgives => ?_⟩
  · rw [lastAssigned?_append, hassigned, Option.some_or]
  · rcases List.mem_append.mp he with he | he
    · exact h.given e he hgives
    · cases List.mem_singleton.mp he
      exact ⟨h.framing, by rw [hassigned]; rfl⟩

theorem writes (h : Timed r made s) {name : String} {fields : Option Slots} {value : Expr}
    {x : Float} (hname : sameLetters name feedName = false) (hframing : t.control.framing = false)
    (hw : Writes name x s t) (hdelay : t.control.delay = s.control.delay) :
    Timed r (made ++ [⟨.assign name fields value, s⟩]) t := by
  have hne : upper name ≠ upper feedName := by
    rw [← Bool.not_eq_true, sameLetters_iff] at hname
    exact hname
  cases hw with
  | notes hscope hmotion =>
    refine h.other hname (hscope ▸ h.plain) hframing (by rw [hscope]) ?_ hdelay
    rw [hmotion, Option.getD_some, Scope.canonical_plain h.plain, Motion.write]
    split
    · exact h.finish
    · intro entry he
      rcases Table.mem_insert he with rfl | he
      · rwa [upper_upper]
      · exact h.finish entry he
  | sets _ hscope hmotion =>
    refine h.other hname (hscope ▸ Scope.plain_set h.plain name x) hframing ?_
      (hmotion ▸ h.finish) hdelay
    rw [hscope, Scope.get?_set_plain h.plain, if_neg hne.symm]

theorem step (h : Timed r made s) (hcall : st.callee? programs = none)
    (hframe : st.beginsFrame = false) (hdeclare : ∀ d, st ≠ .declare d)
    (hexec : st.isExecuted s.control.branches = true)
    (hwait : st.givesFeed = true → s.control.waiting = true)
    (hx : statement programs call program line st s = .ok () t) :
    Timed r (made ++ [⟨st, s⟩]) t := by
  have heffect : Does programs st (statement programs call program line st) s :=
    statement_does hcall hexec
  rw [Does, hx] at heffect
  have hframing : t.control.framing = false := by
    rw [heffect.framing, h.framing, hframe]
    rfl
  by_cases hassign : ∃ name fields value, st = .assign name fields value
  · obtain ⟨name, fields, value, rfl⟩ := hassign
    rw [statement, unlessSkipping_run _ (by simpa [Statement.isExecuted] using hexec)] at hx
    obtain ⟨x, hvalue, hcases⟩ := assign_cases h.framing hx
    split at hcases
    · rename_i htime
      rw [Bool.and_eq_true] at htime
      rw [hcases]
      exact h.time htime.2 hvalue
    · rename_i hother
      have hname : sameLetters name feedName = false := by
        cases hname : sameLetters name feedName with
        | false => rfl
        | true => simp [hwait hname, hname] at hother
      exact h.writes hname hframing hcases.1 hcases.2
  · have hsteady : Steady s t :=
      (statement_steady hcall hframe hdeclare
        (fun name fields value heq => hassign ⟨name, fields, value, heq⟩)).of_ok hx
    have hfeed : st.givesFeed = false := by
      cases st with
      | assign name fields value => exact absurd ⟨name, fields, value, rfl⟩ hassign
      | _ => rfl
    exact h.other hfeed (hsteady.scope ▸ h.plain) hframing (by rw [hsteady.scope])
      (hsteady.motion ▸ h.finish) hsteady.delay

theorem statements {list : List Statement} (h : Timed r made s)
    (hcalls : ∀ st ∈ list, st.callee? programs = none)
    (hframes : ∀ st ∈ list, st.beginsFrame = false) (hdeclare : ∀ d, .declare d ∉ list)
    (hdwell : s.control.waiting = true ∨
      DwellFirst (executed programs call program line list s))
    (hrun : Exec.statements programs call program line list s = .ok () t) :
    Timed r (made ++ executed programs call program line list s) t := by
  induction list generalizing made s with
  | nil =>
    cases hrun
    rwa [executed, List.append_nil]
  | cons st rest ih =>
    cases hstop : s.control.stopped with
    | true =>
      rw [statements_stopped _ hstop] at hrun
      cases hrun
      rwa [executed_stopped _ hstop, List.append_nil]
    | false =>
      have hcall := hcalls st List.mem_cons_self
      obtain ⟨u, hx, hrun⟩ := statements_cons_ok hstop hrun
      rw [executed_cons st rest hstop] at hdwell ⊢
      have hgo := fun {made s} (h : Timed r made s) => ih h
        (fun st' h' => hcalls st' (List.mem_cons_of_mem st h'))
        (fun st' h' => hframes st' (List.mem_cons_of_mem st h'))
        (fun d h' => hdeclare d (List.mem_cons_of_mem st h'))
      cases hexec : st.isExecuted s.control.branches with
      | false =>
        rw [statement_unexecuted hexec] at hx
        cases hx
        rw [hexec, statement_unexecuted hexec] at hdwell
        rw [statement_unexecuted hexec]
        exact hgo h hdwell hrun
      | true =>
        simp only [hexec, hx, if_true, List.singleton_append] at hdwell ⊢
        have heffect : Does programs st (statement programs call program line st) s :=
          statement_does hcall hexec
        rw [Does, hx] at heffect
        rw [← List.singleton_append, ← List.append_assoc]
        refine hgo (h.step hcall (hframes st List.mem_cons_self)
          (fun d hd => hdeclare d (hd ▸ List.mem_cons_self)) hexec (fun hfeed => ?_) hx) ?_ hrun
        · rcases hdwell with hw | hdwell
          · exact hw
          · exact absurd hfeed (Bool.eq_false_iff.mp hdwell.cons.1)
        · rw [heffect.waiting, Bool.or_eq_true, or_assoc]
          exact hdwell.imp_right (fun hfirst => hfirst.cons.2)

theorem endBlock_feed (h : Timed r made s) :
    s.endBlock.state.scope.get? feedName = r.state.scope.get? feedName := by
  rw [← h.feed]
  cases hmotion : s.control.motion with
  | none =>
    cases hw : s.control.waiting <;>
      simp [Run.endBlock, Run.endDwell, Run.endMotion, Run.endFrame, hw, hmotion, h.framing]
  | some motion =>
    have hfinish := h.finish
    rw [hmotion, Option.getD_some] at hfinish
    have hstate : s.endBlock.state = s.state.commit motion := by
      cases hw : s.control.waiting <;>
        simp [Run.endBlock, Run.endDwell, Run.endMotion, Run.endFrame, hw, hmotion, h.framing]
    rw [hstate]
    exact Scope.get?_setAll_other h.plain hfinish

theorem delay_none (h : Timed r made s) (hnone : ∀ e ∈ made, e.statement.givesFeed = false) :
    s.control.delay = none := by
  rw [h.delay, lastAssigned?, List.getLast?_eq_none_iff, List.filterMap_eq_nil_iff]
  exact fun e he => Execution.assigned?_of_not_feed (hnone e he)

theorem delay_last (h : Timed r made s) {front after : List Execution} {e : Execution}
    {name : String} {fields : Option Slots} {value : Expr} (hmade : made = front ++ e :: after)
    (he : e.statement = .assign name fields value) (hname : sameLetters name feedName = true)
    (hafter : ∀ e' ∈ after, e'.statement.givesFeed = false) (hmark : value.marked? = none) :
    ∃ number, value.evaluateNumber e.run.state.scope = .ok number ∧
      s.control.delay = some (e.run.state.dwellTime number) := by
  obtain ⟨hframing, hgiven⟩ := h.given e (hmade ▸ List.mem_append_right _ List.mem_cons_self)
    (by rw [he]; exact hname)
  have hvalue : e.assigned? feedName =
      ((value.evaluateNumber e.run.state.scope).map e.run.state.dwellTime).toOption := by
    simp only [Execution.assigned?, he, hname, if_true, hframing, State.assigned_feed hname hmark]
  obtain ⟨x, hx⟩ := Option.isSome_iff_exists.mp hgiven
  have hquiet : after.filterMap (·.assigned? feedName) = [] :=
    List.filterMap_eq_nil_iff.mpr (fun e' h' => Execution.assigned?_of_not_feed (hafter e' h'))
  have hlast : s.control.delay = some x := by
    rw [h.delay, hmade, lastAssigned?, List.filterMap_append, List.filterMap_cons, hx, hquiet,
      List.getLast?_append]
    rfl
  rw [hx] at hvalue
  cases hnumber : value.evaluateNumber e.run.state.scope with
  | error cause =>
    rw [hnumber] at hvalue
    cases hvalue
  | ok number =>
    rw [hnumber] at hvalue
    exact ⟨number, rfl, hlast.trans hvalue⟩

end Timed

theorem delay_reported {made : List Statement} (h : Begun programs r made s)
    (hw : s.control.waiting = true) : ∃ told, s.endBlock.events.toList = r.events.toList ++ told ∧
      told.filterMap Event.delay? = [s.control.delay] := by
  refine ⟨made.filterMap (Statement.report? programs) ++ s.dueEvents, ?_, ?_⟩
  · rw [Run.endBlock_events, h.events, List.append_assoc]
  · have hquiet : (made.filterMap (Statement.report? programs)).filterMap Event.delay? = [] := by
      rw [List.filterMap_eq_nil_iff]
      intro e he
      obtain ⟨st, -, hst⟩ := List.mem_filterMap.mp he
      exact Statement.delay?_report hst
    rw [List.filterMap_append, hquiet, Run.dueEvents, if_pos hw]
    cases s.control.motion <;> rfl

/-- A block with a dwell before the first word of the feed reports one delay: none if no such word
follows, else that of the last one. The number is evaluated where the word is reached. Where
lengths are given in millimetres and no axis has the name of the feed, it is the delay as it is.
The feed is what it was. -/
theorem dwell_time (programs : Table Program) (call : Program → Exec Unit) (program : Program)
    (b : Block) (r s : Run) (hplain : r.state.scope.Plain) (hdue : r.control.due = {})
    (hdelay : r.control.delay = none) (hcalls : ∀ st ∈ b.statements, st.callee? programs = none)
    (hframes : ∀ st ∈ b.statements, st.beginsFrame = false)
    (hdeclare : ∀ d, .declare d ∉ b.statements)
    (hmark : ∀ name fields value, .assign name fields value ∈ b.statements →
      sameLetters name feedName = true → value.marked? = none)
    (hdwell : DwellFirst (executed programs call program b.line b.statements r))
    (h : block programs call program b r = .ok () s) :
    let made := executed programs call program b.line b.statements r
    ∃ delay told, s.events.toList = r.events.toList ++ told ∧
      told.filterMap Event.delay? = [delay] ∧
      s.state.scope.get? feedName = r.state.scope.get? feedName ∧
      ((∀ e ∈ made, e.statement.givesFeed = false) → delay = none) ∧
      ∀ front e after name fields value, made = front ++ e :: after →
        e.statement = .assign name fields value → sameLetters name feedName = true →
        (∀ e' ∈ after, e'.statement.givesFeed = false) →
        ∃ number, value.evaluateNumber e.run.state.scope = .ok number ∧
          delay = some (e.run.state.dwellTime number) ∧
          (e.run.state.metric = true →
            e.run.state.machine.isCoordinateOrCenter feedName = false → delay = some number) := by
  intro made
  have hbegun := @Begun.statements programs call program b.line r r [] b.statements
    (Begun.start hdue) hcalls
  rw [block_run] at h
  split at h
  · rename_i t ht
    cases h
    rw [ht] at hbegun
    have htimed : Timed r made t :=
      (Timed.start hplain hdue hdelay).statements hcalls hframes hdeclare (.inr hdwell) ht
    have hw : t.control.waiting = true := by
      obtain ⟨before, dwell, after, hmade, hdwell, -⟩ := hdwell
      rw [hbegun.waiting, List.nil_append, hmade]
      simp [hdwell]
    obtain ⟨told, htold, hdelays⟩ := delay_reported hbegun hw
    refine ⟨t.control.delay, told, htold, hdelays, htimed.endBlock_feed, htimed.delay_none, ?_⟩
    intro front e after name fields value hmade he hname hafter
    have hmem : .assign name fields value ∈ b.statements := by
      rw [← he]
      exact mem_of_executed (show e ∈ made from hmade ▸ List.mem_append_right _ List.mem_cons_self)
    obtain ⟨number, hnumber, htime⟩ :=
      htimed.delay_last hmade he hname hafter (hmark name fields value hmem hname)
    refine ⟨number, hnumber, htime, fun hmetric haxis => ?_⟩
    rw [htime, State.dwellTime_metric hmetric haxis]
  · cases h

def feeding : Run where
  state := { scope := ({} : Scope).set "F" 100.0 }

def pausing : Block where
  line := 1
  statements := [.gcode 4 none, .assign "F" none (.int 3), .assign "R1" none (.int 7),
    .assign "f" none (.bin .add (.var "R1" none) (.int 1)), .assign "X" none (.int 5)]

theorem dwell_time_pausing : ∃ s,
    block [] (fun _ => pure ()) ⟨[]⟩ pausing feeding = .ok () s ∧
      s.events.toList.filterMap Event.delay? = [some 8.0] ∧
      s.state.scope.get? "F" = some 100.0 := by
  have hplain : feeding.state.scope.Plain :=
    Scope.plain_set (by simp [Scope.Plain, Scope.layers]) "F" 100.0
  have hmark : ∀ name fields value, .assign name fields value ∈ pausing.statements →
      sameLetters name feedName = true → value.marked? = none := by
    intro name fields value hmem _
    simp only [pausing, List.mem_cons, Statement.assign.injEq, reduceCtorEq, List.not_mem_nil,
      or_false, false_or] at hmem
    rcases hmem with h | h | h | h <;> rw [h.2.2] <;> rfl
  obtain ⟨delay, told, htold, hdelays, hfeed, -, htime⟩ := dwell_time [] (fun _ => pure ()) ⟨[]⟩
    pausing feeding _ hplain rfl rfl (by simp [pausing, Statement.callee?])
    (by simp [pausing, Statement.beginsFrame]) (by simp [pausing]) hmark
    ⟨[], _, _, rfl, rfl, by simp⟩ rfl
  obtain ⟨number, hnumber, -, hdelay⟩ := htime [_, _, _] _ [_] "f" none
    (.bin .add (.var "R1" none) (.int 1)) rfl rfl (by decide) (by simp [Statement.givesFeed]; decide)
  have height : number = 8.0 := by
    refine Except.ok.inj (hnumber.symm.trans ?_)
    decide +kernel
  refine ⟨_, rfl, ?_, hfeed.trans (by decide +kernel)⟩
  rw [htold, ← height, ← hdelay rfl rfl, ← hdelays]
  rfl

def inInches : Run where
  state := { metric := false }

/-- In inches the time is converted as if it were a length. -/
theorem dwell_time_converted : ∃ s,
    block [] (fun _ => pure ()) ⟨[]⟩
        { line := 1, statements := [.gcode 4 none, .assign "F" none (.int 2)] } inInches =
      .ok () s ∧ (Expr.int 2).evaluateNumber inInches.state.scope = .ok 2.0 ∧
      s.events.toList.filterMap Event.delay? = [some 50.8] ∧ (50.8 : Float) ≠ 2.0 :=
  ⟨_, rfl, by decide +kernel, by decide +kernel, by decide +kernel⟩

end Exec

end PartProgram
