import PartProgram.Proofs.Run.Executed
import PartProgram.Proofs.Run.Isolation

/-!
# The end of the program

An M2 or M30 ends all programs that are being run, the outermost one and every
subprogram. It is the last statement that the run executes. Only what its block
has left to the end is reported behind it, and the run succeeds.
-/

set_option autoImplicit false

namespace PartProgram

namespace Exec

variable {programs : Table Program} {call : Program → Exec Unit} {program : Program}
  {line steps index : Nat} {r s : Run}

/-- The end of the program has been reported exactly if it has come. -/
def Told (r : Run) : Prop := .ended ∈ r.events.toList ↔ r.control.stopped = true

def KeepsTold (r s : Run) : Prop := Told r → Told s

theorem keepsTold_passage : Passage KeepsTold where
  refl _ h := h
  trans h h' hr := h' (h hr)

theorem keepsTold_append {events : List Event} (hs : s.control.stopped = r.control.stopped)
    (he : s.events.toList = r.events.toList ++ events) (hn : .ended ∉ events) : KeepsTold r s := by
  intro h
  rw [Told, he, hs, List.mem_append, or_iff_left hn]
  exact h

theorem keepsTold_report {e : Event} (he : e ≠ .ended) : KeepsTold r (r.report e) :=
  keepsTold_append rfl (r.toList_report e) (by simpa using he.symm)

theorem Remarks.keepsTold (h : Remarks r s) : KeepsTold r s := by
  obtain ⟨hs, remarks, he, hr⟩ := h
  exact keepsTold_append hs he (fun hmem => (Event.remark_kind (hr _ hmem)).2 rfl)

theorem keepsTold_endBlock (r : Run) : KeepsTold r r.endBlock :=
  keepsTold_append r.endBlock_stopped r.endBlock_events
    (fun hmem => (Run.dueEvents_kind hmem).2 rfl)

theorem keepsTold_ended (r : Run) : KeepsTold r r.ended := by
  intro _
  simp [Told, Run.ended, Run.report]

theorem place_ne_ended {e : Event} (h : e.isPlace = true) : e ≠ .ended := by
  rintro rfl
  cases h

theorem statement_keepsTold
    (hcall : ∀ name p, programs.find? name = some p → Along KeepsTold (call p))
    (st : Statement) : Along KeepsTold (statement programs call program line st) := by
  intro r
  rw [Leads]
  rcases statement_cases programs call program line st r with
    ⟨name, callee, hc, -, hx⟩ | ⟨-, -, -, hx⟩ | ⟨-, x, ho, hx⟩
  · rw [hx]
    exact keepsTold_passage.callSubprogram (hcall _ callee (Statement.find?_of_callee? hc))
      (fun _ _ he => keepsTold_report (place_ne_ended he)) r
  · rw [hx]
    exact keepsTold_ended r
  · rw [hx]
    exact ho.remarks.mono Remarks.keepsTold r

theorem runFrom_keepsTold (programs : Table Program) (steps : Nat) (p : Program) (index : Nat) :
    Along KeepsTold (runFrom programs steps p index) := by
  apply keepsTold_passage.runFrom (fun _ => True)
  · exact fun _ _ he => keepsTold_report (place_ne_ended he)
  · intro call hcall program _ block _ st _
    exact statement_keepsTold (fun _ p _ => hcall p trivial) st
  · exact keepsTold_endBlock
  · exact fun _ h => h
  · trivial

theorem executions_told (hr : Told r) {e : Execution}
    (he : e ∈ executions programs steps program index r) : Told e.run := by
  refine keepsTold_passage.executions (fun _ => True) ?_ ?_ keepsTold_endBlock (fun _ h => h)
    (fun _ _ _ => trivial) steps trivial index he hr
  · exact fun _ _ hp => keepsTold_report (place_ne_ended hp)
  · intro call hcall program _ block _ st _
    exact statement_keepsTold (fun _ p _ => hcall p trivial) st

/-- Of the executed statements none ends the program, or the last one does and no other. Then
the action succeeds, and only the end of that block is left to do. -/
def Finishes (result : EStateM.Result Halt Run Unit) (list : List Execution) : Prop :=
  match result with
  | .ok _ s =>
    (s.control.stopped = false ∧ ∀ e ∈ list, e.statement.endsProgram = false) ∨
      s.control.stopped = true ∧ ∃ before e, list = before ++ [e] ∧
        (∀ x ∈ before, x.statement.endsProgram = false) ∧ e.statement.endsProgram = true ∧
        e.run.control.stopped = false ∧ s.endBlock = e.run.ended.endBlock
  | .error _ s => s.control.stopped = false ∧ ∀ e ∈ list, e.statement.endsProgram = false

theorem Finishes.append {result : EStateM.Result Halt Run Unit} {first list : List Execution}
    (hfirst : ∀ e ∈ first, e.statement.endsProgram = false) (h : Finishes result list) :
    Finishes result (first ++ list) := by
  have hboth : ∀ {list : List Execution}, (∀ e ∈ list, e.statement.endsProgram = false) →
      ∀ e ∈ first ++ list, e.statement.endsProgram = false := by
    intro list hlist e he
    rcases List.mem_append.mp he with he | he
    · exact hfirst e he
    · exact hlist e he
  cases result with
  | error halt s => exact ⟨h.1, hboth h.2⟩
  | ok a s =>
    rcases h with ⟨hs, hlist⟩ | ⟨hs, before, e, rfl, hbefore, he⟩
    · exact .inl ⟨hs, hboth hlist⟩
    · exact .inr ⟨hs, first ++ before, e, (List.append_assoc ..).symm, hboth hbefore, he⟩

def CallsFinish (call : Program → Exec Unit) (inner : Program → Run → List Execution) : Prop :=
  ∀ callee r, r.control.stopped = false → Finishes (call callee r) (inner callee r)

/-- What a statement of a block executes. -/
def executedBy (programs : Table Program) (inner : Program → Run → List Execution)
    (st : Statement) (r : Run) : List Execution :=
  if st.isExecuted r.control.branches then
    ⟨st, r⟩ :: Execution.inside programs inner ⟨st, r⟩
  else []

theorem callSubprogram_finishes {inner : Program → Run → List Execution}
    (hcall : CallsFinish call inner) (line : Nat) (name : String) (callee : Program)
    (hr : r.control.stopped = false) :
    Finishes (callSubprogram call line name callee r)
      (inner callee (r.report (.enter name callee.blocks.length))) := by
  have h := hcall callee (r.report (.enter name callee.blocks.length)) hr
  rw [callSubprogram_run]
  cases hx : call callee (r.report (.enter name callee.blocks.length)) with
  | error halt s =>
    rw [hx] at h
    exact h
  | ok a s =>
    rw [hx] at h
    rcases h with ⟨hs, hlist⟩ | ⟨hs, hlast⟩
    · simp only [hs, Bool.false_eq_true, if_false]
      exact .inl ⟨hs, hlist⟩
    · simp only [hs, if_true]
      exact .inr ⟨hs, hlast⟩

theorem statement_finishes (programs : Table Program) (program : Program) (line : Nat)
    {inner : Program → Run → List Execution} (hcall : CallsFinish call inner) (st : Statement)
    (hr : r.control.stopped = false) :
    Finishes (statement programs call program line st r) (executedBy programs inner st r) := by
  rcases statement_cases programs call program line st r with
    ⟨name, callee, hc, hexec, hx⟩ | ⟨hend, hc, hexec, hx⟩ | ⟨hplain, x, ho, hx⟩
  · have hend : st.endsProgram = false := by
      cases st with
      | mcode id => cases hc
      | _ => rfl
    rw [hx, executedBy, if_pos hexec, Execution.inside, hc]
    have hfirst : ∀ e ∈ [(⟨st, r⟩ : Execution)], e.statement.endsProgram = false := by
      simpa using hend
    exact (callSubprogram_finishes hcall line name callee hr).append hfirst
  · rw [hx, executedBy, if_pos hexec, Execution.inside, hc]
    exact .inr ⟨rfl, [], ⟨st, r⟩, rfl, by simp, hend, hr, rfl⟩
  · have hlist : ∀ e ∈ executedBy programs inner st r, e.statement.endsProgram = false := by
      intro e he
      simp only [executedBy] at he
      split at he
      · rename_i hexec
        obtain ⟨hc, hend⟩ := hplain hexec
        simp only [Execution.inside, hc] at he
        cases List.mem_singleton.mp he
        exact hend
      · cases he
    rw [hx]
    cases hxr : x r with
    | error halt s => exact ⟨((ho.remarks r).of_error hxr).stopped.trans hr, hlist⟩
    | ok a s => exact .inl ⟨((ho.remarks r).of_ok hxr).stopped.trans hr, hlist⟩

theorem statements_finishes (programs : Table Program) (program : Program) (line : Nat)
    {inner : Program → Run → List Execution} (hcall : CallsFinish call inner)
    (list : List Statement) (hr : r.control.stopped = false) :
    Finishes (statements programs call program line list r)
      ((executed programs call program line list r).flatMap
        (fun e => e :: e.inside programs inner)) := by
  induction list generalizing r with
  | nil => exact .inl ⟨hr, by simp [executed]⟩
  | cons st rest ih =>
    have hfirst := statement_finishes programs program line hcall st hr
    have hby : ((if st.isExecuted r.control.branches then [⟨st, r⟩] else []).flatMap
        (fun e => e :: e.inside programs inner)) = executedBy programs inner st r := by
      rw [executedBy]
      split <;> simp
    rw [statements_cons st rest hr, executed_cons st rest hr, List.flatMap_append, hby]
    cases hx : statement programs call program line st r with
    | error halt s =>
      rw [hx] at hfirst
      simpa [Finishes] using hfirst
    | ok a s =>
      rw [hx] at hfirst
      rcases hfirst with ⟨hs, hlist⟩ | ⟨hs, hlast⟩
      · exact (ih hs).append hlist
      · simp only [statements_stopped rest hs, executed_stopped rest hs, List.flatMap_nil,
          List.append_nil]
        exact .inr ⟨hs, hlast⟩

theorem block_finishes (programs : Table Program) (program : Program)
    {inner : Program → Run → List Execution} (hcall : CallsFinish call inner) (b : Block)
    (hr : r.control.stopped = false) :
    Finishes (block programs call program b r)
      ((executed programs call program b.line b.statements r).flatMap
        (fun e => e :: e.inside programs inner)) := by
  have h := statements_finishes programs program b.line hcall b.statements hr
  rw [block_run]
  cases hx : statements programs call program b.line b.statements r with
  | error halt s =>
    rw [hx] at h
    exact h
  | ok a s =>
    rw [hx] at h
    rcases h with ⟨hs, hlist⟩ | ⟨hs, before, e, hlist, hbefore, he, hgo, hend⟩
    · exact .inl ⟨by rw [Run.endBlock_stopped, hs], hlist⟩
    · refine .inr ⟨by rw [Run.endBlock_stopped, hs], before, e, hlist, hbefore, he, hgo, ?_⟩
      -- Every block on the way out to the first caller ends again, but has nothing left to do.
      rw [Run.endBlock_endBlock, hend]

theorem runFrom_finishes (programs : Table Program) (steps : Nat) (p : Program) (index : Nat)
    (hr : r.control.stopped = false) :
    Finishes (runFrom programs steps p index r) (executions programs steps p index r) := by
  induction steps generalizing p index r with
  | zero => exact ⟨hr, fun _ he => nomatch he⟩
  | succ steps ih =>
    cases hb : p.blocks[index]? with
    | none =>
      rw [runFrom_none hb]
      simp only [executions, hb]
      exact .inl ⟨hr, by simp⟩
    | some b =>
      rw [runFrom_some hb]
      simp only [executions, hb]
      have hblock := block_finishes programs p (fun callee _ hr => ih callee 0 hr) b
        (r := r.report (.block index b.line p.blocks.length)) hr
      cases hx : block programs (fun callee => runFrom programs steps callee 0) p b
          (r.report (.block index b.line p.blocks.length)) with
      | error halt s =>
        rw [hx] at hblock
        simpa [Finishes] using hblock
      | ok a s =>
        rw [hx] at hblock
        rcases hblock with ⟨hs, hlist⟩ | ⟨hs, hlast⟩
        · simp only [hs, Bool.false_eq_true, if_false]
          cases hnext : s.control.next? index with
          | none => exact .inl ⟨hs, by simpa using hlist⟩
          | some next => exact (ih p next (r := s.landed) hs).append hlist
        · simp only [hs, if_true, List.append_nil]
          exact .inr ⟨hs, hlast⟩

theorem runFrom_ended (hr : r.control.stopped = false)
    (h : runFrom programs steps program index r = .ok () s) (hs : s.control.stopped = true) :
    s.endBlock = s := by
  induction steps generalizing index r with
  | zero => cases h
  | succ steps ih =>
    cases hb : program.blocks[index]? with
    | none =>
      rw [runFrom_none hb] at h
      cases h
      rw [hr] at hs
      cases hs
    | some b =>
      rw [runFrom_some hb, block_run] at h
      split at h
      · cases h
      · rename_i after hx
        have hafter : after.endBlock = after := by
          split at hx
          · cases hx
            exact Run.endBlock_endBlock _
          · cases hx
        split at h
        · cases h
          exact hafter
        · rename_i hgo
          have hgo : after.landed.control.stopped = false := Bool.eq_false_iff.mpr hgo
          split at h
          · exact ih hgo h
          · cases h
            rw [hgo] at hs
            cases hs

end Exec

namespace Session

def executions (steps : Nat) (p : Program) (s : Session) : List Execution :=
  Exec.executions s.programs steps p 0 { state := s.state }

theorem process_ends (s : Session) (steps : Nat) (p : Program) :
    ((∀ e ∈ s.executions steps p, e.statement.endsProgram = false) ∧
      .ended ∉ (s.process steps p).1.events) ∨
    ∃ before e, s.executions steps p = before ++ [e] ∧
      (∀ x ∈ before, x.statement.endsProgram = false) ∧ e.statement.endsProgram = true ∧
      e.run.control.stopped = false ∧ (s.process steps p).1.halt = none ∧
      (s.process steps p).1.events = e.run.events.toList ++ .ended :: e.run.dueEvents := by
  have hfinish := Exec.runFrom_finishes s.programs steps p 0 (r := { state := s.state }) rfl
  have htold := Exec.runFrom_keepsTold s.programs steps p 0 { state := s.state }
  change Exec.Finishes _ (s.executions steps p) at hfinish
  simp only [process]
  have hstart : Exec.Told { state := s.state } := by simp [Exec.Told]
  cases hx : Exec.runFrom s.programs steps p 0 { state := s.state } with
  | error halt r =>
    rw [hx] at hfinish
    refine .inl ⟨hfinish.2, fun hmem => ?_⟩
    simpa [hfinish.1] using (htold.of_error hx hstart).mp hmem
  | ok a r =>
    rw [hx] at hfinish
    rcases hfinish with ⟨hs, hlist⟩ | ⟨hs, before, e, hlist, hbefore, he, hgo, hend⟩
    · refine .inl ⟨hlist, fun hmem => ?_⟩
      simpa [hs] using (htold.of_ok hx hstart).mp hmem
    · refine .inr ⟨before, e, hlist, hbefore, he, hgo, rfl, ?_⟩
      have hr : r = e.run.ended.endBlock := (Exec.runFrom_ended rfl hx hs).symm.trans hend
      simp [hr, Run.endBlock_events]

end Session

/-- The end of the program is reported exactly if an M2 or M30 is executed, and once. Behind it
comes only what the block of that statement has left to its end, and the run succeeds. -/
theorem program_end_final (s : Session) (steps : Nat) (p : Program) :
    (∀ e ∈ s.executions steps p, e.statement.endsProgram = true →
      (s.process steps p).1.halt = none ∧
      (s.process steps p).1.events = e.run.events.toList ++ .ended :: e.run.dueEvents ∧
      .ended ∉ e.run.events.toList ∧ .ended ∉ e.run.dueEvents) ∧
    (.ended ∈ (s.process steps p).1.events →
      ∃ e ∈ s.executions steps p, e.statement.endsProgram = true) := by
  rcases s.process_ends steps p with
    ⟨hnone, hevents⟩ | ⟨before, last, hlist, hbefore, hlast, hgo, hhalt, hevents⟩
  · refine ⟨fun e he hend => ?_, fun hmem => absurd hmem hevents⟩
    simp [hnone e he] at hend
  · have hmem : last ∈ s.executions steps p := by simp [hlist]
    refine ⟨fun e he hend => ?_, fun _ => ⟨last, hmem, hlast⟩⟩
    have heq : e = last := by
      rw [hlist] at he
      rcases List.mem_append.mp he with he | he
      · simp [hbefore e he] at hend
      · exact List.mem_singleton.mp he
    subst heq
    refine ⟨hhalt, hevents, fun hended => ?_, fun hdue => (Run.dueEvents_kind hdue).2 rfl⟩
    have htold : Exec.Told e.run := Exec.executions_told (by simp [Exec.Told]) hmem
    simpa [hgo] using htold.mp hended

def endingSubprogram : Program :=
  ⟨[{ line := 1, statements := [.assign "Y" none (.int 2), .mcode 30, .mcode 7] },
    { line := 2, statements := [.mcode 8] }]⟩

def endedInCall : Program :=
  ⟨[{ line := 1, statements :=
        [.gcode 4 none, .assign "X" none (.int 1), .instruction "SUB" none, .mcode 9] },
    { line := 2, statements := [.mcode 10] }]⟩

theorem program_end_final_in_call :
    ∃ e ∈ Session.executions 3 endedInCall { programs := [("SUB", endingSubprogram)] },
      e.statement.endsProgram = true ∧ e.run.dueEvents.length = 2 ∧
      (Session.process 3 endedInCall { programs := [("SUB", endingSubprogram)] }).1.halt = none ∧
      (Session.process 3 endedInCall { programs := [("SUB", endingSubprogram)] }).1.events =
        e.run.events.toList ++ .ended :: e.run.dueEvents := by
  refine ⟨_, List.mem_of_getElem? (i := 4) rfl, rfl, rfl, ?_⟩
  have h := (program_end_final { programs := [("SUB", endingSubprogram)] } 3 endedInCall).1 _
    (List.mem_of_getElem? (i := 4) rfl) rfl
  exact ⟨h.1, h.2.1⟩

end PartProgram
