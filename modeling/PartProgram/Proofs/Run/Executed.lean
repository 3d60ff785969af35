import PartProgram.Proofs.Run.Execution
import PartProgram.Proofs.Run.Structured.Skipped

/-!
# Executed statements

A statement calls a subprogram, ends the program, or does neither. In the
last case it reports nothing but remarks for the receiver, and an error of it is
one of its own line. What every step of a run keeps has been kept wherever the
run executes a statement.
-/

set_option autoImplicit false

namespace PartProgram

namespace Exec

variable {programs : Table Program} {call : Program → Exec Unit} {program : Program}
variable {line steps index : Nat} {r : Run}

/-- Nothing was reported but remarks, and the program has not ended itself. -/
structure Remarks (r s : Run) : Prop where
  stopped : s.control.stopped = r.control.stopped
  events : ∃ remarks, s.events.toList = r.events.toList ++ remarks ∧
    ∀ e ∈ remarks, e.isRemark = true

theorem Remarks.quiet {s : Run} (hs : s.control.stopped = r.control.stopped)
    (he : s.events = r.events) : Remarks r s :=
  ⟨hs, [], by simp [he], by simp⟩

theorem Remarks.report {e : Event} (he : e.isRemark = true) : Remarks r (r.report e) :=
  ⟨rfl, [e], Array.toList_push, by simpa using he⟩

theorem remarks_passage : Passage Remarks where
  refl _ := .quiet rfl rfl
  trans := by
    rintro r s t ⟨hs, first, hfirst, hr⟩ ⟨ht, second, hsecond, hr'⟩
    refine ⟨ht.trans hs, first ++ second, ?_, ?_⟩
    · rw [hsecond, hfirst, List.append_assoc]
    · intro e he
      rcases List.mem_append.mp he with he | he
      · exact hr e he
      · exact hr' e he

/-- The action reports remarks only and fails in the given line only. -/
structure Ordinary {α : Type} (line : Nat) (x : Exec α) : Prop where
  remarks : Along Remarks x
  fails : ∀ {r s : Run} {halt : Halt}, x r = .error halt s →
    ∃ cause, halt = .failed { line, cause }

section Ordinary

variable {α β : Type}

theorem ordinary_pure (a : α) : Ordinary line (pure a : Exec α) where
  remarks := remarks_passage.pure a
  fails h := by cases h

theorem ordinary_orFail (result : Except RunCause α) : Ordinary line (orFail line result) where
  remarks := remarks_passage.orFail line result
  fails h := by
    cases result with
    | ok a => cases h
    | error cause =>
      cases h
      exact ⟨cause, rfl⟩

theorem ordinary_modify {f : Run → Run} (h : ∀ r, Remarks r (f r)) :
    Ordinary line (modify f : Exec PUnit) where
  remarks r := leads_modify (h r)
  fails h := by cases h

theorem ordinary_get {k : Run → Exec α} (h : ∀ r, Ordinary line (k r)) :
    Ordinary line ((get : Exec Run) >>= k) where
  remarks r := leads_get ((h r).remarks r)
  fails {r _ _} hx := (h r).fails (r := r) hx

theorem Ordinary.bind {x : Exec α} {k : α → Exec β} (hx : Ordinary line x)
    (hk : ∀ a, Ordinary line (k a)) : Ordinary line (x >>= k) where
  remarks := remarks_passage.bind hx.remarks (fun a => (hk a).remarks)
  fails {r _ _} h := by
    rw [run_bind] at h
    cases hr : x r with
    | ok a s =>
      rw [hr] at h
      exact (hk a).fails h
    | error halt s =>
      rw [hr] at h
      cases h
      exact hx.fails hr

theorem Ordinary.ite {b : Prop} [Decidable b] {x y : Exec α} (hx : Ordinary line x)
    (hy : Ordinary line y) : Ordinary line (if b then x else y) := by
  by_cases hb : b
  · rwa [if_pos hb]
  · rwa [if_neg hb]

theorem ordinary_forM {f : α → Exec PUnit} (h : ∀ a, Ordinary line (f a)) (list : List α) :
    Ordinary line (list.forM f) := by
  induction list with
  | nil => exact ordinary_pure ()
  | cons a list ih => exact (h a).bind (fun _ => ih)

theorem ordinary_modifyState (f : State → State) : Ordinary line (modifyState f) :=
  ordinary_modify (fun _ => .quiet rfl rfl)

theorem ordinary_modifyControl {f : Control → Control} (h : ∀ c, (f c).stopped = c.stopped) :
    Ordinary line (modifyControl f) :=
  ordinary_modify (fun r => .quiet (h r.control) rfl)

theorem ordinary_emit {e : Event} (he : e.isRemark = true) : Ordinary line (emit e) :=
  ordinary_modify (fun _ => .report he)

theorem ordinary_flow (f : Flow) : Ordinary line (flow line f) :=
  ordinary_get (fun _ => (ordinary_orFail _).bind (fun _ => ordinary_modifyControl (fun _ => rfl)))

theorem ordinary_declare (d : Declaration) : Ordinary line (declare line d) := by
  have hv : ∀ zero v, Ordinary line (declareVariable line zero v) := by
    intro zero v
    apply ordinary_get
    intro r
    exact (ordinary_orFail _).bind (fun _ => ordinary_modifyState _)
  unfold declare
  split
  · exact ordinary_forM (hv _) d.declared
  · exact ordinary_forM (hv _) d.declared
  · exact ordinary_pure ()

theorem ordinary_assign (name : String) (value : Expr) :
    Ordinary line (assign line name value) := by
  apply ordinary_get
  intro r
  apply (ordinary_orFail _).bind
  intro x
  apply Ordinary.ite
  · exact ordinary_modifyState _
  · apply Ordinary.ite
    · exact ordinary_modifyControl (fun _ => rfl)
    · apply Ordinary.ite
      · exact ordinary_get (fun _ => ordinary_modifyControl (fun _ => rfl))
      · exact ordinary_modifyState _

theorem ordinary_gcode (id : Nat) (args : Option (List Expr)) :
    Ordinary line (gcode id args) := by
  unfold gcode
  split
  case h_5 => exact ordinary_modifyControl (fun _ => rfl)
  case h_10 => exact ordinary_emit rfl
  all_goals exact ordinary_modifyState _

theorem ordinary_mcode {id : Nat} (h : (Statement.mcode id).endsProgram = false) :
    Ordinary line (mcode id) := by
  have hid : ¬(id = 2 || id = 30) = true := by simpa [Statement.endsProgram] using h
  rw [mcode, if_neg hid]
  exact Ordinary.ite (ordinary_modifyControl (fun _ => rfl)) (ordinary_emit rfl)

theorem ordinary_jump (target : Option Expr) : Ordinary line (jump program line target) :=
  (ordinary_orFail _).bind (fun _ => ordinary_modifyControl (fun _ => rfl))

theorem ordinary_beginFrame (replace : Bool) : Ordinary line (beginFrame replace) :=
  (ordinary_modifyState _).bind (fun _ => ordinary_modifyControl (fun _ => rfl))

end Ordinary

/-- What a statement can do: call a subprogram, end the program, or neither. -/
theorem statement_cases (programs : Table Program) (call : Program → Exec Unit)
    (program : Program) (line : Nat) (s : Statement) (r : Run) :
    (∃ name callee, s.callee? programs = some (name, callee) ∧
      s.isExecuted r.control.branches = true ∧
      statement programs call program line s r = callSubprogram call line name callee r) ∨
    (s.endsProgram = true ∧ s.callee? programs = none ∧
      s.isExecuted r.control.branches = true ∧
      statement programs call program line s r = .ok () r.ended) ∨
    ((s.isExecuted r.control.branches = true →
        s.callee? programs = none ∧ s.endsProgram = false) ∧
      ∃ x : Exec Unit, Ordinary line x ∧ statement programs call program line s r = x r) := by
  by_cases hskip : skipping r.control.branches = true
  · cases s with
    | flow f => exact .inr (.inr ⟨fun _ => ⟨rfl, rfl⟩, _, ordinary_flow f, rfl⟩)
    | _ =>
      right; right
      refine ⟨by simp [Statement.isExecuted, hskip], pure (), ordinary_pure (), ?_⟩
      exact statement_skipped line rfl hskip
  have hgo : skipping r.control.branches = false := Bool.eq_false_iff.mpr hskip
  have hrun : ∀ body : Exec Unit, unlessSkipping body r = body r := fun body =>
    unlessSkipping_run body hgo
  cases s with
  | flow f => exact .inr (.inr ⟨fun _ => ⟨rfl, rfl⟩, _, ordinary_flow f, rfl⟩)
  | declare d => exact .inr (.inr ⟨fun _ => ⟨rfl, rfl⟩, _, ordinary_declare d, hrun _⟩)
  | assign name fields value =>
    exact .inr (.inr ⟨fun _ => ⟨rfl, rfl⟩, _, ordinary_assign name value, hrun _⟩)
  | gcode id args => exact .inr (.inr ⟨fun _ => ⟨rfl, rfl⟩, _, ordinary_gcode id args, hrun _⟩)
  | mcode id =>
    cases hend : (Statement.mcode id).endsProgram with
    | false => exact .inr (.inr ⟨fun _ => ⟨rfl, rfl⟩, _, ordinary_mcode hend, hrun _⟩)
    | true =>
      have hid : (id = 2 || id = 30) = true := by simpa [Statement.endsProgram] using hend
      refine .inr (.inl ⟨rfl, rfl, Statement.isExecuted_of_not_skipping hgo _, ?_⟩)
      rw [statement, hrun, mcode, if_pos hid]
      rfl
  | jump direction target =>
    exact .inr (.inr ⟨fun _ => ⟨rfl, rfl⟩, _, ordinary_jump target, hrun _⟩)
  | instruction name args =>
    cases hframe : frameInstruction? name with
    | some replace =>
      refine .inr (.inr ⟨fun _ => ⟨by simp [Statement.callee?, hframe], rfl⟩, _,
        ordinary_beginFrame replace, ?_⟩)
      rw [statement, hrun, instruction, hframe]
    | none =>
      cases hfind : programs.find? (upper name) with
      | none =>
        refine .inr (.inr ⟨fun _ => ⟨by simp [Statement.callee?, hfind], rfl⟩, _,
          ordinary_emit (e := .instruction name args) rfl, ?_⟩)
        rw [statement, hrun, instruction, hframe, hfind]
      | some callee =>
        by_cases hargs : (args.getD []).isEmpty = true
        · refine .inl ⟨name, callee, by simp [Statement.callee?, hframe, hfind, hargs],
            Statement.isExecuted_of_not_skipping hgo _, ?_⟩
          simp only [statement, hrun, instruction, hframe, hfind, if_pos hargs]
        · refine .inr (.inr ⟨fun _ => ⟨by simp [Statement.callee?, hargs], rfl⟩, _,
            ordinary_orFail (.error (.unexpectedArguments name)), ?_⟩)
          simp only [statement, hrun, instruction, hframe, hfind, if_neg hargs]

namespace Passage

variable {P : Run → Run → Prop} (hP : Passage P)
include hP

theorem executed (list : List Statement)
    (h : ∀ s ∈ list, Along P (Exec.statement programs call program line s)) {r : Run}
    {e : Execution} (he : e ∈ Exec.executed programs call program line list r) : P r e.run := by
  induction list generalizing r with
  | nil => cases he
  | cons s rest ih =>
    by_cases hstop : r.control.stopped = true
    · rw [executed_stopped _ hstop] at he
      cases he
    rw [executed_cons s rest (Bool.eq_false_iff.mpr hstop)] at he
    rcases List.mem_append.mp he with he | he
    · split at he
      · cases List.mem_singleton.mp he
        exact hP.refl r
      · cases he
    · cases hx : Exec.statement programs call program line s r with
      | error halt after =>
        rw [hx] at he
        cases he
      | ok a after =>
        rw [hx] at he
        have hs := (h s List.mem_cons_self r).of_ok hx
        exact hP.trans hs (ih (fun s' hs' => h s' (List.mem_cons_of_mem s hs')) he)

/-- What every step of a run keeps has been kept wherever the run executes a statement. -/
theorem executions (good : Program → Prop)
    (hemit : ∀ (r : Run) (e : Event), e.isPlace = true → P r (r.report e))
    (hstatement : ∀ call : Program → Exec Unit, (∀ callee, good callee → Along P (call callee)) →
      ∀ program, good program → ∀ block ∈ program.blocks, ∀ s ∈ block.statements,
        Along P (Exec.statement programs call program block.line s))
    (hend : ∀ r : Run, P r r.endBlock) (hjump : ∀ r : Run, P r r.landed)
    (hprograms : ∀ name p, programs.find? name = some p → good p)
    (steps : Nat) (hgood : good program) (index : Nat) {r : Run} {e : Execution}
    (he : e ∈ Exec.executions programs steps program index r) : P r e.run := by
  induction steps generalizing program index r with
  | zero => cases he
  | succ steps ih =>
    simp only [Exec.executions] at he
    cases hb : program.blocks[index]? with
    | none =>
      rw [hb] at he
      cases he
    | some b =>
      simp only [hb] at he
      have hcalls : ∀ callee, good callee → Along P (Exec.runFrom programs steps callee 0) :=
        fun callee hc => hP.runFrom good hemit hstatement hend hjump steps callee 0 hc
      have hlist := hstatement _ hcalls program hgood b (List.mem_of_getElem? hb)
      rcases List.mem_append.mp he with he | he
      · obtain ⟨outer, houter, he⟩ := List.mem_flatMap.mp he
        have hr : P r outer.run := hP.trans (hemit r _ rfl) (hP.executed b.statements hlist houter)
        rcases List.mem_cons.mp he with rfl | he
        · exact hr
        · simp only [Execution.inside] at he
          split at he
          · rename_i name callee hcall
            have hcallee := hprograms _ callee (Statement.find?_of_callee? hcall)
            exact hP.trans hr (hP.trans (hemit _ _ rfl) (ih hcallee 0 he))
          · cases he
      · have hblock : Along P
            (Exec.block programs (fun callee => Exec.runFrom programs steps callee 0) program b) :=
          hP.bind (hP.statements b.statements hlist) (fun _ s => leads_modify (hend s))
        split at he
        · cases he
        · rename_i after hx
          have hr := (hblock _).of_ok hx
          split at he
          · cases he
          · split at he
            · have hnext := ih hgood _ he
              exact hP.trans (hemit r _ rfl) (hP.trans hr (hP.trans (hjump after) hnext))
            · cases he

end Passage

end Exec

end PartProgram
