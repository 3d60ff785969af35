import PartProgram.Proofs.Run.OpenBranch.Visit

/-!
# ELSE and ENDIF belong to an open IF

A run keeps a marker for each open branch, and the marker tells neither the
program nor the place of its IF. So an ELSE or ENDIF is accepted if there is any
marker at all. Whether it stands inside an IF that was entered and not left
since depends on the jumps: a jump out of an IF leaves its marker behind, and a
jump into an IF lacks one. Where a program has jumps of one of these kinds only,
and no IF has two ELSEs, the innermost markers are those of the IFs around a
statement.
-/

set_option autoImplicit false

namespace PartProgram

namespace Session

def visits (steps : Nat) (p : Program) (s : Session) : List Visit :=
  Exec.visits s.programs steps p 0 [] { state := s.state }

/-- In programs without repeated ELSEs in which no jump leads into an IF, or none out of one, an
ELSE or ENDIF is accepted exactly if the innermost IF around it was entered and not left since,
and the ELSE is the first for it. Otherwise the run fails in that line. -/
theorem branch_ends_matched (s : Session) (steps : Nat) (p : Program)
    (hp : p.Orderly s.programs)
    (hcalled : ∀ q, p.Calls s.programs q → q.Orderly s.programs ∧ q.NeverEnters)
    (hjumps : p.NeverEnters ∨ p.NeverLeaves ∧ ∀ q, p.Calls s.programs q → q.Balanced)
    (v : Visit) (hv : v ∈ s.visits steps p) (hends : v.statement.endsBranch = true) :
    (v.program.Admits v.visited v.site v.statement ∧
      ∀ call, ∃ r, Exec.statement s.programs call v.program v.line v.statement v.run = .ok () r) ∨
    (¬v.program.Admits v.visited v.site v.statement ∧
      ∃ e, (s.process steps p).1.halt = some (.failed e) ∧
        e.root = { line := v.line, cause := .strayBranch }) := by
  have hadmits : v.program.Admits v.visited v.site v.statement ↔
      v.run.control.branches ≠ [] := by
    rcases hjumps with henters | ⟨hleaves, hbalanced⟩
    · refine Exec.visits_admit ?_ (fun hf : False => hf.elim) (henters.conforms hp) rfl
        (Exec.fits_begin _ p fun hf => hf.elim) hv hends
      exact fun q hq => ⟨(hcalled q hq).2.conforms (hcalled q hq).1, fun hf => hf.elim⟩
    · refine Exec.visits_admit ?_ (fun ht : True => ht) (hleaves.conforms hp) rfl
        (Exec.fits_begin _ p fun _ => rfl) hv hends
      intro q hq
      obtain ⟨horderly, henters⟩ := hcalled q hq
      exact ⟨(hbalanced q hq).conforms horderly henters, fun _ => hbalanced q hq⟩
  obtain ⟨f, hf⟩ := Statement.exists_flow_of_endsBranch hends
  rw [hf] at hends
  have hstatement : ∀ call, Exec.statement s.programs call v.program v.line v.statement v.run =
      (Exec.orFail v.line (f.step v.run.state.scope v.run.control.branches) >>= fun branches =>
        Exec.modifyControl ({ · with branches })) v.run := by
    intro call
    rw [hf]
    rfl
  rcases Flow.step_ends hends v.run.state.scope v.run.control.branches with
    ⟨hnone, hstep⟩ | ⟨hsome, branches, hstep⟩
  · right
    refine ⟨fun h => hadmits.mp h hnone, ?_⟩
    obtain ⟨e, r', hrun, hroot⟩ := Exec.visits_failed .strayBranch hv (fun call =>
      ⟨v.run, by rw [hstatement, hstep]; rfl⟩)
    refine ⟨e, ?_, hroot⟩
    rw [process, hrun]
  · left
    refine ⟨hadmits.mpr hsome, fun call => ?_⟩
    rw [hstatement, hstep]
    exact ⟨_, rfl⟩

def closedIf : Program where
  blocks := [
    { line := 1, statements := [.flow (.ifThen (.int 1)), .mcode 6] },
    { line := 2, statements := [.flow .endIf] }]

def leavesIf : Program where
  blocks := [
    { line := 1, statements := [.flow (.ifThen (.int 1))] },
    { line := 2, statements := [.jump .forward (some (.var "OUT" none))] },
    { line := 3, statements := [.flow .endIf] },
    { line := 4, labels := ["OUT"], statements := [.flow (.ifThen (.int 0))] },
    { line := 5, statements := [.flow .otherwise, .instruction "SUB" none] },
    { line := 6, statements := [.flow .endIf] }]

def entersIf : Program where
  blocks := [
    { line := 1, statements := [.jump .forward (some (.var "IN" none))] },
    { line := 2, statements := [.flow (.ifThen (.int 1))] },
    { line := 3, labels := ["IN"], statements := [.instruction "SUB" none] },
    { line := 4, statements := [.flow .otherwise] },
    { line := 5, statements := [.flow .endIf] }]

def closing : Table Program :=
  [("SUB", closedIf), ("REST", { blocks := [{ line := 1, statements := [.flow .otherwise] }] })]

theorem calls_closing {p q : Program} (hcallees : p.callees closing = [closedIf])
    (h : p.Calls closing q) : q = closedIf := by
  have hclosed : closedIf.callees closing = [] := rfl
  obtain ⟨callee, hcallee, hq⟩ := Relation.TransGen.head'_iff.mp h
  rw [hcallees, List.mem_singleton] at hcallee
  have hmem : q ∈ [closedIf] := by
    apply Program.Reaches.mem _ (List.mem_singleton.mpr hcallee) hq
    simp [hclosed]
  exact List.mem_singleton.mp hmem

theorem branch_ends_matched_jumps :
    (∃ v ∈ visits 9 leavesIf { programs := closing }, v.site = ⟨4, 0⟩ ∧
      v.program.Admits v.visited v.site v.statement) ∧
    ∃ v ∈ visits 9 entersIf { programs := closing }, v.site = ⟨3, 0⟩ ∧
      ¬v.program.Admits v.visited v.site v.statement ∧
      ∃ e, (process 9 entersIf { programs := closing }).1.halt = some (.failed e) ∧
        e.root = { line := 4, cause := .strayBranch } := by
  have horderly : closedIf.Orderly closing ∧ closedIf.NeverEnters :=
    ⟨⟨by decide, by decide⟩, ⟨by decide, by decide⟩⟩
  have hbalanced : closedIf.Balanced := ⟨by decide, by decide, by decide⟩
  constructor
  · refine ⟨_, List.mem_of_getElem? (i := 3) rfl, rfl, ?_⟩
    have hcalled : ∀ q, leavesIf.Calls closing q → q = closedIf :=
      fun q hq => calls_closing rfl hq
    have h := branch_ends_matched { programs := closing } 9 leavesIf ⟨by decide, by decide⟩
      (fun q hq => hcalled q hq ▸ horderly) (.inl ⟨by decide, by decide +kernel⟩) _
      (List.mem_of_getElem? (i := 3) rfl) rfl
    rcases h with ⟨hadmits, -⟩ | ⟨-, e, hhalt, -⟩
    · exact hadmits
    · cases hhalt
  · refine ⟨_, List.mem_of_getElem? (i := 5) rfl, rfl, ?_⟩
    have hcalled : ∀ q, entersIf.Calls closing q → q = closedIf :=
      fun q hq => calls_closing rfl hq
    have h := branch_ends_matched { programs := closing } 9 entersIf ⟨by decide, by decide⟩
      (fun q hq => hcalled q hq ▸ horderly)
      (.inr ⟨by decide +kernel, fun q hq => hcalled q hq ▸ hbalanced⟩) _
      (List.mem_of_getElem? (i := 5) rfl) rfl
    rcases h with ⟨-, hok⟩ | hfail
    · obtain ⟨r, hr⟩ := hok (fun _ => pure ())
      cases hr
    · exact hfail

def repeatedElse : Program where
  blocks := [
    { line := 1, statements := [.flow (.ifThen (.int 1))] },
    { line := 2, statements := [.flow .otherwise] },
    { line := 3, statements := [.flow .otherwise] },
    { line := 4, statements := [.flow .endIf] }]

/-- The second ELSE of an IF is accepted, although one was executed for that IF before. -/
theorem repeated_else_accepted :
    ∃ v ∈ visits 5 repeatedElse {}, v.statement.isElse = true ∧
      ¬v.program.Admits v.visited v.site v.statement ∧
      (process 5 repeatedElse {}).1.halt = none := by
  refine ⟨_, List.mem_of_getElem? (i := 2) rfl, rfl, ?_, rfl⟩
  rintro ⟨o, outer, hnest, hsince⟩
  cases hnest
  have hfirst := (since_cons.mp hsince).1.2 rfl
  exact hfirst ⟨by simp [Program.sites, repeatedElse], rfl⟩

end Session

end PartProgram
