import PartProgram.Proofs.Run.Executed
import PartProgram.Proofs.Run.OpenBranch.Markers

/-!
# Visited statements

The statements that a run comes to, also those that it skips. The markers fit at each of them,
and an error of one is an error of the run.
-/

set_option autoImplicit false

namespace PartProgram

/-- A statement that a run comes to, also where it has no effect. -/
structure Visit where
  program : Program
  line : Nat
  site : Site
  statement : Statement
  /-- The places that this run of the program has come to before, the last first. -/
  visited : List Site
  run : Run

def Visit.inside (programs : Table Program) (inner : Program → Run → List Visit) (v : Visit) :
    List Visit :=
  match v.statement.callee? programs with
  | some (name, callee) =>
    if skipping v.run.control.branches then []
    else inner callee (v.run.report (.enter name callee.blocks.length))
  | none => []

namespace Exec

def reached (programs : Table Program) (call : Program → Exec Unit) (program : Program)
    (b : Block) (index : Nat) (visited : List Site) (r : Run) : List Visit :=
  b.statements.zipIdx.filterMap fun s =>
    match statements programs call program b.line (b.statements.take s.2) r with
    | .ok _ here =>
      if here.control.stopped then none
      else some ⟨program, b.line, ⟨index, s.2⟩, s.1, Site.upTo index s.2 ++ visited, here⟩
    | .error .. => none

/-- What a program visits from a block on, with what its subprograms visit. -/
def visits (programs : Table Program) : Nat → Program → Nat → List Site → Run → List Visit
  | 0, _, _, _, _ => []
  | steps + 1, program, index, visited, r =>
    match program.blocks[index]? with
    | none => []
    | some b =>
      let call := fun callee => runFrom programs steps callee 0
      let entered := r.report (.block index b.line program.blocks.length)
      (reached programs call program b index visited entered).flatMap
          (fun v => v :: v.inside programs (fun callee => visits programs steps callee 0 [])) ++
        match block programs call program b entered with
        | .error .. => []
        | .ok _ after =>
          if after.control.stopped then []
          else
            match after.control.next? index with
            | some next =>
              visits programs steps program next
                (Site.upTo index b.statements.length ++ visited) after.landed
            | none => []

variable {programs : Table Program} {call : Program → Exec Unit} {p : Program}
  {steps index floor : Nat} {r r' : Run} {alone exact : Prop} {visited : List Site} {b : Block}
  {v : Visit}

theorem mem_reached (h : v ∈ reached programs call p b index visited r) :
    ∃ k, b.statements[k]? = some v.statement ∧
      statements programs call p b.line (b.statements.take k) r = .ok () v.run ∧
      v.run.control.stopped = false ∧
      v = ⟨p, b.line, ⟨index, k⟩, v.statement, Site.upTo index k ++ visited, v.run⟩ := by
  obtain ⟨⟨s, k⟩, hs, h⟩ := List.mem_filterMap.mp h
  have hs := List.mk_mem_zipIdx_iff_getElem?.mp hs
  split at h
  · rename_i here hrun
    split at h
    · cases h
    · rename_i hstop
      cases h
      exact ⟨k, hs, hrun, Bool.eq_false_iff.mpr hstop, rfl⟩
  · cases h

theorem mem_visits (h : v ∈ visits programs (steps + 1) p index visited r) :
    ∃ b, p.blocks[index]? = some b ∧
      let call := fun callee => runFrom programs steps callee 0
      let entered := r.report (.block index b.line p.blocks.length)
      (v ∈ reached programs call p b index visited entered ∨
        (∃ w ∈ reached programs call p b index visited entered, ∃ name callee,
          w.statement.callee? programs = some (name, callee) ∧
          skipping w.run.control.branches = false ∧
          v ∈ visits programs steps callee 0 []
            (w.run.report (.enter name callee.blocks.length))) ∨
        ∃ s next, statements programs call p b.line b.statements entered = .ok () s ∧
          s.control.stopped = false ∧ s.control.next? index = some next ∧
          v ∈ visits programs steps p next (Site.upTo index b.statements.length ++ visited)
            s.settled) := by
  simp only [visits] at h
  cases hb : p.blocks[index]? with
  | none =>
    rw [hb] at h
    cases h
  | some b =>
    refine ⟨b, rfl, ?_⟩
    simp only [hb] at h
    rcases List.mem_append.mp h with h | h
    · obtain ⟨w, hw, h⟩ := List.mem_flatMap.mp h
      rcases List.mem_cons.mp h with rfl | h
      · exact .inl hw
      · simp only [Visit.inside] at h
        split at h
        · rename_i name callee hcall
          split at h
          · cases h
          · rename_i hskip
            exact .inr (.inl ⟨w, hw, name, callee, hcall, Bool.eq_false_iff.mpr hskip, h⟩)
        · cases h
    · rw [block_run] at h
      split at h
      · cases h
      · rename_i after hafter
        split at hafter
        · rename_i s hs
          cases hafter
          simp only [Run.endBlock_stopped] at h
          split at h
          · cases h
          · rename_i hstop
            split at h
            · rename_i next hnext
              rw [Control.next?, Run.endBlock_jump] at hnext
              exact .inr (.inr ⟨s, next, hs, Bool.eq_false_iff.mpr hstop, hnext, h⟩)
            · cases h
        · cases hafter

theorem visits_admit
    (hcalled : ∀ q, p.Calls programs q →
      q.Conforms programs False exact ∧ (exact → q.Balanced))
    (hexact : alone → exact) (hp : p.Conforms programs alone exact) (hj : r.control.jump = none)
    (h : Fits alone exact p ⟨index, 0⟩ visited floor r)
    (hv : v ∈ visits programs steps p index visited r) (hends : v.statement.endsBranch = true) :
    v.program.Admits v.visited v.site v.statement ↔ v.run.control.branches ≠ [] := by
  induction steps generalizing alone p index visited floor r with
  | zero => cases hv
  | succ steps ih =>
    obtain ⟨b, hb, hv⟩ := mem_visits hv
    have hcall := callsLeave hcalled steps
    have hreach : ∀ {k : Nat} {s : Run}, k ≤ b.statements.length →
        statements programs (fun callee => runFrom programs steps callee 0) p b.line
          (b.statements.take k) (r.report (.block index b.line p.blocks.length)) = .ok () s →
        s.control.stopped = false →
        Fits alone exact p ⟨index, k⟩ (Site.upTo index k ++ visited) floor s ∧
          Asked p (b.statements.take k) (r.report (.block index b.line p.blocks.length)) s :=
      fun hk hs hgo => statements_fits hcall hexact hp hb
        (r := r.report (.block index b.line p.blocks.length)) hj (h.of_branches rfl) hk hs hgo
    rcases hv with hv | ⟨w, hw, name, callee, hcallee, -, hv⟩ | ⟨s, next, hs, hgo, hnext, hv⟩
    · obtain ⟨k, hk, hrun, hgo, hsite⟩ := mem_reached hv
      have hmem := Program.mem_sites hb hk
      obtain ⟨⟨opened, missed, extra, hfooting⟩, -⟩ :=
        hreach (Nat.le_of_lt (List.getElem?_eq_some_iff.mp hk).1) hrun hgo
      rw [hsite]
      refine (hfooting.tracks.admits_iff ?_).trans (hfooting.opened_iff hp hmem hends)
      exact hp.single _ hmem
    · obtain ⟨k, hk, hrun, hgo, -⟩ := mem_reached hw
      obtain ⟨-, hasked⟩ := hreach (Nat.le_of_lt (List.getElem?_eq_some_iff.mp hk).1) hrun hgo
      have hmem := Program.mem_callees_of_callee? (List.mem_of_getElem? hb)
        (List.mem_of_getElem? hk) hcallee
      have hfree := (asked_free (hp.calls b (List.mem_of_getElem? hb)) hk hj hasked).resolve_right
        (by rw [Statement.isCall_of_callee? hcallee]; simp)
      exact ih (r := w.run.report (.enter name callee.blocks.length))
        (fun q hq => hcalled q (.of_callee hmem hq)) (fun hf => hf.elim)
        (hcalled callee (.of_mem hmem)).1 hfree (fits_begin exact callee fun hf => hf.elim) hv
    · rw [← List.take_length (l := b.statements)] at hs
      obtain ⟨hfits, hasked⟩ := hreach le_rfl hs hgo
      rw [List.take_length] at hasked
      exact ih hcalled hexact hp rfl
        (fits_next hexact hp hb hj hfits hasked hnext s.settled_branches) hv

theorem reached_failed (h : v ∈ reached programs call p b index visited r) {halt : Halt}
    (hfail : statement programs call p b.line v.statement v.run = .error halt r') :
    statements programs call p b.line b.statements r = .error halt r' := by
  obtain ⟨k, hk, hrun, hgo, -⟩ := mem_reached h
  obtain ⟨hlt, hs⟩ := List.getElem?_eq_some_iff.mp hk
  rw [← List.take_append_drop k b.statements, statements_append, hrun,
    List.drop_eq_getElem_cons hlt, hs]
  simp only [statements_cons v.statement _ hgo, hfail]

theorem visits_failed (cause : RunCause) (hv : v ∈ visits programs steps p index visited r)
    (hfail : ∀ call, ∃ after, statement programs call v.program v.line v.statement v.run =
      .error (.failed { line := v.line, cause }) after) :
    ∃ e r', runFrom programs steps p index r = .error (.failed e) r' ∧
      e.root = { line := v.line, cause } := by
  induction steps generalizing p index visited r with
  | zero => cases hv
  | succ steps ih =>
    obtain ⟨b, hb, hv⟩ := mem_visits hv
    rw [runFrom_some hb, block_run]
    rcases hv with hv | ⟨w, hw, name, callee, hcallee, hskip, hv⟩ | ⟨s, next, hs, hgo, hnext, hv⟩
    · obtain ⟨k, -, -, -, hsite⟩ := mem_reached hv
      obtain ⟨after, hafter⟩ := hfail (fun callee => runFrom programs steps callee 0)
      rw [hsite] at hafter
      rw [reached_failed hv hafter]
      exact ⟨_, after, rfl, by rw [hsite]; rfl⟩
    · obtain ⟨e, after, hrun, hroot⟩ := ih hv
      have hcall : statement programs (fun callee => runFrom programs steps callee 0) p b.line
          w.statement w.run = .error (.failed (e.within b.line name)) after := by
        rcases statement_cases programs (fun callee => runFrom programs steps callee 0) p b.line
          w.statement w.run with ⟨name', callee', hc, -, hx⟩ | ⟨-, hc, -⟩ | ⟨hplain, -⟩
        · rw [hcallee] at hc
          cases hc
          rw [hx, callSubprogram_run, hrun]
          rfl
        · rw [hcallee] at hc
          cases hc
        · have hnone := (hplain (Statement.isExecuted_of_not_skipping hskip _)).1
          rw [hcallee] at hnone
          cases hnone
      rw [reached_failed hw hcall]
      exact ⟨_, after, rfl, hroot⟩
    · obtain ⟨e, after, hrun, hroot⟩ := ih hv
      refine ⟨e, after, ?_, hroot⟩
      rw [hs]
      simp only [Run.endBlock_stopped, hgo, Bool.false_eq_true, if_false, Control.next?,
        Run.endBlock_jump]
      rw [Control.next?] at hnext
      rw [hnext]
      exact hrun

end Exec

end PartProgram
