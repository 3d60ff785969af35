import PartProgram.Proofs.Run.Execution
import PartProgram.Proofs.Run.Isolation
import PartProgram.Proofs.Run.OpenBranch.Footing

/-!
# Markers along a run

Each statement, each block and each jump lets the markers fit the place that the run has come
to, and a call leaves the markers of the calling program alone.
-/

set_option autoImplicit false

namespace PartProgram

namespace Exec

variable {programs : Table Program} {call : Program → Exec Unit} {p : Program}
  {line steps index floor : Nat} {r r' : Run} {alone exact : Prop} {x : Site} {s : Statement}
  {visited : List Site} {b : Block}

def CallsLeave (programs : Table Program) (exact : Prop) (call : Program → Exec Unit)
    (p : Program) : Prop :=
  ∀ callee ∈ p.callees programs, ∀ r r' : Run, r.control.jump = none →
    call callee r = .ok () r' → r'.control.stopped = false →
      r'.control.jump = none ∧ ∃ more, (exact → more = 0) ∧
        r'.control.branches.length = r.control.branches.length + more

theorem statement_fits (hcall : CallsLeave programs exact call p) (hexact : alone → exact)
    (hp : p.Conforms programs alone exact) (hx : (x, s) ∈ p.sites)
    (hfree : r.control.jump = none ∨ s.isCall programs = false)
    (h : Fits alone exact p x visited floor r)
    (hrun : statement programs call p line s r = .ok () r') (hgo : r'.control.stopped = false) :
    Fits alone exact p x.next (x :: visited) floor r' ∧ Asked p [s] r r' := by
  obtain ⟨opened, missed, extra, h⟩ := h
  by_cases hflow : ∃ f, s = .flow f
  · obtain ⟨f, rfl⟩ := hflow
    simp only [statement, flow, run_get] at hrun
    cases hstep : f.step r.state.scope r.control.branches with
    | error cause =>
      rw [hstep] at hrun
      cases hrun
    | ok branches =>
      rw [hstep] at hrun
      cases hrun
      exact ⟨h.flow hp hx hstep rfl, .inl rfl⟩
  · have hne : ∀ f, s ≠ .flow f := fun f hf => hflow ⟨f, hf⟩
    rcases statement_place hne hrun with
      hsame | ⟨j, hreq, hb, hj⟩ | ⟨name, callee, hcallee, hx'⟩
    · exact ⟨h.pass hexact hx hne 0 (congrArg List.length hsame.1) (fun _ => rfl),
        .inl hsame.2⟩
    · exact ⟨h.pass hexact hx hne 0 (congrArg List.length hb) (fun _ => rfl),
        .inr ⟨s, List.mem_singleton_self s, j, hreq, hj⟩⟩
    · have hj : r.control.jump = none :=
        hfree.resolve_right (by simp [Statement.isCall_of_callee? hcallee])
      obtain ⟨b, hb, hs⟩ := Program.of_mem_sites hx
      have hmem := Program.mem_callees_of_callee? (List.mem_of_getElem? hb)
        (List.mem_of_getElem? hs) hcallee
      obtain ⟨after, hcalled, hcontrol⟩ := callSubprogram_ok hx' hgo
      obtain ⟨hj', more, hmore, hb⟩ :=
        hcall callee hmem _ after (by exact hj) hcalled (by rw [hcontrol, hgo])
      rw [hcontrol] at hj' hb
      exact ⟨h.pass hexact hx hne more hb hmore, .inl (hj'.trans hj.symm)⟩

theorem asked_free
    (hcalls : b.statements.Pairwise (fun s s' => s.isJump = true → s'.isCall programs = false))
    {k : Nat} (hs : b.statements[k]? = some s) (hj : r.control.jump = none)
    (h : Asked p (b.statements.take k) r r') :
    r'.control.jump = none ∨ s.isCall programs = false := by
  rcases h with hsame | ⟨s', hs', j, hreq, -⟩
  · exact .inl (hsame.trans hj)
  · right
    rw [← List.take_append_drop k b.statements] at hcalls
    have hmem : s ∈ b.statements.drop k := by
      refine List.mem_of_getElem? (i := 0) ?_
      rw [List.getElem?_drop, Nat.add_zero, hs]
    exact (List.pairwise_append.mp hcalls).2.2 s' hs' s hmem (Statement.isJump_of_request hreq)

theorem Asked.append {first second : List Statement} {mid : Run} (h : Asked p first r mid)
    (h' : Asked p second mid r') : Asked p (first ++ second) r r' := by
  rcases h' with hj | ⟨s, hs, hreq⟩
  · rcases h with hj' | ⟨s, hs, j, hreq, hj'⟩
    · exact .inl (hj.trans hj')
    · exact .inr ⟨s, List.mem_append_left second hs, j, hreq, hj.trans hj'⟩
  · exact .inr ⟨s, List.mem_append_right first hs, hreq⟩

theorem statements_append (first second : List Statement) (r : Run) :
    statements programs call p line (first ++ second) r =
      match statements programs call p line first r with
      | .ok _ mid => statements programs call p line second mid
      | .error halt mid => .error halt mid := by
  induction first generalizing r with
  | nil => rfl
  | cons s first ih =>
    cases hs : r.control.stopped with
    | true => simp only [statements_stopped _ hs]
    | false =>
      rw [List.cons_append, statements_cons s _ hs, statements_cons s first hs]
      cases statement programs call p line s r with
      | error halt mid => rfl
      | ok a mid => exact ih mid

theorem statements_take {k : Nat} (hs : b.statements[k]? = some s)
    (h : statements programs call p line (b.statements.take (k + 1)) r = .ok () r')
    (hgo : r'.control.stopped = false) :
    ∃ mid, statements programs call p line (b.statements.take k) r = .ok () mid ∧
      mid.control.stopped = false ∧ statement programs call p line s mid = .ok () r' := by
  rw [List.take_add_one, hs, Option.toList_some, statements_append] at h
  split at h
  · rename_i mid hmid
    have hstop := going_of_statements h hgo
    obtain ⟨_, hstep, h⟩ := statements_cons_ok hstop h
    cases h
    exact ⟨mid, hmid, hstop, hstep⟩
  · cases h

theorem statements_fits (hcall : CallsLeave programs exact call p) (hexact : alone → exact)
    (hp : p.Conforms programs alone exact) (hb : p.blocks[index]? = some b)
    (hj : r.control.jump = none) (h : Fits alone exact p ⟨index, 0⟩ visited floor r) {k : Nat}
    (hk : k ≤ b.statements.length)
    (hrun : statements programs call p line (b.statements.take k) r = .ok () r')
    (hgo : r'.control.stopped = false) :
    Fits alone exact p ⟨index, k⟩ (Site.upTo index k ++ visited) floor r' ∧
      Asked p (b.statements.take k) r r' := by
  induction k generalizing r' with
  | zero =>
    cases hrun
    exact ⟨h, .inl rfl⟩
  | succ k ih =>
    have hs : b.statements[k]? = some b.statements[k] := List.getElem?_eq_getElem hk
    obtain ⟨mid, hmid, hstop, hstep⟩ := statements_take hs hrun hgo
    obtain ⟨hfits, hasked⟩ := ih (Nat.le_of_succ_le hk) hmid hstop
    have hfree := asked_free (hp.calls b (List.mem_of_getElem? hb)) hs hj hasked
    obtain ⟨hfits', hasked'⟩ := statement_fits hcall hexact hp (Program.mem_sites hb hs) hfree
      hfits hstep hgo
    refine ⟨hfits', ?_⟩
    rw [List.take_add_one, hs]
    exact hasked.append hasked'

theorem fits_next {s : Run} {next : Nat} (hexact : alone → exact)
    (hp : p.Conforms programs alone exact) (hb : p.blocks[index]? = some b)
    (hj : r.control.jump = none)
    (h : Fits alone exact p ⟨index, b.statements.length⟩
      (Site.upTo index b.statements.length ++ visited) floor s)
    (hasked : Asked p b.statements r s) (hnext : s.control.next? index = some next)
    (hr : r'.control.branches = s.control.branches) :
    Fits alone exact p ⟨next, 0⟩ (Site.upTo index b.statements.length ++ visited) floor r' := by
  obtain ⟨opened, missed, extra, h⟩ := h
  rcases hasked with hsame | ⟨st, hst, j, hreq, hj'⟩
  · rw [Control.next?, hsame.trans hj] at hnext
    cases hnext
    have hnest : p.nestAt ⟨index + 1, 0⟩ = opened ++ missed := by
      rw [Program.nestAt_begin, ← Program.nestAt_end hb, h.tracks.nest]
    exact ⟨opened, missed, extra, ⟨hnest, h.tracks.entered, h.tracks.unentered⟩, hr ▸ h.count,
      h.above, h.level, h.only, h.whole⟩
  · rw [Control.next?, hj'] at hnext
    cases j with
    | «to» target =>
      cases hnext
      exact h.land hexact hp hb hst hreq hr
    | back => cases hnext

theorem fits_begin (exact : Prop) (p : Program) (h : alone → r.control.branches = []) :
    Fits alone exact p ⟨0, 0⟩ [] r.control.branches.length r := by
  refine ⟨[], [], r.control.branches.length, ⟨p.nestAt_begin 0, by simp, by simp⟩, ?_, le_rfl,
    fun _ => rfl, fun ha => ?_, fun _ => rfl⟩
  · rw [List.length_nil, Nat.zero_add]
  · rw [h ha, List.length_nil]

theorem runFrom_leaves
    (hcall : ∀ fewer < steps,
      CallsLeave programs exact (fun callee => runFrom programs fewer callee 0) p)
    (hexact : alone → exact) (hp : p.Conforms programs alone exact) (hj : r.control.jump = none)
    (h : Fits alone exact p ⟨index, 0⟩ visited floor r)
    (hrun : runFrom programs steps p index r = .ok () r') (hgo : r'.control.stopped = false) :
    r'.control.jump = none ∧ ∃ more, (exact → p.Balanced → more = 0) ∧
      r'.control.branches.length = floor + more := by
  induction steps generalizing index visited r with
  | zero => cases hrun
  | succ steps ih =>
    have hfewer := fun fewer hf => hcall fewer (Nat.lt_succ_of_lt hf)
    cases hb : p.blocks[index]? with
    | none =>
      rw [runFrom_none hb] at hrun
      cases hrun
      refine ⟨hj, h.leaves fun _ hbal => ?_⟩
      rw [Program.nestAt_begin, Program.nest_of_none hb, hbal.closed]
    | some b =>
      obtain ⟨s, hs, hstop, hnext⟩ := runFrom_block hb hrun hgo
      rw [← List.take_length (l := b.statements)] at hs
      obtain ⟨hfits, hasked⟩ := statements_fits (hcall steps (Nat.lt_succ_self steps)) hexact hp
        hb (r := r.report (.block index b.line p.blocks.length)) hj (h.of_branches rfl) le_rfl hs
        hstop
      rw [List.take_length] at hasked
      have hgoes : ∀ next, s.control.next? index = some next →
          Fits alone exact p ⟨next, 0⟩ (Site.upTo index b.statements.length ++ visited) floor
            s.settled := fun next hn =>
        fits_next hexact hp hb hj hfits hasked hn s.settled_branches
      split at hnext
      · rename_i hjump
        exact ih hfewer rfl (hgoes _ (by rw [Control.next?, hjump])) hnext
      · rename_i target hjump
        exact ih hfewer rfl (hgoes _ (by rw [Control.next?, hjump])) hnext
      · rename_i hjump
        rw [hnext, Run.settled_branches]
        refine ⟨rfl, hfits.leaves fun _ hbal => ?_⟩
        rw [Program.nestAt_end hb]
        -- The return was asked for in the block, and so where no IF is open.
        rcases hasked with hsame | ⟨st, hst, j, hreq, hj'⟩
        · rw [hsame.trans hj] at hjump
          cases hjump
        · rw [hjump] at hj'
          cases hj'
          obtain ⟨k, hk⟩ := List.getElem?_of_mem hst
          exact hbal.returns _ (Program.mem_sites hb hk) hreq

theorem callsLeave
    (hcalled : ∀ q, p.Calls programs q →
      q.Conforms programs False exact ∧ (exact → q.Balanced)) (steps : Nat) :
    CallsLeave programs exact (fun callee => runFrom programs steps callee 0) p := by
  induction steps using Nat.strong_induction_on generalizing p with
  | _ steps ih =>
    intro callee hmem r r' hj hrun hgo
    obtain ⟨hcallee, hbal⟩ := hcalled callee (.of_mem hmem)
    have hfewer := fun fewer hf => ih fewer hf (fun q hq => hcalled q (.of_callee hmem hq))
    obtain ⟨hj', more, hmore, hcount⟩ := runFrom_leaves hfewer (fun hf => hf.elim) hcallee hj
      (fits_begin exact callee fun hf => hf.elim) hrun hgo
    exact ⟨hj', more, fun he => hmore he (hbal he), hcount⟩

end Exec

end PartProgram
