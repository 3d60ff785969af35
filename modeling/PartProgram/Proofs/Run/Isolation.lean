import PartProgram.Proofs.Run.Due
import PartProgram.Proofs.Run.Structured

/-!
# Calls inside a block

A call keeps what the calling block has left to its end only if that is nothing, or if the
subprogram has no block. The open branches are the same behind a call if the subprogram
closes each IF that it opens and no other, also on the ways that its jumps take.
-/

set_option autoImplicit false

namespace PartProgram

namespace Exec

variable {programs : Table Program} {call : Program → Exec Unit} {program : Program}
variable {line steps index : Nat} {r r' : Run}

/-- So many branches are open inside the given ones. -/
def Deep (outer : List Branch) (n : Nat) (r : Run) : Prop :=
  ∃ inner : List Branch, inner.length = n ∧ r.control.branches = inner ++ outer

theorem Deep.of_branches {outer : List Branch} {n : Nat} (h : Deep outer n r)
    (hb : r'.control.branches = r.control.branches) : Deep outer n r' := by
  obtain ⟨inner, hlen, hr⟩ := h
  exact ⟨inner, hlen, hb.trans hr⟩

def CallsKeep (programs : Table Program) (call : Program → Exec Unit) (s : Statement) : Prop :=
  ∀ name callee, s.callee? programs = some (name, callee) → ∀ r r' : Run,
    r.control.jump = none → call callee r = .ok () r' → r'.control.stopped = false →
      SamePlace r r'

/-- The jump that is due has not changed or is one that the statements ask for. -/
def Asked (program : Program) (list : List Statement) (r r' : Run) : Prop :=
  r'.control.jump = r.control.jump ∨
    ∃ s ∈ list, ∃ j, s.request? program = some j ∧ r'.control.jump = some j

theorem callSubprogram_samePlace {s : Statement} (hcall : CallsKeep programs call s)
    {name : String} {callee : Program} (hcallee : s.callee? programs = some (name, callee))
    (hj : r.control.jump = none) (h : callSubprogram call line name callee r = .ok () r')
    (hs : r'.control.stopped = false) : SamePlace r r' := by
  obtain ⟨mid, hrun, hsame⟩ := callSubprogram_ok h hs
  obtain ⟨hb, hjump⟩ := hcall name callee hcallee _ mid (by exact hj) hrun (by rw [hsame, hs])
  rw [hsame] at hb hjump
  exact ⟨hb, hjump⟩

theorem statement_deep {s : Statement} (hcall : CallsKeep programs call s)
    {outer : List Branch} {n m : Nat} (hfree : r.control.jump = none ∨ s.isCall programs = false)
    (hd : Deep outer n r) (hm : s.openIfs n = some m)
    (h : statement programs call program line s r = .ok () r')
    (hs : r'.control.stopped = false) : Deep outer m r' ∧ Asked program [s] r r' := by
  by_cases hflow : ∃ f, s = .flow f
  · obtain ⟨f, rfl⟩ := hflow
    obtain ⟨inner, hlen, hr⟩ := hd
    simp only [statement, flow, run_get] at h
    obtain ⟨branches, hstep, h⟩ := orFail_bind_ok h
    cases h
    rw [hr] at hstep
    rw [← hlen] at hm
    exact ⟨Flow.step_inner hstep hm, .inl rfl⟩
  · have hne : ∀ f, s ≠ .flow f := fun f hf => hflow ⟨f, hf⟩
    rw [Statement.openIfs_of_ne_flow hne] at hm
    cases hm
    rcases statement_place hne h with hsame | ⟨j, hreq, hb, hj⟩ | ⟨name, callee, hcallee, hx⟩
    · exact ⟨hd.of_branches hsame.1, .inl hsame.2⟩
    · exact ⟨hd.of_branches hb, .inr ⟨s, List.mem_singleton_self s, j, hreq, hj⟩⟩
    · have hj : r.control.jump = none :=
        hfree.resolve_right (by simp [Statement.isCall_of_callee? hcallee])
      have hsame := callSubprogram_samePlace hcall hcallee hj hx hs
      exact ⟨hd.of_branches hsame.1, .inl hsame.2⟩

theorem statements_stopped (list : List Statement) (h : r.control.stopped = true) :
    statements programs call program line list r = .ok () r := by
  cases list with
  | nil => rfl
  | cons s list =>
    rw [statements, run_get, if_pos h]
    rfl

theorem statements_cons_ok {s : Statement} {list : List Statement}
    (hgo : r.control.stopped = false)
    (h : statements programs call program line (s :: list) r = .ok () r') :
    ∃ mid, statement programs call program line s r = .ok () mid ∧
      statements programs call program line list mid = .ok () r' := by
  rw [statements, run_get, if_neg (by simp [hgo])] at h
  obtain ⟨_, mid, hx, hrest⟩ := bind_ok h
  exact ⟨mid, hx, hrest⟩

theorem going_of_statements {list : List Statement}
    (h : statements programs call program line list r = .ok () r')
    (hs : r'.control.stopped = false) : r.control.stopped = false := by
  rw [Bool.eq_false_iff]
  intro hstop
  rw [statements_stopped list hstop] at h
  cases h
  rw [hstop] at hs
  cases hs

theorem statements_deep {list : List Statement} (hcall : ∀ s ∈ list, CallsKeep programs call s)
    {outer : List Branch} {n m : Nat}
    (hcalls : list.Pairwise (fun s s' => s.isJump = true → s'.isCall programs = false))
    (hfree : r.control.jump = none ∨ ∀ s ∈ list, s.isCall programs = false)
    (hd : Deep outer n r) (hm : list.foldlM Statement.openIfs n = some m)
    (h : statements programs call program line list r = .ok () r')
    (hs : r'.control.stopped = false) : Deep outer m r' ∧ Asked program list r r' := by
  induction list generalizing n r with
  | nil =>
    cases hm
    cases h
    exact ⟨hd, .inl rfl⟩
  | cons s list ih =>
    obtain ⟨k, hk, hm⟩ := Option.bind_eq_some_iff.mp hm
    obtain ⟨hfirst, hrest⟩ := List.pairwise_cons.mp hcalls
    obtain ⟨after, hx, h⟩ := statements_cons_ok (going_of_statements h hs) h
    obtain ⟨hdk, hasked⟩ := statement_deep (hcall s List.mem_cons_self)
      (hfree.imp_right fun hf => hf s List.mem_cons_self) hd hk hx (going_of_statements h hs)
    -- Once a jump is due no call is left in the block.
    have hfree' : after.control.jump = none ∨ ∀ s ∈ list, s.isCall programs = false := by
      rcases hasked with hj | ⟨_, hmem, j, hreq, -⟩
      · rw [hj]
        exact hfree.imp_right fun hf s' hs' => hf s' (List.mem_cons_of_mem s hs')
      · cases List.mem_singleton.mp hmem
        exact .inr fun s' hs' => hfirst s' hs' (Statement.isJump_of_request hreq)
    have hcall' := fun s' hs' => hcall s' (List.mem_cons_of_mem s hs')
    obtain ⟨hdm, hasked'⟩ := ih hcall' hrest hfree' hdk hm h
    refine ⟨hdm, ?_⟩
    rcases hasked' with hj | ⟨s', hs', hreq⟩
    · rcases hasked with hj' | ⟨_, hmem, j, hreq, hj'⟩
      · exact .inl (hj.trans hj')
      · cases List.mem_singleton.mp hmem
        exact .inr ⟨s, List.mem_cons_self, j, hreq, hj.trans hj'⟩
    · exact .inr ⟨s', List.mem_cons_of_mem s hs', hreq⟩

theorem runFrom_level {p : Program} (hreach : ∀ q, p.Reaches programs q → q.Level programs)
    {outer : List Branch} {n : Nat} (hn : p.depth index = some n) (hd : Deep outer n r)
    (hj : r.control.jump = none)
    (h : runFrom programs steps p index r = .ok () r') (hs : r'.control.stopped = false) :
    r'.control.branches = outer := by
  induction steps generalizing p index n outer r r' with
  | zero => cases h
  | succ steps ih =>
    have hp := hreach p .self
    cases hb : p.blocks[index]? with
    | none =>
      rw [Program.depth_of_none hb, hp.closed] at hn
      cases hn
      obtain ⟨inner, hlen, hr⟩ := hd
      cases List.length_eq_zero_iff.mp hlen
      simp only [runFrom, hb] at h
      cases h
      exact hr
    | some b =>
      obtain ⟨s, hrun, hstop, hnext⟩ := runFrom_block hb h hs
      -- The subprograms of the block have fewer steps than it.
      have hmem : b ∈ p.blocks := List.mem_of_getElem? hb
      have hcall : ∀ s ∈ b.statements,
          CallsKeep programs (fun callee => runFrom programs steps callee 0) s := by
        intro s hs name callee hcallee t t' htj ht hts
        have hmemc := Program.mem_callees_of_callee? hmem hs hcallee
        refine ⟨ih (fun q hq => hreach q (.of_callee hmemc hq)) rfl ⟨[], rfl, rfl⟩ htj ht hts, ?_⟩
        rcases runFrom_due ht hts with ⟨-, rfl⟩ | ⟨-, hdue⟩
        · rfl
        · exact (congrArg Due.jump hdue).trans htj.symm
      obtain ⟨m, hdepth⟩ := hp.depth_some (index + 1)
      have hm : b.statements.foldlM Statement.openIfs n = some m := by
        rw [Program.depth_succ hb, hn] at hdepth
        exact hdepth
      have hentered : Deep outer n
          { r with events := r.events.push (.block index b.line p.blocks.length) } := hd
      obtain ⟨hdm, hasked⟩ := statements_deep hcall (hp.calls b hmem) (.inl (by exact hj))
        hentered hm hrun hstop
      have hsettled : Deep outer m s.settled := hdm.of_branches s.settled_branches
      rcases hasked with hnone | ⟨st, hst, j, hreq, hsome⟩
      · have hundue : s.control.jump = none := hnone.trans hj
        rw [hundue] at hnext
        exact ih hreach hdepth hsettled rfl hnext hs
      · have hplace : (b, index) ∈ p.blocks.zipIdx := List.mk_mem_zipIdx_iff_getElem?.mpr hb
        have hland := (hp.lands _ hplace st hst j hreq).trans hdepth
        rw [hsome] at hnext
        obtain target | _ := j
        · exact ih hreach hland hsettled rfl hnext hs
        · cases hland
          obtain ⟨inner, hlen, hr⟩ := hsettled
          cases List.length_eq_zero_iff.mp hlen
          rw [hnext]
          exact hr

/-- A call keeps what the calling block has left to its end exactly if that is nothing or the
subprogram has no block. If no jump is due it also keeps the open branches, provided that all
programs it can reach are level. -/
theorem call_due_iff (programs : Table Program) (steps line : Nat) (name : String)
    (callee : Program) (r r' : Run)
    (h : callSubprogram (fun p => runFrom programs steps p 0) line name callee r = .ok () r')
    (hs : r'.control.stopped = false) :
    (r'.control.due = r.control.due ↔ callee.blocks = [] ∨ r.control.due = {}) ∧
    (r.control.jump = none → (∀ p, callee.Reaches programs p → p.Level programs) →
      r'.control.branches = r.control.branches) := by
  obtain ⟨s, hrun, hsame⟩ := callSubprogram_ok h hs
  rw [← hsame] at hs ⊢
  constructor
  · have hblocks : callee.blocks[0]? = none ↔ callee.blocks = [] := by
      rw [List.getElem?_eq_none_iff, Nat.le_zero, List.length_eq_zero_iff]
    rcases runFrom_due hrun hs with ⟨hnone, rfl⟩ | ⟨hsome, hdue⟩
    · exact ⟨fun _ => .inl (hblocks.mp hnone), fun _ => rfl⟩
    · rw [hdue]
      constructor
      · exact fun hr => .inr hr.symm
      · rintro (hempty | hr)
        · exact absurd (hblocks.mpr hempty) hsome
        · exact hr.symm
  · intro hj hreach
    have hr : Deep r.control.branches 0
        { r with events := r.events.push (.enter name callee.blocks.length) } := ⟨[], rfl, rfl⟩
    exact runFrom_level hreach rfl hr (by exact hj) hrun hs

def wandering : Program where
  blocks := [
    { line := 1, statements := [.flow (.ifThen (.int 1)), .instruction "SUB" none] },
    { line := 2, statements := [.flow .endIf, .jump .forward (some (.var "OUT" none))] },
    { line := 3, statements := [.mcode 7] },
    { line := 4, labels := ["OUT"], statements := [.mcode 17] },
    { line := 5, statements := [.mcode 9] }]

theorem level_twoCodes : Program.twoCodes.Level Program.subprograms where
  closed := rfl
  lands := by decide
  calls := by decide

theorem level_wandering : wandering.Level Program.subprograms where
  closed := rfl
  lands := by decide +kernel
  calls := by decide

theorem call_due_iff_wandering : ∃ r',
    callSubprogram (fun p => runFrom Program.subprograms 9 p 0) 7 "WANDER" wandering
      { state := {}, control := { branches := [.taken] } } = .ok () r' ∧
    r'.control.stopped = false ∧ r'.control.due = {} ∧ r'.control.branches = [.taken] := by
  have hcallees : wandering.callees Program.subprograms = [Program.twoCodes] := rfl
  have hcallees' : Program.twoCodes.callees Program.subprograms = [] := rfl
  have hreach : ∀ p, wandering.Reaches Program.subprograms p → p.Level Program.subprograms := by
    intro p hp
    have hmem : p ∈ [wandering, Program.twoCodes] := by
      apply hp.mem _ List.mem_cons_self
      simp [hcallees, hcallees']
    simp only [List.mem_cons, List.not_mem_nil, or_false] at hmem
    rcases hmem with rfl | rfl
    · exact level_wandering
    · exact level_twoCodes
  have h := call_due_iff Program.subprograms 9 7 "WANDER" wandering
    { state := {}, control := { branches := [.taken] } } _ rfl rfl
  exact ⟨_, rfl, rfl, h.1.mpr (.inr rfl), h.2 rfl hreach⟩

/-- A return that is due in the calling block is taken behind the first block of the
subprogram: the second block is left out, and nothing is due behind the call. -/
theorem return_taken_in_call : ∃ r',
    callSubprogram (fun p => runFrom [] 3 p 0) 1 "SUB" Program.twoCodes
      { state := {}, control := { jump := some .back } } = .ok () r' ∧
    r'.control.stopped = false ∧ r'.control.due ≠ { jump := some .back } ∧
    r'.events = #[.enter "SUB" 2, .block 0 1 2, .mcode 6, .leave "SUB" 2] :=
  ⟨_, rfl, rfl, by decide, rfl⟩

end Exec

end PartProgram
