import PartProgram.Proofs.Run.Structured.Statement

/-!
# Sides that are left out

A word of a branch changes the open branches only. In a branch that is skipped a
whole tree is passed over.
-/

set_option autoImplicit false

namespace PartProgram

namespace Exec

variable {programs : Table Program} {program : Program} {steps : Nat} {r : Run}

/-- The run with other branches open. -/
def opened (branches : List Branch) (r : Run) : Run :=
  { r with control := { r.control with branches } }

theorem flow_run {line : Nat} {f : Flow} {branches : List Branch}
    (h : f.step r.state.scope r.control.branches = .ok branches) :
    flow line f r = .ok () (opened branches r) := by
  simp only [flow, run_get, h]
  rfl

theorem flow_if_skipped (line : Nat) (condition : Expr)
    (h : skipping r.control.branches = true) :
    flow line (.ifThen condition) r = .ok () (opened (.skipToEnd :: r.control.branches) r) := by
  apply flow_run
  simp only [Flow.step, h, if_true]
  rfl

theorem flow_if (line : Nat) (condition : Expr) (h : skipping r.control.branches = false) :
    flow line (.ifThen condition) r =
      match condition.holds r.state.scope with
      | .ok true => .ok () (opened (.taken :: r.control.branches) r)
      | .ok false => .ok () (opened (.skipToElse :: r.control.branches) r)
      | .error cause => .error (.failed { line, cause }) r := by
  cases hc : condition.holds r.state.scope with
  | error cause =>
    have hs : (Flow.ifThen condition).step r.state.scope r.control.branches = .error cause := by
      simp [Flow.step, h, hc, bind, Except.bind]
    simp only [flow, run_get, hs]
    rfl
  | ok b =>
    cases b with
    | true => exact flow_run (by simp [Flow.step, h, hc, bind, Except.bind, pure, Except.pure])
    | false => exact flow_run (by simp [Flow.step, h, hc, bind, Except.bind, pure, Except.pure])

theorem flow_else_taken (line : Nat) {outer : List Branch}
    (h : r.control.branches = .skipToElse :: outer) :
    flow line .otherwise r = .ok () (opened (.taken :: outer) r) :=
  flow_run (by rw [h]; rfl)

theorem flow_else_skipped (line : Nat) {b : Branch} {outer : List Branch}
    (h : r.control.branches = b :: outer) (hb : b ≠ .skipToElse) :
    flow line .otherwise r = .ok () (opened (.skipToEnd :: outer) r) := by
  apply flow_run
  rw [h]
  cases b with
  | skipToElse => exact absurd rfl hb
  | taken | skipToEnd => rfl

theorem flow_end (line : Nat) {b : Branch} {outer : List Branch}
    (h : r.control.branches = b :: outer) :
    flow line .endIf r = .ok () (opened outer r) :=
  flow_run (by rw [h]; rfl)

theorem statement_skipped {call : Program → Exec Unit} (line : Nat) {s : Statement}
    (hb : s.isBranch = false) (h : skipping r.control.branches = true) :
    statement programs call program line s r = .ok () r := by
  have hskip : ∀ body : Exec Unit, unlessSkipping body r = .ok () r := by
    intro body
    rw [unlessSkipping, run_get, if_pos h]
    rfl
  cases s with
  | flow f => exact flow_run (by rw [Flow.step_loop hb, if_pos h])
  | declare d => exact hskip _
  | assign name fields value => exact hskip _
  | gcode id args => exact hskip _
  | mcode id => exact hskip _
  | jump direction target => exact hskip _
  | instruction name args => exact hskip _

theorem flat_word {line : Nat} {f : Flow} {branches : List Branch} (rest : List Step)
    (hstop : r.control.stopped = false) (hf : flow line f r = .ok () (opened branches r)) :
    flat programs program steps (.act line (.flow f) :: rest) r =
      flat programs program steps rest (opened branches r) := by
  rw [flat_act _ _ _ hstop]
  simp only [statement, hf]

/-- A part of a stream is passed over, and the given branches are open behind it. The
`n` blocks that end in it take a step each. -/
def Passes (programs : Table Program) (program : Program) (steps n : Nat)
    (x : EStateM.Result Halt Run Unit) (rest : List Step) (branches : List Branch) (r : Run) :
    Prop :=
  (steps < n ∧ ∃ s, x = .error .exhausted s) ∨
    n ≤ steps ∧ ∃ s, x = flat programs program (steps - n) rest s ∧
      s.erase = (if 0 < n then r.erase.endBlock else r.erase) ∧
      s.control.branches = branches ∧ s.control.jump = r.control.jump ∧
      s.control.stopped = false

theorem passes_trans {n m : Nat} {x : EStateM.Result Halt Run Unit} {ys zs : List Step}
    {inner outer : List Branch} (h : Passes programs program steps n x ys inner r)
    (h' : ∀ s : Run, s.control.branches = inner → s.control.stopped = false →
      Passes programs program (steps - n) m (flat programs program (steps - n) ys s) zs outer s) :
    Passes programs program steps (n + m) x zs outer r := by
  rcases h with ⟨hlt, s, hx⟩ | ⟨hle, s, hx, he, hb, hj, hs⟩
  · exact .inl ⟨by omega, s, hx⟩
  · rcases h' s hb hs with ⟨hlt, s', hx'⟩ | ⟨hle', s', hx', he', hb', hj', hs'⟩
    · exact .inl ⟨by omega, s', hx.trans hx'⟩
    · refine .inr ⟨by omega, s', ?_, ?_, hb', hj'.trans hj, hs'⟩
      · rw [hx, hx', Nat.sub_sub]
      · rw [he', he]
        by_cases hn : 0 < n <;> by_cases hm : 0 < m <;>
          simp [hn, hm, Run.endBlock_endBlock, show 0 < n + m ↔ 0 < n ∨ 0 < m by omega]

theorem passes_tree (t : Tree) (ht : t.Proper) (steps : Nat) (rest : List Step) (r : Run)
    (hskip : skipping r.control.branches = true) (hstop : r.control.stopped = false) :
    Passes programs program steps t.endings (flat programs program steps (t.flatten ++ rest) r)
      rest r.control.branches r := by
  induction t generalizing steps rest r with
  | done => exact .inr ⟨Nat.zero_le _, r, rfl, rfl, rfl, rfl, hstop⟩
  | step s t ih =>
    cases s with
    | enter index line total =>
      rw [Tree.flatten, List.cons_append, flat_enter]
      have h := ih ht.2 steps rest { r with events := r.events.push (.block index line total) }
        hskip hstop
      rw [show (Tree.step (.enter index line total) t).endings = t.endings from rfl]
      simpa only [Passes, r.erase_entered (e := .block index line total) rfl] using h
    | act line s =>
      have hx : flat programs program steps ((Tree.step (.act line s) t).flatten ++ rest) r =
          flat programs program steps (t.flatten ++ rest) r := by
        rw [Tree.flatten, List.cons_append, flat_act _ _ _ hstop]
        simp only [statement_skipped line ht.1 hskip]
      rw [hx]
      exact ih ht.2 steps rest r hskip hstop
    | ending =>
      rw [Tree.endings_ending, Tree.flatten, List.cons_append, flat_ending,
        if_neg (by simp [hstop])]
      apply passes_trans
      · cases steps with
        | zero => exact .inl ⟨Nat.one_pos, _, rfl⟩
        | succ steps =>
          refine .inr ⟨by omega, r.endBlock, rfl, ?_, r.endBlock_branches, r.endBlock_jump, ?_⟩
          · rw [if_pos Nat.one_pos, r.erase_endBlock]
          · rw [r.endBlock_stopped, hstop]
      · intro s hb hs
        rw [← hb]
        exact ih ht.2 (steps - 1) rest s (by rw [hb]; exact hskip) hs
  | ifThen line condition body endLine t ihb iht =>
    rw [Tree.endings_ifThen, Tree.flatten, List.cons_append, List.append_assoc,
      flat_word _ hstop (flow_if_skipped line condition hskip)]
    apply passes_trans (ihb ht.1 steps _ (opened (.skipToEnd :: r.control.branches) r) rfl hstop)
    intro s hb hs
    rw [List.cons_append, flat_word _ hs (flow_end endLine hb)]
    exact iht ht.2 _ rest (opened r.control.branches s) hskip hs
  | ifElse line condition body elseLine other endLine t ihb iho iht =>
    rw [Tree.endings_ifElse, Tree.flatten, List.cons_append, List.append_assoc,
      flat_word _ hstop (flow_if_skipped line condition hskip)]
    apply passes_trans (ihb ht.1 steps _ (opened (.skipToEnd :: r.control.branches) r) rfl hstop)
    intro s hb hs
    rw [List.cons_append, List.append_assoc,
      flat_word _ hs (flow_else_skipped elseLine hb (by decide))]
    apply passes_trans (iho ht.2.1 _ _ (opened (.skipToEnd :: r.control.branches) s) rfl hs)
    intro s hb hs
    rw [List.cons_append, flat_word _ hs (flow_end endLine hb)]
    exact iht ht.2.2 _ rest (opened r.control.branches s) hskip hs

end Exec

end PartProgram
