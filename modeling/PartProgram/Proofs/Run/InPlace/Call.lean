import PartProgram.Proofs.Run.Executed
import PartProgram.Proofs.Run.InPlace.Through

/-!
# A call and the blocks in its place

Where the call is skipped the blocks in its place are skipped too, and they leave the open
branches as they were if each IF among them is closed there. Where it is reached the
subprogram goes through the same blocks.
-/

set_option autoImplicit false

namespace PartProgram

namespace Exec

variable {programs : Table Program} {call : Program → Exec Unit} {program : Program}
variable {line steps index : Nat} {r r' : Run}

section Skipping

variable {outer : List Branch} {m n : Nat}

theorem skipping_inner (houter : skipping outer = true) (n : Nat) :
    skipping (List.replicate n .skipToEnd ++ outer) = true := by
  cases n with
  | zero => exact houter
  | succ n => rfl

theorem statement_passed (houter : skipping outer = true) {s : Statement}
    (hs : s.openIfs m = some n) (hr : r.control.branches = List.replicate m .skipToEnd ++ outer) :
    statement programs call program line s r =
      .ok () (opened (List.replicate n .skipToEnd ++ outer) r) := by
  have hskip : skipping r.control.branches = true := by
    rw [hr]
    exact skipping_inner houter m
  have hsame : opened (List.replicate m .skipToEnd ++ outer) r = r := by
    rw [← hr]
    rfl
  by_cases hbranch : s.isBranch = true
  · cases s with
    | flow f =>
      cases f with
      | ifThen condition =>
        cases hs
        exact (flow_if_skipped line condition hskip).trans (by rw [hr]; rfl)
      | otherwise =>
        cases m with
        | zero => cases hs
        | succ m =>
          cases hs
          exact flow_else_skipped line hr (by decide)
      | endIf =>
        cases m with
        | zero => cases hs
        | succ m =>
          cases hs
          exact flow_end line hr
      | _ => cases hbranch
    | _ => cases hbranch
  · have hb : s.isBranch = false := Bool.eq_false_iff.mpr hbranch
    have hmn : s.openIfs m = some m := by
      cases s with
      | flow f =>
        cases f with
        | ifThen | otherwise | endIf => cases hb
        | _ => cases m <;> rfl
      | _ => cases m <;> rfl
    rw [hmn] at hs
    cases hs
    rw [statement_skipped line hb hskip, hsame]

theorem statements_passed (houter : skipping outer = true) (list : List Statement)
    (hlist : list.foldlM Statement.openIfs m = some n)
    (hr : r.control.branches = List.replicate m .skipToEnd ++ outer)
    (hgo : r.control.stopped = false) :
    statements programs call program line list r =
      .ok () (opened (List.replicate n .skipToEnd ++ outer) r) := by
  induction list generalizing r m with
  | nil =>
    cases hlist
    rw [← hr]
    rfl
  | cons s list ih =>
    rw [List.foldlM_cons] at hlist
    obtain ⟨k, hk, hrest⟩ := Option.bind_eq_some_iff.mp hlist
    rw [statements_cons s list hgo, statement_passed houter hk hr]
    exact ih hrest rfl hgo

theorem run_passed {p : Program} (houter : skipping outer = true) (blocks : List Block)
    {rest : List Block} (hblocks : (blocks.flatMap (·.statements)).foldlM Statement.openIfs m = some n)
    (steps : Nat) {index : Nat} (hp : p.blocks.drop index = blocks ++ rest)
    (hr : r.control.branches = List.replicate m .skipToEnd ++ outer)
    (hdue : r.control.due = {}) (hgo : r.control.stopped = false) :
    (steps < blocks.length ∧ ∃ t, runFrom programs steps p index r = .error .exhausted t) ∨
      blocks.length ≤ steps ∧ ∃ r' : Run,
        r'.Like .exact (opened (List.replicate n .skipToEnd ++ outer) r) ∧
        runFrom programs steps p index r =
          runFrom programs (steps - blocks.length) p (index + blocks.length) r' := by
  induction blocks generalizing steps index r m with
  | nil =>
    cases hblocks
    rw [← hr]
    exact .inr ⟨Nat.zero_le _, r, Run.Like.refl _ _, rfl⟩
  | cons b blocks ih =>
    obtain ⟨hget, hdrop⟩ := getElem?_of_drop hp
    cases steps with
    | zero => exact .inl ⟨Nat.succ_pos _, r, rfl⟩
    | succ steps =>
      rw [List.flatMap_cons, List.foldlM_append] at hblocks
      obtain ⟨k, hk, hrest⟩ := Option.bind_eq_some_iff.mp hblocks
      have hrun : statements programs (fun callee => runFrom programs steps callee 0) p b.line
          b.statements (r.report (.block index b.line p.blocks.length)) =
          .ok () (opened (List.replicate k .skipToEnd ++ outer)
            (r.report (.block index b.line p.blocks.length))) :=
        statements_passed houter b.statements hk hr hgo
      -- Nothing was due before the block, so its end changes nothing.
      have hblock : block programs (fun callee => runFrom programs steps callee 0) p b
          (r.report (.block index b.line p.blocks.length)) =
          .ok () (opened (List.replicate k .skipToEnd ++ outer)
            (r.report (.block index b.line p.blocks.length))) := by
        rw [block_run, hrun]
        exact congrArg (EStateM.Result.ok ()) (Run.endBlock_of_due hdue)
      rw [runFrom_next hget hblock hgo (Run.jump_of_due hdue), List.length_cons]
      rcases ih (r := opened (List.replicate k .skipToEnd ++ outer)
        (r.report (.block index b.line p.blocks.length))) hrest steps hdrop rfl hdue hgo with
        ⟨hshort, hx⟩ | ⟨hsteps, r', hlike, hx⟩
      · exact .inl ⟨Nat.succ_lt_succ hshort, hx⟩
      · refine .inr ⟨Nat.succ_le_succ hsteps, r', hlike.trans ?_, ?_⟩
        · exact ((Run.Like.refl .exact (opened _ r)).place
            (e := .block index b.line p.blocks.length) rfl)
        · rw [hx, Nat.add_sub_add_right, Nat.add_right_comm, Nat.add_assoc]

end Skipping

theorem statement_call {st : Statement} {name : String} {callee : Program}
    (hcallee : st.callee? programs = some (name, callee))
    (hskip : skipping r.control.branches = false) :
    statement programs call program line st r = callSubprogram call line name callee r := by
  have hexecuted := Statement.isExecuted_of_not_skipping hskip st
  rcases statement_cases programs call program line st r with
    ⟨name', callee', hcall, -, hx⟩ | ⟨-, hnone, -⟩ | ⟨hnone, -⟩
  · rw [hcallee] at hcall
    cases hcall
    exact hx
  · rw [hcallee] at hnone
    cases hnone
  · rw [hcallee] at hnone
    cases (hnone hexecuted).1

theorem runFrom_call {b : Block} {st : Statement} {name : String} {callee : Program} {entered : Run}
    (hget : program.blocks[index]? = some b) (hb : b.statements = [st])
    (hcallee : st.callee? programs = some (name, callee)) (hdue : r.control.due = {})
    (hgo : r.control.stopped = false) (hskip : skipping r.control.branches = false)
    (hentered : entered = (r.report (.block index b.line program.blocks.length)).report
      (.enter name callee.blocks.length)) :
    runFrom programs (steps + 1) program index r =
      match runFrom programs steps callee 0 entered with
      | .ok _ t =>
        if t.control.stopped then .ok () t
        else runFrom programs steps program (index + 1)
          (t.report (.leave name callee.blocks.length))
      | .error halt t => .error (halt.within b.line name) t := by
  have hblock : block programs (fun callee => runFrom programs steps callee 0) program b
      (r.report (.block index b.line program.blocks.length)) =
      match callSubprogram (fun callee => runFrom programs steps callee 0) b.line name callee
        (r.report (.block index b.line program.blocks.length)) with
      | .ok _ t => .ok () t.endBlock
      | .error halt t => .error halt t := by
    rw [block_run, hb,
      statements_cons (r := r.report (.block index b.line program.blocks.length)) st [] hgo,
      statement_call (r := r.report (.block index b.line program.blocks.length)) hcallee hskip]
    cases callSubprogram (fun callee => runFrom programs steps callee 0) b.line name callee
      (r.report (.block index b.line program.blocks.length)) with
    | error halt t => rfl
    | ok _ t => rfl
  have hduee : entered.control.due = {} := by
    rw [hentered]
    exact hdue
  rw [callSubprogram_run, ← hentered] at hblock
  cases hx : runFrom programs steps callee 0 entered with
  | error halt t =>
    rw [hx] at hblock
    rw [runFrom_some hget, hblock]
  | ok _ t =>
    rw [hx] at hblock
    have hrest := runFrom_rests hx hduee
    by_cases hstop : t.control.stopped = true
    · simp only [hstop, if_true, hrest] at hblock ⊢
      rw [runFrom_some hget, hblock]
      simp only [hstop, if_true]
    · have hgot : t.control.stopped = false := Bool.eq_false_iff.mpr hstop
      have hduet : t.control.due = {} := by
        rcases runFrom_due hx hgot with ⟨-, rfl⟩ | ⟨-, hduet⟩
        · exact hduee
        · exact hduet
      have hleft : (t.report (.leave name callee.blocks.length)).endBlock =
          t.report (.leave name callee.blocks.length) := Run.endBlock_of_due hduet
      simp only [hgot, Bool.false_eq_true, if_false, hleft] at hblock ⊢
      exact runFrom_next hget hblock hgot (Run.jump_of_due hduet)

section Call

variable {p p' : Program} {index' : Nat} {after : List Block} {b : Block} {st : Statement}
  {name : String} {callee : Program} {s : Run}

theorem run_behind_call (hafter : ∀ b' ∈ after, ∀ s ∈ b'.statements, s.isJump = false)
    (hp : p.blocks.drop index = b :: after) (hp' : p'.blocks.drop index' = callee.blocks ++ after)
    (steps steps' : Nat) (hlike : r.Like .exact s) (hdue : r.control.due = {})
    (hgo : r.control.stopped = false) :
    Matches .exact (steps < steps') (steps' < steps) (runFrom programs steps p (index + 1) r)
      (runFrom programs steps' p' (index' + callee.blocks.length) s) := by
  apply run_ahead after hafter steps steps' _ _ hlike hdue hgo
  · exact (getElem?_of_drop hp).2
  · rw [← List.drop_drop, hp', List.drop_left]

theorem skipped_call_matches (hafter : ∀ b' ∈ after, ∀ s ∈ b'.statements, s.isJump = false)
    (hp : p.blocks.drop index = b :: after) (hp' : p'.blocks.drop index' = callee.blocks ++ after)
    (hb : b.statements = [st]) (hcallee : st.callee? programs = some (name, callee))
    (hclosed : callee.depth callee.blocks.length = some 0) (steps steps' : Nat)
    (hlike : r.Like .exact s) (hdue : r.control.due = {}) (hgo : r.control.stopped = false)
    (hskip : skipping r.control.branches = true) :
    Matches .exact (steps < steps' + 2) (steps' < steps + callee.blocks.length)
      (runFrom programs steps p index r) (runFrom programs steps' p' index' s) := by
  cases steps with
  | zero => exact .inl ⟨by omega, r, rfl⟩
  | succ k =>
    have hbranch : st.isBranch = false := by
      cases st with
      | instruction => rfl
      | _ => cases hcallee
    have hblock : block programs (fun callee => runFrom programs k callee 0) p b
        (r.report (.block index b.line p.blocks.length)) =
        .ok () (r.report (.block index b.line p.blocks.length)) := by
      rw [block_run, hb, statements_cons st [] (r := r.report _) hgo,
        statement_skipped (r := r.report _) b.line hbranch hskip]
      exact congrArg (EStateM.Result.ok ()) (Run.endBlock_of_due hdue)
    rw [runFrom_next (getElem?_of_drop hp).1 hblock hgo (Run.jump_of_due hdue)]
    have hcloses : (callee.blocks.flatMap (·.statements)).foldlM Statement.openIfs 0 = some 0 := by
      rw [Program.depth, List.take_length] at hclosed
      exact hclosed
    have hskip' : skipping s.control.branches = true := hlike.control ▸ hskip
    rcases run_passed hskip' callee.blocks hcloses steps' hp' (r := s) rfl (hlike.control ▸ hdue)
      (hlike.control ▸ hgo) with ⟨hshort, hy⟩ | ⟨hsteps, s', hlike', hy⟩
    · exact .inr (.inl ⟨by omega, hy⟩)
    · rw [hy]
      have hpassed : (r.report (.block index b.line p.blocks.length)).Like .exact s' :=
        (hlike.place rfl).trans hlike'.symm
      apply (run_behind_call hafter hp hp' k _ hpassed hdue hgo).mono
      · omega
      · omega

theorem reached_call_matches (hafter : ∀ b' ∈ after, ∀ s ∈ b'.statements, s.isJump = false)
    (hp : p.blocks.drop index = b :: after) (hp' : p'.blocks.drop index' = callee.blocks ++ after)
    (hb : b.statements = [st]) (hcallee : st.callee? programs = some (name, callee))
    (hsub : callee.JumpFree) (steps steps' : Nat) (hlike : r.Like .exact s)
    (hdue : r.control.due = {}) (hgo : r.control.stopped = false)
    (hskip : skipping r.control.branches = false) :
    Matches .exact (steps < steps' + 2) (steps' < steps + callee.blocks.length)
      (runFrom programs steps p index r) (runFrom programs steps' p' index' s) := by
  cases steps with
  | zero => exact .inl ⟨by omega, r, rfl⟩
  | succ k =>
    rw [runFrom_call (getElem?_of_drop hp).1 hb hcallee hdue hgo hskip rfl]
    generalize hentered : (r.report (.block index b.line p.blocks.length)).report
      (.enter name callee.blocks.length) = entered
    have hlike₁ : entered.Like .exact s := by
      rw [← hentered]
      exact (hlike.place rfl).place rfl
    have hdue₁ : entered.control.due = {} := by
      rw [← hentered]
      exact hdue
    have hgo₁ : entered.control.stopped = false := by
      rw [← hentered]
      exact hgo
    have hcalled : callee.blocks.drop 0 = callee.blocks ++ [] := (List.append_nil _).symm
    rcases run_through callee.blocks hsub k steps' hcalled hp' hlike₁ hdue₁ hgo₁ with
      ⟨⟨hshort, t, hx⟩ | ⟨hshort, t, hy⟩ | ⟨_, t, t', hx, hy, hlike₂⟩ |
        ⟨halt, halt', t, t', hx, hy, hhalt, hlike₂⟩, hstop⟩ |
      ⟨hn, hm, r₂, s₂, hlike₂, hdue₂, hgo₂, hx, hy⟩
    · rw [hx]
      exact .inl ⟨by omega, t, rfl⟩
    · exact .inr (.inl ⟨by omega, t, hy⟩)
    · rw [hx, hy]
      simp only [hstop t t' hx hy, if_true]
      exact matches_ok hlike₂
    · rw [hx, hy]
      exact matches_error ((Halt.seen_within_exact _ _ halt).trans hhalt) hlike₂
    · rw [hx, hy, Nat.zero_add]
      cases hsteps : k - callee.blocks.length with
      | zero => exact .inl ⟨by omega, r₂, rfl⟩
      | succ m =>
        rw [runFrom_end List.drop_length]
        simp only [hgo₂, Bool.false_eq_true, if_false]
        apply (run_behind_call hafter hp hp' k _ (hlike₂.place rfl) hdue₂ hgo₂).mono
        · omega
        · omega

end Call

end Exec

end PartProgram
