import PartProgram.Proofs.Run.Beside
import PartProgram.Proofs.Run.FrameChange

/-!
# Going through the same blocks

Without jumps a program goes through its blocks in order, so which program a block belongs to
does not matter.
-/

set_option autoImplicit false

namespace PartProgram

/-- All that a run does, but not in which program. -/
def View.exact : View where
  name := id
  cause := id
  places := false
  upper_of_name h := congrArg upper h
  unknownVariable h := congrArg RunCause.unknownVariable h
  unknownTarget h := congrArg RunCause.unknownTarget h
  unexpectedArguments h := congrArg RunCause.unexpectedArguments h
  unsupportedFunction h := congrArg RunCause.unsupportedFunction h
  invalidTarget h := by
    rw [Expr.rename_id, Expr.rename_id] at h
    rw [h]

theorem Event.seen_place {e : Event} (h : e.isPlace = true) : e.seen .exact = none := by
  simp [Event.seen, h, View.exact]

theorem Halt.seen_within_exact (line : Nat) (name : String) (halt : Halt) :
    (halt.within line name).seen .exact = halt.seen .exact := by
  cases halt <;> rfl

namespace Run

variable {r s : Run}

theorem endBlock_of_due (h : r.control.due = {}) : r.endBlock = r := by
  obtain ⟨hw, hm, hf⟩ := Control.idle_of_due h
  simp [endBlock, endDwell, endMotion, endFrame, hw, hm, hf]

theorem jump_of_due (h : r.control.due = {}) : r.control.jump = none := congrArg Due.jump h

theorem landed_of_jump (h : r.control.jump = none) : r.landed = r := by
  obtain ⟨state, ⟨stopped, jump, waiting, delay, framing, motion, branches⟩, events⟩ := r
  cases h
  rfl

theorem due_endBlock (h : r.control.jump = none) : r.endBlock.control.due = {} := by
  obtain ⟨hw, hm, hf⟩ := r.endBlock_done
  simp [Control.due, hw, hm, hf, h]

theorem Like.place (h : r.Like .exact s) {e : Event} (he : e.isPlace = true) :
    (r.report e).Like .exact s :=
  h.unseen (Event.seen_place he)

theorem Like.placed (h : r.Like .exact s) {e e' : Event} (he : e.isPlace = true)
    (he' : e'.isPlace = true) : (r.report e).Like .exact (s.report e') :=
  (h.place he).trans ((Like.refl .exact s).place he').symm

end Run

namespace Exec

variable {programs : Table Program} {call : Program → Exec Unit} {program : Program}
  {line steps index : Nat} {r r' : Run}

theorem statement_undue {s : Statement} (hs : s.isJump = false)
    (h : statement programs (fun p => runFrom programs steps p 0) program line s r = .ok () r')
    (hgo : r'.control.stopped = false) (hj : r.control.jump = none) :
    r'.control.jump = none := by
  by_cases hflow : ∀ f, s ≠ .flow f
  · rcases statement_place hflow h with hsame | ⟨j, hj', -⟩ | ⟨name, callee, -, hcall⟩
    · exact hsame.2.trans hj
    · rw [Statement.isJump_of_request hj'] at hs
      cases hs
    · obtain ⟨t, ht, hcontrol⟩ := callSubprogram_ok hcall hgo
      rw [← hcontrol] at hgo ⊢
      rcases runFrom_due ht hgo with ⟨-, rfl⟩ | ⟨-, hdue⟩
      · exact hj
      · exact Run.jump_of_due hdue
  · simp only [not_forall, not_not] at hflow
    obtain ⟨f, rfl⟩ := hflow
    simp only [statement, flow, run_get] at h
    obtain ⟨branches, -, h⟩ := orFail_bind_ok h
    cases h
    exact hj

theorem statements_undue {list : List Statement} (hs : ∀ s ∈ list, s.isJump = false)
    (h : statements programs (fun p => runFrom programs steps p 0) program line list r =
      .ok () r')
    (hgo : r'.control.stopped = false) (hj : r.control.jump = none) :
    r'.control.jump = none := by
  induction list generalizing r with
  | nil =>
    cases h
    exact hj
  | cons s list ih =>
    obtain ⟨t, hx, h⟩ := statements_cons_ok (going_of_statements h hgo) h
    have ht := statement_undue (hs s List.mem_cons_self) hx (going_of_statements h hgo) hj
    exact ih (fun s' hs' => hs s' (List.mem_cons_of_mem s hs')) h ht

theorem block_ok {b : Block} (h : block programs call program b r = .ok () r') :
    ∃ t, statements programs call program b.line b.statements r = .ok () t ∧ r' = t.endBlock := by
  rw [block_run] at h
  cases hx : statements programs call program b.line b.statements r with
  | ok _ t =>
    rw [hx] at h
    cases h
    exact ⟨t, rfl, rfl⟩
  | error halt t =>
    rw [hx] at h
    cases h

theorem block_undue {b : Block} (hs : ∀ s ∈ b.statements, s.isJump = false)
    (h : block programs (fun p => runFrom programs steps p 0) program b r = .ok () r')
    (hgo : r'.control.stopped = false) (hj : r.control.jump = none) :
    r'.control.due = {} := by
  obtain ⟨t, ht, rfl⟩ := block_ok h
  rw [Run.endBlock_stopped] at hgo
  exact Run.due_endBlock (statements_undue hs ht hgo hj)

theorem runFrom_rests (h : runFrom programs steps program index r = .ok () r')
    (hdue : r.control.due = {}) : r'.endBlock = r' := by
  induction steps generalizing index r with
  | zero => cases h
  | succ steps ih =>
    cases hb : program.blocks[index]? with
    | none =>
      rw [runFrom_none hb] at h
      cases h
      exact Run.endBlock_of_due hdue
    | some b =>
      rw [runFrom_some hb] at h
      split at h
      · cases h
      · rename_i s hx
        obtain ⟨t, -, rfl⟩ := block_ok hx
        split at h
        · cases h
          exact t.endBlock_endBlock
        · split at h
          · exact ih h t.settled_due
          · cases h
            exact Run.endBlock_of_due t.settled_due

theorem runFrom_next {b : Block} (hb : program.blocks[index]? = some b)
    (h : block programs (fun callee => runFrom programs steps callee 0) program b
      (r.report (.block index b.line program.blocks.length)) = .ok () r')
    (hgo : r'.control.stopped = false) (hj : r'.control.jump = none) :
    runFrom programs (steps + 1) program index r =
      runFrom programs steps program (index + 1) r' := by
  have hnext : r'.control.next? index = some (index + 1) := by rw [Control.next?, hj]
  rw [runFrom_some hb, h]
  simp only [hgo, Bool.false_eq_true, if_false, hnext, Run.landed_of_jump hj]

theorem getElem?_of_drop {p : Program} {b : Block} {rest : List Block}
    (h : p.blocks.drop index = b :: rest) :
    p.blocks[index]? = some b ∧ p.blocks.drop (index + 1) = rest := by
  constructor
  · rw [← List.head?_drop, h, List.head?_cons]
  · rw [← List.tail_drop, h, List.tail_cons]

/-- Two runs look the same up to `n` blocks further on: either they end there, or both go on
behind these blocks. -/
def Through (programs : Table Program) (p p' : Program) (steps steps' index index' n : Nat)
    (r s : Run) : Prop :=
  (Matches .exact (steps < steps') (steps' < steps) (runFrom programs steps p index r)
      (runFrom programs steps' p' index' s) ∧
    ∀ t t' : Run, runFrom programs steps p index r = .ok () t →
      runFrom programs steps' p' index' s = .ok () t' → t.control.stopped = true) ∨
    n ≤ steps ∧ n ≤ steps' ∧ ∃ r' s' : Run, r'.Like .exact s' ∧
      r'.control.due = {} ∧ r'.control.stopped = false ∧
      runFrom programs steps p index r = runFrom programs (steps - n) p (index + n) r' ∧
      runFrom programs steps' p' index' s = runFrom programs (steps' - n) p' (index' + n) s'

theorem through_trans {p p' : Program} {steps' index' m n : Nat} {r s : Run}
    (h : Through programs p p' steps steps' index index' m r s)
    (h' : ∀ r' s' : Run, r'.Like .exact s' → r'.control.due = {} →
      r'.control.stopped = false →
      Through programs p p' (steps - m) (steps' - m) (index + m) (index' + m) n r' s') :
    Through programs p p' steps steps' index index' (m + n) r s := by
  rcases h with h | ⟨hm, hm', r₁, s₁, hlike, hdue, hgo, hr, hs⟩
  · exact .inl h
  rcases h' r₁ s₁ hlike hdue hgo with
    ⟨hmatch, hstop⟩ | ⟨hn, hn', r₂, s₂, hlike₂, hdue₂, hgo₂, hr₂, hs₂⟩
  · rw [← hr, ← hs] at hmatch hstop
    exact .inl ⟨hmatch.mono (by omega) (by omega), hstop⟩
  · refine .inr ⟨by omega, by omega, r₂, s₂, hlike₂, hdue₂, hgo₂, ?_, ?_⟩
    · rw [hr, hr₂, Nat.sub_sub, Nat.add_assoc]
    · rw [hs, hs₂, Nat.sub_sub, Nat.add_assoc]

theorem through_block {p p' : Program} {b : Block}
    (hjumps : ∀ s ∈ b.statements, s.isJump = false) (steps steps' : Nat) {index index' : Nat}
    (hget : p.blocks[index]? = some b) (hget' : p'.blocks[index']? = some b) {r s : Run}
    (hlike : r.Like .exact s) (hdue : r.control.due = {}) :
    Through programs p p' steps steps' index index' 1 r s := by
  cases steps with
  | zero =>
    left
    refine ⟨?_, fun _ _ hx _ => nomatch hx⟩
    cases steps' with
    | zero => exact matches_error rfl hlike
    | succ steps' => exact .inl ⟨Nat.succ_pos _, r, rfl⟩
  | succ steps =>
    cases steps' with
    | zero => exact .inl ⟨.inr (.inl ⟨Nat.succ_pos _, s, rfl⟩), fun _ _ _ hy => nomatch hy⟩
    | succ steps' =>
      have hentered : (r.report (.block index b.line p.blocks.length)).Like .exact
          (s.report (.block index' b.line p'.blocks.length)) := hlike.placed rfl rfl
      have hcall : CallsBeside .exact (steps < steps') (steps' < steps)
          (fun callee => runFrom programs steps callee 0)
          (fun callee => runFrom programs steps' callee 0) :=
        fun q q' hq => beside_runFrom (fun _ => rfl) steps steps' hq 0
      have hnone : ∀ s ∈ b.statements, s.isJump = true →
          p.rename View.exact.name = p'.rename View.exact.name := by
        intro s hs hjump
        rw [hjumps s hs] at hjump
        cases hjump
      unfold Through
      rw [Nat.succ_lt_succ_iff, Nat.succ_lt_succ_iff]
      rcases beside_block (fun _ => rfl) hcall hnone rfl _ _ hentered with
        ⟨hshort, t, hx⟩ | ⟨hshort, t, hy⟩ | ⟨_, r₁, s₁, hx, hy, hlike₁⟩ |
        ⟨halt, halt', r₁, s₁, hx, hy, hhalt, hlike₁⟩
      · rw [runFrom_some hget, hx]
        exact .inl ⟨.inl ⟨hshort, t, rfl⟩, fun _ _ hx _ => nomatch hx⟩
      · rw [runFrom_some hget', hy]
        exact .inl ⟨.inr (.inl ⟨hshort, t, rfl⟩), fun _ _ _ hy => nomatch hy⟩
      · by_cases hstop : r₁.control.stopped = true
        · rw [runFrom_some hget, hx, runFrom_some hget', hy]
          simp only [← hlike₁.control, hstop, if_true]
          left
          refine ⟨matches_ok hlike₁, ?_⟩
          intro t t' ht _
          cases ht
          exact hstop
        · have hgo₁ : r₁.control.stopped = false := Bool.eq_false_iff.mpr hstop
          have hdue₁ := block_undue hjumps hx hgo₁ (Run.jump_of_due hdue)
          have hj₁ := Run.jump_of_due hdue₁
          have hr := runFrom_next hget hx hgo₁ hj₁
          have hs := runFrom_next hget' hy (hlike₁.control ▸ hgo₁) (hlike₁.control ▸ hj₁)
          exact .inr ⟨Nat.succ_pos _, Nat.succ_pos _, r₁, s₁, hlike₁, hdue₁, hgo₁, hr, hs⟩
      · rw [runFrom_some hget, hx, runFrom_some hget', hy]
        exact .inl ⟨matches_error hhalt hlike₁, fun _ _ hx _ => nomatch hx⟩

/-- Two programs go through the same blocks in the same way, whatever comes before and behind
them, if these ask for no jump. -/
theorem run_through {p p' : Program} (blocks : List Block) {rest rest' : List Block}
    (hjumps : ∀ b ∈ blocks, ∀ s ∈ b.statements, s.isJump = false) (steps steps' : Nat)
    {index index' : Nat} (hp : p.blocks.drop index = blocks ++ rest)
    (hp' : p'.blocks.drop index' = blocks ++ rest') {r s : Run} (hlike : r.Like .exact s)
    (hdue : r.control.due = {}) (hgo : r.control.stopped = false) :
    Through programs p p' steps steps' index index' blocks.length r s := by
  induction blocks generalizing steps steps' index index' r s with
  | nil => exact .inr ⟨Nat.zero_le _, Nat.zero_le _, r, s, hlike, hdue, hgo, rfl, rfl⟩
  | cons b blocks ih =>
    obtain ⟨hget, hdrop⟩ := getElem?_of_drop hp
    obtain ⟨hget', hdrop'⟩ := getElem?_of_drop hp'
    have hfirst : Through programs p p' steps steps' index index' 1 r s :=
      through_block (hjumps b List.mem_cons_self) steps steps' hget hget' hlike hdue
    rw [List.length_cons, Nat.add_comm]
    apply through_trans hfirst
    intro r' s' hlike' hdue' hgo'
    exact ih (fun b' hb' => hjumps b' (List.mem_cons_of_mem b hb')) (steps - 1) (steps' - 1) hdrop
      hdrop' hlike' hdue' hgo'

theorem runFrom_end {p : Program} (hp : p.blocks.drop index = []) (steps : Nat) (r : Run) :
    runFrom programs (steps + 1) p index r = .ok () r := by
  apply runFrom_none
  rw [← List.head?_drop, hp, List.head?_nil]

theorem run_ahead {p p' : Program} (blocks : List Block)
    (hjumps : ∀ b ∈ blocks, ∀ s ∈ b.statements, s.isJump = false) (steps steps' : Nat)
    {index index' : Nat} (hp : p.blocks.drop index = blocks)
    (hp' : p'.blocks.drop index' = blocks) {r s : Run} (hlike : r.Like .exact s)
    (hdue : r.control.due = {}) (hgo : r.control.stopped = false) :
    Matches .exact (steps < steps') (steps' < steps) (runFrom programs steps p index r)
      (runFrom programs steps' p' index' s) := by
  have hall : p.blocks.drop index = blocks ++ [] := by rw [hp, List.append_nil]
  have hall' : p'.blocks.drop index' = blocks ++ [] := by rw [hp', List.append_nil]
  rcases run_through blocks hjumps steps steps' hall hall' hlike hdue hgo with
    ⟨hmatch, -⟩ | ⟨hn, hm, r₁, s₁, hlike₁, -, -, hr, hs⟩
  · exact hmatch
  · have hend : p.blocks.drop (index + blocks.length) = [] := by
      rw [← List.drop_drop, hp, List.drop_length]
    have hend' : p'.blocks.drop (index' + blocks.length) = [] := by
      rw [← List.drop_drop, hp', List.drop_length]
    rw [hr, hs]
    cases hsteps : steps - blocks.length with
    | zero =>
      cases hsteps' : steps' - blocks.length with
      | zero => exact matches_error rfl hlike₁
      | succ m => exact .inl ⟨by omega, r₁, rfl⟩
    | succ n =>
      cases hsteps' : steps' - blocks.length with
      | zero => exact .inr (.inl ⟨by omega, s₁, rfl⟩)
      | succ m =>
        rw [runFrom_end hend, runFrom_end hend']
        exact matches_ok hlike₁

end Exec

end PartProgram
