import PartProgram.Proofs.Run.Structured.Walk

/-!
# Structured branches

A program with well nested branches and without jumps does what the walk over its
tree does. The walk takes one level of calls for each call inside the other, and
the run so many steps as its programs have blocks.
-/

set_option autoImplicit false

namespace PartProgram

namespace Exec

variable {programs : Table Program} {program : Program} {steps : Nat} {r : Run}
  {short shallow : Prop}

theorem endings_streamOf (total index : Nat) (blocks : List Block) :
    (Program.streamOf total index blocks).countP Step.isEnding = blocks.length := by
  induction blocks generalizing index with
  | nil => rfl
  | cons b blocks ih =>
    have hacts : (b.statements.map (Step.act b.line)).countP Step.isEnding = 0 := by
      rw [List.countP_map, List.countP_eq_zero]
      exact fun _ _ => Bool.false_ne_true
    rw [Program.streamOf, List.countP_cons_of_neg Bool.false_ne_true, List.countP_append, hacts,
      List.countP_cons_of_pos rfl, ih, Nat.zero_add, List.length_cons]

theorem act_mem_streamOf {total index line : Nat} {blocks : List Block} {s : Statement}
    (h : .act line s ∈ Program.streamOf total index blocks) :
    ∃ b ∈ blocks, s ∈ b.statements := by
  induction blocks generalizing index with
  | nil => cases h
  | cons b blocks ih =>
    simp only [Program.streamOf, List.mem_cons, List.mem_append, List.mem_map, reduceCtorEq,
      false_or] at h
    rcases h with ⟨s', hs', heq⟩ | h
    · cases heq
      exact ⟨b, List.mem_cons_self, hs'⟩
    · obtain ⟨b', hb', hs⟩ := ih h
      exact ⟨b', List.mem_cons_of_mem b hb', hs⟩

theorem stopped_corresponds (p : Program) (tree : Program → Tree) (depth steps : Nat)
    (hj : r.control.jump = none) (hstop : r.control.stopped = true) :
    Corresponds short shallow r.control.branches (flat programs p steps p.stream r)
      (Program.structured programs tree (depth + 1) p r.erase) := by
  unfold Program.structured Program.stream
  rw [run_get, if_pos (by exact hstop)]
  cases p.blocks with
  | nil => exact .inr (.inr (.inr ⟨r, rfl, rfl, hj, .inl hstop⟩))
  | cons b blocks =>
    rw [Program.streamOf, flat_enter, flat_closes (closes_acts _ _ _) (by exact hstop)]
    refine .inr (.inr (.inr ⟨_, rfl, ?_, ?_, .inl ?_⟩))
    · rw [← Run.erase_endBlock, Run.erase_entered r rfl]
      rfl
    · rw [Run.endBlock_jump]
      exact hj
    · rw [Run.endBlock_stopped]
      exact hstop

theorem Follows.corresponds {n : Nat} {x y : EStateM.Result Halt Run Unit}
    {branches : List Branch}
    (h : Follows programs program short shallow steps n x y [] branches) :
    Corresponds short shallow branches x y := by
  rcases h with h | h | h | ⟨s, hx, hy, hj, hstop⟩ | ⟨_, s, hx, hy, hj, _, hb⟩
  · exact .inl h
  · exact .inr (.inl h)
  · exact .inr (.inr (.inl h))
  · exact .inr (.inr (.inr ⟨s, hx, hy, hj, .inl hstop⟩))
  · exact .inr (.inr (.inr ⟨s, by rw [hx, flat]; rfl, hy, hj, .inr hb⟩))

/-- The run of a program goes as the walk over its tree. With `steps` steps calls are at
most `steps` deep, and a walk of some depth takes no more than `n + 1` steps for every
level of calls if no program has more than `n` blocks. -/
theorem runFrom_structured {tree : Program → Tree} {n : Nat} (depth steps : Nat) {p : Program}
    (hreach : ∀ q, p.Reaches programs q →
      q.Nested (tree q) ∧ q.JumpFree ∧ q.blocks.length ≤ n)
    (r : Run) (hskip : skipping r.control.branches = false) (hj : r.control.jump = none) :
    Corresponds (steps < depth * (n + 1)) (depth < steps) r.control.branches
      (runFrom programs steps p 0 r) (Program.structured programs tree depth p r.erase) := by
  induction depth generalizing steps p r with
  | zero =>
    cases steps with
    | zero => exact .inr (.inr (.inl ⟨.exhausted, r, rfl, rfl⟩))
    | succ steps => exact .inr (.inl ⟨Nat.succ_pos _, r.erase, rfl⟩)
  | succ depth ih =>
    cases steps with
    | zero => exact .inl ⟨Nat.mul_pos (Nat.succ_pos _) (Nat.succ_pos _), r, rfl⟩
    | succ steps =>
      obtain ⟨hnested, hjumps, hblocks⟩ := hreach p .self
      rw [runFrom_flat (fun q hq => (hreach q hq).2.1) steps 0 hj, List.drop_zero]
      by_cases hstop : r.control.stopped = true
      · exact stopped_corresponds p tree depth steps hj hstop
      · have hwalk : Program.structured programs tree (depth + 1) p r.erase =
            (tree p).run programs (Program.structured programs tree depth) p r.erase := by
          rw [Program.structured, run_get, if_neg (by exact hstop)]
        have hflatten : (tree p).flatten = Program.streamOf p.blocks.length 0 p.blocks := hnested.2
        have hendings : (tree p).endings = p.blocks.length := by
          rw [Tree.endings, hflatten, endings_streamOf]
        have hmul : (depth + 1) * (n + 1) = depth * (n + 1) + (n + 1) := Nat.succ_mul ..
        have hwalks : Walks programs p (steps + 1 < (depth + 1) * (n + 1))
            (depth + 1 < steps + 1) (Program.structured programs tree depth) steps
            (depth * (n + 1)) (tree p) := by
          apply walks_tree (tree p) hnested.1
          intro line st hst
          rw [hflatten] at hst
          obtain ⟨b, hb, hmem⟩ := act_mem_streamOf hst
          refine ⟨hjumps b hb st hmem, ?_⟩
          -- A call has the steps that its block has left.
          intro left hleft hneed name callee hcallee s hs hsj _
          have hmemc := Program.mem_callees_of_callee? hb hmem hcallee
          apply (ih left (fun q hq => hreach q (.of_callee hmemc hq)) s hs hsj).mono
          · exact fun hlt => hneed.resolve_right (by omega)
          · omega
        rw [hwalk, ← hflatten, ← List.append_nil (tree p).flatten]
        apply Follows.corresponds
        apply hwalks steps (Nat.le_refl steps)
        · omega
        · rw [List.append_nil, hflatten]
          exact tidy_streamOf _ _ _
        · exact hskip
        · exact hj
        · exact Bool.eq_false_iff.mpr hstop

theorem exists_blocks_bound (programs : Table Program) :
    ∃ bound, ∀ name p, programs.find? name = some p → p.blocks.length ≤ bound := by
  induction programs with
  | nil => exact ⟨0, fun _ _ h => by cases h⟩
  | cons entry rest ih =>
    obtain ⟨key, q⟩ := entry
    obtain ⟨bound, hbound⟩ := ih
    refine ⟨max q.blocks.length bound, fun name p h => ?_⟩
    rw [Table.find?] at h
    split at h
    · cases h
      exact Nat.le_max_left _ _
    · exact Nat.le_trans (hbound name p h) (Nat.le_max_right _ _)

end Exec

namespace Program

/-- A run and a walk have the same outcome: the same error in the same line, or none.
The state of the machine and the reported events are the same, but for the entered
blocks. Unless the program has ended the given branches are open behind the run. -/
def Agrees (branches : List Branch) (x y : EStateM.Result Halt Run Unit) : Prop :=
  (∃ halt s, x = .error halt s ∧ y = .error halt s.erase) ∨
    ∃ s, x = .ok () s ∧ y = .ok () s.erase ∧
      (s.control.stopped = true ∨ s.control.branches = branches)

def Exhausted (x : EStateM.Result Halt Run Unit) : Prop := ∃ s, x = .error .exhausted s

theorem agrees_of_corresponds {short shallow : Prop} {branches : List Branch}
    {x y : EStateM.Result Halt Run Unit} (h : Exec.Corresponds short shallow branches x y)
    (hshort : short → ¬Exhausted x) (hshallow : shallow → ¬Exhausted y) :
    Agrees branches x y := by
  rcases h with ⟨h, hx⟩ | ⟨h, hy⟩ | h | ⟨s, hx, hy, _, hend⟩
  · exact absurd hx (hshort h)
  · exact absurd hy (hshallow h)
  · exact .inl h
  · exact .inr ⟨s, hx, hy, hend⟩

/-- A well nested program without jumps, which may reach others of that kind by its calls,
does what the walk over its tree does, if no jump is due when it begins. A run that ends is
matched by a walk, and a walk that ends by every long enough run. -/
theorem run_structured_branches (programs : Table Program) (tree : Program → Tree) (p : Program)
    (hreach : ∀ q, p.Reaches programs q → q.Nested (tree q) ∧ q.JumpFree) (r : Run)
    (hskip : skipping r.control.branches = false) (hj : r.control.jump = none) :
    (∀ steps, ¬Exhausted (Exec.runFrom programs steps p 0 r) →
      Agrees r.control.branches (Exec.runFrom programs steps p 0 r)
        (structured programs tree steps p r.erase)) ∧
    ∀ depth, ¬Exhausted (structured programs tree depth p r.erase) →
      ∃ bound, ∀ steps ≥ bound,
        Agrees r.control.branches (Exec.runFrom programs steps p 0 r)
          (structured programs tree depth p r.erase) := by
  obtain ⟨most, hmost⟩ := Exec.exists_blocks_bound programs
  have hall : ∀ q, p.Reaches programs q → q.Nested (tree q) ∧ q.JumpFree ∧
      q.blocks.length ≤ p.blocks.length + most := by
    intro q hq
    obtain ⟨hnested, hjumps⟩ := hreach q hq
    refine ⟨hnested, hjumps, ?_⟩
    rcases hq.eq_or_find? with rfl | ⟨key, hfind⟩
    · exact Nat.le_add_right _ _
    · exact Nat.le_trans (hmost key q hfind) (Nat.le_add_left _ _)
  have hrun := fun depth steps => Exec.runFrom_structured depth steps hall r hskip hj
  constructor
  · intro steps hends
    exact agrees_of_corresponds (hrun steps steps) (fun _ => hends)
      (fun h => absurd h (Nat.lt_irrefl steps))
  · intro depth hends
    refine ⟨depth * (p.blocks.length + most + 1), ?_⟩
    intro steps hsteps
    exact agrees_of_corresponds (hrun depth steps) (fun h => absurd h (Nat.not_lt.mpr hsteps))
      (fun _ => hends)

def branching : Program where
  blocks := [
    { line := 1, statements := [.flow (.ifThen (.int 1)), .instruction "SUB" none] },
    { line := 2, statements := [.flow .otherwise, .flow (.whileDo (.int 1)), .mcode 7] },
    { line := 3, statements := [.flow .endIf] }]

def twoCodes : Program where
  blocks := [{ line := 1, statements := [.mcode 6] }, { line := 2, statements := [.mcode 8] }]

def branchingTree : Tree :=
  .step (.enter 0 1 3) <| .ifElse 1 (.int 1)
    (.step (.act 1 (.instruction "SUB" none)) <| .step .ending <| .step (.enter 1 2 3) .done) 2
    (.step (.act 2 (.flow (.whileDo (.int 1)))) <| .step (.act 2 (.mcode 7)) <|
      .step .ending <| .step (.enter 2 3 3) .done) 3
    (.step .ending .done)

def twoCodesTree : Tree :=
  .step (.enter 0 1 2) <| .step (.act 1 (.mcode 6)) <| .step .ending <|
    .step (.enter 1 2 2) <| .step (.act 2 (.mcode 8)) <| .step .ending .done

def exampleTree (p : Program) : Tree :=
  if p.blocks.length = 3 then branchingTree else twoCodesTree

theorem nested_branching : branching.Nested (exampleTree branching) :=
  ⟨by simp [exampleTree, branching, branchingTree, Tree.Proper, Step.isBranch, Statement.isBranch],
    rfl⟩

theorem nested_twoCodes : twoCodes.Nested (exampleTree twoCodes) :=
  ⟨by simp [exampleTree, twoCodes, twoCodesTree, Tree.Proper, Step.isBranch, Statement.isBranch],
    rfl⟩

theorem jumpFree_branching : branching.JumpFree := by
  simp [JumpFree, branching, Statement.isJump]

theorem jumpFree_twoCodes : twoCodes.JumpFree := by
  simp [JumpFree, twoCodes, Statement.isJump]

def unfinished : Program where
  blocks := [{ line := 1, statements := [.flow (.ifThen (.int 1)), .mcode 17] }]

def subprograms : Table Program := [("SUB", twoCodes), ("REST", unfinished)]

theorem reaches_branching {q : Program} (h : branching.Reaches subprograms q) :
    q = branching ∨ q = twoCodes := by
  have hbranching : branching.callees subprograms = [twoCodes] := rfl
  have htwoCodes : twoCodes.callees subprograms = [] := rfl
  have hq : q ∈ [branching, twoCodes] := by
    apply h.mem _ List.mem_cons_self
    simp [hbranching, htwoCodes]
  simpa using hq

theorem run_structured_branches_call :
    Agrees [.taken]
      (Exec.runFrom subprograms 6 branching 0
        { state := {}, control := { branches := [.taken] } })
      (structured subprograms exampleTree 6 branching { state := {} }) := by
  have hreach : ∀ q, branching.Reaches subprograms q → q.Nested (exampleTree q) ∧ q.JumpFree := by
    intro q hq
    rcases reaches_branching hq with rfl | rfl
    · exact ⟨nested_branching, jumpFree_branching⟩
    · exact ⟨nested_twoCodes, jumpFree_twoCodes⟩
  apply (run_structured_branches subprograms exampleTree branching hreach
    { state := {}, control := { branches := [.taken] } } rfl rfl).1 6
  rintro ⟨s, hs⟩
  cases hs

/-- A return that is due when a program begins is taken behind its first block, and the
second block is left out. -/
theorem run_differs_if_jump_due :
    twoCodes.Nested (exampleTree twoCodes) ∧ twoCodes.JumpFree ∧
      ¬Agrees [] (Exec.runFrom [] 3 twoCodes 0 { state := {}, control := { jump := some .back } })
        (structured [] exampleTree 3 twoCodes
          { state := {}, control := { jump := some .back } }) := by
  refine ⟨nested_twoCodes, jumpFree_twoCodes, ?_⟩
  rintro (⟨halt, s, hx, _⟩ | ⟨s, hx, hy, _⟩)
  · cases hx
  · cases hx
    injection hy with _ hruns
    exact absurd (congrArg (fun r : Run => r.events.size) hruns) (by decide)

end Program

end PartProgram
