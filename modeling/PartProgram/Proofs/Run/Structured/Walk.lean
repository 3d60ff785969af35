import PartProgram.Proofs.Run.Structured.Skipped

/-!
# The run of a tree

The run of a tree goes as the walk over it, node by node.
-/

set_option autoImplicit false

namespace PartProgram

namespace Exec

variable {programs : Table Program} {program : Program} {steps : Nat} {r : Run}
  {short shallow : Prop} {call : Program → Exec Unit}

def Closes : List Step → Prop
  | .act .. :: rest => Closes rest
  | .ending :: _ => True
  | _ => False

/-- A stream in which every statement stands inside a block. -/
def Tidy : List Step → Prop
  | [] => True
  | .act _ _ :: rest => Closes rest ∧ Tidy rest
  | _ :: rest => Tidy rest

theorem Tidy.tail {x : Step} {stream : List Step} (h : Tidy (x :: stream)) : Tidy stream := by
  cases x with
  | enter index line total => exact h
  | act line s => exact h.2
  | ending => exact h

theorem Tidy.of_append {xs ys : List Step} (h : Tidy (xs ++ ys)) : Tidy ys := by
  induction xs with
  | nil => exact h
  | cons x xs ih => exact ih h.tail

theorem closes_acts (line : Nat) (list : List Statement) (rest : List Step) :
    Closes (list.map (Step.act line) ++ .ending :: rest) := by
  induction list with
  | nil => trivial
  | cons s list ih => exact ih

theorem tidy_streamOf (total index : Nat) (blocks : List Block) :
    Tidy (Program.streamOf total index blocks) := by
  induction blocks generalizing index with
  | nil => trivial
  | cons b blocks ih =>
    show Tidy (b.statements.map (Step.act b.line) ++
      .ending :: Program.streamOf total (index + 1) blocks)
    induction b.statements with
    | nil => exact ih (index + 1)
    | cons s list ihs =>
      constructor
      · exact closes_acts b.line list _
      · exact ihs

theorem flat_closes {stream : List Step} (h : Closes stream) (hstop : r.control.stopped = true) :
    flat programs program steps stream r = .ok () r.endBlock := by
  induction stream with
  | nil => exact h.elim
  | cons x stream ih =>
    cases x with
    | enter index line total => exact h.elim
    | act line s => rw [flat_stopped _ _ _ hstop, ih h]
    | ending => rw [flat_ending, if_pos hstop]

/-- A run of a part of a stream goes as the walk over its tree: both fail alike, both
end with the program, or the run goes on behind the part with the same branches open. -/
def Follows (programs : Table Program) (program : Program) (short shallow : Prop)
    (steps n : Nat) (x y : EStateM.Result Halt Run Unit) (rest : List Step)
    (branches : List Branch) : Prop :=
  (short ∧ ∃ s, x = .error .exhausted s) ∨ (shallow ∧ ∃ s, y = .error .exhausted s) ∨
    (∃ halt s, x = .error halt s ∧ y = .error halt s.erase) ∨
    (∃ s, x = .ok () s ∧ y = .ok () s.erase ∧ s.control.jump = none ∧
      s.control.stopped = true) ∨
    n ≤ steps ∧ ∃ s, x = flat programs program (steps - n) rest s ∧ y = .ok () s.erase ∧
      s.control.jump = none ∧ s.control.stopped = false ∧ s.control.branches = branches

theorem follows_andThen {n m : Nat} {x : EStateM.Result Halt Run Unit} {a b : Exec Unit}
    {start : Run} {ys zs : List Step} (inner : List Branch) {outer : List Branch}
    (h : Follows programs program short shallow steps n x (a start) ys inner)
    (h' : ∀ s : Run, s.control.branches = inner → s.control.jump = none →
      s.control.stopped = false →
      Follows programs program short shallow (steps - n) m
        (flat programs program (steps - n) ys s) (b s.erase) zs outer) :
    Follows programs program short shallow steps (n + m) x (andThen a b start) zs outer := by
  unfold andThen
  rw [run_bind]
  rcases h with ⟨hs, s, hx⟩ | ⟨hd, s, hy⟩ | ⟨halt, s, hx, hy⟩ | ⟨s, hx, hy, hj, hstop⟩ |
    ⟨hle, s, hx, hy, hj, hstop, hb⟩
  · exact .inl ⟨hs, s, hx⟩
  · rw [hy]
    exact .inr (.inl ⟨hd, s, rfl⟩)
  · rw [hy]
    exact .inr (.inr (.inl ⟨halt, s, hx, rfl⟩))
  · rw [hy]
    simp only [run_get]
    rw [if_pos (by exact hstop)]
    exact .inr (.inr (.inr (.inl ⟨s, hx, rfl, hj, hstop⟩)))
  · rw [hy]
    simp only [run_get]
    rw [if_neg (by simp [hstop]), hx]
    rcases h' s hb hj hstop with h | h | h | h | ⟨hle', s', hx', h⟩
    · exact .inl h
    · exact .inr (.inl h)
    · exact .inr (.inr (.inl h))
    · exact .inr (.inr (.inr (.inl h)))
    · exact .inr (.inr (.inr (.inr ⟨by omega, s', by rw [hx', Nat.sub_sub], h⟩)))

theorem follows_skip (t : Tree) (ht : t.Proper) (rest : List Step)
    (hsteps : short ∨ t.endings ≤ steps) (hskip : skipping r.control.branches = true)
    (hj : r.control.jump = none) (hstop : r.control.stopped = false) :
    Follows programs program short shallow steps t.endings
      (flat programs program steps (t.flatten ++ rest) r) (t.skip r.erase) rest
      r.control.branches := by
  rcases passes_tree t ht steps rest r hskip hstop with
    ⟨hlt, s, hx⟩ | ⟨hle, s, hx, he, hb, hsj, hs⟩
  · exact .inl ⟨hsteps.resolve_right (by omega), s, hx⟩
  · refine .inr (.inr (.inr (.inr ⟨hle, s, hx, ?_, hsj.trans hj, hs, hb⟩)))
    rw [he]
    rfl

theorem follows_succ {n : Nat} {x y : EStateM.Result Halt Run Unit} {rest : List Step}
    {branches : List Branch}
    (h : Follows programs program short shallow steps n x y rest branches) :
    Follows programs program short shallow (steps + 1) (1 + n) x y rest branches := by
  rcases h with h | h | h | h | ⟨hle, s, hx, h⟩
  · exact .inl h
  · exact .inr (.inl h)
  · exact .inr (.inr (.inl h))
  · exact .inr (.inr (.inr (.inl h)))
  · exact .inr (.inr (.inr (.inr ⟨by omega, s, by rw [hx]; congr 1; omega, h⟩)))

theorem follows_condition {n : Nat} (line : Nat) (condition : Expr) {stream rest : List Step}
    {branches : List Branch} {side : Bool → Exec Unit}
    (hskip : skipping r.control.branches = false) (hstop : r.control.stopped = false)
    (htrue : condition.holds r.state.scope = .ok true →
      Follows programs program short shallow steps n
        (flat programs program steps stream (opened (.taken :: r.control.branches) r))
        (side true r.erase) rest branches)
    (hfalse : condition.holds r.state.scope = .ok false →
      Follows programs program short shallow steps n
        (flat programs program steps stream (opened (.skipToElse :: r.control.branches) r))
        (side false r.erase) rest branches) :
    Follows programs program short shallow steps n
      (flat programs program steps (.act line (.flow (.ifThen condition)) :: stream) r)
      ((do
        let chosen ← orFail line (condition.holds (← get).state.scope)
        side chosen : Exec Unit) r.erase) rest branches := by
  rw [flat_act _ _ _ hstop, run_get, Run.erase_state]
  simp only [statement, flow_if line condition hskip]
  cases hc : condition.holds r.state.scope with
  | error cause => exact .inr (.inr (.inl ⟨_, r, rfl, rfl⟩))
  | ok chosen =>
    cases chosen with
    | true => exact htrue hc
    | false => exact hfalse hc

theorem follows_statement {n line : Nat} {s : Statement} {stream rest : List Step}
    {branches : List Branch} {next : Exec Unit} (hstop : r.control.stopped = false)
    (hcloses : Closes stream)
    (h : Corresponds short shallow r.control.branches
      (statement programs (fun callee => runFrom programs steps callee 0) program line s r)
      (statement programs call program line s r.erase))
    (hnext : ∀ s' : Run, s'.control.branches = r.control.branches → s'.control.jump = none →
      s'.control.stopped = false →
      Follows programs program short shallow steps n (flat programs program steps stream s')
        (next s'.erase) rest branches) :
    Follows programs program short shallow steps n
      (flat programs program steps (.act line s :: stream) r)
      ((do
        statement programs call program line s
        if (← get).control.stopped then modify Run.endBlock else next : Exec Unit) r.erase)
      rest branches := by
  rw [flat_act _ _ _ hstop, run_bind]
  rcases h with
    ⟨hshort, s', hx⟩ | ⟨hshallow, s', hy⟩ | ⟨halt, s', hx, hy⟩ | ⟨s', hx, hy, hj, hend⟩
  · rw [hx]
    exact .inl ⟨hshort, s', rfl⟩
  · rw [hy]
    exact .inr (.inl ⟨hshallow, s', rfl⟩)
  · rw [hx, hy]
    exact .inr (.inr (.inl ⟨halt, s', rfl, rfl⟩))
  · rw [hx, hy]
    simp only [run_get]
    by_cases hst : s'.control.stopped = true
    · -- The program ends here: what is left of the block only completes it.
      rw [if_pos (by exact hst), flat_closes hcloses hst]
      refine .inr (.inr (.inr (.inl ⟨s'.endBlock, rfl, ?_, ?_, ?_⟩)))
      · rw [← Run.erase_endBlock]
        rfl
      · rw [Run.endBlock_jump, hj]
      · rw [Run.endBlock_stopped, hst]
    · rw [if_neg (by exact hst)]
      exact hnext s' (hend.resolve_left hst) hj (by simpa using hst)

/-- Wherever the run of a tree begins with at most `bound` steps, it goes as the walk over the
tree. Besides those for its blocks it has `need` steps for each call. -/
def Walks (programs : Table Program) (program : Program) (short shallow : Prop)
    (call : Program → Exec Unit) (bound need : Nat) (t : Tree) : Prop :=
  ∀ steps ≤ bound, (short ∨ t.endings + need ≤ steps) →
    ∀ rest : List Step, Tidy (t.flatten ++ rest) →
      ∀ r : Run, skipping r.control.branches = false → r.control.jump = none →
        r.control.stopped = false →
          Follows programs program short shallow steps t.endings
            (flat programs program steps (t.flatten ++ rest) r)
            (t.run programs call program r.erase) rest r.control.branches

section Walks

variable {bound need : Nat} {body other t : Tree}

theorem walks_enter (index line total : Nat)
    (ht : Walks programs program short shallow call bound need t) :
    Walks programs program short shallow call bound need (.step (.enter index line total) t) := by
  intro steps hbound hneed rest htidy r hskip hj hstop
  have h := ht steps hbound hneed rest htidy.tail
    { r with events := r.events.push (.block index line total) } hskip hj hstop
  rw [Run.erase_entered r rfl] at h
  rw [Tree.flatten, List.cons_append, flat_enter]
  exact h

theorem walks_act {s : Statement}
    (hcall : ∀ steps ≤ bound, short ∨ need ≤ steps →
      CallsCorrespond programs short shallow steps call s) (line : Nat) (hb : s.isBranch = false)
    (hs : s.isJump = false)
    (ht : Walks programs program short shallow call bound need t) :
    Walks programs program short shallow call bound need (.step (.act line s) t) := by
  intro steps hbound hneed rest htidy r hskip hj hstop
  rw [Tree.flatten, List.cons_append] at htidy ⊢
  have hcalls := hcall steps hbound (hneed.imp_right (by omega))
  apply follows_statement hstop htidy.1 (statement_corresponds hcalls line hb hs hskip hj hstop)
  intro s' hbranches hj' hstop'
  rw [← hbranches] at hskip ⊢
  exact ht steps hbound hneed rest htidy.tail s' hskip hj' hstop'

theorem walks_ending (ht : Walks programs program short shallow call bound need t) :
    Walks programs program short shallow call bound need (.step .ending t) := by
  intro steps hbound hneed rest htidy r hskip hj hstop
  rw [Tree.endings_ending] at hneed ⊢
  rw [Tree.flatten, List.cons_append, flat_ending, if_neg (by simp [hstop]), Tree.run, run_modify,
    Run.erase_endBlock]
  cases steps with
  | zero => exact .inl ⟨hneed.resolve_right (by omega), _, rfl⟩
  | succ steps =>
    have h := ht steps (by omega) (hneed.imp_right (by omega)) rest htidy.tail r.endBlock
      (by rw [Run.endBlock_branches, hskip]) (by rw [Run.endBlock_jump, hj])
      (by rw [Run.endBlock_stopped, hstop])
    rw [Run.endBlock_branches] at h
    exact follows_succ h

theorem Walks.behind_endIf (ht : Walks programs program short shallow call bound need t)
    (hbound : steps ≤ bound) (hneed : short ∨ t.endings + need ≤ steps) {rest : List Step}
    (htidy : Tidy (t.flatten ++ rest)) (endLine : Nat) {branch : Branch} {outer : List Branch}
    (hskip : skipping outer = false) (hb : r.control.branches = branch :: outer)
    (hj : r.control.jump = none) (hstop : r.control.stopped = false) :
    Follows programs program short shallow steps t.endings
      (flat programs program steps (.act endLine (.flow .endIf) :: (t.flatten ++ rest)) r)
      (t.run programs call program r.erase) rest outer := by
  rw [flat_word _ hstop (flow_end endLine hb)]
  exact ht steps hbound hneed rest htidy (opened outer r) hskip hj hstop

theorem walks_ifThen (line endLine : Nat) (condition : Expr) (hproper : body.Proper)
    (hbody : Walks programs program short shallow call bound need body)
    (ht : Walks programs program short shallow call bound need t) :
    Walks programs program short shallow call bound need
      (.ifThen line condition body endLine t) := by
  intro steps hbound hneed rest htidy r hskip hj hstop
  rw [Tree.endings_ifThen] at hneed ⊢
  simp only [Tree.flatten, List.cons_append, List.append_assoc] at htidy ⊢
  have htidyb := htidy.tail
  have htidyt := htidyb.of_append.tail
  rw [Tree.run]
  apply follows_condition line condition hskip hstop
  · intro _
    apply follows_andThen (.taken :: r.control.branches)
    · exact hbody steps hbound (hneed.imp_right (by omega)) _ htidyb
        (opened (.taken :: r.control.branches) r) rfl hj hstop
    · exact fun s => ht.behind_endIf (by omega) (hneed.imp_right (by omega)) htidyt endLine hskip
  · intro _
    apply follows_andThen (.skipToElse :: r.control.branches)
    · exact follows_skip body hproper _ (hneed.imp_right (by omega))
        (r := opened (.skipToElse :: r.control.branches) r) rfl hj hstop
    · exact fun s => ht.behind_endIf (by omega) (hneed.imp_right (by omega)) htidyt endLine hskip

theorem walks_ifElse (line elseLine endLine : Nat) (condition : Expr) (hproper : body.Proper)
    (hproper' : other.Proper) (hbody : Walks programs program short shallow call bound need body)
    (hother : Walks programs program short shallow call bound need other)
    (ht : Walks programs program short shallow call bound need t) :
    Walks programs program short shallow call bound need
      (.ifElse line condition body elseLine other endLine t) := by
  intro steps hbound hneed rest htidy r hskip hj hstop
  rw [Tree.endings_ifElse, ← Nat.add_assoc] at hneed ⊢
  simp only [Tree.flatten, List.cons_append, List.append_assoc] at htidy ⊢
  have htidyb := htidy.tail
  have htidyo := htidyb.of_append.tail
  have htidyt := htidyo.of_append.tail
  rw [Tree.run]
  apply follows_condition line condition hskip hstop
  · intro _
    apply follows_andThen (.skipToEnd :: r.control.branches)
    · apply follows_andThen (.taken :: r.control.branches)
      · exact hbody steps hbound (hneed.imp_right (by omega)) _ htidyb
          (opened (.taken :: r.control.branches) r) rfl hj hstop
      · intro s hb hj hs
        rw [flat_word _ hs (flow_else_skipped elseLine hb (by decide))]
        exact follows_skip other hproper' _ (hneed.imp_right (by omega))
          (r := opened (.skipToEnd :: r.control.branches) s) rfl hj hs
    · exact fun s => ht.behind_endIf (by omega) (hneed.imp_right (by omega)) htidyt endLine hskip
  · intro _
    apply follows_andThen (.taken :: r.control.branches)
    · apply follows_andThen (.skipToElse :: r.control.branches)
      · exact follows_skip body hproper _ (hneed.imp_right (by omega))
          (r := opened (.skipToElse :: r.control.branches) r) rfl hj hstop
      · intro s hb hj hs
        rw [flat_word _ hs (flow_else_taken elseLine hb)]
        exact hother _ (by omega) (hneed.imp_right (by omega)) _ htidyo
          (opened (.taken :: r.control.branches) s) rfl hj hs
    · exact fun s => ht.behind_endIf (by omega) (hneed.imp_right (by omega)) htidyt endLine hskip

theorem walks_tree (t : Tree) (ht : t.Proper)
    (hacts : ∀ line s, .act line s ∈ t.flatten → s.isJump = false ∧
      ∀ steps ≤ bound, short ∨ need ≤ steps →
        CallsCorrespond programs short shallow steps call s) :
    Walks programs program short shallow call bound need t := by
  induction t with
  | done =>
    intro steps _ _ rest _ r _ hj hstop
    exact .inr (.inr (.inr (.inr ⟨Nat.zero_le _, r, rfl, rfl, hj, hstop, rfl⟩)))
  | step s t ih =>
    have hrest := ih ht.2 (fun line s' hs => hacts line s' (List.mem_cons_of_mem s hs))
    cases s with
    | enter index line total => exact walks_enter index line total hrest
    | act line s =>
      obtain ⟨hjump, hcall⟩ := hacts line s List.mem_cons_self
      exact walks_act hcall line ht.1 hjump hrest
    | ending => exact walks_ending hrest
  | ifThen line condition body endLine t ihb iht =>
    have hbody := ihb ht.1 (fun line' s hs => hacts line' s (by simp [Tree.flatten, hs]))
    have hrest := iht ht.2 (fun line' s hs => hacts line' s (by simp [Tree.flatten, hs]))
    exact walks_ifThen line endLine condition ht.1 hbody hrest
  | ifElse line condition body elseLine other endLine t ihb iho iht =>
    have hbody := ihb ht.1 (fun line' s hs => hacts line' s (by simp [Tree.flatten, hs]))
    have hother := iho ht.2.1 (fun line' s hs => hacts line' s (by simp [Tree.flatten, hs]))
    have hrest := iht ht.2.2 (fun line' s hs => hacts line' s (by simp [Tree.flatten, hs]))
    exact walks_ifElse line elseLine endLine condition ht.1 ht.2.1 hbody hother hrest

end Walks

end Exec

end PartProgram
