import PartProgram.Proofs.Run.Structured.Skipped

/-!
# What is left to the end of a block

What the statements of a block leave to its end is kept in one place for a
program and the subprograms that it calls, and every end of a block completes
all of it.
-/

set_option autoImplicit false

namespace PartProgram

/-- What is left to the end of a block. -/
structure Due where
  jump : Option Jump := none
  /-- A dwell, with its time if that is known. -/
  dwell : Option (Option Float) := none
  framing : Bool := false
  motion : Option Motion := none
deriving DecidableEq

def Control.due (c : Control) : Due where
  jump := c.jump
  dwell := if c.waiting then some c.delay else none
  framing := c.framing
  motion := c.motion

namespace Statement

def openIfs : Nat → Statement → Option Nat
  | n, flow (.ifThen _) => some (n + 1)
  | 0, flow .otherwise | 0, flow .endIf => none
  | n + 1, flow .otherwise => some (n + 1)
  | n + 1, flow .endIf => some n
  | n, _ => some n

def request? (program : Program) : Statement → Option Jump
  | jump _ target => (program.target target).toOption.map .to
  | mcode id => if id = 17 then some .back else none
  | _ => none

def isCall (programs : Table Program) : Statement → Bool
  | instruction name _ =>
    (frameInstruction? name).isNone && (programs.find? (upper name)).isSome
  | _ => false

theorem isCall_of_callee? {programs : Table Program} {s : Statement} {name : String}
    {callee : Program} (h : s.callee? programs = some (name, callee)) :
    s.isCall programs = true := by
  cases s with
  | instruction key args =>
    simp only [callee?] at h
    split at h
    · rename_i hplain
      simp only [Bool.and_eq_true] at hplain
      obtain ⟨found, hfind, -⟩ := Option.map_eq_some_iff.mp h
      simp [isCall, hplain.1, hfind]
    · cases h
  | _ => cases h

theorem isJump_of_request {program : Program} {s : Statement} {j : Jump}
    (h : s.request? program = some j) : s.isJump = true := by
  cases s with
  | jump => rfl
  | mcode id =>
    by_cases hid : id = 17
    · simp [isJump, hid]
    · simp [request?, hid] at h
  | _ => cases h

theorem openIfs_of_ne_flow {s : Statement} (h : ∀ f, s ≠ flow f) (n : Nat) :
    s.openIfs n = some n := by
  cases s with
  | flow f => exact absurd rfl (h f)
  | _ => cases n <;> rfl

end Statement

namespace Program

def depth (p : Program) (index : Nat) : Option Nat :=
  ((p.blocks.take index).flatMap (·.statements)).foldlM Statement.openIfs 0

def depthAfter (p : Program) : Jump → Option Nat
  | .to index => p.depth index
  | .back => some 0

/-- Each IF is closed and no jump leads into or out of one. What a block calls comes before
what it asks to be jumped to. -/
structure Level (programs : Table Program) (p : Program) : Prop where
  closed : p.depth p.blocks.length = some 0
  lands : ∀ place ∈ p.blocks.zipIdx, ∀ s ∈ place.1.statements, ∀ j ∈ s.request? p,
    p.depthAfter j = p.depth (place.2 + 1)
  calls : ∀ b ∈ p.blocks, b.statements.Pairwise
    (fun s s' => s.isJump = true → s'.isCall programs = false)

theorem depth_succ {p : Program} {index : Nat} {b : Block} (h : p.blocks[index]? = some b) :
    p.depth (index + 1) = (p.depth index).bind (b.statements.foldlM Statement.openIfs) := by
  simp [depth, List.take_add_one, h, List.foldlM_append, Option.bind_eq_bind]

theorem depth_of_none {p : Program} {index : Nat} (h : p.blocks[index]? = none) :
    p.depth index = p.depth p.blocks.length := by
  rw [depth, depth, List.take_of_length_le (List.getElem?_eq_none_iff.mp h), List.take_length]

theorem Level.depth_some {programs : Table Program} {p : Program} (hp : p.Level programs)
    (index : Nat) : ∃ n, p.depth index = some n := by
  have hall := hp.closed
  rw [depth, List.take_length, ← List.take_append_drop index p.blocks, List.flatMap_append,
    List.foldlM_append] at hall
  obtain ⟨n, hn, -⟩ := Option.bind_eq_some_iff.mp hall
  exact ⟨n, hn⟩

end Program

theorem Flow.step_inner {f : Flow} {scope : Scope} {inner outer branches : List Branch} {n : Nat}
    (h : f.step scope (inner ++ outer) = .ok branches)
    (hn : (Statement.flow f).openIfs inner.length = some n) :
    ∃ inner', inner'.length = n ∧ branches = inner' ++ outer := by
  cases f with
  | ifThen condition =>
    cases hn
    simp only [Flow.step] at h
    split at h
    · cases h
      exact ⟨.skipToEnd :: inner, rfl, rfl⟩
    · cases hc : condition.holds scope with
      | error cause =>
        rw [hc] at h
        cases h
      | ok chosen =>
        rw [hc] at h
        cases chosen with
        | true =>
          cases h
          exact ⟨.taken :: inner, rfl, rfl⟩
        | false =>
          cases h
          exact ⟨.skipToElse :: inner, rfl, rfl⟩
  | otherwise =>
    cases inner with
    | nil => cases hn
    | cons b inner =>
      cases hn
      cases b with
      | skipToElse =>
        cases h
        exact ⟨.taken :: inner, rfl, rfl⟩
      | taken | skipToEnd =>
        cases h
        exact ⟨.skipToEnd :: inner, rfl, rfl⟩
  | endIf =>
    cases inner with
    | nil => cases hn
    | cons b inner =>
      cases hn
      cases h
      exact ⟨inner, rfl, rfl⟩
  | _ =>
    have hsame : n = inner.length := by
      cases inner <;> cases hn <;> rfl
    rw [Flow.step_loop rfl] at h
    split at h
    · cases h
      exact ⟨inner, hsame.symm, rfl⟩
    · cases h

namespace Run

def settled (r : Run) : Run :=
  { r.endBlock with control := { r.endBlock.control with jump := none } }

@[simp]
theorem settled_branches (r : Run) : r.settled.control.branches = r.control.branches :=
  r.endBlock_branches

@[simp]
theorem settled_due (r : Run) : r.settled.control.due = {} := by
  obtain ⟨hw, hm, hf⟩ := r.endBlock_done
  simp [settled, Control.due, hw, hm, hf]

end Run

namespace Exec

variable {programs : Table Program} {call : Program → Exec Unit} {program : Program}
  {line steps index : Nat} {r r' : Run}

theorem instruction_place {name : String} {args : Option Slots}
    (h : instruction programs call line name args r = .ok () r') :
    SamePlace r r' ∨ ∃ callee,
      (Statement.instruction name args).callee? programs = some (name, callee) ∧
        callSubprogram call line name callee r = .ok () r' := by
  rw [instruction] at h
  cases hframe : frameInstruction? name with
  | some replace =>
    rw [hframe] at h
    exact .inl ((samePlace_beginFrame replace r).of_ok h)
  | none =>
    rw [hframe] at h
    cases hfind : programs.find? (upper name) with
    | none =>
      rw [hfind] at h
      cases h
      exact .inl ⟨rfl, rfl⟩
    | some callee =>
      simp only [hfind] at h
      split at h
      · rename_i hargs
        exact .inr ⟨callee, Statement.callee?_instruction hframe hfind hargs, h⟩
      · cases h

/-- What a statement other than a flow statement does to the open branches and to the jump
that is due. -/
theorem statement_place {s : Statement} (hflow : ∀ f, s ≠ .flow f)
    (h : statement programs call program line s r = .ok () r') :
    SamePlace r r' ∨
      (∃ j, s.request? program = some j ∧ r'.control.branches = r.control.branches ∧
        r'.control.jump = some j) ∨
      ∃ name callee, s.callee? programs = some (name, callee) ∧
        callSubprogram call line name callee r = .ok () r' := by
  have hb : s.isBranch = false := by
    cases s with
    | flow f => exact absurd rfl (hflow f)
    | _ => rfl
  by_cases hskip : skipping r.control.branches = true
  · rw [statement_skipped line hb hskip] at h
    cases h
    exact .inl ⟨rfl, rfl⟩
  have hrun : ∀ body : Exec Unit, unlessSkipping body r = body r := fun body =>
    unlessSkipping_run body (Bool.eq_false_iff.mpr hskip)
  cases s with
  | flow f => exact absurd rfl (hflow f)
  | declare d =>
    rw [statement, hrun] at h
    exact .inl ((samePlace_declare line d r).of_ok h)
  | assign name fields value =>
    rw [statement, hrun] at h
    exact .inl ((samePlace_assign line name value r).of_ok h)
  | gcode id args =>
    rw [statement, hrun] at h
    exact .inl ((samePlace_gcode id args r).of_ok h)
  | mcode id =>
    rw [statement, hrun] at h
    by_cases hid : id = 17
    · subst hid
      cases h
      exact .inr (.inl ⟨.back, rfl, rfl, rfl⟩)
    · exact .inl ((samePlace_mcode hid r).of_ok h)
  | jump direction target =>
    rw [statement, hrun, jump] at h
    obtain ⟨index, ht, h⟩ := orFail_bind_ok h
    cases h
    exact .inr (.inl ⟨.to index, by simp [Statement.request?, ht, Except.toOption], rfl, rfl⟩)
  | instruction name args =>
    rw [statement, hrun] at h
    rcases instruction_place h with hsame | ⟨callee, hcallee, h⟩
    · exact .inl hsame
    · exact .inr (.inr ⟨name, callee, hcallee, h⟩)

theorem callSubprogram_ok {name : String} {callee : Program}
    (h : callSubprogram call line name callee r = .ok () r')
    (hs : r'.control.stopped = false) :
    ∃ s, call callee { r with events := r.events.push (.enter name callee.blocks.length) } =
        .ok () s ∧ s.control = r'.control := by
  simp only [callSubprogram, emit, run_modify] at h
  rw [run_bind] at h
  simp only [EStateM.adaptExcept] at h
  cases hx : call callee { r with events := r.events.push (.enter name callee.blocks.length) } with
  | error halt s =>
    rw [hx] at h
    cases h
  | ok a s =>
    rw [hx] at h
    simp only [run_get] at h
    refine ⟨s, rfl, ?_⟩
    split at h <;> cases h <;> rfl

theorem runFrom_block {b : Block} (hb : program.blocks[index]? = some b)
    (h : runFrom programs (steps + 1) program index r = .ok () r')
    (hs : r'.control.stopped = false) :
    ∃ s, statements programs (fun callee => runFrom programs steps callee 0) program b.line
        b.statements
        { r with events := r.events.push (.block index b.line program.blocks.length) } =
          .ok () s ∧
      s.control.stopped = false ∧
      match s.control.jump with
      | none => runFrom programs steps program (index + 1) s.settled = .ok () r'
      | some (.to target) => runFrom programs steps program target s.settled = .ok () r'
      | some .back => r' = s.settled := by
  simp only [runFrom, hb, emit, run_modify] at h
  rw [run_bind] at h
  split at h
  · rename_i s hrun
    refine ⟨s, hrun, ?_⟩
    simp only [run_modify, run_get, Run.endBlock_stopped] at h
    split at h
    · rename_i hstop
      cases h
      rw [Run.endBlock_stopped, hstop] at hs
      cases hs
    · rename_i hstop
      refine ⟨Bool.eq_false_iff.mpr hstop, ?_⟩
      simp only [takeJump, modifyControl, bind_assoc, run_get, run_modify, pure_bind,
        Run.endBlock_jump] at h
      cases hj : s.control.jump with
      | none =>
        rw [hj] at h
        exact h
      | some j =>
        rw [hj] at h
        obtain target | _ := j
        · exact h
        · cases h
          rfl
  · cases h

theorem runFrom_due (h : runFrom programs steps program index r = .ok () r')
    (hs : r'.control.stopped = false) :
    program.blocks[index]? = none ∧ r' = r ∨
      program.blocks[index]? ≠ none ∧ r'.control.due = {} := by
  induction steps generalizing index r with
  | zero => cases h
  | succ steps ih =>
    cases hb : program.blocks[index]? with
    | none =>
      simp only [runFrom, hb] at h
      cases h
      exact .inl ⟨rfl, rfl⟩
    | some b =>
      right
      refine ⟨by simp, ?_⟩
      obtain ⟨s, -, -, hnext⟩ := runFrom_block hb h hs
      have hgo : ∀ next, runFrom programs steps program next s.settled = .ok () r' →
          r'.control.due = {} := by
        intro next hrun
        rcases ih hrun with ⟨-, rfl⟩ | ⟨-, hdue⟩
        · exact s.settled_due
        · exact hdue
      split at hnext
      · exact hgo _ hnext
      · exact hgo _ hnext
      · rw [hnext]
        exact s.settled_due

end Exec

end PartProgram
