import PartProgram.Run.Session

/-!
# Walks over trees

The statements of a program form a stream in which blocks begin and end. Where
its branches are well nested the stream is that of a tree, and a walk over the
tree evaluates each condition that it comes to once and executes only the side
that the condition selects. Open branches are not kept anywhere in such a walk.
Of the side that is left out only the ends of blocks count, since a block may
have begun before it.
-/

set_option autoImplicit false

namespace PartProgram

/-- A part of the stream of statements. -/
inductive Step where
  | enter (index line total : Nat)
  | act (line : Nat) (statement : Statement)
  | ending

/-- A well nested stream. Branches remember the lines of their words. -/
inductive Tree where
  | done
  | step (s : Step) (rest : Tree)
  | ifThen (line : Nat) (condition : Expr) (body : Tree) (endLine : Nat) (rest : Tree)
  | ifElse (line : Nat) (condition : Expr) (body : Tree) (elseLine : Nat) (other : Tree)
      (endLine : Nat) (rest : Tree)

def Statement.isBranch : Statement → Bool
  | flow (.ifThen _) | flow .otherwise | flow .endIf => true
  | _ => false

def Statement.isJump : Statement → Bool
  | jump .. => true
  | mcode id => id == 17
  | _ => false

def Exec.andThen (x next : Exec Unit) : Exec Unit := do
  x
  if (← get).control.stopped then return else next

namespace Step

def isBranch : Step → Bool
  | act _ s => s.isBranch
  | _ => false

def isEnding : Step → Bool
  | ending => true
  | _ => false

end Step

namespace Tree

def flatten : Tree → List Step
  | done => []
  | step s rest => s :: rest.flatten
  | ifThen line condition body endLine rest =>
    .act line (.flow (.ifThen condition)) ::
      (body.flatten ++ .act endLine (.flow .endIf) :: rest.flatten)
  | ifElse line condition body elseLine other endLine rest =>
    .act line (.flow (.ifThen condition)) ::
      (body.flatten ++ .act elseLine (.flow .otherwise) ::
        (other.flatten ++ .act endLine (.flow .endIf) :: rest.flatten))

def Proper : Tree → Prop
  | done => True
  | step s rest => s.isBranch = false ∧ rest.Proper
  | ifThen _ _ body _ rest => body.Proper ∧ rest.Proper
  | ifElse _ _ body _ other _ rest => body.Proper ∧ other.Proper ∧ rest.Proper

def endings (t : Tree) : Nat := t.flatten.countP Step.isEnding

def skip (t : Tree) : Exec Unit := modify fun r => if 0 < t.endings then r.endBlock else r

/-- Walks over a tree and executes the sides that its conditions select. The end of
the program in a block still completes that block. -/
def run (programs : Table Program) (call : Program → Exec Unit) (program : Program) :
    Tree → Exec Unit
  | done => return
  | step (.enter ..) rest => run programs call program rest
  | step .ending rest => do
    modify Run.endBlock
    run programs call program rest
  | step (.act line s) rest => do
    Exec.statement programs call program line s
    if (← get).control.stopped then modify Run.endBlock else run programs call program rest
  | ifThen line condition body _ rest => do
    let chosen ← Exec.orFail line (condition.holds (← get).state.scope)
    Exec.andThen (if chosen then run programs call program body else body.skip)
      (run programs call program rest)
  | ifElse line condition body _ other _ rest => do
    let chosen ← Exec.orFail line (condition.holds (← get).state.scope)
    Exec.andThen
      (if chosen then Exec.andThen (run programs call program body) other.skip
        else Exec.andThen body.skip (run programs call program other))
      (run programs call program rest)

theorem endings_ending (t : Tree) : (step .ending t).endings = 1 + t.endings := by
  rw [endings, flatten, List.countP_cons_of_pos rfl, Nat.add_comm, endings]

theorem endings_ifThen (line : Nat) (condition : Expr) (body : Tree) (endLine : Nat) (t : Tree) :
    (ifThen line condition body endLine t).endings = body.endings + t.endings := by
  simp [endings, flatten, Step.isEnding]

theorem endings_ifElse (line : Nat) (condition : Expr) (body : Tree) (elseLine : Nat)
    (other : Tree) (endLine : Nat) (t : Tree) :
    (ifElse line condition body elseLine other endLine t).endings =
      body.endings + (other.endings + t.endings) := by
  simp [endings, flatten, Step.isEnding]

end Tree

namespace Program

def streamOf (total : Nat) : Nat → List Block → List Step
  | _, [] => []
  | index, b :: rest =>
    .enter index b.line total ::
      (b.statements.map (.act b.line) ++ .ending :: streamOf total (index + 1) rest)

def stream (p : Program) : List Step := streamOf p.blocks.length 0 p.blocks

def Nested (p : Program) (t : Tree) : Prop := t.Proper ∧ t.flatten = p.stream

def JumpFree (p : Program) : Prop :=
  ∀ b ∈ p.blocks, ∀ s ∈ b.statements, s.isJump = false

/-- Runs a program by its tree, and the subprograms it calls by theirs, down to a
depth of calls. -/
def structured (programs : Table Program) (tree : Program → Tree) : Nat → Program → Exec Unit
  | 0, _ => throw .exhausted
  | depth + 1, p => do
    if (← get).control.stopped then
      if p.blocks.isEmpty then return else modify Run.endBlock
    else (tree p).run programs (structured programs tree depth) p

end Program

end PartProgram
