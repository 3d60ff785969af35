import PartProgram.Expr.Value
import PartProgram.Proofs.RoundTrip.Tree

/-!
# Strict evaluation

Evaluation visits the operands of a node before the node, the left one first, and skips none.
So an expression has a value exactly if every node visited has one, an error is that of the
first node without a value, and the variables visited are all that a scope is asked for. The
indices in field braces and the arguments of a call are not visited.
-/

set_option autoImplicit false

namespace PartProgram

namespace Expr

/-- The nodes that evaluation visits, in their order. -/
def visited : Expr → List Expr
  | bin op lhs rhs => visited lhs ++ visited rhs ++ [bin op lhs rhs]
  | un op arg => visited arg ++ [un op arg]
  | bracket inner => visited inner ++ [bracket inner]
  | e => [e]

def fault? (scope : Scope) (e : Expr) : Option RunCause :=
  match e.evaluate scope with
  | .ok _ => none
  | .error cause => some cause

section Fault

variable {scope : Scope} {e : Expr}

theorem fault?_eq_some_iff {cause : RunCause} :
    e.fault? scope = some cause ↔ e.evaluate scope = .error cause := by
  rw [fault?]
  cases e.evaluate scope <;> simp

theorem fault?_eq_none_iff : e.fault? scope = none ↔ ∃ value, e.evaluate scope = .ok value := by
  rw [fault?]
  cases e.evaluate scope <;> simp

theorem fault?_un {op : UnaryOp} {arg : Expr} :
    (arg.fault? scope).or ((un op arg).fault? scope) = (un op arg).fault? scope := by
  simp only [fault?, evaluate, bind, Except.bind]
  cases arg.evaluate scope <;> rfl

theorem fault?_bin {op : BinaryOp} {lhs rhs : Expr} :
    ((lhs.fault? scope).or (rhs.fault? scope)).or ((bin op lhs rhs).fault? scope) =
      (bin op lhs rhs).fault? scope := by
  simp only [fault?, evaluate, bind, Except.bind]
  cases lhs.evaluate scope with
  | error cause => rfl
  | ok left => cases rhs.evaluate scope <;> rfl

theorem findSome?_visited (scope : Scope) (e : Expr) :
    e.visited.findSome? (fault? scope) = e.fault? scope := by
  have hself (e : Expr) : [e].findSome? (fault? scope) = e.fault? scope := by
    cases h : e.fault? scope <;> simp [h]
  induction e using Expr.induction with
  | num n => exact hself _
  | str s => exact hself _
  | var name fields => exact hself _
  | call name args => exact hself _
  | bin op lhs rhs ihl ihr =>
    rw [visited, List.findSome?_append, List.findSome?_append, ihl, ihr, hself, fault?_bin]
  | un op arg ih => rw [visited, List.findSome?_append, ih, hself, fault?_un]
  | bracket inner ih =>
    have hbracket : (bracket inner).fault? scope = inner.fault? scope := rfl
    rw [visited, List.findSome?_append, ih, hself, hbracket, Option.or_self]

theorem visited_of_ok {value : Value} (h : e.evaluate scope = .ok value) :
    ∀ node ∈ e.visited, ∃ v, node.evaluate scope = .ok v := by
  have hnone : e.visited.findSome? (fault? scope) = none := by
    rw [findSome?_visited]
    exact fault?_eq_none_iff.mpr ⟨value, h⟩
  intro node hnode
  exact fault?_eq_none_iff.mp (List.findSome?_eq_none_iff.mp hnone node hnode)

theorem evaluate_call (name : String) (args : Slots) :
    (call name args).evaluate scope = .error (.unsupportedFunction name) := rfl

theorem has_of_evaluate_var {name : String} {fields : Option Slots} {value : Value}
    (h : (var name fields).evaluate scope = .ok value) : scope.has name = true := by
  rw [evaluate] at h
  split at h
  · rename_i x hx
    rw [Scope.has, hx, Option.isSome_some]
  · cases h

end Fault

/-- The first node in the list without a value fails for the cause. -/
def FirstFault (scope : Scope) (nodes : List Expr) (cause : RunCause) : Prop :=
  ∃ before node behind, nodes = before ++ node :: behind ∧
    node.evaluate scope = .error cause ∧ ∀ n ∈ before, ∃ value, n.evaluate scope = .ok value

theorem firstFault_iff (scope : Scope) (e : Expr) (cause : RunCause) :
    e.evaluate scope = .error cause ↔ FirstFault scope e.visited cause := by
  rw [← fault?_eq_some_iff, ← findSome?_visited, List.findSome?_eq_some_iff]
  simp only [fault?_eq_some_iff, fault?_eq_none_iff]
  rfl

def ReadAlike (e : Expr) (scope other : Scope) : Prop :=
  ∀ name fields, var name fields ∈ e.visited → other.get? name = scope.get? name

theorem evaluate_alike {e : Expr} {scope other : Scope} (h : e.ReadAlike scope other) :
    e.evaluate other = e.evaluate scope := by
  induction e using Expr.induction with
  | num n => rfl
  | str s => rfl
  | var name fields => rw [evaluate, evaluate, h name fields (by simp [visited])]
  | call name args => rfl
  | bin op lhs rhs ihl ihr =>
    have hl := ihl (fun name fields hmem => h name fields (by simp [visited, hmem]))
    have hr := ihr (fun name fields hmem => h name fields (by simp [visited, hmem]))
    rw [evaluate, evaluate, hl, hr]
  | un op arg ih =>
    have harg := ih (fun name fields hmem => h name fields (by simp [visited, hmem]))
    rw [evaluate, evaluate, harg]
  | bracket inner ih =>
    exact ih (fun name fields hmem => h name fields (by simp [visited, hmem]))

theorem holds_alike {e : Expr} {scope other : Scope} (h : e.ReadAlike scope other) :
    e.holds other = e.holds scope := by
  rw [holds, holds, evaluate_alike h]

/-- Evaluation is strict: a value needs a value of every variable and no call, an error is that
of the first node without a value, and nothing else of the scope counts. -/
theorem evaluation_strict (scope : Scope) (e : Expr) :
    (∀ value, e.evaluate scope = .ok value → ∀ node ∈ e.visited,
      (∀ name args, node ≠ call name args) ∧
        ∀ name fields, node = var name fields → scope.has name = true) ∧
    (∀ cause, e.evaluate scope = .error cause ↔ FirstFault scope e.visited cause) ∧
    ∀ other, e.ReadAlike scope other →
      e.evaluate other = e.evaluate scope ∧ e.holds other = e.holds scope := by
  refine ⟨?_, firstFault_iff scope e, fun other h => ⟨evaluate_alike h, holds_alike h⟩⟩
  intro value h node hnode
  obtain ⟨v, hv⟩ := visited_of_ok h node hnode
  constructor
  · rintro name args rfl
    rw [evaluate_call] at hv
    cases hv
  · rintro name fields rfl
    exact has_of_evaluate_var hv

theorem evaluation_strict_quotient :
    FirstFault (({} : Scope).set "R1" 4.0)
      (bin .add (bin .div (var "R1" none) (int 0)) (var "R9" none)).visited .divisionByZero := by
  obtain ⟨-, hfault, -⟩ := evaluation_strict (({} : Scope).set "R1" 4.0)
    (bin .add (bin .div (var "R1" none) (int 0)) (var "R9" none))
  exact (hfault .divisionByZero).mp (by decide +kernel)

/-- `R1[SIN(1)]` has the value of `R1` although there is a call inside, and `SIN(R9)` fails for
the call although its argument has no value. -/
theorem call_inside_unvisited :
    ((var "R1" (some [some (call "SIN" [some (int 1)])])).evaluate (({} : Scope).set "R1" 4.0) =
        .ok (.number 4.0) ∧
      call "SIN" [some (int 1)] ∈ (var "R1" (some [some (call "SIN" [some (int 1)])])).nodes) ∧
    (call "SIN" [some (var "R9" none)]).evaluate {} = .error (.unsupportedFunction "SIN") ∧
    (var "R9" none).evaluate {} = .error (.unknownVariable "R9") ∧
    var "R9" none ∈ (call "SIN" [some (var "R9" none)]).nodes := by
  refine ⟨⟨by decide +kernel, ?_⟩, by decide +kernel, by decide +kernel, ?_⟩
  · simp [nodes, slotNodes]
  · simp [nodes, slotNodes]

end Expr

end PartProgram
