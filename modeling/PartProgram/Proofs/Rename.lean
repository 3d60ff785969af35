import PartProgram.Proofs.RoundTrip.Tree
import PartProgram.Run.Event

/-!
# Names under a map

Programs, errors and events with every name in them put through a map. Two
programs that are equal then differ in their names only, and how far is up to
the map: under `upper` they differ in the case of letters, under `id` not at all.
-/

set_option autoImplicit false

namespace PartProgram

variable (f : String → String)

namespace Expr

mutual

/-- The expression with its names put through a map. -/
def rename : Expr → Expr
  | num n => num n
  | str s => str s
  | var name none => var (f name) none
  | var name (some fields) => var (f name) (some (renameSlots fields))
  | call name args => call (f name) (renameSlots args)
  | bin op lhs rhs => bin op lhs.rename rhs.rename
  | un op arg => un op arg.rename
  | bracket inner => bracket inner.rename

def renameSlots : Slots → Slots
  | [] => []
  | none :: rest => none :: renameSlots rest
  | some e :: rest => some e.rename :: renameSlots rest

end

end Expr

def Flow.rename : Flow → Flow
  | ifThen condition => ifThen (condition.rename f)
  | whileDo condition => whileDo (condition.rename f)
  | untilTrue condition => untilTrue (condition.rename f)
  | forTo counter initial last => forTo (counter.rename f) (initial.rename f) (last.rename f)
  | word => word

def DeclaredVariable.rename (v : DeclaredVariable) : DeclaredVariable :=
  { v with name := f v.name, initial := v.initial.map (Expr.rename f) }

def Declaration.rename (d : Declaration) : Declaration :=
  { d with declared := d.declared.map (DeclaredVariable.rename f) }

def Statement.rename : Statement → Statement
  | assign name fields value =>
    assign (f name) (fields.map (Expr.renameSlots f)) (value.rename f)
  | declare d => declare (d.rename f)
  | gcode id args => gcode id (args.map (List.map (Expr.rename f)))
  | mcode id => mcode id
  | jump direction target => jump direction (target.map (Expr.rename f))
  | instruction name args => instruction (f name) (args.map (Expr.renameSlots f))
  | flow word => flow (word.rename f)

def Block.rename (b : Block) : Block :=
  { b with labels := b.labels.map f, statements := b.statements.map (Statement.rename f) }

def Program.rename (p : Program) : Program := ⟨p.blocks.map (Block.rename f)⟩

def Event.rename : Event → Event
  | instruction name args => instruction (f name) (args.map (Expr.renameSlots f))
  | gcode id args => gcode id (args.map (List.map (Expr.rename f)))
  | enter name total => enter (f name) total
  | leave name total => leave (f name) total
  | e => e

section Identity

theorem Expr.renameSlots_eq (slots : Slots) :
    Expr.renameSlots f slots = slots.map (Option.map (Expr.rename f)) := by
  induction slots with
  | nil => rfl
  | cons slot rest ih => cases slot <;> simp [Expr.renameSlots, ih]

theorem Expr.renameSlots_self {slots : Slots}
    (h : ∀ e, some e ∈ slots → e.rename id = e) : Expr.renameSlots id slots = slots := by
  rw [Expr.renameSlots_eq]
  conv_rhs => rw [← List.map_id slots]
  apply List.map_congr_left
  intro slot hslot
  cases slot with
  | none => rfl
  | some e => simp [h e hslot]

@[simp]
theorem Expr.rename_id (e : Expr) : e.rename id = e := by
  induction e using Expr.induction with
  | num | str => rfl
  | var name fields ih =>
    cases fields with
    | none => rfl
    | some fields => simp [Expr.rename, Expr.renameSlots_self (ih fields rfl)]
  | call name args ih => simp [Expr.rename, Expr.renameSlots_self ih]
  | bin op lhs rhs ihl ihr => simp [Expr.rename, ihl, ihr]
  | un op arg ih => simp [Expr.rename, ih]
  | bracket inner ih => simp [Expr.rename, ih]

@[simp]
theorem Expr.renameSlots_id (slots : Slots) : Expr.renameSlots id slots = slots :=
  Expr.renameSlots_self (fun e _ => e.rename_id)

theorem Event.rename_id (e : Event) : e.rename id = e := by
  have hrename : Expr.rename id = id := funext Expr.rename_id
  have hslots : Expr.renameSlots id = id := funext Expr.renameSlots_id
  cases e <;> simp [Event.rename, hrename, hslots]

end Identity

section Repeated

variable {f} (hf : ∀ name, f (f name) = f name)
include hf

omit hf in
theorem Expr.renameSlots_twice {slots : Slots}
    (h : ∀ e, some e ∈ slots → (e.rename f).rename f = e.rename f) :
    Expr.renameSlots f (Expr.renameSlots f slots) = Expr.renameSlots f slots := by
  rw [Expr.renameSlots_eq, Expr.renameSlots_eq, List.map_map]
  apply List.map_congr_left
  intro slot hslot
  cases slot with
  | none => rfl
  | some e => exact congrArg some (h e hslot)

theorem Expr.rename_twice (e : Expr) : (e.rename f).rename f = e.rename f := by
  induction e using Expr.induction with
  | num | str => rfl
  | var name fields ih =>
    cases fields with
    | none => simp [Expr.rename, hf]
    | some fields => simp [Expr.rename, hf, Expr.renameSlots_twice (ih fields rfl)]
  | call name args ih => simp [Expr.rename, hf, Expr.renameSlots_twice ih]
  | bin op lhs rhs ihl ihr => simp [Expr.rename, ihl, ihr]
  | un op arg ih => simp [Expr.rename, ih]
  | bracket inner ih => simp [Expr.rename, ih]

theorem Statement.rename_twice (s : Statement) : (s.rename f).rename f = s.rename f := by
  have hexpr : Expr.rename f ∘ Expr.rename f = Expr.rename f := funext (Expr.rename_twice hf)
  have hslots : Expr.renameSlots f ∘ Expr.renameSlots f = Expr.renameSlots f :=
    funext (fun _ => Expr.renameSlots_twice (fun e _ => e.rename_twice hf))
  have hdeclared : DeclaredVariable.rename f ∘ DeclaredVariable.rename f =
      DeclaredVariable.rename f := by
    funext v
    simp [DeclaredVariable.rename, hf, hexpr]
  cases s with
  | flow word => cases word <;> simp [Statement.rename, Flow.rename, Expr.rename_twice hf]
  | declare d => simp [Statement.rename, Declaration.rename, hdeclared]
  | assign => simp [Statement.rename, hf, hslots, Expr.rename_twice hf]
  | instruction => simp [Statement.rename, hf, hslots]
  | gcode => simp [Statement.rename, hexpr]
  | jump => simp [Statement.rename, hexpr]
  | mcode => rfl

end Repeated

section Inversion

variable {f}

theorem Expr.rename_var (name : String) (fields : Option Slots) :
    (var name fields).rename f = var (f name) (fields.map (renameSlots f)) := by
  cases fields <;> rfl

/-- Expressions that differ in their names are of the same form. -/
theorem Expr.of_rename {e e' : Expr} (h : e.rename f = e'.rename f) :
    match e with
    | num n => e' = num n
    | str s => e' = str s
    | var name fields => ∃ name' fields', e' = var name' fields' ∧ f name = f name' ∧
        fields.map (renameSlots f) = fields'.map (renameSlots f)
    | call name args => ∃ name' args', e' = call name' args' ∧ f name = f name' ∧
        renameSlots f args = renameSlots f args'
    | bin op lhs rhs => ∃ lhs' rhs', e' = bin op lhs' rhs' ∧
        lhs.rename f = lhs'.rename f ∧ rhs.rename f = rhs'.rename f
    | un op arg => ∃ arg', e' = un op arg' ∧ arg.rename f = arg'.rename f
    | bracket inner => ∃ inner', e' = bracket inner' ∧ inner.rename f = inner'.rename f := by
  cases e <;> cases e' <;> simp only [Expr.rename, rename_var] at h <;> grind

theorem Program.length_of_rename {p p' : Program} (h : p.rename f = p'.rename f) :
    p.blocks.length = p'.blocks.length := by
  simpa [Program.rename] using congrArg (fun q : Program => q.blocks.length) h

end Inversion

end PartProgram
