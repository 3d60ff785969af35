import PartProgram.Proofs.LetterCase.Letter
import PartProgram.Proofs.Rename
import PartProgram.Proofs.ScopeChain
import PartProgram.Run.Control

/-!
# Names in a view

A view tells how closely names are looked at: two names that look the same are
the same up to the case of letters, but a view may tell more names apart. What a
program asks of the machine and the variables does not depend on more than that,
so expressions, conditions and jumps of programs that look the same have the same
values and targets, or fail for causes that look the same.
-/

set_option autoImplicit false

namespace PartProgram

/-- How runs are compared: what is left of a name and of the cause of an error, and whether
it matters in which block of which program a run is. Names that look the same are the same
up to the case of letters. -/
structure View where
  name : String → String
  cause : RunCause → RunCause
  places : Bool
  upper_of_name : ∀ {a b}, name a = name b → upper a = upper b
  unknownVariable : ∀ {a b}, name a = name b → cause (.unknownVariable a) = cause (.unknownVariable b)
  unknownTarget : ∀ {a b}, name a = name b → cause (.unknownTarget a) = cause (.unknownTarget b)
  unexpectedArguments : ∀ {a b}, name a = name b →
    cause (.unexpectedArguments a) = cause (.unexpectedArguments b)
  unsupportedFunction : ∀ {a b}, name a = name b →
    cause (.unsupportedFunction a) = cause (.unsupportedFunction b)
  invalidTarget : ∀ {e e' : Expr}, e.rename name = e'.rename name →
    cause (.invalidTarget e.text) = cause (.invalidTarget e'.text)

section Letters

variable {a b : String} (h : upper a = upper b)
include h

theorem Machine.isCoordinateOrCenter_congr (m : Machine) :
    m.isCoordinateOrCenter a = m.isCoordinateOrCenter b := by
  simp only [Machine.isCoordinateOrCenter, Machine.isCoordinate, Machine.isLinear,
    Machine.isRotary, Machine.isCenter, hasName, sameLetters_congr h]

theorem Machine.inchesToMillimetres_congr (m : Machine) (value : Float) :
    m.inchesToMillimetres a value = m.inchesToMillimetres b value := by
  have hlength : m.isLength a = m.isLength b := by
    simp only [Machine.isLength, Machine.isLinear, Machine.isCenter, hasName, sameLetters_congr h]
  have hfeed : Machine.isFeed a = Machine.isFeed b := by
    simp only [Machine.isFeed, hasName, sameLetters_congr h]
  rw [Machine.inchesToMillimetres, hlength, hfeed, Machine.inchesToMillimetres]

theorem Machine.getD_reference_congr (m : Machine) (s : Scope) :
    s.getD (m.reference a) = s.getD (m.reference b) := by
  simp only [Machine.reference, sameLetters_congr_right h]
  cases m.centerPairs.find? (fun pair => sameLetters pair.1 b) with
  | none => exact congrArg (fun x => x.getD 0.0) (Scope.get?_congr h s)
  | some pair => rfl

theorem State.isAbsolute_congr (s : State) (framing : Bool) :
    s.isAbsolute framing a = s.isAbsolute framing b := by
  simp only [State.isAbsolute, Machine.isAbsolute, Machine.isRelative,
    Machine.isCoordinateOrCenter_congr h, Machine.isCenter, hasName, sameLetters_congr h]

end Letters

theorem blockReference?_toUpper (s : String) : blockReference? (upper s) = blockReference? s := by
  rw [blockReference?, blockReference?, upper_toList]
  cases s.toList with
  | nil => rfl
  | cons c cs =>
    have hnil : (decide (cs.map Char.toUpper ≠ [])) = decide (cs ≠ []) := by simp
    simp only [List.map_cons, toUpper_toUpper, hnil, all_toUpper isDigit_toUpper]
    split
    · rename_i h
      simp only [Bool.and_eq_true] at h
      rw [map_toUpper_of_digits h.2]
    · rfl

theorem map_congr_of_map {α β γ : Type} {f : α → β} {g : α → γ}
    (hfg : ∀ a b, f a = f b → g a = g b) {l l' : List α} (h : l.map f = l'.map f) :
    l.map g = l'.map g := by
  induction l generalizing l' with
  | nil => simpa using h
  | cons a l ih =>
    cases l' with
    | nil => cases h
    | cons a' l' =>
      obtain ⟨ha, hl⟩ := List.cons.inj h
      rw [List.map_cons, List.map_cons, hfg a a' ha, ih hl]

namespace View

variable (v : View)

/-- The same value, or causes that look the same. -/
def Agrees {α : Type} (x y : Except RunCause α) : Prop :=
  x.mapError v.cause = y.mapError v.cause

variable {v}

theorem agrees_bind {α β : Type} {x y : Except RunCause α} {k k' : α → Except RunCause β}
    (h : v.Agrees x y) (hk : ∀ a, v.Agrees (k a) (k' a)) : v.Agrees (x >>= k) (y >>= k') := by
  cases x with
  | ok a =>
    cases y with
    | ok b =>
      cases h
      exact hk a
    | error cause => cases h
  | error cause =>
    cases y with
    | ok b => cases h
    | error cause' => exact congrArg Except.error (Except.error.inj h)

theorem agrees_evaluate (scope : Scope) (e : Expr) {e' : Expr}
    (h : e.rename v.name = e'.rename v.name) :
    v.Agrees (e.evaluate scope) (e'.evaluate scope) := by
  induction e using Expr.induction generalizing e' with
  | num n =>
    cases Expr.of_rename h
    rfl
  | str s =>
    cases Expr.of_rename h
    rfl
  | var name fields ih =>
    obtain ⟨name', fields', rfl, hname, -⟩ := Expr.of_rename h
    simp only [Expr.evaluate, Scope.get?_congr (v.upper_of_name hname) scope]
    cases scope.get? name' with
    | none => exact congrArg Except.error (v.unknownVariable hname)
    | some x => rfl
  | call name args ih =>
    obtain ⟨name', args', rfl, hname, -⟩ := Expr.of_rename h
    exact congrArg Except.error (v.unsupportedFunction hname)
  | bin op lhs rhs ihl ihr =>
    obtain ⟨lhs', rhs', rfl, hl, hr⟩ := Expr.of_rename h
    exact agrees_bind (ihl hl) (fun _ => agrees_bind (ihr hr) (fun _ => rfl))
  | un op arg ih =>
    obtain ⟨arg', rfl, harg⟩ := Expr.of_rename h
    exact agrees_bind (ih harg) (fun _ => rfl)
  | bracket inner ih =>
    obtain ⟨inner', rfl, hinner⟩ := Expr.of_rename h
    rw [Expr.evaluate, Expr.evaluate]
    exact ih hinner

theorem marked?_eq_none {name : String} {args : Slots} (h : ∀ arg, args ≠ [some arg]) :
    (Expr.call name args).marked? = none := by
  unfold Expr.marked?
  split
  · rename_i heq
    cases heq
    exact absurd rfl (h _)
  · rfl

theorem marked?_cases {e e' : Expr} (h : e.rename v.name = e'.rename v.name) :
    e.marked? = none ∧ e'.marked? = none ∨
      ∃ absolute arg arg', e.marked? = some (absolute, arg) ∧ e'.marked? = some (absolute, arg') ∧
        arg.rename v.name = arg'.rename v.name := by
  cases e with
  | call name args =>
    obtain ⟨name', args', rfl, hname, hargs⟩ := Expr.of_rename h
    have hmode : positionMode? name = positionMode? name' := ofWord_congr (v.upper_of_name hname) _
    have hlist : args.map (Option.map (Expr.rename v.name)) =
        args'.map (Option.map (Expr.rename v.name)) := by
      rw [← Expr.renameSlots_eq, ← Expr.renameSlots_eq, hargs]
    by_cases hone : ∃ arg, args = [some arg]
    · obtain ⟨arg, rfl⟩ := hone
      obtain ⟨slot', rfl, hslot⟩ := List.map_eq_singleton_iff.mp hlist.symm
      obtain ⟨arg', rfl, harg⟩ := Option.map_eq_some_iff.mp hslot
      simp only [Expr.marked?, hmode]
      cases positionMode? name' with
      | none => exact .inl ⟨rfl, rfl⟩
      | some absolute => exact .inr ⟨absolute, arg, arg', rfl, rfl, harg.symm⟩
    · have hnone : ∀ arg, args ≠ [some arg] := fun arg harg => hone ⟨arg, harg⟩
      have hnone' : ∀ arg, args' ≠ [some arg] := by
        rintro arg' rfl
        obtain ⟨slot, rfl, hslot⟩ := List.map_eq_singleton_iff.mp hlist
        obtain ⟨arg, rfl, -⟩ := Option.map_eq_some_iff.mp hslot
        exact hnone arg rfl
      exact .inl ⟨marked?_eq_none hnone, marked?_eq_none hnone'⟩
  | num n =>
    cases Expr.of_rename h
    exact .inl ⟨rfl, rfl⟩
  | str s =>
    cases Expr.of_rename h
    exact .inl ⟨rfl, rfl⟩
  | var =>
    obtain ⟨_, _, rfl, -⟩ := Expr.of_rename h
    exact .inl ⟨rfl, rfl⟩
  | bin =>
    obtain ⟨_, _, rfl, -⟩ := Expr.of_rename h
    exact .inl ⟨rfl, rfl⟩
  | un =>
    obtain ⟨_, rfl, -⟩ := Expr.of_rename h
    exact .inl ⟨rfl, rfl⟩
  | bracket =>
    obtain ⟨_, rfl, -⟩ := Expr.of_rename h
    exact .inl ⟨rfl, rfl⟩

theorem agrees_assigned (s : State) (framing : Bool) {a b : String} (hname : v.name a = v.name b)
    {e e' : Expr} (h : e.rename v.name = e'.rename v.name) :
    v.Agrees (s.assigned framing a e) (s.assigned framing b e') := by
  have hupper := v.upper_of_name hname
  have hvalue : ∀ {x x' : Expr}, x.rename v.name = x'.rename v.name →
      v.Agrees (x.evaluateNumber s.scope) (x'.evaluateNumber s.scope) :=
    fun hx => agrees_bind (agrees_evaluate s.scope _ hx) (fun _ => rfl)
  have hmark : (e.marked?.getD (s.isAbsolute framing a, e)).1 =
        (e'.marked?.getD (s.isAbsolute framing b, e')).1 ∧
      (e.marked?.getD (s.isAbsolute framing a, e)).2.rename v.name =
        (e'.marked?.getD (s.isAbsolute framing b, e')).2.rename v.name := by
    rcases marked?_cases h with ⟨hl, hr⟩ | ⟨absolute, arg, arg', hl, hr, harg⟩
    · rw [hl, hr]
      exact ⟨State.isAbsolute_congr hupper s framing, h⟩
    · rw [hl, hr]
      exact ⟨rfl, harg⟩
  simp only [State.assigned]
  rw [← hmark.1]
  apply agrees_bind (hvalue hmark.2)
  intro x
  rw [Machine.inchesToMillimetres_congr hupper, Machine.getD_reference_congr hupper]
  rfl

theorem findNumber?_of_rename {p p' : Program} (hp : p.rename v.name = p'.rename v.name) (n : Int) :
    p.findNumber? n = p'.findNumber? n := by
  have hnumbers : p.blocks.map Block.number = p'.blocks.map Block.number :=
    map_congr_of_map (f := Block.rename v.name) (fun _ _ h => congrArg Block.number h)
      (congrArg Program.blocks hp)
  have hfind : ∀ q : Program,
      q.findNumber? n = (q.blocks.map Block.number).findIdx? (· == some n) := by
    intro q
    rw [List.findIdx?_map]
    rfl
  rw [hfind, hnumbers, hfind]

theorem findLabel?_of_rename {p p' : Program} (hp : p.rename v.name = p'.rename v.name)
    {a b : String} (hname : v.name a = v.name b) : p.findLabel? a = p'.findLabel? b := by
  have hlabels : p.blocks.map (fun b => b.labels.map upper) =
      p'.blocks.map (fun b => b.labels.map upper) :=
    map_congr_of_map (f := Block.rename v.name)
      (fun _ _ h => map_congr_of_map (f := v.name) (fun _ _ => v.upper_of_name)
        (congrArg Block.labels h))
      (congrArg Program.blocks hp)
  have hfind : ∀ (q : Program) (label : String), q.findLabel? label =
      (q.blocks.map (fun b => b.labels.map upper)).findIdx? (·.any (upper label == ·)) := by
    intro q label
    rw [List.findIdx?_map]
    refine congrArg (fun test => q.blocks.findIdx? test) (funext fun b => ?_)
    simp only [Block.hasLabel, Function.comp, List.any_map]
    refine congrArg b.labels.any (funext fun other => ?_)
    rw [Function.comp, Bool.eq_iff_iff, sameLetters_iff, beq_iff_eq]
  rw [hfind, hlabels, v.upper_of_name hname, hfind]

theorem agrees_target_name {p p' : Program} (hp : p.rename v.name = p'.rename v.name)
    {name name' : String} (hname : v.name name = v.name name') :
    v.Agrees (p.target (some (.var name none))) (p'.target (some (.var name' none))) := by
  have hreference : blockReference? name = blockReference? name' := by
    rw [← blockReference?_toUpper, v.upper_of_name hname, blockReference?_toUpper]
  have hunknown := congrArg (Except.error (α := Nat)) (v.unknownTarget hname)
  have hfound : ∀ found : Option Nat,
      v.Agrees (found.elim (.error (.unknownTarget name)) .ok)
        (found.elim (.error (.unknownTarget name')) .ok) := by
    intro found
    cases found with
    | none => exact hunknown
    | some index => rfl
  simp only [Program.target, hreference, findNumber?_of_rename hp, findLabel?_of_rename hp hname]
  cases blockReference? name' with
  | none => exact hfound _
  | some n => exact hfound _

theorem agrees_target {p p' : Program} (hp : p.rename v.name = p'.rename v.name)
    {t t' : Option Expr} (h : t.map (Expr.rename v.name) = t'.map (Expr.rename v.name)) :
    v.Agrees (p.target t) (p'.target t') := by
  cases t with
  | none =>
    cases t' with
    | none => rfl
    | some e' => cases h
  | some e =>
    cases t' with
    | none => cases h
    | some e' =>
      have he : e.rename v.name = e'.rename v.name := Option.some.inj h
      have hinvalid := congrArg (Except.error (α := Nat)) (v.invalidTarget he)
      cases e with
      | num n =>
        cases Expr.of_rename he
        obtain ⟨x, isInteger, radix⟩ := n
        cases isInteger with
        | true => simp only [Agrees, Program.target, findNumber?_of_rename hp]
        | false => rfl
      | var name fields =>
        obtain ⟨name', fields', rfl, hname, hfields⟩ := Expr.of_rename he
        cases fields with
        | some fields =>
          obtain ⟨fields', rfl, -⟩ := Option.map_eq_some_iff.mp hfields.symm
          exact hinvalid
        | none =>
          cases Option.map_eq_none_iff.mp hfields.symm
          exact v.agrees_target_name hp hname
      | str s =>
        cases Expr.of_rename he
        rfl
      | call =>
        obtain ⟨_, _, rfl, -⟩ := Expr.of_rename he
        exact hinvalid
      | bin =>
        obtain ⟨_, _, rfl, -⟩ := Expr.of_rename he
        exact hinvalid
      | un =>
        obtain ⟨_, rfl, -⟩ := Expr.of_rename he
        exact hinvalid
      | bracket =>
        obtain ⟨_, rfl, -⟩ := Expr.of_rename he
        exact hinvalid

theorem agrees_step (scope : Scope) (branches : List Branch) {f f' : Flow}
    (h : f.rename v.name = f'.rename v.name) :
    v.Agrees (f.step scope branches) (f'.step scope branches) := by
  cases f with
  | ifThen condition =>
    cases f' with
    | ifThen condition' =>
      have hc : v.Agrees (condition.holds scope) (condition'.holds scope) :=
        agrees_bind (agrees_evaluate scope _ (Flow.ifThen.inj h)) (fun _ => rfl)
      simp only [Flow.step]
      split
      · rfl
      · exact agrees_bind hc (fun _ => rfl)
    | _ => cases h
  | _ =>
    cases f'
    all_goals first
      | cases h; done
      | rfl

end View

end PartProgram
