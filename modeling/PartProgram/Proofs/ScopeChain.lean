import PartProgram.Scope

/-!
# Laws of a chain of scopes

A name is resolved from the outermost scope inwards and its value is looked up from the
innermost outwards. Whatever history a chain has, all its names are in upper case, so the case
in which a name is given never matters. A value that is set is read by the names that resolve
to the same one and by no others. Clearing a scope uncovers what the scopes around it hold.
-/

set_option autoImplicit false

namespace PartProgram

def IsUpper (name : String) : Prop := ∀ c ∈ name.toList, c.isLower = false

theorem isLower_toUpper (c : Char) : c.toUpper.isLower = false := by
  rw [Bool.eq_false_iff]
  intro hlower
  have h : 'a'.val ≤ c.toUpper.val ∧ c.toUpper.val ≤ 'z'.val := by
    delta Char.isLower at hlower
    simpa using hlower
  -- a letter in lower case is moved by a second step, but the second step moves nothing
  have hmoved : c.toUpper.toUpper.val = c.toUpper.val + ('A'.val - 'a'.val) := by
    generalize c.toUpper = u at h ⊢
    delta Char.toUpper
    rw [dif_pos h]
  rw [toUpper_toUpper] at hmoved
  have hshift : ('A'.val - 'a'.val).toNat = 4294967264 := rfl
  have hnat := congrArg UInt32.toNat hmoved
  rw [UInt32.toNat_add, hshift] at hnat
  have := c.toUpper.val.toNat_lt
  omega

theorem isUpper_upper (name : String) : IsUpper (upper name) := by
  intro c hc
  rw [upper_toList] at hc
  obtain ⟨original, -, rfl⟩ := List.mem_map.mp hc
  exact isLower_toUpper original

theorem Table.mem_of_find? {α : Type} {table : Table α} {name : String} {value : α}
    (h : table.find? name = some value) : (name, value) ∈ table := by
  induction table with
  | nil => cases h
  | cons entry rest ih =>
    obtain ⟨key, stored⟩ := entry
    rw [find?] at h
    split at h
    · rename_i hkey
      cases h
      exact hkey ▸ List.mem_cons_self
    · exact List.mem_cons_of_mem _ (ih h)

namespace Layer

structure Upper (layer : Layer) : Prop where
  values : ∀ entry ∈ layer.values, IsUpper entry.1
  aliases : ∀ entry ∈ layer.aliases, IsUpper entry.1 ∧ IsUpper entry.2

theorem upper_empty : Upper {} := ⟨by simp, by simp⟩

theorem Upper.resolve {layer : Layer} (h : layer.Upper) {name : String} (hname : IsUpper name) :
    IsUpper (layer.resolve name) := by
  rw [Layer.resolve]
  cases htarget : layer.aliases.find? name with
  | none => exact hname
  | some target => exact (h.aliases _ (Table.mem_of_find? htarget)).2

end Layer

namespace Scope

section Letters

variable {a b : String} (h : upper a = upper b)
include h

theorem canonical_congr (s : Scope) : s.canonical a = s.canonical b := by
  rw [canonical, h, canonical]

theorem get?_congr (s : Scope) : s.get? a = s.get? b := by
  rw [get?, canonical_congr h, get?]

theorem set_congr (s : Scope) (value : Float) : s.set a value = s.set b value := by
  rw [set, canonical_congr h, set]

end Letters

/-- Two names are the same to every operation on the scope. -/
structure Interchangeable (s : Scope) (a b : String) : Prop where
  canonical : s.canonical a = s.canonical b
  get? : s.get? a = s.get? b
  getD : s.getD a = s.getD b
  has : s.has a = s.has b
  hasOwn : s.hasOwn a = s.hasOwn b
  set : ∀ value, s.set a value = s.set b value
  setAlias : ∀ target, s.setAlias a target = s.setAlias b target
  target : ∀ name, s.setAlias name a = s.setAlias name b

theorem interchangeable {a b : String} (h : upper a = upper b) (s : Scope) :
    s.Interchangeable a b where
  canonical := canonical_congr h s
  get? := get?_congr h s
  getD := by rw [Scope.getD, get?_congr h, Scope.getD]
  has := by rw [Scope.has, get?_congr h, Scope.has]
  hasOwn := by rw [Scope.hasOwn, canonical_congr h, Scope.hasOwn]
  set := set_congr h s
  setAlias target := by rw [Scope.setAlias, h, Scope.setAlias]
  target name := by rw [Scope.setAlias, h, Scope.setAlias]

/-- The scopes that an empty one can become. -/
inductive Built : Scope → Prop
  | empty : Built {}
  | set {s : Scope} (name : String) (value : Float) : Built s → Built (s.set name value)
  | setAlias {s : Scope} (name target : String) : Built s → Built (s.setAlias name target)
  | push {s : Scope} : Built s → Built s.push
  | parent {s p : Scope} : Built s → s.parent? = some p → Built p
  | clear {s : Scope} : Built s → Built s.clear

theorem layers_of_parent {s p : Scope} (h : s.parent? = some p) : s.outer = p.layers := by
  unfold parent? at h
  split at h
  · cases h
  · rename_i layer rest houter
    cases h
    exact houter

def Upper (s : Scope) : Prop := ∀ layer ∈ s.layers, layer.Upper

theorem Upper.canonical {s : Scope} (h : s.Upper) (name : String) : IsUpper (s.canonical name) := by
  suffices hfold : ∀ layers : List Layer, (∀ layer ∈ layers, layer.Upper) →
      IsUpper (layers.foldr Layer.resolve (upper name)) from hfold s.layers h
  intro layers
  induction layers with
  | nil => exact fun _ => isUpper_upper name
  | cons layer rest ih =>
    intro hlayers
    obtain ⟨hlayer, hrest⟩ := List.forall_mem_cons.mp hlayers
    exact hlayer.resolve (ih hrest)

theorem Upper.replace {s : Scope} (h : s.Upper) {own : Layer} (hown : own.Upper) :
    Upper { s with own } :=
  List.forall_mem_cons.mpr ⟨hown, (List.forall_mem_cons.mp h).2⟩

theorem Built.upper {s : Scope} (h : s.Built) : s.Upper := by
  induction h with
  | empty => simpa [Upper, layers] using Layer.upper_empty
  | @set s name value _ ih =>
    have hown := ih s.own List.mem_cons_self
    refine ih.replace ⟨fun entry hentry => ?_, hown.aliases⟩
    rcases Table.mem_insert hentry with rfl | hentry
    · exact ih.canonical name
    · exact hown.values entry hentry
  | @setAlias s name target _ ih =>
    have hown := ih s.own List.mem_cons_self
    refine ih.replace ⟨hown.values, fun entry hentry => ?_⟩
    rcases Table.mem_insert hentry with rfl | hentry
    · exact ⟨isUpper_upper name, isUpper_upper target⟩
    · exact hown.aliases entry hentry
  | push _ ih => exact List.forall_mem_cons.mpr ⟨Layer.upper_empty, ih⟩
  | parent _ hparent ih =>
    intro layer hlayer
    rw [← layers_of_parent hparent] at hlayer
    exact ih layer (List.mem_cons_of_mem _ hlayer)
  | @clear s _ ih =>
    exact ih.replace ⟨by simp, (ih s.own List.mem_cons_self).aliases⟩

def scopesOf : List Layer → List Scope
  | [] => []
  | layer :: outer => ⟨layer, outer⟩ :: scopesOf outer

def ancestors (s : Scope) : List Scope := scopesOf s.outer

theorem ancestors_eq (s : Scope) :
    s.ancestors = match s.parent? with
      | none => []
      | some p => p :: p.ancestors := by
  rw [ancestors, parent?]
  cases s.outer <;> rfl

/-- What the scope itself holds under a resolved name. -/
def holds? (s : Scope) (resolved : String) : Option Float := s.own.values.find? resolved

theorem findSome?_scopesOf (outer : List Layer) (resolved : String) :
    outer.findSome? (fun layer => layer.values.find? resolved) =
      (scopesOf outer).findSome? (fun a => a.holds? resolved) := by
  induction outer with
  | nil => rfl
  | cons layer outer ih => rw [scopesOf, List.findSome?_cons, List.findSome?_cons, ih, holds?]

theorem get?_eq (s : Scope) (name : String) :
    s.get? name = (s.holds? (s.canonical name)).or
      (s.ancestors.findSome? (fun a => a.holds? (s.canonical name))) := by
  rw [get?, lookup, layers, List.findSome?_cons, findSome?_scopesOf, ancestors, holds?]
  cases s.own.values.find? (s.canonical name) <;> rfl

theorem get?_clear (s : Scope) (name : String) :
    s.clear.get? name = s.ancestors.findSome? (fun a => a.holds? (s.canonical name)) := by
  rw [get?_eq, canonical_clear]
  rfl

def NearestHolds (scopes : List Scope) (resolved : String) (x : Float) : Prop :=
  ∃ nearer a farther, scopes = nearer ++ a :: farther ∧ a.holds? resolved = some x ∧
    ∀ b ∈ nearer, b.holds? resolved = none

theorem get?_clear_eq_some (s : Scope) (name : String) (x : Float) :
    s.clear.get? name = some x ↔ NearestHolds s.ancestors (s.canonical name) x := by
  rw [get?_clear, List.findSome?_eq_some_iff]
  rfl

theorem set_reaches_iff (s : Scope) (name key : String) :
    (∀ value, (s.set name value).get? key = some value) ↔ s.canonical key = s.canonical name := by
  constructor
  · intro h
    by_cases heq : s.canonical key = s.canonical name
    · exact heq
    · have hzero := h 0.0
      have hone := h 1.0
      rw [get?_set, if_neg heq] at hzero hone
      rw [hzero] at hone
      exact absurd hone (by decide +kernel)
  · intro heq value
    rw [get?_set, if_pos heq]

theorem has_of_hasOwn {s : Scope} {name : String} (h : s.hasOwn name = true) :
    s.has name = true := by
  have hown : (s.holds? (s.canonical name)).isSome = true := h
  rw [has, get?_eq, Option.isSome_or, hown, Bool.true_or]

/-- The laws of every chain of scopes that is built from an empty scope. -/
theorem chain_laws {s : Scope} (h : s.Built) :
    (∀ layer ∈ s.layers, layer.Upper) ∧
    (∀ a b, sameLetters a b = true → s.Interchangeable a b) ∧
    (∀ name value, (∀ key, (s.set name value).get? key =
        if s.canonical key = s.canonical name then some value else s.get? key) ∧
      (s.set name value).parent? = s.parent?) ∧
    (∀ name key, (∀ value, (s.set name value).get? key = some value) ↔
      s.canonical key = s.canonical name) ∧
    (∀ name, (∀ x, s.clear.get? name = some x ↔
        NearestHolds s.ancestors (s.canonical name) x) ∧
      s.clear.canonical name = s.canonical name) ∧
    s.clear.layers.map Layer.aliases = s.layers.map Layer.aliases ∧
    ∀ name, s.hasOwn name = true → s.has name = true := by
  refine ⟨h.upper, ?_, ?_, set_reaches_iff s, ?_, rfl, fun name => has_of_hasOwn⟩
  · intro a b hletters
    exact interchangeable ((sameLetters_iff a b).mp hletters) s
  · intro name value
    exact ⟨fun key => get?_set s name key value, parent?_set s name value⟩
  · intro name
    exact ⟨get?_clear_eq_some s name, canonical_clear s name⟩

def aliasedTwice : Scope :=
  ((({} : Scope).set "R2" 1.0).setAlias "radius" "r1").push.setAlias "R1" "R2" |>.set "Radius" 3.0

theorem chain_laws_aliasedTwice :
    aliasedTwice.Built ∧ (aliasedTwice.set "RADIUS" 4.0).get? "r1" = some 4.0 ∧
      aliasedTwice.clear.get? "radius" = some 1.0 ∧ aliasedTwice.has "radius" = true := by
  have hbuilt : aliasedTwice.Built :=
    .set _ _ (.setAlias _ _ (.push (.setAlias _ _ (.set _ _ .empty))))
  obtain ⟨-, -, hset, -, hclear, -, hhas⟩ := chain_laws hbuilt
  refine ⟨hbuilt, ?_, ?_, hhas "radius" (by decide +kernel)⟩
  · rw [(hset "RADIUS" 4.0).1 "r1", if_pos (by decide +kernel)]
  · exact ((hclear "radius").1 1.0).mpr
      ⟨[], _, [], rfl, by decide +kernel, by simp⟩

end Scope

end PartProgram
