import PartProgram.Text.Letter

/-!
# Scopes

Named numbers in layers. A name is resolved through the aliases of all layers,
from the outermost to the innermost, one alias in each. The resolved name is
then looked up from the innermost layer outwards, and written in the innermost.
The case of a name never matters: names are kept in upper case.
-/

set_option autoImplicit false

namespace PartProgram

/-- Entries by name, in the order of their names. -/
abbrev Table (α : Type) : Type := List (String × α)

namespace Table

variable {α : Type}

def insert (name : String) (value : α) : Table α → Table α
  | [] => [(name, value)]
  | (key, old) :: rest =>
    if name = key then (name, value) :: rest
    else if name < key then (name, value) :: (key, old) :: rest
    else (key, old) :: insert name value rest

def find? : Table α → String → Option α
  | [], _ => none
  | (key, value) :: rest, name => if name = key then some value else find? rest name

theorem find?_insert (table : Table α) (name key : String) (value : α) :
    (table.insert name value).find? key = if key = name then some value else table.find? key := by
  induction table with
  | nil => simp [insert, find?]
  | cons entry rest ih => grind [insert, find?]

theorem mem_insert {table : Table α} {name : String} {value : α} {entry : String × α}
    (h : entry ∈ table.insert name value) : entry = (name, value) ∨ entry ∈ table := by
  induction table with
  | nil => simpa [insert] using h
  | cons first rest ih => grind [insert]

theorem insert_self (table : Table α) (name : String) (value : α) :
    (name, value) ∈ table.insert name value := by
  induction table with
  | nil => simp [insert]
  | cons first rest ih => grind [insert]

theorem insert_keeps {table : Table α} (name : String) (value : α) {entry : String × α}
    (h : entry ∈ table) : ∃ kept ∈ table.insert name value, kept.1 = entry.1 := by
  induction table with
  | nil => simp at h
  | cons first rest ih =>
    obtain ⟨key, old⟩ := first
    simp only [insert]
    split
    · rename_i hk
      rcases List.mem_cons.mp h with rfl | h
      · exact ⟨_, List.mem_cons_self .., hk⟩
      · exact ⟨entry, List.mem_cons_of_mem _ h, rfl⟩
    · split
      · exact ⟨entry, List.mem_cons_of_mem _ h, rfl⟩
      · rcases List.mem_cons.mp h with rfl | h
        · exact ⟨_, List.mem_cons_self .., rfl⟩
        · obtain ⟨kept, hmem, hkey⟩ := ih h
          exact ⟨kept, List.mem_cons_of_mem _ hmem, hkey⟩

end Table

structure Layer where
  values : Table Float := []
  aliases : Table String := []
deriving DecidableEq

/-- A layer on top of the layers that enclose it. -/
structure Scope where
  own : Layer := {}
  outer : List Layer := []
deriving DecidableEq

namespace Layer

def resolve (layer : Layer) (name : String) : String := (layer.aliases.find? name).getD name

end Layer

namespace Scope

def push (s : Scope) : Scope := ⟨{}, s.own :: s.outer⟩

def parent? (s : Scope) : Option Scope :=
  match s.outer with
  | [] => none
  | layer :: rest => some ⟨layer, rest⟩

def layers (s : Scope) : List Layer := s.own :: s.outer

/-- The name in upper case after the aliases of each layer. -/
def canonical (s : Scope) (name : String) : String :=
  s.layers.foldr Layer.resolve (upper name)

/-- The value that the innermost layer holding a resolved name gives it. -/
def lookup (s : Scope) (resolved : String) : Option Float :=
  s.layers.findSome? (fun layer => layer.values.find? resolved)

def get? (s : Scope) (name : String) : Option Float := s.lookup (s.canonical name)

def getD (s : Scope) (name : String) : Float := (s.get? name).getD 0.0

def has (s : Scope) (name : String) : Bool := (s.get? name).isSome

def hasOwn (s : Scope) (name : String) : Bool :=
  (s.own.values.find? (s.canonical name)).isSome

def set (name : String) (value : Float) (s : Scope) : Scope :=
  { s with own := { s.own with values := s.own.values.insert (s.canonical name) value } }

def setAlias (name target : String) (s : Scope) : Scope :=
  { s with own := { s.own with aliases := s.own.aliases.insert (upper name) (upper target) } }

def clear (s : Scope) : Scope := { s with own := { s.own with values := [] } }

def ownNames (s : Scope) : List String := s.own.values.map Prod.fst

def setAll (entries : Table Float) (s : Scope) : Scope :=
  entries.foldl (fun s entry => s.set entry.1 entry.2) s

@[simp]
theorem canonical_set (s : Scope) (name key : String) (value : Float) :
    (s.set name value).canonical key = s.canonical key := rfl

@[simp]
theorem canonical_clear (s : Scope) (key : String) : s.clear.canonical key = s.canonical key := rfl

@[simp]
theorem canonical_push (s : Scope) (key : String) : s.push.canonical key = s.canonical key := rfl

theorem lookup_set (s : Scope) (name key : String) (value : Float) :
    (s.set name value).lookup key =
      if key = s.canonical name then some value else s.lookup key := by
  by_cases h : key = s.canonical name <;>
    simp [lookup, layers, set, List.findSome?_cons, Table.find?_insert, h]

/-- A value that is set is read by every name that resolves to the same one,
and no other name is affected. -/
theorem get?_set (s : Scope) (name key : String) (value : Float) :
    (s.set name value).get? key =
      if s.canonical key = s.canonical name then some value else s.get? key := by
  rw [get?, canonical_set, lookup_set, get?]

theorem get?_push (s : Scope) (key : String) : s.push.get? key = s.get? key := rfl

theorem parent?_set (s : Scope) (name : String) (value : Float) :
    (s.set name value).parent? = s.parent? := rfl

end Scope

end PartProgram
