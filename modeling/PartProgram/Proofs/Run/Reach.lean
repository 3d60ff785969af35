import Mathlib.Logic.Relation
import PartProgram.Run.Session

/-!
# The programs of a run

A run comes to the subprograms that its statements call, and to those that they
call in turn. Other entries of the table of subprograms play no part in it.
-/

set_option autoImplicit false

namespace PartProgram

variable {programs : Table Program}

namespace Statement

/-- The subprogram that a statement calls, with the name in the call. -/
def callee? (programs : Table Program) : Statement → Option (String × Program)
  | instruction name args =>
    if (frameInstruction? name).isNone && (args.getD []).isEmpty then
      (programs.find? (upper name)).map (name, ·)
    else none
  | _ => none

theorem callee?_instruction {name : String} {args : Option Slots} {callee : Program}
    (hframe : frameInstruction? name = none) (hfind : programs.find? (upper name) = some callee)
    (hargs : (args.getD []).isEmpty = true) :
    (instruction name args).callee? programs = some (name, callee) := by
  simp [callee?, hframe, hfind, hargs]

theorem find?_of_callee? {s : Statement} {name : String} {callee : Program}
    (h : s.callee? programs = some (name, callee)) :
    programs.find? (upper name) = some callee := by
  cases s with
  | instruction key args =>
    simp only [callee?] at h
    split at h
    · simp only [Option.map_eq_some_iff, Prod.mk.injEq] at h
      obtain ⟨found, hfind, rfl, rfl⟩ := h
      exact hfind
    · cases h
  | _ => cases h

end Statement

namespace Program

def callees (programs : Table Program) (p : Program) : List Program :=
  p.blocks.flatMap fun b => b.statements.filterMap fun s => (s.callee? programs).map Prod.snd

/-- The program calls the other one, itself or through its subprograms. -/
def Calls (programs : Table Program) : Program → Program → Prop :=
  Relation.TransGen (fun p callee => callee ∈ p.callees programs)

def Reaches (programs : Table Program) : Program → Program → Prop :=
  Relation.ReflTransGen (fun p callee => callee ∈ p.callees programs)

variable {p q callee : Program}

theorem mem_callees : callee ∈ p.callees programs ↔
    ∃ b ∈ p.blocks, ∃ s ∈ b.statements, ∃ name, s.callee? programs = some (name, callee) := by
  simp [callees]

theorem mem_callees_of_callee? {b : Block} {s : Statement} {name : String} (hb : b ∈ p.blocks)
    (hs : s ∈ b.statements) (h : s.callee? programs = some (name, callee)) :
    callee ∈ p.callees programs :=
  mem_callees.mpr ⟨b, hb, s, hs, name, h⟩

theorem find?_of_mem_callees (h : callee ∈ p.callees programs) :
    ∃ key, programs.find? key = some callee := by
  obtain ⟨b, -, s, -, name, hcallee⟩ := mem_callees.mp h
  exact ⟨upper name, Statement.find?_of_callee? hcallee⟩

theorem Calls.of_mem (h : callee ∈ p.callees programs) : p.Calls programs callee := .single h

theorem Calls.of_callee (h : callee ∈ p.callees programs) (hq : callee.Calls programs q) :
    p.Calls programs q :=
  .head h hq

namespace Reaches

theorem self : p.Reaches programs p := .refl

theorem of_callee (h : callee ∈ p.callees programs) (hq : callee.Reaches programs q) :
    p.Reaches programs q :=
  .head h hq

theorem eq_or_find? (h : p.Reaches programs q) :
    q = p ∨ ∃ key, programs.find? key = some q := by
  cases h with
  | refl => exact .inl rfl
  | tail _ hcallee => exact .inr (find?_of_mem_callees hcallee)

theorem mem {list : List Program}
    (hclosed : ∀ q ∈ list, ∀ callee ∈ q.callees programs, callee ∈ list) (hp : p ∈ list)
    (h : p.Reaches programs q) : q ∈ list := by
  induction h with
  | refl => exact hp
  | tail _ hcallee ih => exact hclosed _ ih _ hcallee

end Reaches

end Program

end PartProgram
