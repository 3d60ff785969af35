import Mathlib.Data.List.Infix
import PartProgram.Proofs.Nesting
import PartProgram.Proofs.Run.Due

/-!
# Markers and the IFs around a statement

A run keeps a marker for each open branch, and the marker tells neither the program nor the
place of its IF. Where a program has jumps of one kind only, either none into an IF or none
out of one, and no IF has two ELSEs, the innermost markers are those of the IFs around a
statement.
-/

set_option autoImplicit false

namespace PartProgram

def Jump.index? : Jump → Option Nat
  | .to index => some index
  | .back => none

namespace Statement

variable {s : Statement} {x : Site} {opened : List OpenIf}

theorem nest_of_ne_flow (h : ∀ f, s ≠ flow f) : s.nest x opened = opened := by
  cases s with
  | flow f => exact absurd rfl (h f)
  | _ => rfl

theorem openIfs_length (h : s.endsBranch = true → opened ≠ []) :
    s.openIfs opened.length = some (s.nest x opened).length := by
  cases s with
  | flow f =>
    cases f with
    | otherwise | endIf =>
      cases opened with
      | nil => exact absurd rfl (h rfl)
      | cons o opened => rfl
    | _ => cases opened <;> rfl
  | _ => cases opened <;> rfl

theorem exists_flow_of_endsBranch (h : s.endsBranch = true) : ∃ f, s = flow f := by
  cases s with
  | flow f => exact ⟨f, rfl⟩
  | _ => cases h

end Statement

def Site.upTo (block : Nat) : Nat → List Site
  | 0 => []
  | k + 1 => ⟨block, k⟩ :: upTo block k

theorem Flow.step_ends {f : Flow} (hf : (Statement.flow f).endsBranch = true) (scope : Scope)
    (branches : List Branch) :
    branches = [] ∧ f.step scope branches = .error .strayBranch ∨
      branches ≠ [] ∧ ∃ branches', f.step scope branches = .ok branches' := by
  cases branches with
  | nil =>
    cases f with
    | otherwise | endIf => exact .inl ⟨rfl, rfl⟩
    | _ => cases hf
  | cons b branches =>
    right
    refine ⟨by simp, ?_⟩
    cases f with
    | otherwise => cases b <;> exact ⟨_, rfl⟩
    | endIf => exact ⟨_, rfl⟩
    | _ => cases hf

namespace Program

/-- The IFs that are open where a jump is taken, at the end of its block, and those that are open
where it lands are related, for all jumps of a program. -/
def Lands (p : Program) (R : List OpenIf → List OpenIf → Prop) : Prop :=
  ∀ e ∈ p.sites, ∀ target ∈ (e.2.request? p).bind Jump.index?,
    R (p.nest (e.1.block + 1)) (p.nest target)

instance (p : Program) (R : List OpenIf → List OpenIf → Prop)
    [∀ opened opened', Decidable (R opened opened')] : Decidable (p.Lands R) :=
  inferInstanceAs (Decidable (∀ e ∈ p.sites, _))

/-- No IF has two ELSEs. What a block calls comes before what it asks to be jumped to. -/
structure Orderly (programs : Table Program) (p : Program) : Prop where
  single : ∀ e ∈ p.sites, e.2.isElse = true → ∀ o ∈ (p.nestAt e.1).head?, o.elsed = false
  calls : ∀ b ∈ p.blocks, b.statements.Pairwise
    (fun s s' => s.isJump = true → s'.isCall programs = false)

/-- Each ELSE and ENDIF stands inside an IF, and a jump leads to where some of the outer IFs are
open that are open where it is taken. -/
structure NeverEnters (p : Program) : Prop where
  ends : ∀ e ∈ p.sites, e.2.endsBranch = true → p.nestAt e.1 ≠ []
  lands : p.Lands (fun opened opened' => ∃ outer ∈ opened.tails, SameOpen outer opened')

/-- A jump leads to where the same IFs are open, unless it is taken outside all of them. -/
def NeverLeaves (p : Program) : Prop :=
  p.Lands (fun opened opened' => opened = [] ∨ SameOpen opened opened')

instance (p : Program) : Decidable p.NeverLeaves := inferInstanceAs (Decidable (p.Lands _))

structure Balanced (p : Program) : Prop where
  closed : p.nest p.blocks.length = []
  lands : p.Lands SameOpen
  returns : ∀ e ∈ p.sites, e.2.request? p = some .back → p.nest (e.1.block + 1) = []

/-- What is asked of a program: whether there is no marker outside it, so that its own jumps may
lead into IFs, and whether it must leave no marker behind. -/
structure Conforms (programs : Table Program) (alone exact : Prop) (p : Program) : Prop
    extends p.Orderly programs where
  ends : ¬alone → ∀ e ∈ p.sites, e.2.endsBranch = true → p.nestAt e.1 ≠ []
  lands : p.Lands (fun opened opened' => alone ∧ opened = [] ∨
    ∃ outer ∈ opened.tails, (exact → outer = opened) ∧ SameOpen outer opened')

variable {programs : Table Program} {p : Program}

theorem Lands.mono {R R' : List OpenIf → List OpenIf → Prop} (h : p.Lands R)
    (hR : ∀ {opened opened' : List OpenIf}, R opened opened' → R' opened opened') : p.Lands R' :=
  fun e he target ht => hR (h e he target ht)

theorem NeverEnters.conforms (h : p.NeverEnters) (hp : p.Orderly programs) :
    p.Conforms programs False False :=
  { hp with
    ends := fun _ => h.ends
    lands := h.lands.mono fun ⟨outer, htail, hsame⟩ =>
      .inr ⟨outer, htail, fun hf => hf.elim, hsame⟩ }

theorem NeverLeaves.conforms (h : p.NeverLeaves) (hp : p.Orderly programs) :
    p.Conforms programs True True :=
  { hp with
    ends := fun hf => absurd trivial hf
    lands := h.mono fun hland => hland.imp (⟨trivial, ·⟩) fun hsame =>
      ⟨_, (List.mem_tails _ _).mpr List.suffix_rfl, fun _ => rfl, hsame⟩ }

theorem Balanced.conforms (h : p.Balanced) (hp : p.Orderly programs) (hn : p.NeverEnters) :
    p.Conforms programs False True :=
  { hp with
    ends := fun _ => hn.ends
    lands := h.lands.mono fun hsame =>
      .inr ⟨_, (List.mem_tails _ _).mpr List.suffix_rfl, fun _ => rfl, hsame⟩ }

end Program

/-- The markers of a run at a place of a program: those of the IFs that were entered there, and
behind them some more. -/
structure Footing (alone exact : Prop) (p : Program) (x : Site) (visited : List Site)
    (floor : Nat) (opened missed : List OpenIf) (extra : Nat) (r : Run) : Prop where
  tracks : p.Tracks x visited opened missed
  count : r.control.branches.length = opened.length + extra
  above : floor ≤ extra
  level : exact → extra = floor
  only : alone → extra = 0
  whole : ¬alone → missed = []

/-- The markers of a run fit its place, with at least so many of outer programs. -/
def Fits (alone exact : Prop) (p : Program) (x : Site) (visited : List Site) (floor : Nat)
    (r : Run) : Prop :=
  ∃ opened missed extra, Footing alone exact p x visited floor opened missed extra r

namespace Fits

variable {alone exact : Prop} {p : Program} {x : Site} {visited : List Site} {floor : Nat}
  {r r' : Run}

theorem of_branches (h : Fits alone exact p x visited floor r)
    (hr : r'.control.branches = r.control.branches) :
    Fits alone exact p x visited floor r' := by
  obtain ⟨opened, missed, extra, h⟩ := h
  exact ⟨opened, missed, extra, { h with count := hr ▸ h.count }⟩

theorem leaves (h : Fits alone exact p x visited floor r)
    (hclosed : exact → p.Balanced → p.nestAt x = []) :
    ∃ more, (exact → p.Balanced → more = 0) ∧
      r.control.branches.length = floor + more := by
  obtain ⟨opened, missed, extra, h⟩ := h
  have habove := h.above
  refine ⟨opened.length + (extra - floor), fun he hbal => ?_, ?_⟩
  · have hopened : opened = [] :=
      (List.append_eq_nil_iff.mp (h.tracks.nest.symm.trans (hclosed he hbal))).1
    rw [hopened, h.level he, Nat.sub_self, List.length_nil]
  · rw [h.count]
    omega

end Fits

namespace Footing

variable {programs : Table Program} {alone exact : Prop} {p : Program} {x : Site}
  {s : Statement} {visited : List Site} {floor extra : Nat} {opened missed : List OpenIf}
  {r r' : Run}

theorem opened_iff (h : Footing alone exact p x visited floor opened missed extra r)
    (hp : p.Conforms programs alone exact) (hx : (x, s) ∈ p.sites)
    (hends : s.endsBranch = true) : opened ≠ [] ↔ r.control.branches ≠ [] := by
  have hcount := h.count
  rw [← List.length_pos_iff, ← List.length_pos_iff]
  constructor
  · omega
  · intro hpos
    refine List.length_pos_iff.mpr fun hnone => ?_
    rw [hnone, List.length_nil] at hcount
    by_cases ha : alone
    · have hextra := h.only ha
      omega
    · have hnest : p.nestAt x = [] := by rw [h.tracks.nest, hnone, h.whole ha, List.append_nil]
      exact hp.ends ha _ hx hends hnest

theorem flow (h : Footing alone exact p x visited floor opened missed extra r)
    (hp : p.Conforms programs alone exact) {f : Flow} (hx : (x, .flow f) ∈ p.sites)
    {scope : Scope} {branches : List Branch}
    (hstep : f.step scope r.control.branches = .ok branches) (hr : r'.control.branches = branches) :
    Fits alone exact p x.next (x :: visited) floor r' := by
  have hends : (Statement.flow f).endsBranch = true → opened ≠ [] := by
    intro he
    rw [h.opened_iff hp hx he]
    rcases Flow.step_ends he scope r.control.branches with ⟨-, hfail⟩ | ⟨hne, -⟩
    · rw [hstep] at hfail
      cases hfail
    · exact hne
  have hcount := h.count
  have htake : (r.control.branches.take opened.length).length = opened.length := by
    rw [List.length_take]
    omega
  rw [← List.take_append_drop opened.length r.control.branches] at hstep
  obtain ⟨inner, hinner, rfl⟩ := Flow.step_inner hstep
    (htake ▸ Statement.openIfs_length (x := x) hends)
  refine ⟨_, missed, extra, h.tracks.step hx hends, ?_, h.above, h.level, h.only, h.whole⟩
  simp only [hr, List.length_append, List.length_drop, hinner]
  omega

theorem pass (h : Footing alone exact p x visited floor opened missed extra r)
    (hexact : alone → exact) (hx : (x, s) ∈ p.sites) (hs : ∀ f, s ≠ .flow f) (more : Nat)
    (hcount : r'.control.branches.length = r.control.branches.length + more)
    (hmore : exact → more = 0) : Fits alone exact p x.next (x :: visited) floor r' := by
  have hends : s.endsBranch = true → opened ≠ [] := fun he =>
    let ⟨f, hf⟩ := Statement.exists_flow_of_endsBranch he
    absurd hf (hs f)
  have htracks := h.tracks.step hx hends
  rw [Statement.nest_of_ne_flow hs] at htracks
  refine ⟨opened, missed, extra + more, htracks, ?_, ?_, fun he => ?_, fun ha => ?_, h.whole⟩
  · rw [hcount, h.count, Nat.add_assoc]
  · exact Nat.le_add_right_of_le h.above
  · rw [hmore he, h.level he, Nat.add_zero]
  · rw [hmore (hexact ha), h.only ha]

theorem land {index target : Nat} {b : Block}
    (h : Footing alone exact p ⟨index, b.statements.length⟩
      (Site.upTo index b.statements.length ++ visited) floor opened missed extra r)
    (hexact : alone → exact) (hp : p.Conforms programs alone exact)
    (hb : p.blocks[index]? = some b) (hs : s ∈ b.statements)
    (hreq : s.request? p = some (.to target))
    (hr : r'.control.branches = r.control.branches) :
    Fits alone exact p ⟨target, 0⟩ (Site.upTo index b.statements.length ++ visited) floor
      r' := by
  obtain ⟨k, hk⟩ := List.getElem?_of_mem hs
  have hnest : p.nest (index + 1) = opened ++ missed := by
    rw [← Program.nestAt_end hb, h.tracks.nest]
  have hcount := h.count
  rw [← hr] at hcount
  have hland := hp.lands _ (Program.mem_sites hb hk) target (by simp [hreq, Jump.index?])
  rcases hland with ⟨ha, hnone⟩ | ⟨outer, htail, hall, hsame⟩
  -- Taken outside all IFs, the jump leads to where none was entered.
  · obtain ⟨m, hm⟩ : ∃ m, b.statements.length = m + 1 :=
      Nat.exists_eq_add_one.mpr (List.length_pos_of_mem hs)
    have hnone' : p.nestAt (Site.next ⟨index, m⟩) = [] := by
      rw [Site.next, ← hm, Program.nestAt_end hb, hnone]
    have hopened : opened = [] := (List.append_eq_nil_iff.mp (hnest.symm.trans hnone)).1
    rw [hopened] at hcount
    rw [hm]
    exact ⟨[], _, extra, .land_outside hnone' target, hcount, h.above, h.level, h.only,
      fun hna => absurd ha hna⟩
  · rw [hnest] at hall htail
    by_cases ha : alone
    · rw [hall (hexact ha)] at hsame
      obtain ⟨opened', missed', htracks, hlen, -⟩ := h.tracks.land [] hsame
      exact ⟨opened', missed', extra, htracks, hlen ▸ hcount, h.above, h.level, h.only,
        fun hna => absurd ha hna⟩
    -- The markers of the IFs that are left are now among those behind the others.
    · have hwhole := h.whole ha
      rw [hwhole, List.append_nil] at hall htail
      obtain ⟨inner, rfl⟩ := (List.mem_tails _ _).mp htail
      obtain ⟨opened', missed', htracks, hlen, hmissed⟩ :=
        h.tracks.land inner (by rwa [hwhole, List.append_nil])
      refine ⟨opened', missed', extra + inner.length, htracks, ?_, ?_, fun he => ?_,
        fun ha' => absurd ha' ha, fun _ => ?_⟩
      · rw [hcount, hlen, List.length_append]
        omega
      · exact Nat.le_add_right_of_le h.above
      · have hinner : inner = [] := List.append_left_eq_self.mp (hall he).symm
        rw [hinner, h.level he, List.length_nil, Nat.add_zero]
      · rw [hwhole] at hmissed
        exact List.length_eq_zero_iff.mp hmissed

end Footing

end PartProgram
