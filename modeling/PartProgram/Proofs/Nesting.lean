import Mathlib.Data.List.Nodup
import PartProgram.Statement

/-!
# Nested IFs

The IFs of a program that are open at a place of its text, and which of them a
run of the program has entered, as told by the places that it visited. An IF is
left where a place is visited behind which it is no longer open. An ELSE or
ENDIF is in order if the innermost IF around it was entered and not left since,
and an ELSE only if none was visited for that IF since.
-/

set_option autoImplicit false

namespace PartProgram

structure Site where
  block : Nat
  statement : Nat
deriving DecidableEq

namespace Site

def next (x : Site) : Site := ⟨x.block, x.statement + 1⟩

def Before (x y : Site) : Prop :=
  x.block < y.block ∨ x.block = y.block ∧ x.statement < y.statement

variable {x y z : Site}

theorem Before.trans (h : x.Before y) (h' : y.Before z) : x.Before z := by
  unfold Before at *
  omega

theorem Before.ne (h : x.Before y) : x ≠ y := by
  rintro rfl
  unfold Before at h
  omega

theorem before_next (x : Site) : x.Before x.next := .inr ⟨rfl, Nat.lt_succ_self _⟩

end Site

structure OpenIf where
  site : Site
  /-- Its ELSE has come. -/
  elsed : Bool := false
deriving DecidableEq

namespace Statement

def isElse : Statement → Bool
  | flow .otherwise => true
  | _ => false

def endsBranch : Statement → Bool
  | flow .otherwise | flow .endIf => true
  | _ => false

/-- The IFs that are open behind a statement of the text, the innermost first. -/
def nest (x : Site) : Statement → List OpenIf → List OpenIf
  | flow (.ifThen _), opened => ⟨x, false⟩ :: opened
  | flow .otherwise, o :: outer => { o with elsed := true } :: outer
  | flow .endIf, _ :: outer => outer
  | _, opened => opened

variable {s : Statement} {x : Site} {opened : List OpenIf}

theorem nest_append (h : s.endsBranch = true → opened ≠ []) (outer : List OpenIf) :
    s.nest x (opened ++ outer) = s.nest x opened ++ outer := by
  cases s with
  | flow f =>
    cases f with
    | otherwise | endIf =>
      cases opened with
      | nil => exact absurd rfl (h rfl)
      | cons o opened => rfl
    | _ => rfl
  | _ => rfl

theorem mem_nest {o : OpenIf} (h : o ∈ s.nest x opened) :
    o.site = x ∨
      ∃ o' ∈ opened, o'.site = o.site ∧ (o.elsed = false → o'.elsed = false) := by
  have hsame : o ∈ opened → ∃ o' ∈ opened, o'.site = o.site ∧
      (o.elsed = false → o'.elsed = false) := fun ho => ⟨o, ho, rfl, id⟩
  cases s with
  | flow f =>
    cases f with
    | ifThen condition =>
      rcases List.mem_cons.mp h with rfl | h
      · exact .inl rfl
      · exact .inr (hsame h)
    | otherwise =>
      cases opened with
      | nil => cases h
      | cons o' outer =>
        right
        rcases List.mem_cons.mp h with rfl | h
        · exact ⟨o', List.mem_cons_self, rfl, by simp⟩
        · exact hsame (List.mem_cons_of_mem o' h)
    | endIf =>
      cases opened with
      | nil => cases h
      | cons o' outer => exact .inr (hsame (List.mem_cons_of_mem o' h))
    | _ => exact .inr (hsame h)
  | _ => exact .inr (hsame h)

end Statement

def Block.nest (b : Block) (index : Nat) (outer : List OpenIf) : Nat → List OpenIf
  | 0 => outer
  | k + 1 =>
    match b.statements[k]? with
    | some s => s.nest ⟨index, k⟩ (b.nest index outer k)
    | none => b.nest index outer k

namespace Program

def nest (p : Program) : Nat → List OpenIf
  | 0 => []
  | index + 1 =>
    match p.blocks[index]? with
    | some b => b.nest index (p.nest index) b.statements.length
    | none => p.nest index

def nestAt (p : Program) (x : Site) : List OpenIf :=
  match p.blocks[x.block]? with
  | some b => b.nest x.block (p.nest x.block) x.statement
  | none => p.nest x.block

def sites (p : Program) : List (Site × Statement) :=
  p.blocks.zipIdx.flatMap fun b => b.1.statements.zipIdx.map fun s => (⟨b.2, s.2⟩, s.1)

variable {p : Program} {x : Site} {s : Statement}

theorem mem_sites {b : Block} {index k : Nat} (hb : p.blocks[index]? = some b)
    (hs : b.statements[k]? = some s) : (⟨index, k⟩, s) ∈ p.sites := by
  refine List.mem_flatMap.mpr ⟨(b, index), List.mk_mem_zipIdx_iff_getElem?.mpr hb, ?_⟩
  exact List.mem_map.mpr ⟨(s, k), List.mk_mem_zipIdx_iff_getElem?.mpr hs, rfl⟩

theorem of_mem_sites (h : (x, s) ∈ p.sites) :
    ∃ b, p.blocks[x.block]? = some b ∧ b.statements[x.statement]? = some s := by
  obtain ⟨⟨b, index⟩, hb, h⟩ := List.mem_flatMap.mp h
  obtain ⟨⟨s', k⟩, hs, h⟩ := List.mem_map.mp h
  cases h
  exact ⟨b, List.mk_mem_zipIdx_iff_getElem?.mp hb, List.mk_mem_zipIdx_iff_getElem?.mp hs⟩

theorem sites_unique {s' : Statement} (h : (x, s) ∈ p.sites) (h' : (x, s') ∈ p.sites) :
    s = s' := by
  obtain ⟨b, hb, hs⟩ := of_mem_sites h
  obtain ⟨b', hb', hs'⟩ := of_mem_sites h'
  rw [hb] at hb'
  cases hb'
  exact Option.some_inj.mp (hs.symm.trans hs')

theorem nestAt_begin (p : Program) (index : Nat) : p.nestAt ⟨index, 0⟩ = p.nest index := by
  rw [nestAt]
  cases p.blocks[index]? <;> rfl

theorem nestAt_end {b : Block} {index : Nat} (hb : p.blocks[index]? = some b) :
    p.nestAt ⟨index, b.statements.length⟩ = p.nest (index + 1) := by
  simp only [nestAt, nest, hb]

theorem nestAt_next (h : (x, s) ∈ p.sites) : p.nestAt x.next = s.nest x (p.nestAt x) := by
  obtain ⟨b, hb, hs⟩ := of_mem_sites h
  simp only [nestAt, Site.next, hb, Block.nest, hs]

theorem nest_of_none {index : Nat} (h : p.blocks[index]? = none) :
    p.nest index = p.nest p.blocks.length := by
  obtain ⟨past, rfl⟩ := Nat.exists_eq_add_of_le (List.getElem?_eq_none_iff.mp h)
  clear h
  induction past with
  | zero => rfl
  | succ past ih =>
    have hnone : p.blocks[p.blocks.length + past]? = none :=
      List.getElem?_eq_none_iff.mpr (Nat.le_add_right ..)
    rw [← Nat.add_assoc, nest, hnone]
    exact ih

def Descends (x : Site) (opened : List OpenIf) : Prop :=
  (x :: opened.map OpenIf.site).Pairwise (fun y z => z.Before y)

theorem Descends.unique {opened : List OpenIf} (h : Descends x opened) {o o' : OpenIf}
    (ho : o ∈ opened) (ho' : o' ∈ opened) (hsite : o.site = o'.site) : o = o' := by
  have hnodup : (opened.map OpenIf.site).Nodup :=
    (List.pairwise_cons.mp h).2.imp fun hbefore => hbefore.ne.symm
  exact List.inj_on_of_nodup_map hnodup ho ho' hsite

theorem Descends.later {y : Site} {opened : List OpenIf} (h : Descends x opened)
    (hy : x.Before y) : Descends y opened := by
  obtain ⟨hfirst, hrest⟩ := List.pairwise_cons.mp h
  exact List.pairwise_cons.mpr ⟨fun z hz => (hfirst z hz).trans hy, hrest⟩

theorem Descends.nest {opened : List OpenIf} (h : Descends x opened) (s : Statement) :
    Descends x.next (s.nest x opened) := by
  have hlater := h.later x.before_next
  have htail : ∀ {o : OpenIf} {outer : List OpenIf}, Descends x (o :: outer) →
      Descends x.next outer := by
    intro o outer ho
    obtain ⟨hfirst, hrest⟩ := List.pairwise_cons.mp (ho.later x.before_next)
    exact List.pairwise_cons.mpr
      ⟨fun z hz => hfirst z (List.mem_cons_of_mem _ hz), (List.pairwise_cons.mp hrest).2⟩
  cases s with
  | flow f =>
    cases f with
    | ifThen condition =>
      refine List.pairwise_cons.mpr ⟨fun z hz => ?_, h⟩
      rcases List.mem_cons.mp hz with rfl | hz
      · exact Site.before_next z
      · exact (List.pairwise_cons.mp hlater).1 z hz
    | otherwise =>
      cases opened with
      | nil => exact hlater
      | cons o outer => exact hlater
    | endIf =>
      cases opened with
      | nil => exact hlater
      | cons o outer => exact htail h
    | _ => exact hlater
  | _ => exact hlater

theorem descends_block {b : Block} {index : Nat} {outer : List OpenIf}
    (h : Descends ⟨index, 0⟩ outer) (k : Nat) : Descends ⟨index, k⟩ (b.nest index outer k) := by
  induction k with
  | zero => exact h
  | succ k ih =>
    rw [Block.nest]
    split
    · exact ih.nest _
    · exact ih.later (Site.before_next _)

theorem descends_begin (p : Program) (index : Nat) : Descends ⟨index, 0⟩ (p.nest index) := by
  induction index with
  | zero => exact List.pairwise_singleton _ _
  | succ index ih =>
    have hnext : ∀ k, Site.Before ⟨index, k⟩ ⟨index + 1, 0⟩ := fun k => .inl (Nat.lt_succ_self _)
    rw [nest]
    split
    · exact (descends_block ih _).later (hnext _)
    · exact ih.later (hnext 0)

theorem descends (h : (x, s) ∈ p.sites) : Descends x (p.nestAt x) := by
  obtain ⟨b, hb, -⟩ := of_mem_sites h
  simp only [nestAt, hb]
  exact descends_block (p.descends_begin x.block) x.statement

end Program

/-- A place was visited, and from then on only places with a property. What was visited last
comes first. -/
def Since (Q : Site → Prop) (x : Site) (visited : List Site) : Prop :=
  ∃ later earlier, visited = later ++ x :: earlier ∧ ∀ y ∈ later ++ [x], Q y

section Since

variable {Q Q' : Site → Prop} {x y : Site} {visited : List Site}

theorem since_cons : Since Q x (y :: visited) ↔ Q y ∧ (y = x ∨ Since Q x visited) := by
  constructor
  · rintro ⟨later, earlier, hsplit, hQ⟩
    cases later with
    | nil =>
      cases hsplit
      exact ⟨hQ x List.mem_cons_self, .inl rfl⟩
    | cons z later =>
      cases hsplit
      exact ⟨hQ y List.mem_cons_self,
        .inr ⟨later, earlier, rfl, fun w hw => hQ w (List.mem_cons_of_mem y hw)⟩⟩
  · rintro ⟨hy, rfl | ⟨later, earlier, rfl, hQ⟩⟩
    · exact ⟨[], visited, rfl, by simpa using hy⟩
    · refine ⟨y :: later, earlier, rfl, fun w hw => ?_⟩
      rcases List.mem_cons.mp hw with rfl | hw
      · exact hy
      · exact hQ w hw

theorem Since.mono (h : Since Q x visited) (hQ : ∀ y, Q y → Q' y) : Since Q' x visited := by
  obtain ⟨later, earlier, hsplit, hall⟩ := h
  exact ⟨later, earlier, hsplit, fun y hy => hQ y (hall y hy)⟩

end Since

namespace Program

def Encloses (p : Program) (x y : Site) : Prop := x ∈ (p.nestAt y.next).map OpenIf.site

/-- A statement is an ELSE of an IF in the text. -/
def IsElseOf (p : Program) (x y : Site) : Prop :=
  (y, .flow .otherwise) ∈ p.sites ∧ (p.nestAt y).head?.map OpenIf.site = some x

/-- An ELSE or ENDIF stands inside an IF of the text which was entered and has not been left
since. An ELSE has not been executed for it since. -/
def Admits (p : Program) (visited : List Site) (x : Site) (s : Statement) : Prop :=
  ∃ o outer, p.nestAt x = o :: outer ∧
    Since (fun y => p.Encloses o.site y ∧ (s.isElse = true → ¬p.IsElseOf o.site y))
      o.site visited

def SameOpen (opened opened' : List OpenIf) : Prop :=
  opened'.map OpenIf.site = opened.map OpenIf.site ∧ ∀ o ∈ opened, o.elsed = true → o ∈ opened'

instance (opened opened' : List OpenIf) : Decidable (SameOpen opened opened') :=
  inferInstanceAs (Decidable (_ ∧ _))

/-- Which of the IFs around a place were entered: the inner ones. -/
structure Tracks (p : Program) (x : Site) (visited : List Site)
    (opened missed : List OpenIf) : Prop where
  nest : p.nestAt x = opened ++ missed
  entered : ∀ o ∈ opened, Since (fun y => p.Encloses o.site y ∧
    (o.elsed = false → ¬p.IsElseOf o.site y)) o.site visited
  unentered : ∀ o ∈ missed, ¬Since (p.Encloses o.site) o.site visited

namespace Tracks

variable {p : Program} {x : Site} {s : Statement} {visited : List Site}
  {opened missed : List OpenIf}

theorem admits_iff (h : p.Tracks x visited opened missed)
    (hsingle : s.isElse = true → ∀ o ∈ (p.nestAt x).head?, o.elsed = false) :
    p.Admits visited x s ↔ opened ≠ [] := by
  constructor
  · rintro ⟨o, outer, hnest, hsince⟩ rfl
    have hmissed : missed = o :: outer := h.nest.symm.trans hnest
    exact h.unentered o (by simp [hmissed]) (hsince.mono fun _ hy => hy.1)
  · intro hne
    obtain ⟨o, inner, rfl⟩ := List.exists_cons_of_ne_nil hne
    refine ⟨o, inner ++ missed, h.nest, ?_⟩
    refine (h.entered o List.mem_cons_self).mono fun y hy => ⟨hy.1, fun helse => hy.2 ?_⟩
    exact hsingle helse o (by simp [h.nest])

theorem not_isElseOf (h : p.Tracks x visited opened missed) (hx : (x, s) ∈ p.sites)
    (hends : s.endsBranch = true → opened ≠ []) {o : OpenIf} (ho : o ∈ s.nest x opened)
    (hopen : o.elsed = false) : ¬p.IsElseOf o.site x := by
  rintro ⟨helse, hhead⟩
  cases Program.sites_unique hx helse
  obtain ⟨first, inner, rfl⟩ := List.exists_cons_of_ne_nil (hends rfl)
  have hsite : first.site = o.site := by simpa [h.nest] using hhead
  rcases List.mem_cons.mp ho with rfl | ho
  · cases hopen
  · have hinside := (List.pairwise_cons.mp (Program.descends hx)).2
    rw [h.nest] at hinside
    have hmem : o.site ∈ (inner ++ missed).map OpenIf.site :=
      List.mem_map_of_mem (List.mem_append_left missed ho)
    exact ((List.pairwise_cons.mp hinside).1 o.site hmem).ne hsite.symm

theorem step (h : p.Tracks x visited opened missed) (hx : (x, s) ∈ p.sites)
    (hends : s.endsBranch = true → opened ≠ []) :
    p.Tracks x.next (x :: visited) (s.nest x opened) missed := by
  have hnext : p.nestAt x.next = s.nest x opened ++ missed := by
    rw [Program.nestAt_next hx, h.nest, Statement.nest_append hends]
  have hencloses : ∀ o ∈ s.nest x opened, p.Encloses o.site x := by
    intro o ho
    rw [Encloses, hnext]
    exact List.mem_map_of_mem (List.mem_append_left missed ho)
  refine ⟨hnext, fun o ho => ?_, fun o ho hsince => ?_⟩
  · rw [since_cons]
    refine ⟨⟨hencloses o ho, h.not_isElseOf hx hends ho⟩, ?_⟩
    rcases Statement.mem_nest ho with hsite | ⟨o', ho', hsite, helsed⟩
    · exact .inl hsite.symm
    · right
      rw [← hsite]
      exact (h.entered o' ho').mono fun y hy => ⟨hy.1, fun hopen => hy.2 (helsed hopen)⟩
  · obtain ⟨-, rfl | hsince⟩ := since_cons.mp hsince
    · have hmem : o.site ∈ (p.nestAt o.site).map OpenIf.site := by
        rw [h.nest]
        exact List.mem_map_of_mem (List.mem_append_right opened ho)
      exact ((List.pairwise_cons.mp (Program.descends hx)).1 o.site hmem).ne rfl
    · exact h.unentered o ho hsince

/-- A jump that keeps some of the IFs that were entered, and all that were not, leads to where
the same ones have been entered. -/
theorem land (inner : List OpenIf) (h : p.Tracks x visited (inner ++ opened) missed) {index : Nat}
    (hsame : SameOpen (opened ++ missed) (p.nest index)) :
    ∃ opened' missed', p.Tracks ⟨index, 0⟩ visited opened' missed' ∧
      opened'.length = opened.length ∧ missed'.length = missed.length := by
  obtain ⟨hsites, helsed⟩ := hsame
  rw [List.map_append] at hsites
  obtain ⟨opened', missed', hnest, hopened, hmissed⟩ := List.map_eq_append_iff.mp hsites
  have hlength : ∀ {l l' : List OpenIf}, l'.map OpenIf.site = l.map OpenIf.site →
      l'.length = l.length := by
    intro l l' hl
    simpa using congrArg List.length hl
  refine ⟨opened', missed', ⟨?_, fun o ho => ?_, fun o ho => ?_⟩, hlength hopened,
    hlength hmissed⟩
  · rw [Program.nestAt_begin, hnest]
  · have hsite : o.site ∈ opened.map OpenIf.site := hopened ▸ List.mem_map_of_mem ho
    obtain ⟨o', ho', hsite⟩ := List.mem_map.mp hsite
    rw [← hsite]
    refine (h.entered o' (List.mem_append_right inner ho')).mono fun y hy => ⟨hy.1, fun hopen => ?_⟩
    -- The ELSE of the IF has not come where the jump is taken, as it has not where it lands.
    refine hy.2 (Bool.eq_false_iff.mpr fun helse => ?_)
    have hmem' := helsed o' (List.mem_append_left missed ho') helse
    have hmem : o ∈ p.nest index := hnest ▸ List.mem_append_left missed' ho
    rw [(p.descends_begin index).unique hmem hmem' hsite.symm, helse] at hopen
    cases hopen
  · have hsite : o.site ∈ missed.map OpenIf.site := hmissed ▸ List.mem_map_of_mem ho
    obtain ⟨o', ho', hsite⟩ := List.mem_map.mp hsite
    rw [← hsite]
    exact h.unentered o' ho'

theorem land_outside (hx : p.nestAt x.next = []) (index : Nat) :
    p.Tracks ⟨index, 0⟩ (x :: visited) [] (p.nest index) where
  nest := p.nestAt_begin index
  entered := by simp
  unentered o _ hsince := by
    have hencloses := (since_cons.mp hsince).1
    rw [Encloses, hx] at hencloses
    cases hencloses

end Tracks

end Program

end PartProgram
