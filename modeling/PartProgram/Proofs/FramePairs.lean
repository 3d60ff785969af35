import PartProgram.Frame

/-!
# What a frame maps

A frame maps pairs of variables: the first two axes of each linear group, and the first two
centres of a group if one of them has a value. The pairs are mapped one after the other in the
same scope. Where their names lead to different variables, each pair is mapped once from the
values that it had before, and no other variable is touched. A value of an enclosing scope is
covered and not changed.
-/

set_option autoImplicit false

namespace PartProgram

/-- Two variables that a frame maps together. -/
structure FramePair where
  xName : String
  yName : String
  /-- The pair is mapped also if neither variable has a value. -/
  always : Bool

namespace FramePair

def ofNames (always : Bool) : List String → List FramePair
  | xName :: yName :: _ => [⟨xName, yName, always⟩]
  | _ => []

def ofGroup (g : AxisGroup) : List FramePair := ofNames true g.names ++ ofNames false g.centers

def names (p : FramePair) : List String := [p.xName, p.yName]

def isMapped (s : Scope) (p : FramePair) : Bool := p.always || s.has p.xName || s.has p.yName

def image (f : Point → Point) (s : Scope) (p : FramePair) : Point :=
  f ⟨s.getD p.xName, s.getD p.yName⟩

def map (f : Point → Point) (s : Scope) (p : FramePair) : Scope :=
  if p.isMapped s then mapPair f p.xName p.yName s else s

end FramePair

def Machine.framePairs (m : Machine) : List FramePair := m.linear.flatMap FramePair.ofGroup

def Machine.frameNames (m : Machine) : List String := m.framePairs.flatMap FramePair.names

theorem mapGroup_pairs (f : Point → Point) (s : Scope) (g : AxisGroup) :
    mapGroup f s g = (FramePair.ofGroup g).foldl (FramePair.map f) s := by
  have hfirst : ∀ names, mapFirstPair f names s =
      (FramePair.ofNames true names).foldl (FramePair.map f) s := by
    rintro (_ | ⟨xName, _ | ⟨yName, rest⟩⟩) <;> rfl
  have hset : ∀ names s, mapSetPair f names s =
      (FramePair.ofNames false names).foldl (FramePair.map f) s := by
    rintro (_ | ⟨xName, _ | ⟨yName, rest⟩⟩) s <;> rfl
  rw [mapGroup, hset, hfirst, FramePair.ofGroup, List.foldl_append]

theorem foldl_mapGroup_pairs (f : Point → Point) (groups : List AxisGroup) (s : Scope) :
    groups.foldl (mapGroup f) s =
      (groups.flatMap FramePair.ofGroup).foldl (FramePair.map f) s := by
  induction groups generalizing s with
  | nil => rfl
  | cons g groups ih =>
    rw [List.foldl_cons, List.flatMap_cons, List.foldl_append, ← mapGroup_pairs, ih]

namespace FramePair

variable {f : Point → Point} {s : Scope} {p : FramePair} {pairs : List FramePair}

theorem canonical_map (f : Point → Point) (s : Scope) (p : FramePair) :
    (p.map f s).canonical = s.canonical := by
  unfold map
  split <;> rfl

theorem parent?_map (f : Point → Point) (s : Scope) (p : FramePair) :
    (p.map f s).parent? = s.parent? := by
  unfold map
  split <;> rfl

theorem get?_map_other {name : String} (h : s.canonical name ∉ p.names.map s.canonical) :
    (p.map f s).get? name = s.get? name := by
  simp only [names, List.map_cons, List.map_nil, List.mem_cons, List.not_mem_nil, or_false,
    not_or] at h
  unfold map
  split
  · rw [mapPair, Scope.get?_set, Scope.canonical_set, Scope.canonical_set, if_neg h.2,
      Scope.get?_set, if_neg h.1]
  · rfl

def Mapped (f : Point → Point) (s s' : Scope) (p : FramePair) : Prop :=
  if p.isMapped s then
    s'.get? p.xName = some (p.image f s).x ∧ s'.get? p.yName = some (p.image f s).y
  else s'.get? p.xName = none ∧ s'.get? p.yName = none

theorem mapped_map (h : s.canonical p.xName ≠ s.canonical p.yName) :
    p.Mapped f s (p.map f s) := by
  unfold Mapped map
  split
  · rw [mapPair, Scope.get?_set, Scope.get?_set, Scope.canonical_set, Scope.canonical_set,
      if_neg h, Scope.get?_set, if_pos rfl, if_pos rfl]
    exact ⟨rfl, rfl⟩
  · rename_i hunset
    simp only [isMapped, Scope.has, Bool.or_eq_true, not_or, Option.not_isSome_iff_eq_none]
      at hunset
    exact ⟨hunset.1.2, hunset.2⟩

theorem Mapped.congr {before after before' after' : Scope} (h : p.Mapped f before after)
    (hbefore : ∀ name ∈ p.names, before'.get? name = before.get? name)
    (hafter : ∀ name ∈ p.names, after'.get? name = after.get? name) :
    p.Mapped f before' after' := by
  have hx : p.xName ∈ p.names := List.mem_cons_self
  have hy : p.yName ∈ p.names := List.mem_cons_of_mem _ List.mem_cons_self
  have hmapped : p.isMapped before' = p.isMapped before := by
    simp only [isMapped, Scope.has, hbefore _ hx, hbefore _ hy]
  have himage : p.image f before' = p.image f before := by
    simp only [image, Scope.getD, hbefore _ hx, hbefore _ hy]
  rwa [Mapped, hmapped, himage, hafter _ hx, hafter _ hy]

theorem parent?_foldl (pairs : List FramePair) (s : Scope) :
    (pairs.foldl (map f) s).parent? = s.parent? := by
  induction pairs generalizing s with
  | nil => rfl
  | cons p pairs ih => rw [List.foldl_cons, ih, parent?_map]

theorem get?_foldl_other {name : String}
    (h : s.canonical name ∉ (pairs.flatMap names).map s.canonical) :
    (pairs.foldl (map f) s).get? name = s.get? name := by
  induction pairs generalizing s with
  | nil => rfl
  | cons p pairs ih =>
    rw [List.flatMap_cons, List.map_append, List.mem_append, not_or] at h
    rw [List.foldl_cons, ih (by rw [canonical_map]; exact h.2), get?_map_other h.1]

/-- Pairs of different variables are mapped one after the other as if all at once: what comes
before a pair and what comes behind it leaves its variables alone. -/
theorem mapped_foldl (h : ((pairs.flatMap names).map s.canonical).Nodup) (hp : p ∈ pairs) :
    p.Mapped f s (pairs.foldl (map f) s) := by
  induction pairs generalizing s with
  | nil => cases hp
  | cons first pairs ih =>
    rw [List.flatMap_cons, List.map_append, List.nodup_append] at h
    obtain ⟨hfirst, hrest, hapart⟩ := h
    rw [List.foldl_cons]
    rcases List.mem_cons.mp hp with rfl | hp
    · have hne : s.canonical p.xName ≠ s.canonical p.yName := by simpa [names] using hfirst
      refine (mapped_map hne).congr (fun _ _ => rfl) (fun name hname => get?_foldl_other ?_)
      rw [canonical_map]
      exact fun hmem => hapart _ (List.mem_map_of_mem hname) _ hmem rfl
    · refine (ih (by rwa [canonical_map]) hp).congr (fun name hname => ?_) (fun _ _ => rfl)
      refine (get?_map_other (fun hmem => ?_)).symm
      exact hapart _ hmem _
        (List.mem_map_of_mem (List.mem_flatMap.mpr ⟨p, hp, hname⟩)) rfl

end FramePair

/-- Each pair of the machine is mapped once and nothing else is changed. -/
structure MapsPairs (f : Point → Point) (m : Machine) (s s' : Scope) : Prop where
  axes : ∀ g ∈ m.linear, ∀ xName yName rest, g.names = xName :: yName :: rest →
    s'.get? xName = some (f ⟨s.getD xName, s.getD yName⟩).x ∧
      s'.get? yName = some (f ⟨s.getD xName, s.getD yName⟩).y
  centers : ∀ g ∈ m.linear, ∀ xName yName rest, g.centers = xName :: yName :: rest →
    if s.has xName || s.has yName then
      s'.get? xName = some (f ⟨s.getD xName, s.getD yName⟩).x ∧
        s'.get? yName = some (f ⟨s.getD xName, s.getD yName⟩).y
    else s'.get? xName = none ∧ s'.get? yName = none
  others : ∀ name, s.canonical name ∉ m.frameNames.map s.canonical → s'.get? name = s.get? name
  parent : s'.parent? = s.parent?

theorem mapsPairs_foldl (f : Point → Point) (m : Machine) (s : Scope)
    (h : (m.frameNames.map s.canonical).Nodup) :
    MapsPairs f m s (m.linear.foldl (mapGroup f) s) := by
  rw [foldl_mapGroup_pairs]
  have hmapped : ∀ p ∈ m.framePairs,
      p.Mapped f s ((m.linear.flatMap FramePair.ofGroup).foldl (FramePair.map f) s) :=
    fun p hp => FramePair.mapped_foldl h hp
  refine ⟨?_, ?_, fun name hname => FramePair.get?_foldl_other hname, FramePair.parent?_foldl _ s⟩
  · intro g hg xName yName rest hnames
    exact hmapped ⟨xName, yName, true⟩
      (List.mem_flatMap.mpr ⟨g, hg, by simp [FramePair.ofGroup, FramePair.ofNames, hnames]⟩)
  · intro g hg xName yName rest hnames
    exact hmapped ⟨xName, yName, false⟩
      (List.mem_flatMap.mpr ⟨g, hg, by simp [FramePair.ofGroup, FramePair.ofNames, hnames]⟩)

namespace Frame

/-- Leaving a frame takes each pair of the machine out of it once, and entering a frame takes
each pair into it once. -/
theorem maps_pairs_once (t : Frame) (m : Machine) (s : Scope)
    (h : (m.frameNames.map s.canonical).Nodup) :
    MapsPairs t.toMachine m s (t.leave m s) ∧ MapsPairs t.ofMachine m s (t.enter m s) :=
  ⟨mapsPairs_foldl t.toMachine m s h, mapsPairs_foldl t.ofMachine m s h⟩

def twoGroups : Machine where
  linear := [⟨["X", "Y", "Z"], ["I", "J", "K"]⟩, ⟨["U", "V"], ["P", "Q"]⟩]

def inherited : Scope :=
  ((({} : Scope).set "X" 1.0).setAlias "V" "R5").push.set "V" 2.0 |>.set "Q" 3.0

def shiftedByTen : Frame := ⟨({} : Scope).set "X" 10.0⟩

theorem maps_pairs_once_inherited :
    (twoGroups.frameNames.map inherited.canonical).Nodup ∧
      (shiftedByTen.leave twoGroups inherited).get? "X" = some 11.0 ∧
      (shiftedByTen.leave twoGroups inherited).get? "I" = none ∧
      (shiftedByTen.leave twoGroups inherited).get? "U" = some 10.0 ∧
      (shiftedByTen.leave twoGroups inherited).get? "P" = some 10.0 ∧
      (shiftedByTen.leave twoGroups inherited).parent? = inherited.parent? ∧
      (shiftedByTen.enter twoGroups inherited).get? "X" = some (-9.0) := by
  have hnames : (twoGroups.frameNames.map inherited.canonical).Nodup := by decide +kernel
  obtain ⟨hleave, henter⟩ := maps_pairs_once shiftedByTen twoGroups inherited hnames
  refine ⟨hnames, ?_, ?_, ?_, ?_, hleave.parent, ?_⟩
  · exact (hleave.axes _ (.head _) "X" "Y" ["Z"] rfl).1.trans (by decide +kernel)
  · have h := hleave.centers _ (.head _) "I" "J" ["K"] rfl
    rw [if_neg (by decide +kernel)] at h
    exact h.1
  · exact (hleave.axes _ (.tail _ (.head _)) "U" "V" [] rfl).1.trans (by decide +kernel)
  · have h := hleave.centers _ (.tail _ (.head _)) "P" "Q" [] rfl
    rw [if_pos (by decide +kernel)] at h
    exact h.1.trans (by decide +kernel)
  · exact (henter.axes _ (.head _) "X" "Y" ["Z"] rfl).1.trans (by decide +kernel)

end Frame

end PartProgram
