import PartProgram.Proofs.Run.Axes

/-!
# Planes of a frame

A frame maps the first two axes of each group and no other. The plane of a group is mapped
once, from the values that its axes have before, if no axis belongs to two groups.
-/

set_option autoImplicit false

namespace PartProgram

namespace Table

variable {α : Type}

structure Proper (table : Table α) : Prop where
  upper : ∀ entry ∈ table, upper entry.1 = entry.1
  ordered : table.Pairwise (fun a b => a.1 < b.1)

theorem proper_nil : Proper ([] : Table α) := ⟨by simp, .nil⟩

theorem ordered_insert {table : Table α} (h : table.Pairwise (fun a b => a.1 < b.1))
    (name : String) (value : α) : (table.insert name value).Pairwise (fun a b => a.1 < b.1) := by
  induction table with
  | nil => exact List.pairwise_singleton _ _
  | cons first rest ih =>
    obtain ⟨key, old⟩ := first
    rw [List.pairwise_cons] at h
    simp only [insert]
    split
    · rename_i hkey
      exact List.pairwise_cons.mpr ⟨fun e he => hkey ▸ h.1 e he, h.2⟩
    · split
      · rename_i hlt
        refine List.pairwise_cons.mpr ⟨fun e he => ?_, List.pairwise_cons.mpr h⟩
        rcases List.mem_cons.mp he with rfl | he
        · exact hlt
        · exact String.lt_trans hlt (h.1 e he)
      · rename_i hne hge
        refine List.pairwise_cons.mpr ⟨fun e he => ?_, ih h.2⟩
        rcases mem_insert he with rfl | he
        · apply Decidable.by_contra
          intro hle
          exact hne (String.le_antisymm (String.not_lt.mp hle) (String.not_lt.mp hge))
        · exact h.1 e he

theorem Proper.insert {table : Table α} (h : table.Proper) {name : String}
    (hname : PartProgram.upper name = name) (value : α) : (table.insert name value).Proper where
  upper entry he := by
    rcases mem_insert he with rfl | he
    · exact hname
    · exact h.upper entry he
  ordered := ordered_insert h.ordered name value

theorem find?_of_lt {table : Table α} {name : String} (h : ∀ entry ∈ table, name < entry.1) :
    table.find? name = none := by
  induction table with
  | nil => rfl
  | cons first rest ih =>
    have hne : name ≠ first.1 := String.ne_of_lt (h first List.mem_cons_self)
    rw [find?, if_neg hne]
    exact ih (fun entry he => h entry (List.mem_cons_of_mem first he))

end Table

namespace Scope

variable {s : Scope}

theorem get?_set_plain (h : s.Plain) (name key : String) (value : Float) :
    (s.set name value).get? key = if upper key = upper name then some value else s.get? key := by
  rw [get?_set, canonical_plain h, canonical_plain h]

theorem get?_setAll (h : s.Plain) {table : Table Float} (ht : table.Proper) (key : String) :
    (s.setAll table).get? key = (table.find? (upper key)).or (s.get? key) := by
  induction table generalizing s with
  | nil => rfl
  | cons first rest ih =>
    have hrest := List.pairwise_cons.mp ht.ordered
    have hproper : Table.Proper rest :=
      ⟨fun entry he => ht.upper entry (List.mem_cons_of_mem first he), hrest.2⟩
    rw [setAll, List.foldl_cons]
    refine (ih (plain_set h first.1 first.2) hproper).trans ?_
    rw [get?_set_plain h, ht.upper first List.mem_cons_self, Table.find?]
    by_cases hkey : upper key = first.1
    · rw [if_pos hkey, if_pos hkey, Table.find?_of_lt (hkey ▸ hrest.1)]
      rfl
    · rw [if_neg hkey, if_neg hkey]

end Scope

def AxisGroup.plane? (g : AxisGroup) : Option (String × String) :=
  match g.names with
  | x :: y :: _ => some (x, y)
  | _ => none

namespace Machine

variable {m : Machine}

def axisNames (m : Machine) : List String := m.linear.flatMap (·.names) ++ m.rotary

def AxesDistinct (m : Machine) : Prop := (m.axisNames.map upper).Nodup

instance (m : Machine) : Decidable m.AxesDistinct :=
  inferInstanceAs (Decidable (m.axisNames.map upper).Nodup)

/-- The axis is not one of the first two of a group. -/
def Aside (m : Machine) (axis : String) : Prop :=
  ∀ g ∈ m.linear, ∀ x y, g.plane? = some (x, y) → upper axis ≠ upper x ∧ upper axis ≠ upper y

def SameAxes (m : Machine) (s s' : Scope) : Prop :=
  ∀ axis, m.isCoordinate axis = true → s'.get? axis = s.get? axis

theorem SameAxes.set {s s' : Scope} (h : m.SameAxes s s') (hs : s'.Plain) {name : String}
    (hname : m.isCoordinate name = false) (value : Float) : m.SameAxes s (s'.set name value) := by
  intro axis ha
  have hne : upper axis ≠ upper name := by
    intro heq
    rw [isCoordinate_congr heq, hname] at ha
    cases ha
  rw [Scope.get?_set_plain hs, if_neg hne]
  exact h axis ha

end Machine

section Centers

variable {m : Machine} {s : Scope}

theorem setArcCenter_same (state : State) (hm : state.machine.AxesApart) (finish : Scope)
    (hs : s.Plain) : state.machine.SameAxes s (state.setArcCenter s finish) := by
  have hrefl : state.machine.SameAxes s s := fun _ _ => rfl
  unfold State.setArcCenter
  split
  · rename_i x y names i j centers hg
    have hmem : (⟨x :: y :: names, i :: j :: centers⟩ : AxisGroup) ∈ state.machine.linear :=
      List.mem_of_mem_head? hg
    split
    · split
      · exact (hrefl.set hs (center_apart hm hmem (by simp)) _).set (Scope.plain_set hs _ _)
          (center_apart hm hmem (by simp)) _
      · exact hrefl
    · exact hrefl
  · exact hrefl

theorem foldl_setMissingCenter_same (pairs : List (String × String)) {s' : Scope}
    (hp : ∀ pair ∈ pairs, m.isCoordinate pair.1 = false) (hs : s'.Plain) (h : m.SameAxes s s') :
    m.SameAxes s (pairs.foldl State.setMissingCenter s') := by
  induction pairs generalizing s' with
  | nil => exact h
  | cons pair pairs ih =>
    have hpair := hp pair List.mem_cons_self
    refine ih (fun p hpm => hp p (List.mem_cons_of_mem pair hpm))
      (setMissingCenter_axes hpair hs).1 ?_
    unfold State.setMissingCenter
    split
    · exact h
    · split
      · exact h.set hs hpair _
      · exact h

theorem setMissingCenters_same (state : State) (hm : state.machine.AxesApart) {s' : Scope}
    (hs : s'.Plain) (h : state.machine.SameAxes s s') :
    state.machine.SameAxes s (state.setMissingCenters s') := by
  unfold State.setMissingCenters
  split
  · refine foldl_setMissingCenter_same _ (fun pair hp => ?_) hs h
    obtain ⟨g, hg, hz⟩ := List.mem_flatMap.mp hp
    exact center_apart hm hg (List.of_mem_zip hz).1
  · exact h

end Centers

section Frames

variable {m : Machine} {s : Scope} {g : AxisGroup} {f : Point → Point}

theorem mapFirstPair_plain (hs : s.Plain) (f : Point → Point) (names : List String) :
    (mapFirstPair f names s).Plain := by
  unfold mapFirstPair
  split
  · exact mapPair_plain hs f _ _
  · exact hs

theorem mapGroup_plain (hs : s.Plain) (f : Point → Point) (g : AxisGroup) :
    (mapGroup f s g).Plain := by
  have hfirst := mapFirstPair_plain hs f g.names
  unfold mapGroup mapSetPair
  split
  · split
    · exact mapPair_plain hfirst f _ _
    · exact hfirst
  · exact hfirst

theorem foldl_mapGroup_plain (hs : s.Plain) (f : Point → Point) (groups : List AxisGroup) :
    (groups.foldl (mapGroup f) s).Plain := by
  induction groups generalizing s with
  | nil => exact hs
  | cons g groups ih => exact ih (mapGroup_plain hs f g)

theorem mapSetPair_same (hs : s.Plain) (f : Point → Point) {names : List String}
    (hn : ∀ n ∈ names, m.isCoordinate n = false) : m.SameAxes s (mapSetPair f names s) := by
  have hrefl : m.SameAxes s s := fun _ _ => rfl
  match names with
  | [] | [_] => exact hrefl
  | x :: y :: _ =>
    simp only [mapSetPair]
    split
    · exact (hrefl.set hs (hn x (by simp)) _).set (Scope.plain_set hs _ _) (hn y (by simp)) _
    · exact hrefl

theorem mapGroup_get? (hm : m.AxesApart) (hs : s.Plain) (hg : g ∈ m.linear) {axis : String}
    (ha : m.isCoordinate axis = true) :
    (mapGroup f s g).get? axis = (mapFirstPair f g.names s).get? axis :=
  mapSetPair_same (mapFirstPair_plain hs f g.names) f (fun _ hn => center_apart hm hg hn) axis ha

theorem mapGroup_aside (hm : m.AxesApart) (hs : s.Plain) (hg : g ∈ m.linear) {axis : String}
    (ha : m.isCoordinate axis = true)
    (haside : ∀ x y, g.plane? = some (x, y) → upper axis ≠ upper x ∧ upper axis ≠ upper y) :
    (mapGroup f s g).get? axis = s.get? axis := by
  rw [mapGroup_get? hm hs hg ha]
  obtain ⟨names, centers⟩ := g
  match names with
  | [] | [_] => rfl
  | x :: y :: _ =>
    obtain ⟨hx, hy⟩ := haside x y rfl
    simp only [mapFirstPair, mapPair]
    rw [Scope.get?_set_plain (Scope.plain_set hs _ _), if_neg hy, Scope.get?_set_plain hs,
      if_neg hx]

theorem mapGroup_plane (hm : m.AxesApart) (hs : s.Plain) (hg : g ∈ m.linear) {x y : String}
    (hplane : g.plane? = some (x, y)) (hxy : upper x ≠ upper y) :
    (mapGroup f s g).get? x = some (f ⟨s.getD x, s.getD y⟩).x ∧
      (mapGroup f s g).get? y = some (f ⟨s.getD x, s.getD y⟩).y := by
  obtain ⟨names, centers⟩ := g
  match names with
  | [] | [_] => cases hplane
  | _ :: _ :: _ =>
    cases hplane
    rw [mapGroup_get? hm hs hg (isCoordinate_of_mem hg (by simp)),
      mapGroup_get? hm hs hg (isCoordinate_of_mem hg (by simp))]
    simp only [mapFirstPair, mapPair]
    rw [Scope.get?_set_plain (Scope.plain_set hs _ _),
      Scope.get?_set_plain (Scope.plain_set hs _ _), Scope.get?_set_plain hs]
    simp [hxy]

theorem foldl_mapGroup_aside (hm : m.AxesApart) (hs : s.Plain) (groups : List AxisGroup)
    (hg : ∀ g ∈ groups, g ∈ m.linear) {axis : String} (ha : m.isCoordinate axis = true)
    (haside : ∀ g ∈ groups, ∀ x y, g.plane? = some (x, y) →
      upper axis ≠ upper x ∧ upper axis ≠ upper y) :
    (groups.foldl (mapGroup f) s).get? axis = s.get? axis := by
  induction groups generalizing s with
  | nil => rfl
  | cons g groups ih =>
    rw [List.foldl_cons, ih (mapGroup_plain hs f g) (fun g' h => hg g' (List.mem_cons_of_mem g h))
      (fun g' h => haside g' (List.mem_cons_of_mem g h))]
    exact mapGroup_aside hm hs (hg g List.mem_cons_self) ha (haside g List.mem_cons_self)

theorem mem_of_plane? {x y : String} (h : g.plane? = some (x, y)) : x ∈ g.names ∧ y ∈ g.names := by
  obtain ⟨names, centers⟩ := g
  match names with
  | [] | [_] => cases h
  | _ :: _ :: _ =>
    cases h
    simp

theorem apart_of_distinct (hd : m.AxesDistinct) {before after : List AxisGroup}
    (hsplit : m.linear = before ++ g :: after) {name : String} (hname : name ∈ g.names) :
    ∀ g' ∈ before ++ after, ∀ other ∈ g'.names, upper name ≠ upper other := by
  simp only [Machine.AxesDistinct, Machine.axisNames, hsplit, List.flatMap_append,
    List.flatMap_cons, List.map_append, List.append_assoc] at hd
  intro g' hg' other hother heq
  have hmem : ∀ groups : List AxisGroup, g' ∈ groups →
      upper name ∈ (groups.flatMap (·.names)).map upper := fun groups hg =>
    List.mem_map.mpr ⟨other, List.mem_flatMap.mpr ⟨g', hg, hother⟩, heq.symm⟩
  have hown : upper name ∈ g.names.map upper := List.mem_map_of_mem hname
  rcases List.mem_append.mp hg' with hg' | hg'
  · exact (List.nodup_append.mp hd).2.2 _ (hmem before hg') _
      (List.mem_append_left _ hown) rfl
  · exact (List.nodup_append.mp (List.nodup_append.mp hd).2.1).2.2 _ hown _
      (List.mem_append_left _ (hmem after hg')) rfl

theorem ne_of_plane? (hd : m.AxesDistinct) (hg : g ∈ m.linear) {x y : String}
    (hplane : g.plane? = some (x, y)) : upper x ≠ upper y := by
  have hnames : (g.names.map upper).Nodup := by
    obtain ⟨before, after, hsplit⟩ := List.append_of_mem hg
    simp only [Machine.AxesDistinct, Machine.axisNames, hsplit, List.flatMap_append,
      List.flatMap_cons, List.map_append, List.append_assoc] at hd
    exact (List.nodup_append.mp (List.nodup_append.mp hd).2.1).1
  obtain ⟨names, centers⟩ := g
  match names with
  | [] | [_] => cases hplane
  | _ :: _ :: _ =>
    cases hplane
    intro heq
    simp [heq] at hnames

theorem leave_aside (hm : m.AxesApart) (t : Frame) (hs : s.Plain) {axis : String}
    (ha : m.isCoordinate axis = true) (haside : m.Aside axis) :
    (t.leave m s).get? axis = s.get? axis :=
  foldl_mapGroup_aside hm hs m.linear (fun _ hg => hg) ha haside

/-- The plane of a group is mapped once, from the values that its axes have before. -/
theorem leave_plane (hd : m.AxesDistinct) (hm : m.AxesApart) (t : Frame) (hs : s.Plain)
    (hg : g ∈ m.linear) {x y : String} (hplane : g.plane? = some (x, y)) :
    (t.leave m s).get? x = some (t.toMachine ⟨s.getD x, s.getD y⟩).x ∧
      (t.leave m s).get? y = some (t.toMachine ⟨s.getD x, s.getD y⟩).y := by
  obtain ⟨before, after, hsplit⟩ := List.append_of_mem hg
  obtain ⟨hx, hy⟩ := mem_of_plane? hplane
  -- The other groups do not touch an axis of this one.
  have hothers : ∀ groups : List AxisGroup, (∀ g' ∈ groups, g' ∈ before ++ after) →
      ∀ {s' : Scope}, s'.Plain → ∀ name ∈ g.names,
        (groups.foldl (mapGroup t.toMachine) s').get? name = s'.get? name := by
    intro groups hgroups s' hs' name hname
    refine foldl_mapGroup_aside hm hs' groups (fun g' h => ?_) (isCoordinate_of_mem hg hname)
      (fun g' h x' y' hp => ?_)
    · rw [hsplit]
      rcases List.mem_append.mp (hgroups g' h) with h | h
      · exact List.mem_append_left _ h
      · exact List.mem_append_right _ (List.mem_cons_of_mem g h)
    · have hapart := apart_of_distinct hd hsplit hname g' (hgroups g' h)
      exact ⟨hapart _ (mem_of_plane? hp).1, hapart _ (mem_of_plane? hp).2⟩
  have hbefore := foldl_mapGroup_plain hs t.toMachine before
  have hfirst := hothers before (fun g' h => List.mem_append_left _ h) hs
  have hlast := hothers after (fun g' h => List.mem_append_right _ h)
    (mapGroup_plain hbefore t.toMachine g)
  have hown := mapGroup_plane (f := t.toMachine) hm hbefore hg hplane (ne_of_plane? hd hg hplane)
  rw [Frame.leave, hsplit, List.foldl_append, List.foldl_cons, hlast x hx, hlast y hy, hown.1,
    hown.2, Scope.getD, Scope.getD, hfirst x hx, hfirst y hy]
  exact ⟨rfl, rfl⟩

end Frames

end PartProgram
