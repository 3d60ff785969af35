import PartProgram.Run.Motion

/-!
# Where the axes stand

Where the axes stand in the machine depends only on where they stand in the variables, if
the frame stays and no axis is a centre. What a motion notes as its start is what the
variables hold until it is stored.
-/

set_option autoImplicit false

namespace PartProgram

namespace Machine

variable {m : Machine} {a b : String}

theorem isCoordinate_congr (h : upper a = upper b) : m.isCoordinate a = m.isCoordinate b := by
  simp only [isCoordinate, isLinear, isRotary, hasName, sameLetters_congr h]

theorem isTemporary_congr (h : upper a = upper b) : m.isTemporary a = m.isTemporary b := by
  simp only [isTemporary, isCenter, hasName, sameLetters_congr h]

/-- No axis is a centre or the radius. -/
def AxesApart (m : Machine) : Prop :=
  ∀ name, m.isCoordinate name = true → m.isTemporary name = false

def axisValues (m : Machine) (s : Scope) : String → Float :=
  fun name => if m.isCoordinate name then s.getD name else 0.0

theorem axisValues_ext {s s' : Scope}
    (h : ∀ name, m.isCoordinate name = true → s.getD name = s'.getD name) :
    m.axisValues s = m.axisValues s' := by
  funext name
  by_cases hn : m.isCoordinate name = true <;> simp [axisValues, hn]
  exact h name hn

theorem axisValues_eq_iff {s s' : Scope} : m.axisValues s = m.axisValues s' ↔
    ∀ name, m.isCoordinate name = true → s.getD name = s'.getD name := by
  refine ⟨fun h name hn => ?_, axisValues_ext⟩
  simpa [axisValues, hn] using congrFun h name

end Machine

namespace Scope

def Plain (s : Scope) : Prop := ∀ layer ∈ s.layers, layer.aliases = []

variable {s : Scope}

theorem foldr_resolve (layers : List Layer) (name : String)
    (h : ∀ layer ∈ layers, layer.aliases = []) : layers.foldr Layer.resolve name = name := by
  induction layers with
  | nil => rfl
  | cons layer layers ih =>
    rw [List.foldr_cons, ih (fun l hl => h l (List.mem_cons_of_mem _ hl)), Layer.resolve,
      h layer (List.mem_cons_self ..)]
    rfl

theorem canonical_plain (h : s.Plain) (name : String) : s.canonical name = upper name :=
  foldr_resolve s.layers (upper name) h

theorem plain_push (h : s.Plain) : s.push.Plain := by
  intro layer hl
  rcases List.mem_cons.mp hl with rfl | hl
  · rfl
  · exact h layer hl

theorem plain_set (h : s.Plain) (name : String) (value : Float) : (s.set name value).Plain := by
  intro layer hl
  rcases List.mem_cons.mp hl with rfl | hl
  · exact h s.own (List.mem_cons_self ..)
  · exact h layer (List.mem_cons_of_mem _ hl)

theorem getD_set (h : s.Plain) (name key : String) (value : Float) :
    (s.set name value).getD key = if upper key = upper name then value else s.getD key := by
  rw [getD, get?_set, canonical_plain h, canonical_plain h]
  split <;> rfl

theorem getD_congr (h : s.Plain) {a b : String} (hab : upper a = upper b) :
    s.getD a = s.getD b := by
  rw [getD, getD, get?, get?, canonical_plain h, canonical_plain h, hab]

theorem plain_setAll (h : s.Plain) (entries : Table Float) : (s.setAll entries).Plain := by
  induction entries generalizing s with
  | nil => exact h
  | cons entry entries ih => exact ih (plain_set h entry.1 entry.2)

def override (entries : Table Float) (key : String) (value : Float) : Float :=
  entries.foldl (fun value entry => if upper key = upper entry.1 then entry.2 else value) value

theorem getD_setAll (h : s.Plain) (entries : Table Float) (key : String) :
    (s.setAll entries).getD key = override entries key (s.getD key) := by
  induction entries generalizing s with
  | nil => rfl
  | cons entry entries ih =>
    rw [setAll, List.foldl_cons]
    exact (ih (plain_set h entry.1 entry.2)).trans (by rw [getD_set h]; rfl)

theorem override_eq {entries : Table Float} {key : String} {value x : Float}
    (hx : ∀ entry ∈ entries, upper key = upper entry.1 → entry.2 = x)
    (h : value = x ∨ ∃ entry ∈ entries, upper key = upper entry.1) :
    override entries key value = x := by
  induction entries generalizing value with
  | nil => simpa [override] using h
  | cons entry entries ih =>
    rw [override, List.foldl_cons]
    refine ih (fun e he => hx e (List.mem_cons_of_mem _ he)) ?_
    by_cases hk : upper key = upper entry.1
    · exact .inl (by rw [if_pos hk]; exact hx entry (List.mem_cons_self ..) hk)
    · rw [if_neg hk]
      rcases h with h | ⟨e, he, hke⟩
      · exact .inl h
      · rcases List.mem_cons.mp he with rfl | he
        · exact absurd hke hk
        · exact .inr ⟨e, he, hke⟩

theorem override_none {entries : Table Float} {key : String} (value : Float)
    (h : ∀ entry ∈ entries, upper key ≠ upper entry.1) : override entries key value = value :=
  override_eq (fun entry he hk => absurd hk (h entry he)) (.inl rfl)

theorem override_some {entries : Table Float} {key : String} (v w : Float)
    (h : ∃ entry ∈ entries, upper key = upper entry.1) :
    override entries key v = override entries key w := by
  induction entries generalizing v w with
  | nil => simp at h
  | cons entry entries ih =>
    rw [override, override, List.foldl_cons, List.foldl_cons]
    by_cases hk : upper key = upper entry.1
    · rw [if_pos hk, if_pos hk]
    · rw [if_neg hk, if_neg hk]
      obtain ⟨e, he, hke⟩ := h
      rcases List.mem_cons.mp he with rfl | he
      · exact absurd hke hk
      · exact ih v w ⟨e, he, hke⟩

theorem override_override (entries : Table Float) (key : String) (value : Float) :
    override entries key (override entries key value) = override entries key value := by
  by_cases h : ∃ entry ∈ entries, upper key = upper entry.1
  · exact override_some _ _ h
  · have hn : ∀ entry ∈ entries, upper key ≠ upper entry.1 := fun e he hk => h ⟨e, he, hk⟩
    rw [override_none _ hn]

end Scope

section Frames

variable {m : Machine} {s s' : Scope}

theorem axisValues_set_other (hs : s.Plain) {name : String} (hn : m.isCoordinate name = false)
    (value : Float) : m.axisValues (s.set name value) = m.axisValues s := by
  refine Machine.axisValues_ext (fun key hk => ?_)
  have hne : upper key ≠ upper name := by
    intro h
    rw [Machine.isCoordinate_congr h, hn] at hk
    cases hk
  rw [Scope.getD_set hs, if_neg hne]

theorem axisValues_set (hs : s.Plain) (hs' : s'.Plain) (h : m.axisValues s = m.axisValues s')
    (name : String) (value : Float) :
    m.axisValues (s.set name value) = m.axisValues (s'.set name value) := by
  refine Machine.axisValues_ext (fun key hk => ?_)
  rw [Scope.getD_set hs, Scope.getD_set hs', Machine.axisValues_eq_iff.mp h key hk]

theorem mapPair_plain (hs : s.Plain) (f : Point → Point) (x y : String) :
    (mapPair f x y s).Plain :=
  Scope.plain_set (Scope.plain_set hs _ _) _ _

theorem mapPair_axes (hs : s.Plain) (hs' : s'.Plain) (h : m.axisValues s = m.axisValues s')
    (f : Point → Point) {x y : String} (hx : m.isCoordinate x = true)
    (hy : m.isCoordinate y = true) :
    m.axisValues (mapPair f x y s) = m.axisValues (mapPair f x y s') := by
  have hv := Machine.axisValues_eq_iff.mp h
  simp only [mapPair, hv x hx, hv y hy]
  exact axisValues_set (Scope.plain_set hs _ _) (Scope.plain_set hs' _ _)
    (axisValues_set hs hs' h _ _) _ _

theorem mapPair_other (hs : s.Plain) (f : Point → Point) {x y : String}
    (hx : m.isCoordinate x = false) (hy : m.isCoordinate y = false) :
    m.axisValues (mapPair f x y s) = m.axisValues s := by
  rw [mapPair, axisValues_set_other (Scope.plain_set hs _ _) hy, axisValues_set_other hs hx]

theorem isCoordinate_of_mem {g : AxisGroup} {name : String} (hg : g ∈ m.linear)
    (hn : name ∈ g.names) : m.isCoordinate name = true := by
  have hl : m.isLinear name = true :=
    List.any_eq_true.mpr ⟨g, hg, List.any_eq_true.mpr ⟨name, hn, (sameLetters_iff _ _).mpr rfl⟩⟩
  simp [Machine.isCoordinate, hl]

theorem center_apart (hm : m.AxesApart) {g : AxisGroup} {name : String} (hg : g ∈ m.linear)
    (hn : name ∈ g.centers) : m.isCoordinate name = false := by
  have hc : m.isCenter name = true :=
    List.any_eq_true.mpr ⟨g, hg, List.any_eq_true.mpr ⟨name, hn, (sameLetters_iff _ _).mpr rfl⟩⟩
  cases h : m.isCoordinate name with
  | false => rfl
  | true => simpa [Machine.isTemporary, hc] using hm name h

theorem mapFirstPair_axes (hs : s.Plain) (hs' : s'.Plain) (h : m.axisValues s = m.axisValues s')
    (f : Point → Point) {names : List String} (hn : ∀ n ∈ names, m.isCoordinate n = true) :
    (mapFirstPair f names s).Plain ∧ (mapFirstPair f names s').Plain ∧
      m.axisValues (mapFirstPair f names s) = m.axisValues (mapFirstPair f names s') := by
  match names with
  | [] | [_] => exact ⟨hs, hs', h⟩
  | x :: y :: _ =>
    exact ⟨mapPair_plain hs f x y, mapPair_plain hs' f x y,
      mapPair_axes hs hs' h f (hn x (by simp)) (hn y (by simp))⟩

theorem mapSetPair_other (hs : s.Plain) (f : Point → Point) {names : List String}
    (hn : ∀ n ∈ names, m.isCoordinate n = false) :
    (mapSetPair f names s).Plain ∧ m.axisValues (mapSetPair f names s) = m.axisValues s := by
  match names with
  | [] | [_] => exact ⟨hs, rfl⟩
  | x :: y :: _ =>
    simp only [mapSetPair]
    split
    · exact ⟨mapPair_plain hs f x y, mapPair_other hs f (hn x (by simp)) (hn y (by simp))⟩
    · exact ⟨hs, rfl⟩

/-- Where the axes stand in the machine depends only on where they stand in the
program. -/
theorem foldl_mapGroup_axes (hm : m.AxesApart) (f : Point → Point) (groups : List AxisGroup)
    (hg : ∀ g ∈ groups, g ∈ m.linear) (hs : s.Plain) (hs' : s'.Plain)
    (h : m.axisValues s = m.axisValues s') :
    m.axisValues (groups.foldl (mapGroup f) s) = m.axisValues (groups.foldl (mapGroup f) s') := by
  induction groups generalizing s s' with
  | nil => exact h
  | cons g groups ih =>
    have hmem := hg g (List.mem_cons_self ..)
    obtain ⟨h1, h2, h3⟩ := mapFirstPair_axes hs hs' h f (fun n hn => isCoordinate_of_mem hmem hn)
    obtain ⟨h4, h5⟩ := mapSetPair_other (m := m) h1 f (fun n hn => center_apart hm hmem hn)
    obtain ⟨h6, h7⟩ := mapSetPair_other (m := m) h2 f (fun n hn => center_apart hm hmem hn)
    exact ih (fun g hmem => hg g (List.mem_cons_of_mem _ hmem)) h4 h6 (h5.trans (h3.trans h7.symm))

theorem leave_axes (hm : m.AxesApart) (t : Frame) (hs : s.Plain) (hs' : s'.Plain)
    (h : m.axisValues s = m.axisValues s') :
    m.axisValues (t.leave m s) = m.axisValues (t.leave m s') :=
  foldl_mapGroup_axes hm t.toMachine m.linear (fun _ hg => hg) hs hs' h

end Frames

/-- What a motion notes: its start values are those of the variables, and every axis
that it moves has a start value. -/
structure Motion.Sound (m : Machine) (s : Scope) (motion : Motion) : Prop where
  start : ∀ entry ∈ motion.start, m.isCoordinate entry.1 = true → entry.2 = s.getD entry.1
  finish : ∀ entry ∈ motion.finish, ∃ noted ∈ motion.start, noted.1 = entry.1

namespace Motion.Sound

variable {m : Machine} {s : Scope} {motion : Motion}

theorem empty (m : Machine) (s : Scope) : Motion.Sound m s {} :=
  ⟨by simp, by simp⟩

theorem congr {s' : Scope} (h : motion.Sound m s) (hs : m.axisValues s' = m.axisValues s) :
    motion.Sound m s' :=
  ⟨fun entry he hc => (h.start entry he hc).trans (Machine.axisValues_eq_iff.mp hs _ hc).symm,
    h.finish⟩

theorem write_temporary (h : motion.Sound m s) {name : String}
    (hn : m.isCoordinate name = false) (old new : Float) :
    (motion.write true name old new).Sound m s := by
  refine ⟨fun entry he hc => ?_, fun entry he => ?_⟩
  · rcases Table.mem_insert he with rfl | he
    · simp [hn] at hc
    · exact h.start entry he hc
  · obtain ⟨noted, hmem, hkey⟩ := h.finish entry he
    obtain ⟨kept, hkept, hk⟩ := Table.insert_keeps name new hmem
    exact ⟨kept, hkept, hk.trans hkey⟩

theorem write_axis (h : motion.Sound m s) (name : String) (new : Float) :
    (motion.write false name (s.getD name) new).Sound m s := by
  refine ⟨fun entry he hc => ?_, fun entry he => ?_⟩
  · rcases Table.mem_insert he with rfl | he
    · rfl
    · exact h.start entry he hc
  · rcases Table.mem_insert he with rfl | he
    · exact ⟨_, Table.insert_self _ _ _, rfl⟩
    · obtain ⟨noted, hmem, hkey⟩ := h.finish entry he
      obtain ⟨kept, hkept, hk⟩ := Table.insert_keeps name (s.getD name) hmem
      exact ⟨kept, hkept, hk.trans hkey⟩

theorem start_axes (h : motion.Sound m s) (hs : s.Plain) :
    m.axisValues (((s.setAll motion.finish).push).setAll motion.start) = m.axisValues s := by
  refine Machine.axisValues_ext (fun key hk => ?_)
  rw [Scope.getD_setAll (Scope.plain_push (Scope.plain_setAll hs _)),
    show (s.setAll motion.finish).push.getD key = (s.setAll motion.finish).getD key from rfl,
    Scope.getD_setAll hs]
  have hstart : ∀ entry ∈ motion.start, upper key = upper entry.1 → entry.2 = s.getD key := by
    intro entry he hke
    rw [h.start entry he (by rw [← Machine.isCoordinate_congr hke]; exact hk)]
    exact Scope.getD_congr hs hke.symm
  refine Scope.override_eq hstart ?_
  by_cases hm : ∃ entry ∈ motion.start, upper key = upper entry.1
  · exact .inr hm
  · refine .inl (Scope.override_none _ (fun entry he hke => hm ?_))
    obtain ⟨noted, hmem, hkey⟩ := h.finish entry he
    exact ⟨noted, hmem, by rw [hkey]; exact hke⟩

theorem finish_axes (hs : s.Plain) :
    m.axisValues (((s.setAll motion.finish).push).setAll motion.finish) =
      m.axisValues (s.setAll motion.finish) := by
  refine Machine.axisValues_ext (fun key _ => ?_)
  rw [Scope.getD_setAll (Scope.plain_push (Scope.plain_setAll hs _)),
    show (s.setAll motion.finish).push.getD key = (s.setAll motion.finish).getD key from rfl,
    Scope.getD_setAll hs, Scope.override_override]

end Motion.Sound

section Centers

theorem setArcCenter_axes (state : State) (hm : state.machine.AxesApart) {start : Scope}
    (finish : Scope) (hs : start.Plain) :
    (state.setArcCenter start finish).Plain ∧
      state.machine.axisValues (state.setArcCenter start finish) =
        state.machine.axisValues start := by
  unfold State.setArcCenter
  split
  · rename_i x y names i j centers hg
    have hmem : (⟨x :: y :: names, i :: j :: centers⟩ : AxisGroup) ∈ state.machine.linear :=
      List.mem_of_mem_head? hg
    split
    · split
      · refine ⟨Scope.plain_set (Scope.plain_set hs _ _) _ _, ?_⟩
        rw [axisValues_set_other (Scope.plain_set hs _ _) (center_apart hm hmem (by simp)),
          axisValues_set_other hs (center_apart hm hmem (by simp))]
      · exact ⟨hs, rfl⟩
    · exact ⟨hs, rfl⟩
  · exact ⟨hs, rfl⟩

theorem setMissingCenter_axes {m : Machine} {start : Scope} {pair : String × String}
    (hp : m.isCoordinate pair.1 = false) (hs : start.Plain) :
    (State.setMissingCenter start pair).Plain ∧
      m.axisValues (State.setMissingCenter start pair) = m.axisValues start := by
  unfold State.setMissingCenter
  split
  · exact ⟨hs, rfl⟩
  · split
    · exact ⟨Scope.plain_set hs _ _, axisValues_set_other hs hp _⟩
    · exact ⟨hs, rfl⟩

theorem foldl_setMissingCenter_axes {m : Machine} {start : Scope} (pairs : List (String × String))
    (hp : ∀ pair ∈ pairs, m.isCoordinate pair.1 = false) (hs : start.Plain) :
    (pairs.foldl State.setMissingCenter start).Plain ∧
      m.axisValues (pairs.foldl State.setMissingCenter start) = m.axisValues start := by
  induction pairs generalizing start with
  | nil => exact ⟨hs, rfl⟩
  | cons pair pairs ih =>
    obtain ⟨h1, h2⟩ := setMissingCenter_axes (hp pair (List.mem_cons_self ..)) hs
    obtain ⟨h3, h4⟩ := ih (fun p hpm => hp p (List.mem_cons_of_mem _ hpm)) h1
    exact ⟨h3, h4.trans h2⟩

theorem setMissingCenters_axes (state : State) (hm : state.machine.AxesApart) {start : Scope}
    (hs : start.Plain) :
    (state.setMissingCenters start).Plain ∧
      state.machine.axisValues (state.setMissingCenters start) =
        state.machine.axisValues start := by
  unfold State.setMissingCenters
  split
  · refine foldl_setMissingCenter_axes _ (fun pair hp => ?_) hs
    obtain ⟨g, hg, hz⟩ := List.mem_flatMap.mp hp
    exact center_apart hm hg (List.of_mem_zip hz).1
  · exact ⟨hs, rfl⟩

end Centers

/-- Where the axes stand in the machine. -/
def State.position (s : State) : String → Float :=
  s.machine.axisValues (s.frame.leave s.machine s.scope)

section Position

variable {state : State} {motion : Motion}

theorem startOf_position (hm : state.machine.AxesApart) (hs : state.scope.Plain)
    (h : motion.Sound state.machine state.scope) :
    state.machine.axisValues ((state.commit motion).startOf motion) = state.position := by
  have hplain := Scope.plain_push (Scope.plain_setAll hs motion.finish)
  have hstart := Scope.plain_setAll hplain motion.start
  obtain ⟨h1, h2⟩ := setArcCenter_axes (state.commit motion) hm
    ((state.commit motion).scope.push.setAll motion.finish) hstart
  obtain ⟨h3, h4⟩ := setMissingCenters_axes (state.commit motion) hm h1
  exact leave_axes hm state.frame h3 hs (h4.trans (h2.trans (h.start_axes hs)))

theorem finishOf_position (hm : state.machine.AxesApart) (hs : state.scope.Plain) :
    state.machine.axisValues ((state.commit motion).finishOf motion) =
      (state.commit motion).position := by
  have hplain := Scope.plain_setAll hs motion.finish
  exact leave_axes hm state.frame (Scope.plain_setAll (Scope.plain_push hplain) motion.finish)
    hplain (Motion.Sound.finish_axes hs)

end Position

end PartProgram
