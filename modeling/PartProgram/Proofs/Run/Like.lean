import PartProgram.Proofs.Run.Execution
import PartProgram.Proofs.Run.View

/-!
# Runs and results that look alike

Two runs look alike in a view if the state and all that is under way are the same and what
was reported looks the same. Two results do, unless one of the runs had too few steps.
-/

set_option autoImplicit false

namespace PartProgram

/-- An event as it looks in a view; the place of a run may not be seen. -/
def Event.seen (v : View) (e : Event) : Option Event :=
  if e.isPlace && !v.places then none else some (e.rename v.name)

def Halt.seen (v : View) : Halt → Halt
  | failed e => failed {
      calls := if v.places then e.calls.map (fun c => { c with name := v.name c.name }) else []
      line := e.line
      cause := v.cause e.cause }
  | exhausted => exhausted

theorem Halt.seen_within {v : View} (line : Nat) {a b : String} (hname : v.name a = v.name b)
    {halt halt' : Halt} (h : halt.seen v = halt'.seen v) :
    (halt.within line a).seen v = (halt'.within line b).seen v := by
  cases halt with
  | exhausted =>
    cases halt' with
    | exhausted => rfl
    | failed e => cases h
  | failed e =>
    cases halt' with
    | exhausted => cases h
    | failed e' =>
      simp only [Halt.seen, Halt.failed.injEq, RunError.mk.injEq] at h
      simp only [Halt.within, RunError.within, Halt.seen, Halt.failed.injEq, RunError.mk.injEq]
      refine ⟨?_, h.2⟩
      cases hp : v.places with
      | false => rfl
      | true =>
        rw [hp] at h
        simpa [hname] using h.1

namespace Run

def seen (v : View) (r : Run) : List Event := r.events.toList.filterMap (Event.seen v)

/-- Two runs in the same state that have reported what looks the same. -/
structure Like (v : View) (r s : Run) : Prop where
  state : r.state = s.state
  control : r.control = s.control
  seen : r.seen v = s.seen v

variable {v : View} {r s : Run}

theorem Like.refl (v : View) (r : Run) : r.Like v r := ⟨rfl, rfl, rfl⟩

theorem Like.symm (h : r.Like v s) : s.Like v r :=
  ⟨h.state.symm, h.control.symm, h.seen.symm⟩

theorem Like.trans {t : Run} (h : r.Like v s) (h' : s.Like v t) : r.Like v t :=
  ⟨h.state.trans h'.state, h.control.trans h'.control, h.seen.trans h'.seen⟩

theorem seen_report (r : Run) (e : Event) :
    (r.report e).seen v = r.seen v ++ (e.seen v).toList := by
  simp only [seen, toList_report, List.filterMap_append]
  cases h : e.seen v <;> simp [List.filterMap, h]

theorem Like.report (h : r.Like v s) {e e' : Event} (he : e.seen v = e'.seen v) :
    (r.report e).Like v (s.report e') where
  state := h.state
  control := h.control
  seen := by rw [seen_report, seen_report, h.seen, he]

theorem Like.unseen (h : r.Like v s) {e : Event} (he : e.seen v = none) :
    (r.report e).Like v s where
  state := h.state
  control := h.control
  seen := by rw [seen_report, he, h.seen, Option.toList_none, List.append_nil]

theorem Like.update (h : r.Like v s) (f : State → State) (g : Control → Control) :
    Like v { r with state := f r.state, control := g r.control }
      { s with state := f s.state, control := g s.control } where
  state := by rw [h.state]
  control := by rw [h.control]
  seen := h.seen

theorem Like.exists_events (h : r.Like v s) : ∃ events, s = { r with events } ∧
    events.toList.filterMap (Event.seen v) = r.seen v := by
  obtain ⟨state, control, events⟩ := s
  have hstate : r.state = state := h.state
  have hcontrol : r.control = control := h.control
  exact ⟨events, by rw [hstate, hcontrol], h.seen.symm⟩

theorem Like.endDwell (h : r.Like v s) : r.endDwell.Like v s.endDwell := by
  obtain ⟨events, rfl, hseen⟩ := h.exists_events
  unfold Run.endDwell
  split
  · have hbefore : Like v { r with control := { r.control with waiting := false, delay := none } }
        { r with control := { r.control with waiting := false, delay := none }, events } :=
      ⟨rfl, rfl, hseen.symm⟩
    exact hbefore.report (e := .dwell r.control.delay) rfl
  · exact h

theorem Like.endMotion (h : r.Like v s) : r.endMotion.Like v s.endMotion := by
  obtain ⟨events, rfl, hseen⟩ := h.exists_events
  unfold Run.endMotion
  cases hm : r.control.motion with
  | none => exact h
  | some motion =>
    have hbefore : Like v
        { r with state := r.state.commit motion, control := { r.control with motion := none } }
        { state := r.state.commit motion, control := { r.control with motion := none }, events } :=
      ⟨rfl, rfl, hseen.symm⟩
    exact hbefore.report (e := .motion ((r.state.commit motion).startOf motion)
      ((r.state.commit motion).finishOf motion) (r.state.commit motion)) rfl

theorem Like.endFrame (h : r.Like v s) : r.endFrame.Like v s.endFrame := by
  obtain ⟨events, rfl, hseen⟩ := h.exists_events
  unfold Run.endFrame
  split
  · exact ⟨rfl, rfl, hseen.symm⟩
  · exact h

theorem Like.endBlock (h : r.Like v s) : r.endBlock.Like v s.endBlock :=
  h.endDwell.endMotion.endFrame

theorem Like.landed (h : r.Like v s) : r.landed.Like v s.landed :=
  h.update id (fun c => { c with jump := none })

end Run

namespace Exec

/-- Two results look the same. A run that has too few steps is excused, on either side. -/
def Matches {α : Type} (v : View) (short short' : Prop)
    (x y : EStateM.Result Halt Run α) : Prop :=
  (short ∧ ∃ s, x = .error .exhausted s) ∨ (short' ∧ ∃ s, y = .error .exhausted s) ∨
    (∃ a r s, x = .ok a r ∧ y = .ok a s ∧ r.Like v s) ∨
      ∃ halt halt' r s, x = .error halt r ∧ y = .error halt' s ∧
        halt.seen v = halt'.seen v ∧ r.Like v s

/-- Two actions that lead from runs that look the same to results that do. -/
def Beside {α : Type} (v : View) (short short' : Prop) (x y : Exec α) : Prop :=
  ∀ r s : Run, r.Like v s → Matches v short short' (x r) (y s)

variable {α β γ : Type} {v : View} {short short' : Prop} {r s : Run}

theorem matches_ok {a : α} (h : r.Like v s) :
    Matches v short short' (.ok a r : EStateM.Result Halt Run α) (.ok a s) :=
  .inr (.inr (.inl ⟨a, r, s, rfl, rfl, h⟩))

theorem matches_error {halt halt' : Halt} (hhalt : halt.seen v = halt'.seen v)
    (h : r.Like v s) :
    Matches v short short' (.error halt r : EStateM.Result Halt Run α) (.error halt' s) :=
  .inr (.inr (.inr ⟨halt, halt', r, s, rfl, rfl, hhalt, h⟩))

theorem Matches.mono {x y : EStateM.Result Halt Run α} {long long' : Prop}
    (h : Matches v short short' x y) (hs : short → long) (hs' : short' → long') :
    Matches v long long' x y := by
  rcases h with ⟨h, hx⟩ | ⟨h, hy⟩ | h
  · exact .inl ⟨hs h, hx⟩
  · exact .inr (.inl ⟨hs' h, hy⟩)
  · exact .inr (.inr h)

theorem Matches.bind {x y : Exec α} {k k' : α → Exec β} (h : Matches v short short' (x r) (y s))
    (hk : ∀ a, Beside v short short' (k a) (k' a)) :
    Matches v short short' ((x >>= k) r) ((y >>= k') s) := by
  rw [run_bind, run_bind]
  rcases h with ⟨h, t, hx⟩ | ⟨h, t, hy⟩ | ⟨a, r, s, hx, hy, hlike⟩ |
    ⟨halt, halt', r, s, hx, hy, hhalt, hlike⟩
  · exact .inl ⟨h, t, by rw [hx]⟩
  · exact .inr (.inl ⟨h, t, by rw [hy]⟩)
  · rw [hx, hy]
    exact hk a r s hlike
  · rw [hx, hy]
    exact matches_error hhalt hlike

theorem beside_pure (a : α) : Beside v short short' (pure a) (pure a) :=
  fun _ _ h => matches_ok h

theorem Beside.bind {x y : Exec α} {k k' : α → Exec β} (h : Beside v short short' x y)
    (hk : ∀ a, Beside v short short' (k a) (k' a)) : Beside v short short' (x >>= k) (y >>= k') :=
  fun r s hlike => (h r s hlike).bind hk

theorem beside_get {k k' : Run → Exec α}
    (h : ∀ r s : Run, r.Like v s → Beside v short short' (k r) (k' s)) :
    Beside v short short' ((get : Exec Run) >>= k) ((get : Exec Run) >>= k') :=
  fun r s hlike => h r s hlike r s hlike

theorem beside_modifyState {f g : State → State} (h : f = g) :
    Beside v short short' (modifyState f) (modifyState g) := by
  subst h
  exact fun _ _ hlike => matches_ok (hlike.update f id)

theorem beside_modifyControl {f g : Control → Control} (h : f = g) :
    Beside v short short' (modifyControl f) (modifyControl g) := by
  subst h
  exact fun _ _ hlike => matches_ok (hlike.update id f)

theorem beside_emit {e e' : Event} (h : e.seen v = e'.seen v) :
    Beside v short short' (emit e) (emit e') :=
  fun _ _ hlike => matches_ok (hlike.report h)

theorem beside_ite {b : Prop} [Decidable b] {x y x' y' : Exec α}
    (ht : b → Beside v short short' x x') (hf : ¬b → Beside v short short' y y') :
    Beside v short short' (if b then x else y) (if b then x' else y') := by
  by_cases hb : b
  · rw [if_pos hb, if_pos hb]
    exact ht hb
  · rw [if_neg hb, if_neg hb]
    exact hf hb

theorem beside_orFail (line : Nat) {x y : Except RunCause α} (h : v.Agrees x y) :
    Beside v short short' (orFail line x) (orFail line y) := by
  intro r s hlike
  cases x with
  | ok a =>
    cases y with
    | ok b =>
      cases h
      exact matches_ok hlike
    | error cause => cases h
  | error cause =>
    cases y with
    | ok b => cases h
    | error cause' =>
      have hcause : v.cause cause = v.cause cause' := Except.error.inj h
      exact matches_error (by simp only [Halt.seen, hcause, List.map_nil]) hlike

theorem beside_forM {g : α → γ} {f f' : α → Exec PUnit}
    (hf : ∀ a b, g a = g b → Beside v short short' (f a) (f' b)) {list list' : List α}
    (h : list.map g = list'.map g) : Beside v short short' (list.forM f) (list'.forM f') := by
  induction list generalizing list' with
  | nil =>
    cases List.map_eq_nil_iff.mp h.symm
    exact beside_pure ()
  | cons a list ih =>
    cases list' with
    | nil => cases h
    | cons b list' =>
      obtain ⟨hab, hrest⟩ := List.cons.inj h
      exact (hf a b hab).bind (fun _ => ih hrest)

theorem beside_unlessSkipping {x y : Exec Unit} (h : Beside v short short' x y) :
    Beside v short short' (unlessSkipping x) (unlessSkipping y) := by
  apply beside_get
  intro r s hlike
  rw [hlike.control]
  exact beside_ite (fun _ => beside_pure ()) (fun _ => h)

end Exec

end PartProgram
