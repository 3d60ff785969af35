import PartProgram.Proofs.Run.Along
import PartProgram.Proofs.Run.Axes

/-!
# Motions of a run in a row

Between two motions nothing moves an axis: coordinates are collected until the end of a
block. So the motions of each step, and of a whole run, lead from one position to another
without a gap.
-/

set_option autoImplicit false

namespace PartProgram

/-- The motions among the events lead from one position to another without a gap. -/
def Linked (m : Machine) : (String → Float) → List Event → (String → Float) → Prop
  | p, [], q => p = q
  | p, .motion start finish _ :: rest, q =>
    m.axisValues start = p ∧ Linked m (m.axisValues finish) rest q
  | p, _ :: rest, q => Linked m p rest q

theorem linked_other {m : Machine} {p q : String → Float} {e : Event} {rest : List Event}
    (he : e.isMotion = false) : Linked m p (e :: rest) q ↔ Linked m p rest q := by
  cases e <;> first | rfl | cases he

theorem linked_append {m : Machine} {p q : String → Float} (a b : List Event) :
    Linked m p (a ++ b) q ↔ ∃ mid, Linked m p a mid ∧ Linked m mid b q := by
  induction a generalizing p with
  | nil => simp [Linked]
  | cons e a ih =>
    cases he : e.isMotion with
    | false => rw [List.cons_append, linked_other he, ih]; simp only [linked_other he]
    | true =>
      cases e <;> cases he
      simp only [List.cons_append, Linked, ih]
      constructor
      · rintro ⟨hp, mid, ha, hb⟩
        exact ⟨mid, ⟨hp, ha⟩, hb⟩
      · rintro ⟨mid, ⟨hp, ha⟩, hb⟩
        exact ⟨hp, mid, ha, hb⟩

/-- A run on a machine with a frame that stays. -/
structure Run.Steady (m : Machine) (t : Frame) (r : Run) : Prop where
  machine : r.state.machine = m
  frame : r.state.frame = t
  framing : r.control.framing = false
  plain : r.state.scope.Plain
  motion : ∀ motion, r.control.motion = some motion → motion.Sound m r.state.scope

/-- From a steady run one comes to a steady run, and the motions on the way are
linked. -/
def Continues (m : Machine) (t : Frame) (r r' : Run) : Prop :=
  r.Steady m t → r'.Steady m t ∧ ∃ events : List Event,
    r'.events.toList = r.events.toList ++ events ∧
      Linked m r.state.position events r'.state.position

theorem continues_passage (m : Machine) (t : Frame) : Exec.Passage (Continues m t) where
  refl r h := ⟨h, [], by simp, rfl⟩
  trans := by
    intro r s u hrs hsu h
    obtain ⟨h1, es, he, hl⟩ := hrs h
    obtain ⟨h2, es', he', hl'⟩ := hsu h1
    exact ⟨h2, es ++ es', by rw [he', he, List.append_assoc], (linked_append es es').mpr
      ⟨_, hl, hl'⟩⟩

section Steps

variable {m : Machine} {t : Frame} {r : Run}

theorem continues_control {c : Control} (hf : c.framing = r.control.framing)
    (hm : c.motion = r.control.motion) : Continues m t r { r with control := c } := by
  intro h
  refine ⟨⟨h.machine, h.frame, hf.trans h.framing, h.plain, ?_⟩, [], by simp, rfl⟩
  intro motion hx
  exact h.motion motion (hm.symm.trans hx)

theorem continues_emit {e : Event} (he : e.isMotion = false) :
    Continues m t r { r with events := r.events.push e } := by
  intro h
  exact ⟨⟨h.machine, h.frame, h.framing, h.plain, h.motion⟩, [e], by simp,
    (linked_other he).mpr rfl⟩

theorem continues_modes {s : State} (hm : s.machine = r.state.machine)
    (hf : s.frame = r.state.frame) (hs : s.scope = r.state.scope) :
    Continues m t r { r with state := s } := by
  intro h
  refine ⟨⟨hm.trans h.machine, hf.trans h.frame, h.framing, hs ▸ h.plain, ?_⟩, [], by simp, ?_⟩
  · exact fun motion hx => hs ▸ h.motion motion hx
  · simp only [Linked, State.position, hm, hf, hs]

theorem continues_set (hax : m.AxesApart) {name : String} (hn : m.isCoordinate name = false)
    (value : Float) :
    Continues m t r { r with state := r.state.mapScope (·.set name value) } := by
  intro h
  have hplain := Scope.plain_set h.plain name value
  have haxes := axisValues_set_other (m := m) h.plain hn value
  refine ⟨⟨h.machine, h.frame, h.framing, hplain, ?_⟩, [], by simp, ?_⟩
  · exact fun motion hx => (h.motion motion hx).congr haxes
  · have hmach : r.state.machine = m := h.machine
    simp only [Linked, State.position, State.mapScope, hmach]
    exact leave_axes hax _ h.plain hplain haxes.symm

theorem continues_collect (hax : m.AxesApart) {name : String} (value : Float) :
    Exec.Leads (Continues m t) (Exec.collect (m.isTemporary name) name value) r := by
  refine Exec.leads_get (Exec.leads_modify ?_)
  intro h
  refine ⟨⟨h.machine, h.frame, h.framing, h.plain, ?_⟩, [], by simp, rfl⟩
  intro motion hx
  cases hx
  have hsound : (r.control.motion.getD {}).Sound m r.state.scope := by
    cases hx : r.control.motion with
    | none => exact Motion.Sound.empty m r.state.scope
    | some motion => exact h.motion motion hx
  rw [Scope.canonical_plain h.plain]
  cases ht : m.isTemporary name with
  | true =>
    refine hsound.write_temporary ?_ _ _
    rw [Machine.isCoordinate_congr (upper_upper name)]
    cases hc : m.isCoordinate name with
    | false => rfl
    | true => simpa [ht] using hax name hc
  | false => exact hsound.write_axis (upper name) value

theorem continues_endMotion (hax : m.AxesApart) : Continues m t r r.endMotion := by
  intro h
  cases hx : r.control.motion with
  | none =>
    rw [show r.endMotion = r by simp [Run.endMotion, hx]]
    exact ⟨h, [], by simp, rfl⟩
  | some motion =>
    have hmach := h.machine
    subst hmach
    have hsound := h.motion motion hx
    simp only [Run.endMotion, hx]
    refine ⟨⟨rfl, h.frame, h.framing, Scope.plain_setAll h.plain _, by simp⟩, [_],
      Array.toList_push, ?_⟩
    exact ⟨startOf_position hax h.plain hsound, finishOf_position hax h.plain⟩

theorem continues_endBlock (hax : m.AxesApart) : Continues m t r r.endBlock := by
  have hP := continues_passage m t
  have hdwell : Continues m t r r.endDwell := by
    unfold Run.endDwell
    split
    · exact hP.trans (continues_emit (e := .dwell r.control.delay) rfl)
        (continues_control rfl rfl)
    · exact hP.refl r
  have hframe : ∀ r : Run, Continues m t r r.endFrame := by
    intro r h
    rw [show r.endFrame = r by simp [Run.endFrame, h.framing]]
    exact hP.refl r h
  exact hP.trans hdwell (hP.trans (continues_endMotion hax) (hframe _))

end Steps

def Statement.LeavesAxes (m : Machine) : Statement → Prop
  | instruction name _ => frameInstruction? name = none
  | declare d => d.type = .int ∨ d.type = .real →
    ∀ v ∈ d.declared, m.isCoordinate v.name = false
  | _ => True

def Program.LeavesAxes (m : Machine) (p : Program) : Prop :=
  ∀ block ∈ p.blocks, ∀ s ∈ block.statements, s.LeavesAxes m

section Statements

variable {m : Machine} {t : Frame} {r : Run}

theorem leads_of_steady {α : Type} {x : Exec α}
    (h : r.Steady m t → Exec.Leads (Continues m t) x r) : Exec.Leads (Continues m t) x r := by
  rw [Exec.Leads]
  split
  · rename_i hx
    exact fun hr => (h hr).of_ok hx hr
  · rename_i hx
    exact fun hr => (h hr).of_error hx hr

theorem declareVariable_continues (hax : m.AxesApart) (line : Nat) (zero : Expr)
    {v : DeclaredVariable} (hv : m.isCoordinate v.name = false) :
    Exec.Along (Continues m t) (Exec.declareVariable line zero v) :=
  fun _ => Exec.leads_get ((continues_passage m t).orFail_bind
    (fun x _ => Exec.leads_modify (continues_set hax hv x)))

theorem declare_continues (hax : m.AxesApart) (line : Nat) {d : Declaration}
    (hd : (Statement.declare d).LeavesAxes m) :
    Exec.Along (Continues m t) (Exec.declare line d) := by
  have hP := continues_passage m t
  unfold Exec.declare
  split
  · rename_i htype
    exact hP.forM _ (fun v hv => declareVariable_continues hax line _ (hd (.inl htype) v hv))
  · rename_i htype
    exact hP.forM _ (fun v hv => declareVariable_continues hax line _ (hd (.inr htype) v hv))
  · exact hP.pure ()

theorem assign_continues (hax : m.AxesApart) (line : Nat) (name : String) (value : Expr) :
    Exec.Along (Continues m t) (Exec.assign line name value) := by
  intro r
  refine leads_of_steady (fun hr => ?_)
  refine Exec.leads_get ((continues_passage m t).orFail_bind (fun x _ => ?_))
  simp only [hr.framing, hr.machine, Bool.false_eq_true, if_false]
  refine Exec.leads_ite (fun _ => ?_) (fun _ => Exec.leads_ite (fun _ => ?_) (fun hn => ?_))
  · exact Exec.leads_modify (continues_control rfl rfl)
  · exact continues_collect hax x
  · refine Exec.leads_modify (continues_set hax ?_ x)
    simp only [Machine.isCoordinateOrCenter, Bool.or_eq_true, not_or] at hn
    simpa using hn.2.1

theorem gcode_continues (id : Nat) (args : Option (List Expr)) :
    Exec.Along (Continues m t) (Exec.gcode id args) :=
  fun _ => Exec.leads_gcode (fun _ _ _ => continues_modes rfl rfl rfl) (continues_control rfl rfl)
    (continues_emit rfl)

theorem mcode_continues (id : Nat) : Exec.Along (Continues m t) (Exec.mcode id) := by
  refine fun r => Exec.leads_mcode ?_ (fun _ => continues_control rfl rfl) (continues_emit rfl)
  -- The end of the program is noted first and then reported.
  have hstop : Continues m t r { r with control := { r.control with stopped := true } } :=
    continues_control rfl rfl
  exact (continues_passage m t).trans hstop (continues_emit rfl)

theorem instruction_continues {programs : Table Program} {call : Program → Exec Unit}
    (hcall : ∀ name p, programs.find? name = some p → Exec.Along (Continues m t) (call p))
    (line : Nat) {name : String} (hn : frameInstruction? name = none) (args : Option Slots) :
    Exec.Along (Continues m t) (Exec.instruction programs call line name args) := by
  have hP := continues_passage m t
  refine fun r => hP.instruction_at ?_ ?_ (continues_emit rfl)
  · intro replace hreplace
    rw [hn] at hreplace
    cases hreplace
  · intro callee _ hfind _
    exact hP.callSubprogram (hcall _ callee hfind)
      (fun _ _ he => continues_emit (Event.not_motion_of_place he)) r

theorem statement_continues (hax : m.AxesApart) {programs : Table Program}
    {call : Program → Exec Unit}
    (hcall : ∀ name p, programs.find? name = some p → Exec.Along (Continues m t) (call p))
    (program : Program) (line : Nat) {s : Statement} (hs : s.LeavesAxes m) :
    Exec.Along (Continues m t) (Exec.statement programs call program line s) := by
  have hP := continues_passage m t
  cases s with
  | flow f => exact fun _ => hP.flow_at (fun _ => continues_control rfl rfl)
  | declare d => exact hP.unlessSkipping (declare_continues hax line hs)
  | assign name fields value => exact hP.unlessSkipping (assign_continues hax line name value)
  | gcode id args => exact hP.unlessSkipping (gcode_continues id args)
  | mcode id => exact hP.unlessSkipping (mcode_continues id)
  | jump direction target =>
    exact hP.unlessSkipping (fun _ => hP.jump_at (fun _ => continues_control rfl rfl))
  | instruction name args => exact hP.unlessSkipping (instruction_continues hcall line hs args)

theorem runFrom_continues (hax : m.AxesApart) {programs : Table Program}
    (hprograms : ∀ name p, programs.find? name = some p → p.LeavesAxes m)
    (steps : Nat) {p : Program} (hp : p.LeavesAxes m) (index : Nat) :
    Exec.Along (Continues m t) (Exec.runFrom programs steps p index) := by
  refine (continues_passage m t).runFrom (Program.LeavesAxes m)
    (fun _ _ he => continues_emit (Event.not_motion_of_place he)) ?_
    (fun _ => continues_endBlock hax)
    (fun _ => continues_control rfl rfl) steps p index hp
  intro call hcall program hprogram block hblock s hs
  exact statement_continues hax (fun name p hf => hcall p (hprograms name p hf)) program _
    (hprogram block hblock s hs)

end Statements

end PartProgram
