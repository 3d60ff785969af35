import PartProgram.Proofs.Run.Along

/-!
# Runs without branches

What is left of a run when the open branches and the reports of entered blocks
are taken out. A statement that is not part of a branch does the same with and
without them.
-/

set_option autoImplicit false

namespace PartProgram

def Event.isBlock : Event → Bool
  | block .. => true
  | _ => false

namespace Run

/-- The run without open branches and without the reports of entered blocks. -/
def erase (r : Run) : Run :=
  { r with
    control := { r.control with branches := [] }
    events := r.events.filter (fun e => !e.isBlock) }

@[simp]
theorem erase_state (r : Run) : r.erase.state = r.state := rfl

@[simp]
theorem erase_stopped (r : Run) : r.erase.control.stopped = r.control.stopped := rfl

theorem erase_push (r : Run) {e : Event} (he : e.isBlock = false) :
    { r with events := r.events.push e }.erase =
      { r.erase with events := r.erase.events.push e } := by
  simp [erase, he]

theorem erase_entered (r : Run) {e : Event} (he : e.isBlock = true) :
    { r with events := r.events.push e }.erase = r.erase := by
  simp [erase, he]

theorem erase_endDwell (r : Run) : r.erase.endDwell = r.endDwell.erase := by
  by_cases h : r.control.waiting = true
  · simp [endDwell, erase, h, Event.isBlock]
  · simp [endDwell, erase, h]

theorem erase_endMotion (r : Run) : r.erase.endMotion = r.endMotion.erase := by
  cases h : r.control.motion with
  | none => simp [endMotion, erase, h]
  | some motion => simp [endMotion, erase, h, Event.isBlock]

theorem erase_endFrame (r : Run) : r.erase.endFrame = r.endFrame.erase := by
  by_cases h : r.control.framing = true <;> simp [endFrame, erase, h]

theorem erase_endBlock (r : Run) : r.erase.endBlock = r.endBlock.erase := by
  rw [endBlock, erase_endDwell, erase_endMotion, erase_endFrame, endBlock]

theorem endBlock_endBlock (r : Run) : r.endBlock.endBlock = r.endBlock := by
  obtain ⟨hw, hm, hf⟩ := endBlock_done r
  generalize r.endBlock = s at hw hm hf
  simp [endBlock, endDwell, endMotion, endFrame, hw, hm, hf]

@[simp]
theorem endBlock_branches (r : Run) : r.endBlock.control.branches = r.control.branches := by
  simp only [endBlock, endDwell, endMotion, endFrame]
  split <;> split <;> split <;> rfl

@[simp]
theorem endBlock_jump (r : Run) : r.endBlock.control.jump = r.control.jump := by
  simp only [endBlock, endDwell, endMotion, endFrame]
  split <;> split <;> split <;> rfl

@[simp]
theorem endBlock_stopped (r : Run) : r.endBlock.control.stopped = r.control.stopped := by
  simp only [endBlock, endDwell, endMotion, endFrame]
  split <;> split <;> split <;> rfl

end Run

namespace Exec

variable {α β : Type}

def erased : EStateM.Result Halt Run α → EStateM.Result Halt Run α
  | .ok a r => .ok a r.erase
  | .error halt r => .error halt r.erase

/-- The action does the same in an erased run. -/
def Mirrors (x : Exec α) : Prop := ∀ r : Run, x r.erase = erased (x r)

theorem mirrors_pure (a : α) : Mirrors (pure a : Exec α) := fun _ => rfl

theorem mirrors_orFail (line : Nat) (result : Except RunCause α) :
    Mirrors (orFail line result) := by
  intro r
  cases result <;> rfl

theorem mirrors_bind {x : Exec α} {k : α → Exec β} (hx : Mirrors x) (hk : ∀ a, Mirrors (k a)) :
    Mirrors (x >>= k) := by
  intro r
  simp only [Bind.bind, EStateM.bind, hx r]
  cases x r with
  | ok a s => exact hk a s
  | error halt s => rfl

theorem mirrors_get {k : Run → Exec α} (hk : ∀ r, k r.erase = k r) (h : ∀ r, Mirrors (k r)) :
    Mirrors ((get : Exec Run) >>= k) := by
  intro r
  change k r.erase r.erase = erased (k r r)
  rw [hk, h r]

theorem mirrors_modify {f : Run → Run} (h : ∀ r, f r.erase = (f r).erase) :
    Mirrors (modify f : Exec PUnit) := by
  intro r
  change EStateM.Result.ok PUnit.unit (f r.erase) = .ok PUnit.unit (f r).erase
  rw [h]

theorem mirrors_modifyState (f : State → State) : Mirrors (modifyState f) :=
  mirrors_modify (fun _ => rfl)

theorem mirrors_modifyControl {f : Control → Control}
    (h : ∀ c : Control, f { c with branches := [] } = { f c with branches := [] }) :
    Mirrors (modifyControl f) := by
  apply mirrors_modify
  intro r
  simp only [Run.erase, h]

theorem mirrors_ite {b : Prop} [Decidable b] {x y : Exec α} (hx : Mirrors x) (hy : Mirrors y) :
    Mirrors (if b then x else y) := by
  by_cases hb : b
  · rwa [if_pos hb]
  · rwa [if_neg hb]

theorem mirrors_emit {e : Event} (he : e.isBlock = false) : Mirrors (emit e) :=
  mirrors_modify (fun r => (r.erase_push he).symm)

theorem mirrors_forM {f : α → Exec PUnit} (h : ∀ a, Mirrors (f a)) (list : List α) :
    Mirrors (list.forM f) := by
  induction list with
  | nil => exact mirrors_pure ()
  | cons a list ih => exact mirrors_bind (h a) (fun _ => ih)

theorem mirrors_declare (line : Nat) (d : Declaration) : Mirrors (declare line d) := by
  have hv : ∀ zero v, Mirrors (declareVariable line zero v) := by
    intro zero v
    apply mirrors_get (fun _ => rfl)
    intro r
    exact mirrors_bind (mirrors_orFail line _) (fun _ => mirrors_modifyState _)
  unfold declare
  split
  · exact mirrors_forM (hv _) d.declared
  · exact mirrors_forM (hv _) d.declared
  · exact mirrors_pure ()

theorem mirrors_collect (temporary : Bool) (name : String) (value : Float) :
    Mirrors (collect temporary name value) :=
  mirrors_get (fun _ => rfl) (fun _ => mirrors_modifyControl (fun _ => rfl))

theorem mirrors_assign (line : Nat) (name : String) (value : Expr) :
    Mirrors (assign line name value) := by
  apply mirrors_get (fun _ => rfl)
  intro r
  apply mirrors_bind (mirrors_orFail line _)
  intro x
  apply mirrors_ite
  · exact mirrors_modifyState _
  · apply mirrors_ite
    · exact mirrors_modifyControl (fun _ => rfl)
    · exact mirrors_ite (mirrors_collect _ name x) (mirrors_modifyState _)

theorem mirrors_gcode (id : Nat) (args : Option (List Expr)) : Mirrors (gcode id args) := by
  unfold gcode
  split
  all_goals first
    | exact mirrors_modifyState _
    | exact mirrors_modifyControl (fun _ => rfl)
    | exact mirrors_emit rfl

theorem mirrors_mcode (id : Nat) : Mirrors (mcode id) := by
  apply mirrors_ite
  · exact mirrors_bind (mirrors_modifyControl (fun _ => rfl)) (fun _ => mirrors_emit rfl)
  · exact mirrors_ite (mirrors_modifyControl (fun _ => rfl)) (mirrors_emit rfl)

theorem mirrors_beginFrame (replace : Bool) : Mirrors (beginFrame replace) :=
  mirrors_bind (mirrors_modifyState _) (fun _ => mirrors_modifyControl (fun _ => rfl))

/-- Neither the open branches nor the jump that is due have changed. -/
def SamePlace (r r' : Run) : Prop :=
  r'.control.branches = r.control.branches ∧ r'.control.jump = r.control.jump

theorem samePlace_passage : Passage SamePlace where
  refl _ := ⟨rfl, rfl⟩
  trans h h' := ⟨h'.1.trans h.1, h'.2.trans h.2⟩

theorem samePlace_declare (line : Nat) (d : Declaration) :
    Along SamePlace (declare line d) := by
  have hv : ∀ zero v, Along SamePlace (declareVariable line zero v) := by
    intro zero v r
    apply leads_get
    apply samePlace_passage.orFail_bind
    intro x _
    exact leads_modify ⟨rfl, rfl⟩
  unfold declare
  split
  · exact samePlace_passage.forM _ (fun v _ => hv _ v)
  · exact samePlace_passage.forM _ (fun v _ => hv _ v)
  · exact samePlace_passage.pure ()

theorem samePlace_assign (line : Nat) (name : String) (value : Expr) :
    Along SamePlace (assign line name value) := by
  intro r
  apply leads_get
  apply samePlace_passage.orFail_bind
  intro x _
  apply leads_ite
  · exact fun _ => leads_modify ⟨rfl, rfl⟩
  · intro _
    apply leads_ite
    · exact fun _ => leads_modify ⟨rfl, rfl⟩
    · intro _
      apply leads_ite
      · exact fun _ => leads_get (leads_modify ⟨rfl, rfl⟩)
      · exact fun _ => leads_modify ⟨rfl, rfl⟩

theorem samePlace_gcode (id : Nat) (args : Option (List Expr)) :
    Along SamePlace (gcode id args) :=
  fun _ => leads_gcode (fun _ _ _ => ⟨rfl, rfl⟩) ⟨rfl, rfl⟩ ⟨rfl, rfl⟩

theorem samePlace_mcode {id : Nat} (h : id ≠ 17) : Along SamePlace (mcode id) :=
  fun _ => leads_mcode ⟨rfl, rfl⟩ (fun hid => absurd hid h) ⟨rfl, rfl⟩

theorem samePlace_beginFrame (replace : Bool) : Along SamePlace (beginFrame replace) :=
  fun _ => samePlace_passage.bind_at (leads_modify ⟨rfl, rfl⟩) (fun _ _ => leads_modify ⟨rfl, rfl⟩)

end Exec

end PartProgram
