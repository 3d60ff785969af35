import PartProgram.Run.Session

/-!
# What holds along a run

A relation between the run before an action and the run after it, however the
action ends. If every step of a run keeps such a relation, so does a program
with all the subprograms it calls, for any number of steps.
-/

set_option autoImplicit false

namespace PartProgram

namespace Event

def isMotion : Event → Bool
  | motion .. => true
  | _ => false

def isPlace : Event → Bool
  | block .. | enter .. | leave .. => true
  | _ => false

theorem not_motion_of_place {e : Event} (h : e.isPlace = true) : e.isMotion = false := by
  cases e with
  | block | enter | leave => rfl
  | _ => cases h

end Event

namespace Exec

/-- The action leads from a run to a related one, also if it fails. -/
def Leads {α : Type} (P : Run → Run → Prop) (x : Exec α) (r : Run) : Prop :=
  match x r with
  | .ok _ after => P r after
  | .error _ after => P r after

/-- The action leads from every run to a related one. -/
def Along {α : Type} (P : Run → Run → Prop) (x : Exec α) : Prop := ∀ r, Leads P x r

/-- A relation that covers no step and two steps in a row. -/
structure Passage (P : Run → Run → Prop) : Prop where
  refl : ∀ r, P r r
  trans : ∀ {r s t : Run}, P r s → P s t → P r t

variable {α β : Type} {P : Run → Run → Prop} {r : Run}

theorem run_get (k : Run → Exec α) (r : Run) :
    ((get : Exec Run) >>= k) r = k r r := rfl

theorem run_modify (f : Run → Run) (k : PUnit → Exec α) (r : Run) :
    ((modify f : Exec PUnit) >>= k) r = k ⟨⟩ (f r) := rfl

theorem run_bind (x : Exec α) (k : α → Exec β) (r : Run) :
    (x >>= k) r = match x r with
      | .ok a s => k a s
      | .error halt s => .error halt s := by
  simp only [bind, EStateM.bind]
  cases x r <;> rfl

theorem bind_ok {x : Exec α} {k : α → Exec β} {b : β} {t : Run}
    (h : (x >>= k) r = .ok b t) : ∃ a s, x r = .ok a s ∧ k a s = .ok b t := by
  rw [run_bind] at h
  cases hx : x r with
  | ok a s =>
    rw [hx] at h
    exact ⟨a, s, rfl, h⟩
  | error halt s =>
    rw [hx] at h
    cases h

theorem orFail_bind_ok {line : Nat} {result : Except RunCause α} {k : α → Exec β}
    {b : β} {t : Run} (h : (orFail line result >>= k) r = .ok b t) :
    ∃ a, result = .ok a ∧ k a r = .ok b t := by
  cases result with
  | ok a => exact ⟨a, rfl, h⟩
  | error cause => cases h

theorem Leads.of_ok {x : Exec α} {a : α} {s : Run} (h : Leads P x r) (hx : x r = .ok a s) :
    P r s := by
  rwa [Leads, hx] at h

theorem Leads.of_error {x : Exec α} {halt : Halt} {s : Run} (h : Leads P x r)
    (hx : x r = .error halt s) : P r s := by
  rwa [Leads, hx] at h

theorem Along.mono {Q : Run → Run → Prop} {x : Exec α} (h : Along P x)
    (hPQ : ∀ {r s : Run}, P r s → Q r s) : Along Q x := by
  intro r
  rw [Leads]
  split
  · rename_i hx
    exact hPQ ((h r).of_ok hx)
  · rename_i hx
    exact hPQ ((h r).of_error hx)

theorem leads_get {k : Run → Exec α} (h : Leads P (k r) r) :
    Leads P ((get : Exec Run) >>= k) r := h

theorem leads_modify {f : Run → Run} (h : P r (f r)) : Leads P (modify f : Exec PUnit) r := h

theorem leads_ite {b : Prop} [Decidable b] {x y : Exec α} (hx : b → Leads P x r)
    (hy : ¬b → Leads P y r) : Leads P (if b then x else y) r := by
  by_cases hb : b
  · simpa only [if_pos hb] using hx hb
  · simpa only [if_neg hb] using hy hb

theorem leads_gcode {id : Nat} {args : Option (List Expr)}
    (hmodes : ∀ absolute metric mode,
      P r { r with state := { r.state with absolute, metric, mode } })
    (hwait : P r { r with control := { r.control with waiting := true } })
    (hemit : P r { r with events := r.events.push (.gcode id args) }) :
    Leads P (gcode id args) r := by
  unfold gcode
  split
  case h_5 => exact leads_modify hwait
  case h_10 => exact leads_modify hemit
  all_goals exact leads_modify (hmodes _ _ _)

theorem leads_mcode {id : Nat}
    (hend : P r { r with
      control := { r.control with stopped := true }, events := r.events.push .ended })
    (hback : id = 17 → P r { r with control := { r.control with jump := some .back } })
    (hemit : P r { r with events := r.events.push (.mcode id) }) :
    Leads P (mcode id) r := by
  refine leads_ite (fun _ => hend) (fun _ => leads_ite (fun hid => ?_) (fun _ => ?_))
  · exact leads_modify (hback hid)
  · exact leads_modify hemit

theorem along_adaptExcept {x : Exec α} (f : Halt → Halt) (h : Along P x) :
    Along P (EStateM.adaptExcept f x) := by
  intro r
  have hr := h r
  simp only [Leads, EStateM.adaptExcept] at hr ⊢
  cases hx : x r <;> simpa [hx] using hr

namespace Passage

variable (hP : Passage P)
include hP

theorem pure (a : α) : Along P (Pure.pure a : Exec α) := fun r => hP.refl r

theorem orFail (line : Nat) (result : Except RunCause α) : Along P (Exec.orFail line result) := by
  intro r
  cases result with
  | ok a => exact hP.refl r
  | error cause => exact hP.refl r

/-- The second action need only be looked at from the run to which the first one leads. -/
theorem bind_of {x : Exec α} {k : α → Exec β} (hx : Leads P x r)
    (hk : ∀ a s, x r = .ok a s → Leads P (k a) s) : Leads P (x >>= k) r := by
  simp only [Leads, Bind.bind, EStateM.bind] at hx ⊢
  cases h : x r with
  | error halt after => simpa [h] using hx
  | ok a after =>
    have hka := hk a after h
    simp only [h] at hx ⊢
    simp only [Leads] at hka
    cases h' : k a after <;> simp only [h'] at hka <;> exact hP.trans hx hka

theorem bind_at {x : Exec α} {k : α → Exec β} (hx : Leads P x r) (hk : ∀ a, Along P (k a)) :
    Leads P (x >>= k) r :=
  hP.bind_of hx (fun a s _ => hk a s)

theorem bind {x : Exec α} {k : α → Exec β} (hx : Along P x) (hk : ∀ a, Along P (k a)) :
    Along P (x >>= k) :=
  fun r => hP.bind_at (hx r) hk

theorem orFail_bind {line : Nat} {result : Except RunCause α} {k : α → Exec β}
    (h : ∀ a, result = .ok a → Leads P (k a) r) : Leads P (Exec.orFail line result >>= k) r := by
  cases result with
  | ok a => exact h a rfl
  | error cause => exact hP.refl r

theorem forM {f : α → Exec PUnit} (list : List α) (h : ∀ a ∈ list, Along P (f a)) :
    Along P (list.forM f) := by
  induction list with
  | nil => exact hP.pure ()
  | cons a list ih =>
    exact hP.bind (h a (List.mem_cons_self ..))
      (fun _ => ih (fun b hb => h b (List.mem_cons_of_mem _ hb)))

theorem unlessSkipping_at {body : Exec Unit}
    (h : skipping r.control.branches = false → Leads P body r) :
    Leads P (Exec.unlessSkipping body) r :=
  leads_get (leads_ite (fun _ => hP.refl r) (fun hs => h (Bool.eq_false_iff.mpr hs)))

theorem unlessSkipping {body : Exec Unit} (h : Along P body) :
    Along P (Exec.unlessSkipping body) :=
  fun r => hP.unlessSkipping_at (fun _ => h r)

theorem flow_at {line : Nat} {f : Flow}
    (h : ∀ branches, P r { r with control := { r.control with branches } }) :
    Leads P (Exec.flow line f) r :=
  leads_get (hP.orFail_bind (fun branches _ => leads_modify (h branches)))

theorem jump_at {program : Program} {line : Nat} {target : Option Expr}
    (h : ∀ index, P r { r with control := { r.control with jump := some (.to index) } }) :
    Leads P (Exec.jump program line target) r :=
  hP.orFail_bind (fun index _ => leads_modify (h index))

theorem instruction_at {programs : Table Program} {call : Program → Exec Unit} {line : Nat}
    {name : String} {args : Option Slots}
    (hframe : ∀ replace, frameInstruction? name = some replace →
      Leads P (Exec.beginFrame replace) r)
    (hcall : ∀ callee, frameInstruction? name = none →
      programs.find? (upper name) = some callee → (args.getD []).isEmpty = true →
      Leads P (Exec.callSubprogram call line name callee) r)
    (hemit : P r { r with events := r.events.push (.instruction name args) }) :
    Leads P (Exec.instruction programs call line name args) r := by
  unfold Exec.instruction
  cases hf : frameInstruction? name with
  | some replace => exact hframe replace hf
  | none =>
    cases hfind : programs.find? (upper name) with
    | none => exact leads_modify hemit
    | some callee =>
      exact leads_ite (fun hargs => hcall callee hf hfind hargs) (fun _ => hP.orFail line _ r)

theorem statements {programs : Table Program} {call : Program → Exec Unit} {program : Program}
    {line : Nat} (list : List Statement)
    (h : ∀ s ∈ list, Along P (Exec.statement programs call program line s)) :
    Along P (Exec.statements programs call program line list) := by
  induction list with
  | nil => exact hP.pure ()
  | cons s list ih =>
    intro r
    refine leads_get (leads_ite (fun _ => hP.refl r) (fun _ => ?_))
    exact hP.bind_at (h s (List.mem_cons_self ..) r)
      (fun _ => ih (fun s hs => h s (List.mem_cons_of_mem _ hs)))

theorem callSubprogram {call : Program → Exec Unit} {line : Nat} {name : String}
    {program : Program} (hc : Along P (call program))
    (hemit : ∀ (r : Run) (e : Event), e.isPlace = true →
      P r { r with events := r.events.push e }) :
    Along P (Exec.callSubprogram call line name program) := by
  refine hP.bind (fun r => leads_modify (hemit r _ rfl)) (fun _ => ?_)
  refine hP.bind (along_adaptExcept _ hc) (fun _ => ?_)
  intro r
  exact leads_get (leads_ite (fun _ => leads_modify (hemit r _ rfl)) (fun _ => hP.refl r))

theorem takeJump (hjump : ∀ r : Run, P r { r with control := { r.control with jump := none } }) :
    Along P Exec.takeJump :=
  fun r => leads_get (hP.bind_at (leads_modify (hjump r)) (fun _ => hP.pure _))

/-- A program keeps what each of its statements and each end of a block keeps. A call
is one of the statements: it keeps what the subprogram keeps. -/
theorem runFrom {programs : Table Program} (good : Program → Prop)
    (hemit : ∀ (r : Run) (e : Event), e.isPlace = true →
      P r { r with events := r.events.push e })
    (hstatement : ∀ call : Program → Exec Unit, (∀ callee, good callee → Along P (call callee)) →
      ∀ program, good program → ∀ block ∈ program.blocks, ∀ s ∈ block.statements,
        Along P (Exec.statement programs call program block.line s))
    (hend : ∀ r : Run, P r r.endBlock)
    (hjump : ∀ r : Run, P r { r with control := { r.control with jump := none } })
    (steps : Nat) (program : Program) (index : Nat) (hgood : good program) :
    Along P (Exec.runFrom programs steps program index) := by
  induction steps generalizing program index with
  | zero => exact fun r => hP.refl r
  | succ steps ih =>
    simp only [Exec.runFrom]
    cases hb : program.blocks[index]? with
    | none => exact hP.pure ()
    | some block =>
      have hmem : block ∈ program.blocks := List.mem_of_getElem? hb
      refine hP.bind (fun r => leads_modify (hemit r _ rfl)) (fun _ => ?_)
      refine hP.bind (hP.statements block.statements ?_) (fun _ => ?_)
      · exact hstatement _ (fun callee hc => ih callee 0 hc) program hgood block hmem
      · refine hP.bind (fun r => leads_modify (hend r)) (fun _ => ?_)
        intro r
        refine leads_get (leads_ite (fun _ => hP.refl r) (fun _ => ?_))
        refine hP.bind_at (hP.takeJump hjump r) (fun jump => ?_)
        cases jump with
        | none => exact ih program (index + 1) hgood
        | some j =>
          obtain target | _ := j
          · exact ih program target hgood
          · exact hP.pure ()

end Passage

end Exec

end PartProgram
