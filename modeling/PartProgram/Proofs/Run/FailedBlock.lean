import PartProgram.Proofs.Run.Continuity
import PartProgram.Proofs.Run.FrameChange

/-!
# Blocks that fail

The coordinates that a block writes are stored at its end. So a block that fails
has moved no axis, wherever in it the error arises. Two things are excepted. An
instruction for a frame takes the coordinates out of the old frame at once, and
an error behind it leaves them there. And a variable that is an alias of an axis
is stored at once, since a statement is judged by the name that is written.
-/

set_option autoImplicit false

namespace PartProgram

/-- Where the statement assigns to an axis it does so by a name of the motion: that of an axis,
of a centre or of the radius. -/
def Statement.NamesAxes (m : Machine) (scope : Scope) : Statement → Prop
  | assign name _ _ => ∀ axis, m.isCoordinate axis = true →
    scope.canonical name = scope.canonical axis →
      (m.isTemporary name || m.isCoordinateOrCenter name) = true
  | _ => True

theorem Statement.namesAxes_of_plain (m : Machine) {scope : Scope} (h : scope.Plain)
    (st : Statement) : st.NamesAxes m scope := by
  cases st with
  | assign name fields value =>
    intro axis ha hc
    rw [Scope.canonical_plain h, Scope.canonical_plain h] at hc
    have hname : m.isCoordinate name = true := (Machine.isCoordinate_congr hc).trans ha
    simp [Machine.isCoordinateOrCenter, hname]
  | _ => trivial

namespace Exec

variable {programs : Table Program} {call : Program → Exec Unit} {program : Program}
  {line : Nat} {r s : Run}

/-- No axis has moved and the frame is the same, also as far as the block has begun one. -/
structure Rests (r s : Run) : Prop where
  machine : s.state.machine = r.state.machine
  frame : s.state.frame = r.state.frame
  framing : s.control.framing = r.control.framing
  canonical : ∀ name, s.state.scope.canonical name = r.state.scope.canonical name
  axes : ∀ axis, r.state.machine.isCoordinate axis = true →
    s.state.scope.get? axis = r.state.scope.get? axis

theorem rests_passage : Passage Rests where
  refl _ := ⟨rfl, rfl, rfl, fun _ => rfl, fun _ _ => rfl⟩
  trans h h' :=
    { machine := h'.machine.trans h.machine
      frame := h'.frame.trans h.frame
      framing := h'.framing.trans h.framing
      canonical := fun name => (h'.canonical name).trans (h.canonical name)
      axes := fun axis ha => (h'.axes axis (h.machine ▸ ha)).trans (h.axes axis ha) }

theorem rests_of_scope (hm : s.state.machine = r.state.machine)
    (hf : s.state.frame = r.state.frame) (hscope : s.state.scope = r.state.scope)
    (hframing : s.control.framing = r.control.framing) : Rests r s :=
  ⟨hm, hf, hframing, fun _ => by rw [hscope], fun _ _ => by rw [hscope]⟩

theorem rests_set {name : String}
    (hname : ∀ axis, r.state.machine.isCoordinate axis = true →
      r.state.scope.canonical name ≠ r.state.scope.canonical axis) (x : Float) :
    Rests r { r with state := r.state.mapScope (·.set name x) } where
  machine := rfl
  frame := rfl
  framing := rfl
  canonical _ := rfl
  axes axis ha := by
    have hset := Scope.get?_set r.state.scope name axis x
    rwa [if_neg (hname axis ha).symm] at hset

theorem assign_rests {name : String} {fields : Option Slots} {value : Expr}
    (hf : r.control.framing = false)
    (hn : (Statement.assign name fields value).NamesAxes r.state.machine r.state.scope) :
    Leads Rests (assign line name value) r := by
  refine leads_get (rests_passage.orFail_bind (fun x _ => ?_))
  simp only [hf, Bool.false_eq_true, if_false]
  refine leads_ite (fun _ => ?_) (fun _ => leads_ite (fun _ => ?_) (fun hother => ?_))
  · exact leads_modify (rests_of_scope rfl rfl rfl rfl)
  · exact leads_get (leads_modify (rests_of_scope rfl rfl rfl rfl))
  · exact leads_modify (rests_set (fun axis ha hc => hother (hn axis ha hc)) x)

theorem gcode_rests (id : Nat) (args : Option (List Expr)) : Leads Rests (gcode id args) r :=
  leads_gcode (fun _ _ _ => rests_of_scope rfl rfl rfl rfl) (rests_of_scope rfl rfl rfl rfl)
    (rests_of_scope rfl rfl rfl rfl)

theorem mcode_rests (id : Nat) : Leads Rests (mcode id) r :=
  leads_mcode (rests_of_scope rfl rfl rfl rfl) (fun _ => rests_of_scope rfl rfl rfl rfl)
    (rests_of_scope rfl rfl rfl rfl)

theorem statement_rests {st : Statement} (hf : r.control.framing = false)
    (hcall : st.callee? programs = none) (hd : ∀ d, st ≠ .declare d)
    (hframe : st.isExecuted r.control.branches = true → st.beginsFrame = false)
    (hn : st.NamesAxes r.state.machine r.state.scope) :
    Leads Rests (statement programs call program line st) r := by
  have hP := rests_passage
  cases st with
  | flow f => exact hP.flow_at (fun _ => rests_of_scope rfl rfl rfl rfl)
  | declare d => exact absurd rfl (hd d)
  | assign name fields value => exact hP.unlessSkipping_at (fun _ => assign_rests hf hn)
  | gcode id args => exact hP.unlessSkipping_at (fun _ => gcode_rests id args)
  | mcode id => exact hP.unlessSkipping_at (fun _ => mcode_rests id)
  | jump direction target =>
    exact hP.unlessSkipping_at (fun _ => hP.jump_at (fun _ => rests_of_scope rfl rfl rfl rfl))
  | instruction name args =>
    refine hP.unlessSkipping_at (fun hskip => ?_)
    have hnone : frameInstruction? name = none := by
      simpa [Statement.beginsFrame] using hframe (Statement.isExecuted_of_not_skipping hskip _)
    refine hP.instruction_at ?_ ?_ (rests_of_scope rfl rfl rfl rfl)
    · intro replace hreplace
      rw [hnone] at hreplace
      cases hreplace
    · intro callee _ hfind hargs
      simp [Statement.callee?, hnone, hargs, hfind] at hcall

theorem Rests.namesAxes (h : Rests r s) {st : Statement}
    (hn : st.NamesAxes r.state.machine r.state.scope) :
    st.NamesAxes s.state.machine s.state.scope := by
  cases st with
  | assign name fields value =>
    intro axis ha hc
    rw [h.machine] at ha ⊢
    rw [h.canonical, h.canonical] at hc
    exact hn axis ha hc
  | _ => trivial

theorem statements_rest {list : List Statement} (hf : r.control.framing = false)
    (hcalls : ∀ st ∈ list, st.callee? programs = none) (hd : ∀ d, .declare d ∉ list)
    (hn : ∀ st ∈ list, st.NamesAxes r.state.machine r.state.scope)
    (hframe : ∀ e ∈ executed programs call program line list r,
      e.statement.beginsFrame = false) :
    Leads Rests (statements programs call program line list) r := by
  induction list generalizing r with
  | nil => exact rests_passage.refl r
  | cons st rest ih =>
    refine leads_get (leads_ite (fun _ => rests_passage.refl r) (fun hgo => ?_))
    rw [executed_cons st rest (Bool.eq_false_iff.mpr hgo)] at hframe
    have hst : Leads Rests (statement programs call program line st) r :=
      statement_rests hf (hcalls st List.mem_cons_self) (fun d h => hd d (h ▸ List.mem_cons_self))
        (fun hexec => hframe ⟨st, r⟩ (by simp [hexec])) (hn st List.mem_cons_self)
    -- What the rest executes is known only for the run that the first statement leads to.
    refine rests_passage.bind_of hst (fun _ s hx => ?_)
    have hs := hst.of_ok hx
    rw [hx] at hframe
    apply ih
    · exact hs.framing.trans hf
    · exact fun st' h => hcalls st' (List.mem_cons_of_mem st h)
    · exact fun d h => hd d (List.mem_cons_of_mem st h)
    · exact fun st' h => hs.namesAxes (hn st' (List.mem_cons_of_mem st h))
    · exact fun e he => hframe e (List.mem_append_right _ he)

/-- A block that fails has moved no axis and has not changed the frame, unless one of its
instructions for a frame has been executed. Calls and declarations are excepted, and so are
assignments to an axis by another name. -/
theorem failed_block_rests (programs : Table Program) (call : Program → Exec Unit)
    (program : Program) (b : Block) (r s : Run) (halt : Halt)
    (hbegin : r.control.framing = false)
    (hcalls : ∀ st ∈ b.statements, st.callee? programs = none)
    (hdeclare : ∀ d, .declare d ∉ b.statements)
    (hnames : ∀ st ∈ b.statements, st.NamesAxes r.state.machine r.state.scope)
    (h : block programs call program b r = .error halt s) :
    (∃ e ∈ executed programs call program b.line b.statements r,
      e.statement.beginsFrame = true) ∨
    s.state.frame = r.state.frame ∧
      ∀ axis, r.state.machine.isCoordinate axis = true →
        s.state.scope.get? axis = r.state.scope.get? axis := by
  by_cases hframe : ∃ e ∈ executed programs call program b.line b.statements r,
      e.statement.beginsFrame = true
  · exact .inl hframe
  · have hrests : Leads Rests (statements programs call program b.line b.statements) r :=
      statements_rest hbegin hcalls hdeclare hnames
        (fun e he => Bool.eq_false_iff.mpr (fun hb => hframe ⟨e, he, hb⟩))
    rw [block_run] at h
    split at h
    · cases h
    · rename_i hx
      cases h
      have hs := hrests.of_error hx
      exact .inr ⟨hs.frame, hs.axes⟩

def failingBlock : Block where
  line := 1
  statements := [.assign "X" none (.int 7), .assign "R1" none (.var "R9" none),
    .instruction "TRANS" none]

theorem failed_block_rests_shifted : ∃ halt s,
    block [] (fun _ => pure ()) ⟨[]⟩ failingBlock shifted = .error halt s ∧
      s.state.frame = shifted.state.frame ∧ s.state.scope.get? "X" = some 5.0 := by
  have hplain : shifted.state.scope.Plain :=
    Scope.plain_set (Scope.plain_set (by simp [Scope.Plain, Scope.layers]) "X" 5.0) "Y" 5.0
  have h := failed_block_rests [] (fun _ => pure ()) ⟨[]⟩ failingBlock shifted _ _ rfl
    (by simp [failingBlock, Statement.callee?, Table.find?]) (by simp [failingBlock])
    (fun st _ => Statement.namesAxes_of_plain _ hplain st) rfl
  refine ⟨_, _, rfl, ?_⟩
  rcases h with ⟨e, he, hframe⟩ | ⟨hframe, haxes⟩
  · have hlist : (executed [] (fun _ => pure ()) ⟨[]⟩ failingBlock.line failingBlock.statements
        shifted).all (fun e => !e.statement.beginsFrame) = true := rfl
    simpa [hframe] using List.all_eq_true.mp hlist e he
  · exact ⟨hframe, (haxes "X" rfl).trans (by decide +kernel)⟩

def renamed : Run where
  state := { scope := (({} : Scope).set "X" 5.0).setAlias "FOO" "X" }

/-- An error behind an instruction for a frame leaves the coordinates outside the frame, and an
alias of an axis is stored before the error. -/
theorem failed_block_moves :
    (∃ halt s, block [] (fun _ => pure ()) ⟨[]⟩
        { line := 1,
          statements := [.instruction "ATRANS" none, .assign "Y" none (.var "R9" none)] }
        shifted = .error halt s ∧
      shifted.state.scope.get? "X" = some 5.0 ∧ s.state.scope.get? "X" = some 15.0 ∧
      s.state.frame = shifted.state.frame) ∧
    ∃ halt s, block [] (fun _ => pure ()) ⟨[]⟩
        { line := 1,
          statements := [.assign "FOO" none (.int 7), .assign "R1" none (.var "R9" none)] }
        renamed = .error halt s ∧
      renamed.state.scope.get? "X" = some 5.0 ∧ s.state.scope.get? "X" = some 7.0 :=
  ⟨⟨_, _, rfl, by decide +kernel, by decide +kernel, by decide +kernel⟩,
    _, _, rfl, by decide +kernel, by decide +kernel⟩

end Exec

end PartProgram
