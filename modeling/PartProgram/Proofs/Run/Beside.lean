import PartProgram.Proofs.Run.Axes
import PartProgram.Proofs.Run.Like
import PartProgram.Proofs.Run.Structured.Tree

/-!
# Two runs side by side

Two programs that look the same in a view are run from the same state. They go
the same way: the state and all that is under way stay the same, and what is
reported looks the same. The runs may be given different numbers of steps; the
one with fewer may then stop short of the other.
-/

set_option autoImplicit false

namespace PartProgram

namespace Exec

variable {α : Type} {v : View} {short short' : Prop} {r s : Run}

theorem beside_flow (line : Nat) {f f' : Flow} (h : f.rename v.name = f'.rename v.name) :
    Beside v short short' (flow line f) (flow line f') := by
  apply beside_get
  intro r s hlike
  rw [hlike.state, hlike.control]
  apply (beside_orFail line (View.agrees_step _ _ h)).bind
  exact fun _ => beside_modifyControl rfl

theorem beside_declareVariable (line : Nat) (zero : Expr) {w w' : DeclaredVariable}
    (h : w.rename v.name = w'.rename v.name) :
    Beside v short short' (declareVariable line zero w) (declareVariable line zero w') := by
  have hname : v.name w.name = v.name w'.name := congrArg DeclaredVariable.name h
  have hinitial : w.initial.map (Expr.rename v.name) = w'.initial.map (Expr.rename v.name) :=
    congrArg DeclaredVariable.initial h
  have hvalue : (w.initial.getD zero).rename v.name = (w'.initial.getD zero).rename v.name := by
    rw [← Option.getD_map (Expr.rename v.name), hinitial, Option.getD_map]
  apply beside_get
  intro r s hlike
  rw [hlike.state]
  apply (beside_orFail line (View.agrees_assigned _ _ hname hvalue)).bind
  intro x
  apply beside_modifyState
  funext state
  rw [State.mapScope, Scope.set_congr (v.upper_of_name hname), State.mapScope]

theorem beside_declare (line : Nat) {d d' : Declaration}
    (h : d.rename v.name = d'.rename v.name) :
    Beside v short short' (declare line d) (declare line d') := by
  have htype : (d.rename v.name).type = (d'.rename v.name).type := congrArg Declaration.type h
  change d.type = d'.type at htype
  have hdeclared : d.declared.map (DeclaredVariable.rename v.name) =
      d'.declared.map (DeclaredVariable.rename v.name) := congrArg Declaration.declared h
  have hall : ∀ zero : Expr, Beside v short short'
      (d.declared.forM (declareVariable line zero)) (d'.declared.forM (declareVariable line zero)) :=
    fun zero => beside_forM (fun _ _ hw => beside_declareVariable line zero hw) hdeclared
  unfold declare
  rw [htype]
  split
  · exact hall _
  · exact hall _
  · exact beside_pure ()

theorem beside_collect (temporary : Bool) {a b : String} (hname : v.name a = v.name b)
    (value : Float) :
    Beside v short short' (collect temporary a value) (collect temporary b value) := by
  apply beside_get
  intro r s hlike
  simp only [hlike.state, Scope.canonical_congr (v.upper_of_name hname)]
  exact beside_modifyControl rfl

theorem beside_assign (line : Nat) {a b : String} (hname : v.name a = v.name b) {e e' : Expr}
    (h : e.rename v.name = e'.rename v.name) :
    Beside v short short' (assign line a e) (assign line b e') := by
  have hupper := v.upper_of_name hname
  apply beside_get
  intro r s hlike
  rw [hlike.state, hlike.control]
  apply (beside_orFail line (View.agrees_assigned _ _ hname h)).bind
  intro x
  simp only [Machine.isTemporary_congr hupper, Machine.isCoordinateOrCenter_congr hupper,
    sameLetters_congr hupper]
  apply beside_ite
  · intro _
    apply beside_modifyState
    funext state
    rw [Scope.set_congr hupper]
  · intro _
    apply beside_ite
    · exact fun _ => beside_modifyControl rfl
    · intro _
      apply beside_ite
      · exact fun _ => beside_collect _ hname x
      · intro _
        apply beside_modifyState
        funext state
        rw [State.mapScope, Scope.set_congr hupper, State.mapScope]

theorem beside_gcode (id : Nat) {args args' : Option (List Expr)}
    (h : args.map (List.map (Expr.rename v.name)) = args'.map (List.map (Expr.rename v.name))) :
    Beside v short short' (gcode id args) (gcode id args') := by
  have hseen : (Event.gcode id args).seen v = (Event.gcode id args').seen v := by
    simp [Event.seen, Event.isPlace, Event.rename, h]
  unfold gcode
  split
  case h_5 => exact beside_modifyControl rfl
  case h_10 => exact beside_emit hseen
  all_goals exact beside_modifyState rfl

theorem beside_mcode (id : Nat) : Beside v short short' (mcode id) (mcode id) := by
  apply beside_ite
  · exact fun _ => (beside_modifyControl rfl).bind (fun _ => beside_emit rfl)
  · intro _
    apply beside_ite
    · exact fun _ => beside_modifyControl rfl
    · exact fun _ => beside_emit rfl

theorem beside_jump {p p' : Program} (hp : p.rename v.name = p'.rename v.name) (line : Nat)
    {t t' : Option Expr} (h : t.map (Expr.rename v.name) = t'.map (Expr.rename v.name)) :
    Beside v short short' (jump p line t) (jump p' line t') :=
  (beside_orFail line (View.agrees_target hp h)).bind (fun _ => beside_modifyControl rfl)

theorem beside_beginFrame (replace : Bool) :
    Beside v short short' (beginFrame replace) (beginFrame replace) :=
  (beside_modifyState rfl).bind (fun _ => beside_modifyControl rfl)

theorem beside_adaptExcept (line : Nat) {a b : String} (hname : v.name a = v.name b)
    {x y : Exec α} (h : Beside v short short' x y) :
    Beside v short short' (EStateM.adaptExcept (Halt.within line a) x)
      (EStateM.adaptExcept (Halt.within line b) y) := by
  intro r s hlike
  simp only [EStateM.adaptExcept]
  rcases h r s hlike with ⟨h, t, hx⟩ | ⟨h, t, hy⟩ | ⟨value, r, s, hx, hy, hlike⟩ |
    ⟨halt, halt', r, s, hx, hy, hhalt, hlike⟩
  · exact .inl ⟨h, t, by rw [hx]; rfl⟩
  · exact .inr (.inl ⟨h, t, by rw [hy]; rfl⟩)
  · rw [hx, hy]
    exact matches_ok hlike
  · rw [hx, hy]
    exact matches_error (Halt.seen_within line hname hhalt) hlike

def CallsBeside (v : View) (short short' : Prop) (call call' : Program → Exec Unit) : Prop :=
  ∀ p p' : Program, p.rename v.name = p'.rename v.name →
    Beside v short short' (call p) (call' p')

variable {programs programs' : Table Program} {call call' : Program → Exec Unit}
  {program program' : Program}

theorem beside_callSubprogram (hcall : CallsBeside v short short' call call') (line : Nat)
    {a b : String} (hname : v.name a = v.name b) {p p' : Program}
    (hp : p.rename v.name = p'.rename v.name) :
    Beside v short short' (callSubprogram call line a p) (callSubprogram call' line b p') := by
  have hlength := Program.length_of_rename hp
  have henter : (Event.enter a p.blocks.length).seen v = (Event.enter b p'.blocks.length).seen v := by
    simp [Event.seen, Event.isPlace, Event.rename, hname, hlength]
  have hleave : (Event.leave a p.blocks.length).seen v = (Event.leave b p'.blocks.length).seen v := by
    simp [Event.seen, Event.isPlace, Event.rename, hname, hlength]
  apply (beside_emit henter).bind
  intro _
  apply (beside_adaptExcept line hname (hcall p p' hp)).bind
  intro _
  apply beside_get
  intro r s hlike
  rw [hlike.control]
  exact beside_ite (fun _ => beside_emit hleave) (fun _ => beside_pure ())

def TablesLike (v : View) (programs programs' : Table Program) : Prop :=
  ∀ key, (programs.find? key).map (Program.rename v.name) =
    (programs'.find? key).map (Program.rename v.name)

theorem beside_instruction (hprograms : TablesLike v programs programs')
    (hcall : CallsBeside v short short' call call') (line : Nat) {a b : String}
    (hname : v.name a = v.name b) {args args' : Option Slots}
    (hargs : args.map (Expr.renameSlots v.name) = args'.map (Expr.renameSlots v.name)) :
    Beside v short short' (instruction programs call line a args)
      (instruction programs' call' line b args') := by
  have hupper := v.upper_of_name hname
  have hframe : frameInstruction? a = frameInstruction? b := ofWord_congr hupper _
  have hslots : ∀ slots : Option Slots,
      ((slots.map (Expr.renameSlots v.name)).getD []).isEmpty = (slots.getD []).isEmpty := by
    intro slots
    cases slots <;> simp [Expr.renameSlots_eq]
  have hempty : (args.getD []).isEmpty = (args'.getD []).isEmpty := by
    rw [← hslots args, hargs, hslots]
  unfold instruction
  rw [hframe]
  split
  · exact beside_beginFrame _
  · have hfind := hprograms (upper a)
    rw [hupper] at hfind ⊢
    cases hp : programs.find? (upper b) with
    | none =>
      have hp' : programs'.find? (upper b) = none := by simpa [hp] using hfind.symm
      simp only [hp']
      apply beside_emit
      simp [Event.seen, Event.isPlace, Event.rename, hname, hargs]
    | some p =>
      rw [hp] at hfind
      obtain ⟨p', hp', hrename⟩ := Option.map_eq_some_iff.mp hfind.symm
      simp only [hp', hempty]
      apply beside_ite
      · exact fun _ => beside_callSubprogram hcall line hname hrename.symm
      · exact fun _ => beside_orFail line (congrArg Except.error (v.unexpectedArguments hname))

/-- Statements that look the same. Of the programs around them only the targets of jumps
matter. -/
theorem beside_statement (hprograms : TablesLike v programs programs')
    (hcall : CallsBeside v short short' call call') (line : Nat) {st st' : Statement}
    (hjump : st.isJump = true → program.rename v.name = program'.rename v.name)
    (h : st.rename v.name = st'.rename v.name) :
    Beside v short short' (statement programs call program line st)
      (statement programs' call' program' line st') := by
  cases st <;> cases st' <;> simp only [Statement.rename, reduceCtorEq, Statement.assign.injEq,
    Statement.declare.injEq, Statement.gcode.injEq, Statement.mcode.injEq, Statement.jump.injEq,
    Statement.instruction.injEq, Statement.flow.injEq] at h
  case assign.assign => exact beside_unlessSkipping (beside_assign line h.1 h.2.2)
  case declare.declare => exact beside_unlessSkipping (beside_declare line h)
  case gcode.gcode =>
    obtain ⟨rfl, hargs⟩ := h
    exact beside_unlessSkipping (beside_gcode _ hargs)
  case mcode.mcode =>
    subst h
    exact beside_unlessSkipping (beside_mcode _)
  case jump.jump => exact beside_unlessSkipping (beside_jump (hjump rfl) line h.2)
  case instruction.instruction =>
    exact beside_unlessSkipping (beside_instruction hprograms hcall line h.1 h.2)
  case flow.flow => exact beside_flow line h

theorem beside_statements (hprograms : TablesLike v programs programs')
    (hcall : CallsBeside v short short' call call') (line : Nat) {list list' : List Statement}
    (hjump : ∀ st ∈ list, st.isJump = true → program.rename v.name = program'.rename v.name)
    (h : list.map (Statement.rename v.name) = list'.map (Statement.rename v.name)) :
    Beside v short short' (statements programs call program line list)
      (statements programs' call' program' line list') := by
  induction list generalizing list' with
  | nil =>
    cases List.map_eq_nil_iff.mp h.symm
    exact beside_pure ()
  | cons st list ih =>
    cases list' with
    | nil => cases h
    | cons st' list' =>
      obtain ⟨hst, hrest⟩ := List.cons.inj h
      apply beside_get
      intro r s hlike
      rw [hlike.control]
      apply beside_ite
      · exact fun _ => beside_pure ()
      · intro _
        apply (beside_statement hprograms hcall line (hjump st List.mem_cons_self) hst).bind
        exact fun _ => ih (fun st' hmem => hjump st' (List.mem_cons_of_mem st hmem)) hrest

theorem beside_block (hprograms : TablesLike v programs programs')
    (hcall : CallsBeside v short short' call call') {b b' : Block}
    (hjump : ∀ st ∈ b.statements, st.isJump = true →
      program.rename v.name = program'.rename v.name)
    (h : b.rename v.name = b'.rename v.name) :
    Beside v short short' (block programs call program b) (block programs' call' program' b') := by
  have hline : (b.rename v.name).line = (b'.rename v.name).line := congrArg Block.line h
  change b.line = b'.line at hline
  have hstatements : b.statements.map (Statement.rename v.name) =
      b'.statements.map (Statement.rename v.name) := congrArg Block.statements h
  rw [block, block, hline]
  apply (beside_statements hprograms hcall b'.line hjump hstatements).bind
  exact fun _ _ _ hlike => matches_ok hlike.endBlock

/-- Programs that look the same go the same way, one with more steps than the other maybe. -/
theorem beside_runFrom (hprograms : TablesLike v programs programs') (steps steps' : Nat)
    (h : program.rename v.name = program'.rename v.name) (index : Nat) :
    Beside v (steps < steps') (steps' < steps) (runFrom programs steps program index)
      (runFrom programs' steps' program' index) := by
  induction steps generalizing steps' program program' index with
  | zero =>
    intro r s hlike
    cases steps' with
    | zero => exact matches_error rfl hlike
    | succ steps' => exact .inl ⟨Nat.succ_pos _, r, rfl⟩
  | succ steps ih =>
    cases steps' with
    | zero => exact fun r s _ => .inr (.inl ⟨Nat.succ_pos _, s, rfl⟩)
    | succ steps' =>
      intro r s hlike
      rw [Nat.succ_lt_succ_iff, Nat.succ_lt_succ_iff]
      have hblocks : (program.blocks[index]?).map (Block.rename v.name) =
          (program'.blocks[index]?).map (Block.rename v.name) := by
        rw [← List.getElem?_map, ← List.getElem?_map]
        exact congrArg (fun p : Program => p.blocks[index]?) h
      cases hb : program.blocks[index]? with
      | none =>
        have hb' : program'.blocks[index]? = none := by simpa [hb] using hblocks.symm
        rw [runFrom_none hb, runFrom_none hb']
        exact matches_ok hlike
      | some b =>
        rw [hb] at hblocks
        obtain ⟨b', hb', hrename⟩ := Option.map_eq_some_iff.mp hblocks.symm
        have hline : (b'.rename v.name).line = (b.rename v.name).line := congrArg Block.line hrename
        change b'.line = b.line at hline
        have hentered : (r.report (.block index b.line program.blocks.length)).Like v
            (s.report (.block index b'.line program'.blocks.length)) := by
          rw [hline, Program.length_of_rename h]
          exact hlike.report rfl
        have hcall : CallsBeside v (steps < steps') (steps' < steps)
            (fun callee => runFrom programs steps callee 0)
            (fun callee => runFrom programs' steps' callee 0) :=
          fun p p' hp => ih steps' hp 0
        rw [runFrom_some hb, runFrom_some hb']
        rcases beside_block hprograms hcall (fun _ _ _ => h) hrename.symm _ _ hentered with
          ⟨hshort, t, hx⟩ | ⟨hshort, t, hy⟩ | ⟨_, r, s, hx, hy, hlike⟩ |
          ⟨halt, halt', r, s, hx, hy, hhalt, hlike⟩
        · exact .inl ⟨hshort, t, by rw [hx]⟩
        · exact .inr (.inl ⟨hshort, t, by rw [hy]⟩)
        · simp only [hx, hy, hlike.control]
          split
          · exact matches_ok hlike
          · split
            · exact ih steps' h _ _ _ hlike.landed
            · exact matches_ok hlike.landed
        · rw [hx, hy]
          exact matches_error hhalt hlike

end Exec

end PartProgram
