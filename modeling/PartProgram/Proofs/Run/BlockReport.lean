import PartProgram.Proofs.Run.AxisWords

/-!
# What a block reports

A block without calls reports the remarks of its statements as they are executed, and the end of
the program among them. Behind them come at most one dwell and at most one motion. There is a
dwell where a code for it was executed, and a motion where a coordinate was given, unless it was a
parameter of a frame or the time of the dwell. A block that fails reports neither.
-/

set_option autoImplicit false

namespace PartProgram

namespace Statement

def report? (programs : Table Program) : Statement → Option Event
  | gcode id args =>
    if id ∈ [0, 1, 2, 3, 4, 70, 71, 90, 91] then none else some (.gcode id args)
  | mcode id =>
    if id = 2 ∨ id = 30 then some .ended else if id = 17 then none else some (.mcode id)
  | instruction name args =>
    if (frameInstruction? name).isSome || (programs.find? (upper name)).isSome then none
    else some (.instruction name args)
  | _ => none

def isDwell : Statement → Bool
  | gcode id _ => id == 4
  | _ => false

def givesFeed : Statement → Bool
  | assign name _ _ => sameLetters name feedName
  | _ => false

/-- A statement of the list gives a coordinate to a motion: it does not set a parameter of a
frame that an earlier one has begun, nor the time of an earlier dwell. -/
def Move (m : Machine) (list : List Statement) : Prop :=
  ∃ before st after, list = before ++ st :: after ∧ st.givesCoordinate m = true ∧
    (∀ other ∈ before, other.beginsFrame = false) ∧
    (st.givesFeed = true → ∀ other ∈ before, other.isDwell = false)

theorem not_move_nil (m : Machine) : ¬ Move m [] := by
  rintro ⟨before, st, after, h, -⟩
  simp at h

theorem move_append {m : Machine} {list : List Statement} {st : Statement} :
    Move m (list ++ [st]) ↔ Move m list ∨
      st.givesCoordinate m = true ∧ (∀ other ∈ list, other.beginsFrame = false) ∧
        (st.givesFeed = true → ∀ other ∈ list, other.isDwell = false) := by
  constructor
  · rintro ⟨before, word, after, hlist, h⟩
    rcases List.eq_nil_or_concat after with rfl | ⟨after, last, rfl⟩
    · obtain ⟨rfl, ⟨⟩⟩ := List.append_inj' hlist rfl
      exact .inr h
    · rw [List.concat_eq_append, ← List.cons_append, ← List.append_assoc] at hlist
      obtain ⟨rfl, -⟩ := List.append_inj' hlist rfl
      exact .inl ⟨before, word, after, rfl, h⟩
  · rintro (⟨before, word, after, rfl, h⟩ | h)
    · exact ⟨before, word, after ++ [st], by simp, h⟩
    · exact ⟨list, st, [], rfl, h⟩

end Statement

namespace Exec

variable {programs : Table Program} {call : Program → Exec Unit} {program : Program}
  {line : Nat} {r s t : Run}

/-- What a statement that is executed does to all that its block reports. -/
structure Effect (programs : Table Program) (st : Statement) (r s : Run) : Prop where
  machine : s.state.machine = r.state.machine
  events : s.events.toList = r.events.toList ++ (st.report? programs).toList
  waiting : s.control.waiting = (r.control.waiting || st.isDwell)
  framing : s.control.framing = (r.control.framing || st.beginsFrame)
  motion : s.control.motion.isSome = (r.control.motion.isSome ||
    (st.givesCoordinate r.state.machine && !r.control.framing &&
      !(r.control.waiting && st.givesFeed)))

theorem Effect.quiet {st : Statement} (hreport : st.report? programs = none)
    (hdwell : st.isDwell = false) (hframe : st.beginsFrame = false)
    (hm : s.state.machine = r.state.machine) (he : s.events = r.events)
    (hw : s.control.waiting = r.control.waiting) (hf : s.control.framing = r.control.framing)
    (hmotion : s.control.motion.isSome = (r.control.motion.isSome ||
      (st.givesCoordinate r.state.machine && !r.control.framing &&
        !(r.control.waiting && st.givesFeed)))) : Effect programs st r s :=
  ⟨hm, by simp [hreport, he], by simp [hdwell, hw], by simp [hframe, hf], hmotion⟩

theorem Effect.plain {st : Statement} (hreport : st.report? programs = none)
    (hdwell : st.isDwell = false) (hframe : st.beginsFrame = false)
    (hcoordinate : st.givesCoordinate r.state.machine = false)
    (hm : s.state.machine = r.state.machine) (he : s.events = r.events)
    (hw : s.control.waiting = r.control.waiting) (hf : s.control.framing = r.control.framing)
    (hmotion : s.control.motion = r.control.motion) : Effect programs st r s :=
  .quiet hreport hdwell hframe hm he hw hf (by simp [hcoordinate, hmotion])

theorem Effect.report {st : Statement} {e : Event} (hreport : st.report? programs = some e)
    (hdwell : st.isDwell = false) (hframe : st.beginsFrame = false)
    (hcoordinate : st.givesCoordinate r.state.machine = false) :
    Effect programs st r (r.report e) :=
  ⟨rfl, by simp [hreport], by simp [hdwell, Run.report], by simp [hframe, Run.report],
    by simp [hcoordinate, Run.report]⟩

/-- The statement has its effect, or it fails: then it reports nothing, and it is none that would
report something. -/
def Does (programs : Table Program) (st : Statement) (x : Exec Unit) (r : Run) : Prop :=
  match x r with
  | .ok _ s => Effect programs st r s
  | .error _ s => s.events = r.events ∧ st.report? programs = none

theorem does_orFail {α : Type} {st : Statement} {result : Except RunCause α}
    {k : α → Exec Unit} (hreport : st.report? programs = none)
    (h : ∀ a, Does programs st (k a) r) : Does programs st (orFail line result >>= k) r := by
  cases result with
  | ok a => exact h a
  | error cause => exact ⟨rfl, hreport⟩

theorem flow_does (f : Flow) : Does programs (.flow f) (flow line f) r :=
  does_orFail rfl (fun _ => .plain rfl rfl rfl rfl rfl rfl rfl rfl rfl)

def Silent (r s : Run) : Prop :=
  s.state.machine = r.state.machine ∧ s.control = r.control ∧ s.events = r.events

theorem silent_passage : Passage Silent where
  refl _ := ⟨rfl, rfl, rfl⟩
  trans h h' := ⟨h'.1.trans h.1, h'.2.1.trans h.2.1, h'.2.2.trans h.2.2⟩

theorem silent_declare (line : Nat) (d : Declaration) : Along Silent (declare line d) := by
  have hv : ∀ zero v, Along Silent (declareVariable line zero v) := by
    intro zero v r
    exact leads_get (silent_passage.orFail_bind (fun _ _ => leads_modify ⟨rfl, rfl, rfl⟩))
  unfold declare
  split
  · exact silent_passage.forM d.declared (fun v _ => hv _ v)
  · exact silent_passage.forM d.declared (fun v _ => hv _ v)
  · exact silent_passage.pure ()

theorem declare_does (d : Declaration) : Does programs (.declare d) (declare line d) r := by
  rw [Does]
  split
  · rename_i hx
    obtain ⟨hm, hc, he⟩ := (silent_declare line d r).of_ok hx
    exact .plain rfl rfl rfl rfl hm he (by rw [hc]) (by rw [hc]) (by rw [hc])
  · rename_i hx
    exact ⟨((silent_declare line d r).of_error hx).2.2, rfl⟩

theorem assign_does (name : String) (fields : Option Slots) (value : Expr) :
    Does programs (.assign name fields value) (assign line name value) r := by
  refine does_orFail rfl (fun x => ?_)
  by_cases hf : r.control.framing = true
  · rw [if_pos hf]
    exact .quiet rfl rfl rfl rfl rfl rfl rfl (by simp [hf])
  rw [if_neg hf]
  by_cases hw : (r.control.waiting && sameLetters name feedName) = true
  · rw [if_pos hw]
    exact .quiet rfl rfl rfl rfl rfl rfl rfl (by simp [Statement.givesFeed, hw])
  rw [if_neg hw]
  by_cases hn : (r.state.machine.isTemporary name ||
      r.state.machine.isCoordinateOrCenter name) = true
  · rw [if_pos hn]
    exact .quiet rfl rfl rfl rfl rfl rfl rfl
      (by simp [Statement.givesCoordinate, Statement.givesFeed, hf, hw, hn])
  · rw [if_neg hn]
    exact .quiet rfl rfl rfl rfl rfl rfl rfl (by simp [Statement.givesCoordinate, hn])

theorem gcode_does (id : Nat) (args : Option (List Expr)) :
    Does programs (.gcode id args) (gcode id args) r := by
  unfold gcode
  split
  case h_5 =>
    exact ⟨rfl, by simp [Statement.report?], by simp [Statement.isDwell],
      by simp [Statement.beginsFrame], by simp [Statement.givesCoordinate]⟩
  case h_10 =>
    have hid : id ∉ [0, 1, 2, 3, 4, 70, 71, 90, 91] := by
      simp only [List.mem_cons, List.not_mem_nil, or_false]
      grind
    have hdwell : id ≠ 4 := by assumption
    exact .report (by rw [Statement.report?, if_neg hid]) (by simp [Statement.isDwell, hdwell])
      rfl rfl
  all_goals exact .plain rfl rfl rfl rfl rfl rfl rfl rfl rfl

theorem mcode_does (id : Nat) : Does programs (.mcode id) (mcode id) r := by
  by_cases hend : id = 2 ∨ id = 30
  · rw [mcode, if_pos (by simpa using hend)]
    exact ⟨rfl, by simp [Statement.report?, hend], by simp [Statement.isDwell],
      by simp [Statement.beginsFrame], by simp [Statement.givesCoordinate]⟩
  · rw [mcode, if_neg (by simpa using hend)]
    by_cases hreturn : id = 17
    · rw [if_pos hreturn]
      exact .plain (by simp [Statement.report?, hreturn]) rfl rfl rfl rfl rfl rfl rfl rfl
    · rw [if_neg hreturn]
      exact .report (by simp [Statement.report?, hend, hreturn]) rfl rfl rfl

theorem instruction_does {name : String} {args : Option Slots}
    (hcall : (Statement.instruction name args).callee? programs = none) :
    Does programs (.instruction name args) (instruction programs call line name args) r := by
  unfold instruction
  cases hframe : frameInstruction? name with
  | some replace =>
    exact ⟨by cases replace <;> rfl, by simp [Statement.report?, hframe],
      by simp [Statement.isDwell], by simp [Statement.beginsFrame, hframe],
      by simp [Statement.givesCoordinate]⟩
  | none =>
    cases hfind : programs.find? (upper name) with
    | none =>
      exact .report (by simp [Statement.report?, hframe, hfind]) rfl
        (by simp [Statement.beginsFrame, hframe]) rfl
    | some callee =>
      have hargs : ¬(args.getD []).isEmpty = true := by
        intro hargs
        simp [Statement.callee?, hframe, hargs, hfind] at hcall
      simp only [if_neg hargs]
      exact ⟨rfl, by simp [Statement.report?, hfind]⟩

theorem statement_does {st : Statement} (hcall : st.callee? programs = none)
    (hexec : st.isExecuted r.control.branches = true) :
    Does programs st (statement programs call program line st) r := by
  have hrun : ∀ body, skipping r.control.branches = false → Does programs st body r →
      Does programs st (unlessSkipping body) r := by
    intro body hskip h
    rwa [Does, unlessSkipping_run body hskip]
  have hgo : (∀ f, st ≠ .flow f) → skipping r.control.branches = false := by
    intro hflow
    cases st with
    | flow f => exact absurd rfl (hflow f)
    | _ => simpa [Statement.isExecuted] using hexec
  cases st with
  | flow f => exact flow_does f
  | declare d => exact hrun _ (hgo (by simp)) (declare_does d)
  | assign name fields value => exact hrun _ (hgo (by simp)) (assign_does name fields value)
  | gcode id args => exact hrun _ (hgo (by simp)) (gcode_does id args)
  | mcode id => exact hrun _ (hgo (by simp)) (mcode_does id)
  | jump direction target =>
    exact hrun _ (hgo (by simp))
      (does_orFail rfl (fun _ => .plain rfl rfl rfl rfl rfl rfl rfl rfl rfl))
  | instruction name args => exact hrun _ (hgo (by simp)) (instruction_does hcall)

theorem statement_unexecuted {st : Statement} (hexec : st.isExecuted r.control.branches = false) :
    statement programs call program line st r = .ok () r := by
  cases st with
  | flow f => cases hexec
  | _ => exact statement_skipped line rfl (by simpa [Statement.isExecuted] using hexec)

/-- What a block has begun and reported when it has executed some statements. -/
structure Begun (programs : Table Program) (r : Run) (made : List Statement) (s : Run) : Prop where
  machine : s.state.machine = r.state.machine
  events : s.events.toList = r.events.toList ++ made.filterMap (Statement.report? programs)
  waiting : s.control.waiting = made.any Statement.isDwell
  framing : s.control.framing = made.any Statement.beginsFrame
  motion : s.control.motion.isSome = true ↔ Statement.Move r.state.machine made

theorem Begun.start (hdue : r.control.due = {}) : Begun programs r [] r := by
  obtain ⟨hw, hmotion, hf⟩ := Control.idle_of_due hdue
  exact ⟨rfl, by simp, hw, hf, by simp [hmotion, Statement.not_move_nil]⟩

theorem Begun.step {made : List Statement} {st : Statement} (h : Begun programs r made s)
    (hst : Effect programs st s t) : Begun programs r (made ++ [st]) t where
  machine := hst.machine.trans h.machine
  events := by
    rw [hst.events, h.events]
    simp [List.filterMap_eq_flatMap_toList]
  waiting := by simp [hst.waiting, h.waiting]
  framing := by simp [hst.framing, h.framing]
  motion := by
    rw [Statement.move_append, ← h.motion, hst.motion, h.machine, h.framing, h.waiting,
      Bool.or_eq_true, Bool.and_eq_true, Bool.and_eq_true, and_assoc]
    cases hfeed : st.givesFeed <;> simp

theorem Begun.statements {made : List Statement} {list : List Statement}
    (h : Begun programs r made s) (hcalls : ∀ st ∈ list, st.callee? programs = none) :
    let all := made ++ (executed programs call program line list s).map (·.statement)
    match Exec.statements programs call program line list s with
    | .ok _ t => Begun programs r all t
    | .error _ t =>
      t.events.toList = r.events.toList ++ all.filterMap (Statement.report? programs) := by
  induction list generalizing made s with
  | nil =>
    rw [executed, List.map_nil, List.append_nil]
    exact h
  | cons st rest ih =>
    cases hstop : s.control.stopped with
    | true =>
      rw [executed_stopped _ hstop, statements_stopped _ hstop, List.map_nil, List.append_nil]
      exact h
    | false =>
      have hcall := hcalls st List.mem_cons_self
      have hrest := fun st' h' => hcalls st' (List.mem_cons_of_mem st h')
      rw [executed_cons st rest hstop, statements_cons st rest hstop]
      cases hexec : st.isExecuted s.control.branches with
      | false =>
        rw [statement_unexecuted hexec]
        exact ih h hrest
      | true =>
        have hdoes : Does programs st (statement programs call program line st) s :=
          statement_does hcall hexec
        rw [Does] at hdoes
        cases hx : statement programs call program line st s with
        | ok a t =>
          rw [hx] at hdoes
          simpa using ih (h.step hdoes) hrest
        | error halt t =>
          rw [hx] at hdoes
          simp [hdoes.1, hdoes.2, h.events]

theorem Begun.endBlock {made : List Statement} (h : Begun programs r made s) :
    ∃ dwell motion : Option Event,
      s.endBlock.events.toList = s.events.toList ++ dwell.toList ++ motion.toList ∧
      (∀ e ∈ dwell, ∃ delay, e = .dwell delay) ∧
      (∀ e ∈ motion, ∃ start finish state, e = .motion start finish state) ∧
      (dwell.isSome = true ↔ ∃ st ∈ made, st.isDwell = true) ∧
      (motion.isSome = true ↔ Statement.Move r.state.machine made) := by
  refine ⟨if s.control.waiting then some (.dwell s.control.delay) else none,
    s.control.motion.map fun motion =>
      .motion ((s.state.commit motion).startOf motion) ((s.state.commit motion).finishOf motion)
        (s.state.commit motion), ?_, ?_, ?_, ?_, ?_⟩
  · rw [Run.endBlock_events, Run.dueEvents]
    cases s.control.waiting <;> cases s.control.motion <;> simp
  · intro e he
    cases hw : s.control.waiting <;> simp [hw] at he
    exact ⟨_, he.symm⟩
  · intro e he
    obtain ⟨motion, -, rfl⟩ := Option.map_eq_some_iff.mp he
    exact ⟨_, _, _, rfl⟩
  · rw [h.waiting, ← List.any_eq_true]
    cases made.any Statement.isDwell <;> simp
  · rw [Option.isSome_map, h.motion]

/-- What a block without calls reports behind its entry: what its statements report, in the order
in which they are executed, then the dwell if there is one, then the motion if there is one. A
block that fails reports the first only. -/
theorem block_reports (programs : Table Program) (call : Program → Exec Unit) (program : Program)
    (b : Block) (r : Run) (hdue : r.control.due = {})
    (hcalls : ∀ st ∈ b.statements, st.callee? programs = none) :
    let made := (executed programs call program b.line b.statements r).map (·.statement)
    let told := r.events.toList ++ made.filterMap (Statement.report? programs)
    (∀ halt s, block programs call program b r = .error halt s → s.events.toList = told) ∧
    ∀ s, block programs call program b r = .ok () s →
      ∃ dwell motion : Option Event,
        s.events.toList = told ++ dwell.toList ++ motion.toList ∧
        (∀ e ∈ dwell, ∃ delay, e = .dwell delay) ∧
        (∀ e ∈ motion, ∃ start finish state, e = .motion start finish state) ∧
        (dwell.isSome = true ↔ ∃ st ∈ made, st.isDwell = true) ∧
        (motion.isSome = true ↔ Statement.Move r.state.machine made) := by
  intro made told
  have hbegun := @Begun.statements programs call program b.line r r [] b.statements
    (Begun.start hdue) hcalls
  rw [block_run]
  cases hrun : Exec.statements programs call program b.line b.statements r with
  | ok _ t =>
    rw [hrun] at hbegun
    refine ⟨fun halt s h => (by cases h), fun s h => ?_⟩
    cases h
    have hevents : t.events.toList = told := hbegun.events
    rw [← hevents]
    exact hbegun.endBlock
  | error halt t =>
    rw [hrun] at hbegun
    refine ⟨fun halt' s h => ?_, fun s h => (by cases h)⟩
    cases h
    exact hbegun

def lastBlock : Block where
  line := 1
  statements := [.gcode 4 none, .assign "F" none (.int 2), .assign "X" none (.int 7), .mcode 8,
    .mcode 30, .mcode 9]

theorem block_reports_last : ∃ s delay start finish state,
    block [] (fun _ => pure ()) ⟨[]⟩ lastBlock shifted = .ok () s ∧
      s.events.toList = [.mcode 8, .ended, .dwell delay, .motion start finish state] := by
  obtain ⟨dwell, motion, hevents, hdwell, hmotion, hwaits, hmoves⟩ :=
    (block_reports [] (fun _ => pure ()) ⟨[]⟩ lastBlock shifted rfl
      (by simp [lastBlock, Statement.callee?])).2 _ rfl
  have hwait : dwell.isSome = true := hwaits.mpr ⟨.gcode 4 none, .head _, rfl⟩
  have hmove : motion.isSome = true :=
    hmoves.mpr ⟨[.gcode 4 none, .assign "F" none (.int 2)], .assign "X" none (.int 7),
      [.mcode 8, .mcode 30], rfl, rfl, by simp [Statement.beginsFrame], by decide⟩
  obtain ⟨e, rfl⟩ := Option.isSome_iff_exists.mp hwait
  obtain ⟨e', rfl⟩ := Option.isSome_iff_exists.mp hmove
  obtain ⟨delay, rfl⟩ := hdwell e rfl
  obtain ⟨start, finish, state, rfl⟩ := hmotion e' rfl
  exact ⟨_, delay, start, finish, state, rfl, hevents⟩

end Exec

end PartProgram
