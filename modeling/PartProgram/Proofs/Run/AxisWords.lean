import Mathlib.Data.List.Nodup
import PartProgram.Proofs.Run.Isolation
import PartProgram.Proofs.Run.Snapshot

/-!
# Axis words

The words of a motion give coordinates, centres and a radius or choose the mode. None of them
reads what another one writes: a value is taken from the variables, which the motion changes at
the end of the block only, and it does not depend on the mode. So their order does not matter
as long as no variable is given twice.

A coordinate is noted under the name to which the aliases of its axis lead, and the aliases of
that name are followed once more where the motion is stored. So an axis reads back what was
assigned to it unless its alias is an alias itself.
-/

set_option autoImplicit false

namespace PartProgram

namespace Table

variable {α : Type}

theorem insert_comm {a b : String} (h : a ≠ b) (x y : α) (table : Table α) :
    (table.insert a x).insert b y = (table.insert b y).insert a x := by
  have hlt : a < b ∨ b < a := by
    by_cases hab : a < b
    · exact .inl hab
    · exact .inr (Decidable.by_contra fun hba =>
        h (String.le_antisymm (String.not_lt.mp hba) (String.not_lt.mp hab)))
  induction table with
  | nil => grind [insert, String.lt_asymm]
  | cons first rest ih =>
    obtain ⟨key, old⟩ := first
    grind [insert, String.lt_asymm, String.lt_trans]

end Table

/-- What a word notes for the motion of its block. -/
structure Note where
  name : String
  temporary : Bool
  old : Float
  new : Float

namespace Motion

def note (motion : Option Motion) (n : Note) : Option Motion :=
  some ((motion.getD {}).write n.temporary n.name n.old n.new)

theorem note_comm (motion : Option Motion) {n k : Note} (h : n.name ≠ k.name) :
    note (note motion n) k = note (note motion k) n := by
  simp only [note, Option.getD_some, Option.some.injEq, write]
  cases n.temporary <;> cases k.temporary <;> simp [Table.insert_comm h]

theorem foldl_note_perm {notes others : List Note} (h : notes.Perm others)
    (hnames : (notes.map Note.name).Nodup) (motion : Option Motion) :
    notes.foldl note motion = others.foldl note motion := by
  refine h.foldl_eq' (fun n hn k hk z => ?_) motion
  by_cases hname : n.name = k.name
  · rw [List.inj_on_of_nodup_map hnames hn hk hname]
  · exact note_comm z hname

end Motion

namespace Statement

def mode? : Statement → Option MotionMode
  | gcode 0 _ => some .quick
  | gcode 1 _ => some .linear
  | gcode 2 _ => some .clockwise
  | gcode 3 _ => some .counterClockwise
  | _ => none

def isCode : Statement → Bool
  | gcode .. => true
  | _ => false

theorem filterMap_mode? (list : List Statement) :
    list.filterMap mode? = (list.filter isCode).filterMap mode? := by
  rw [List.filterMap_filter]
  refine List.filterMap_congr (fun st _ => ?_)
  cases st <;> rfl

def assignedName? : Statement → Option String
  | assign name _ _ => some name
  | _ => none

/-- A value for a coordinate, a centre or the radius. -/
def givesCoordinate (m : Machine) : Statement → Bool
  | assign name _ _ => m.isTemporary name || m.isCoordinateOrCenter name
  | _ => false

def isAxisWord (m : Machine) (st : Statement) : Bool := st.givesCoordinate m || st.mode?.isSome

end Statement

namespace State

def note? (s : State) : Statement → Option Note
  | .assign name _ value =>
    (s.assigned false name value).toOption.map fun x =>
      ⟨s.scope.canonical name, s.machine.isTemporary name,
        s.scope.getD (s.scope.canonical name), x⟩
  | _ => none

theorem note?_mode (s : State) (mode : MotionMode) (st : Statement) :
    ({ s with mode } : State).note? st = s.note? st := by
  cases st <;> rfl

end State

def Run.noted (notes : List Note) (modes : List MotionMode) (r : Run) : Run :=
  { r with
    state := { r.state with mode := modes.getLast?.getD r.state.mode }
    control := { r.control with motion := notes.foldl Motion.note r.control.motion } }

theorem Run.noted_append (notes notes' : List Note) (modes modes' : List MotionMode) (r : Run) :
    (r.noted notes modes).noted notes' modes' = r.noted (notes ++ notes') (modes ++ modes') := by
  simp [noted, List.getLast?_append, Option.getD_or]

namespace Exec

variable {programs : Table Program} {call : Program → Exec Unit} {program : Program}
  {line : Nat} {r s : Run}

/-- The words of a motion can be executed at once. -/
structure Ready (r : Run) : Prop where
  framing : r.control.framing = false
  waiting : r.control.waiting = false
  going : skipping r.control.branches = false

theorem Ready.of_due (hdue : r.control.due = {}) (hskip : skipping r.control.branches = false) :
    Ready r :=
  ⟨(Control.idle_of_due hdue).2.2, (Control.idle_of_due hdue).1, hskip⟩

theorem Ready.noted (h : Ready r) (notes : List Note) (modes : List MotionMode) :
    Ready (r.noted notes modes) :=
  ⟨h.framing, h.waiting, h.going⟩

theorem statement_word (hr : Ready r) {st : Statement}
    (hst : st.isAxisWord r.state.machine = true) :
    statement programs call program line st r = .ok () s ↔
      ((r.state.note? st).isSome ∨ st.mode?.isSome) ∧
        s = r.noted (r.state.note? st).toList st.mode?.toList := by
  cases st with
  | assign name fields value =>
    have hname : (r.state.machine.isTemporary name ||
        r.state.machine.isCoordinateOrCenter name) = true := by
      simpa [Statement.isAxisWord, Statement.givesCoordinate, Statement.mode?] using hst
    rw [statement, unlessSkipping_run _ hr.going]
    simp only [assign, run_get, hr.framing, hr.waiting, Bool.false_eq_true, if_false,
      Bool.false_and, State.note?]
    cases hx : r.state.assigned false name value with
    | error cause =>
      constructor
      · rintro ⟨⟩
      · rintro ⟨hvalue, -⟩
        simp [Except.toOption, Statement.mode?] at hvalue
    | ok x =>
      simp only [orFail, pure_bind, if_pos hname]
      constructor
      · rintro ⟨⟩
        exact ⟨.inl rfl, rfl⟩
      · rintro ⟨-, rfl⟩
        rfl
  | gcode id args =>
    have hid : id = 0 ∨ id = 1 ∨ id = 2 ∨ id = 3 := by
      simp only [Statement.isAxisWord, Statement.givesCoordinate, Statement.mode?,
        Bool.false_or] at hst
      split at hst <;> simp_all
    rw [statement, unlessSkipping_run _ hr.going]
    rcases hid with rfl | rfl | rfl | rfl
    all_goals
      constructor
      · rintro ⟨⟩
        exact ⟨.inr rfl, rfl⟩
      · rintro ⟨-, rfl⟩
        rfl
  | _ => cases hst

theorem statements_words (hr : Ready r) (hgo : r.control.stopped = false) {list : List Statement}
    (hlist : ∀ st ∈ list, st.isAxisWord r.state.machine = true) :
    statements programs call program line list r = .ok () s ↔
      (∀ st ∈ list, (r.state.note? st).isSome ∨ st.mode?.isSome) ∧
        s = r.noted (list.filterMap r.state.note?) (list.filterMap Statement.mode?) := by
  induction list generalizing r with
  | nil =>
    constructor
    · rintro ⟨⟩
      exact ⟨by simp, rfl⟩
    · rintro ⟨-, rfl⟩
      rfl
  | cons st rest ih =>
    -- The rest of the list finds the same values to note.
    have hsame : (r.noted (r.state.note? st).toList st.mode?.toList).state.note? = r.state.note? :=
      funext (r.state.note?_mode _)
    have hrest := ih (hr.noted (r.state.note? st).toList st.mode?.toList) hgo
      (fun st' h => hlist st' (List.mem_cons_of_mem st h))
    rw [hsame, Run.noted_append] at hrest
    have hst : ∀ after, statement programs call program line st r = .ok () after ↔ _ :=
      fun after => statement_word hr (hlist st List.mem_cons_self)
    simp only [List.filterMap_eq_flatMap_toList] at hrest ⊢
    rw [List.forall_mem_cons, List.flatMap_cons, List.flatMap_cons, and_assoc, ← hrest]
    constructor
    · intro h
      obtain ⟨after, hx, hafter⟩ := statements_cons_ok hgo h
      obtain ⟨hvalue, rfl⟩ := (hst after).mp hx
      exact ⟨hvalue, hafter⟩
    · rintro ⟨hvalue, h⟩
      rw [statements_cons st rest hgo, (hst _).mpr ⟨hvalue, rfl⟩]
      exact h

theorem note?_names (state : State) {list : List Statement}
    (h : ∀ st ∈ list, (state.note? st).isSome ∨ st.mode?.isSome) :
    (list.filterMap state.note?).map Note.name =
      (list.filterMap Statement.assignedName?).map state.scope.canonical := by
  rw [List.map_filterMap, List.map_filterMap]
  refine List.filterMap_congr (fun st hst => ?_)
  cases st with
  | assign name fields value =>
    have hvalue : (state.note? (.assign name fields value)).isSome :=
      (h _ hst).resolve_right (by simp [Statement.mode?])
    rw [State.note?] at hvalue ⊢
    cases hx : state.assigned false name value with
    | error cause => simp [hx, Except.toOption] at hvalue
    | ok x => rfl
  | _ => rfl

/-- The words of a motion can stand in any order in which the codes for the mode keep theirs: the
block ends in the same run, with the same motion reported. -/
theorem axis_words_simultaneous (programs : Table Program) (call : Program → Exec Unit)
    (program : Program) (b : Block) (list : List Statement) (r s : Run)
    (hdue : r.control.due = {}) (hskip : skipping r.control.branches = false)
    (hwords : ∀ st ∈ b.statements, st.isAxisWord r.state.machine = true)
    (hnames : ((b.statements.filterMap Statement.assignedName?).map
      r.state.scope.canonical).Nodup)
    (hperm : list.Perm b.statements)
    (hcodes : list.filter Statement.isCode = b.statements.filter Statement.isCode)
    (h : block programs call program b r = .ok () s) :
    block programs call program { b with statements := list } r = .ok () s := by
  have hr := Ready.of_due hdue hskip
  cases hgo : r.control.stopped with
  | true =>
    rw [block_run, statements_stopped _ hgo] at h ⊢
    exact h
  | false =>
    rw [block_run] at h ⊢
    split at h
    · rename_i t ht
      obtain ⟨hvalues, rfl⟩ := (statements_words hr hgo hwords).mp ht
      have hsame : statements programs call program b.line list r =
          .ok () (r.noted (b.statements.filterMap r.state.note?)
            (b.statements.filterMap Statement.mode?)) := by
        refine (statements_words hr hgo (fun st hst => hwords st (hperm.mem_iff.mp hst))).mpr
          ⟨fun st hst => hvalues st (hperm.mem_iff.mp hst), ?_⟩
        rw [Statement.filterMap_mode? list, hcodes, ← Statement.filterMap_mode?, Run.noted,
          Run.noted, Motion.foldl_note_perm (hperm.symm.filterMap _)
            (note?_names r.state hvalues ▸ hnames)]
      simp only [hsame]
      exact h
    · cases h

def crossing : Block where
  line := 1
  statements := [.assign "X" none (.int 7), .assign "I" none (.int 1)] ++
    [.gcode 0 none, .gcode 2 none, .assign "Y" none (.var "X" none)]

theorem axis_words_simultaneous_crossing : ∃ s,
    block [] (fun _ => pure ()) ⟨[]⟩ crossing shifted = .ok () s ∧
      block [] (fun _ => pure ()) ⟨[]⟩
        { crossing with
          statements := [.gcode 0 none, .gcode 2 none, .assign "Y" none (.var "X" none)] ++
            [.assign "X" none (.int 7), .assign "I" none (.int 1)] } shifted = .ok () s ∧
      s.state.scope.get? "X" = some 7.0 ∧ s.state.scope.get? "Y" = some 5.0 ∧
      s.state.mode = .clockwise := by
  refine ⟨_, rfl, ?_, by decide +kernel, by decide +kernel, rfl⟩
  exact axis_words_simultaneous [] (fun _ => pure ()) ⟨[]⟩ crossing _ shifted _ rfl rfl
    (by decide) (by decide +kernel) List.perm_append_comm rfl rfl

/-- Behind a block that assigns to an axis the axis reads back the value, unless its alias is an
alias itself: then it reads what it read before. The value is read by the name of the alias. -/
theorem axis_reads_back (programs : Table Program) (call : Program → Exec Unit)
    (program : Program) (b : Block) (r : Run) (name : String) (fields : Option Slots)
    (value : Expr) (x : Float) (hdue : r.control.due = {})
    (hskip : skipping r.control.branches = false) (hgo : r.control.stopped = false)
    (haxis : r.state.machine.isCoordinate name = true)
    (hlasting : r.state.machine.isTemporary name = false)
    (hb : b.statements = [.assign name fields value])
    (hx : r.state.assigned false name value = .ok x) :
    let stored := r.state.scope.canonical name
    ∃ s, block programs call program b r = .ok () s ∧
      s.state.scope.get? stored = some x ∧
      s.state.scope.get? name =
        if r.state.scope.canonical stored = stored then some x else r.state.scope.get? name := by
  intro stored
  let note : Note := ⟨stored, false, r.state.scope.getD stored, x⟩
  have hr := Ready.of_due hdue hskip
  have hword : ∀ st ∈ b.statements, st.isAxisWord r.state.machine = true := by
    simp [hb, Statement.isAxisWord, Statement.givesCoordinate, Machine.isCoordinateOrCenter,
      haxis]
  have hnote : r.state.note? (.assign name fields value) = some note := by
    simp [State.note?, hx, Except.toOption, hlasting, note, stored]
  have hrun : statements programs call program b.line b.statements r =
      .ok () (r.noted [note] []) := by
    refine (statements_words hr hgo hword).mpr ?_
    rw [hb]
    simp only [List.forall_mem_singleton, List.filterMap_cons, List.filterMap_nil, hnote]
    exact ⟨.inl rfl, rfl⟩
  have hscope : (r.noted [note] []).endBlock.state.scope = r.state.scope.set stored x := by
    have hmotion : (r.noted [note] []).control.motion =
        some ⟨[(stored, r.state.scope.getD stored)], [(stored, x)]⟩ := by
      rw [Run.noted, (Control.idle_of_due hdue).2.1]
      rfl
    rw [endBlock_commits (hr.noted _ _).waiting (hr.noted _ _).framing hmotion]
    rfl
  refine ⟨_, by rw [block_run, hrun], ?_⟩
  rw [hscope, Scope.get?_set, Scope.get?_set, if_pos rfl]
  exact ⟨rfl, if_congr eq_comm rfl rfl⟩

def aliased : Run where
  state := { scope := ({} : Scope).setAlias "X" "U" }

def chained : Run where
  state := { scope := (({} : Scope).setAlias "X" "U").setAlias "U" "V" }

def firstAxis : Block where
  line := 1
  statements := [.assign "X" none (.int 5)]

theorem axis_reads_back_alias : ∃ s,
    block [] (fun _ => pure ()) ⟨[]⟩ firstAxis aliased = .ok () s ∧
      s.state.scope.get? "U" = some 5.0 ∧ s.state.scope.get? "X" = some 5.0 := by
  obtain ⟨s, hs, hstored, hname⟩ := axis_reads_back [] (fun _ => pure ()) ⟨[]⟩ firstAxis aliased
    "X" none (.int 5) 5.0 rfl rfl rfl (by decide) (by decide) rfl (by decide +kernel)
  exact ⟨s, hs, hstored, hname⟩

/-- The value is stored where the aliases lead in two steps, and the axis reads where they lead
in one. -/
theorem axis_lost_in_chain : ∃ s,
    chained.control.due = {} ∧ skipping chained.control.branches = false ∧
      chained.state.machine.isCoordinate "X" = true ∧
      chained.state.machine.isTemporary "X" = false ∧
      chained.state.assigned false "X" (.int 5) = .ok 5.0 ∧
      block [] (fun _ => pure ()) ⟨[]⟩ firstAxis chained = .ok () s ∧
      s.state.scope.get? "X" = none ∧ s.state.scope.get? "U" = some 5.0 :=
  ⟨_, rfl, rfl, by decide, by decide, by decide +kernel, rfl, by decide +kernel,
    by decide +kernel⟩

end Exec

end PartProgram
