import PartProgram.Proofs.Run.Isolation
import PartProgram.Proofs.Run.ProgramEnd

/-!
# Calls as they are reported

The reports of a run tell at each moment which subprograms are open and which
block was entered last in each of them. A call that is left is the one that was
entered last. If the run fails, the calls that are still open are those of the
error, with its lines.
-/

set_option autoImplicit false

namespace PartProgram

/-- Where a run is by its reports: the open calls, the innermost first, with the line of the
block that was entered last before the call, and the line of the block that was entered last
behind it. -/
structure Place where
  calls : List OpenCall := []
  line : Option Nat := none

namespace Place

def step (p : Place) : Event → Option Place
  | .block _ line _ => some { p with line := some line }
  | .enter name _ => p.line.map fun line => ⟨⟨line, name⟩ :: p.calls, none⟩
  | .leave name _ =>
    match p.calls with
    | call :: rest => if call.name = name then some ⟨rest, some call.line⟩ else none
    | [] => none
  | _ => some p

/-- Where the events lead. There is no such place if a call is left that was not entered
last. -/
def ofEvents? (events : List Event) : Option Place := events.foldlM step {}

theorem step_other (p : Place) {e : Event} (he : e.isPlace = false) : p.step e = some p := by
  cases e with
  | block | enter | leave => cases he
  | _ => rfl

theorem ofEvents?_append (events : List Event) {more : List Event}
    (h : ∀ e ∈ more, e.isPlace = false) : ofEvents? (events ++ more) = ofEvents? events := by
  have hmore : ∀ p : Place, more.foldlM step p = some p := by
    intro p
    induction more with
    | nil => rfl
    | cons e more ih =>
      rw [List.foldlM_cons, step_other p (h e List.mem_cons_self)]
      exact ih (fun e he => h e (List.mem_cons_of_mem _ he))
  rw [ofEvents?, List.foldlM_append, ofEvents?]
  cases events.foldlM step {} with
  | none => rfl
  | some p => exact hmore p

end Place

def Run.place? (r : Run) : Option Place := Place.ofEvents? r.events.toList

namespace Run

variable {r s : Run} {p : Place}

theorem place?_report (h : r.place? = some p) (e : Event) : (r.report e).place? = p.step e := by
  rw [place?, toList_report, Place.ofEvents?, List.foldlM_append]
  change (r.place? >>= fun p => [e].foldlM Place.step p) = p.step e
  rw [h]
  cases hp : p.step e <;> simp [hp]

theorem place?_endBlock (r : Run) : r.endBlock.place? = r.place? := by
  rw [place?, endBlock_events]
  exact Place.ofEvents?_append _ (fun e he => (dueEvents_kind he).1)

theorem place?_of_remarks (h : Exec.Remarks r s) : s.place? = r.place? := by
  obtain ⟨-, remarks, he, hr⟩ := h
  rw [place?, he]
  exact Place.ofEvents?_append _ (fun e hmem => (Event.remark_kind (hr e hmem)).1)

theorem place?_ended (r : Run) : r.ended.place? = r.place? := by
  rw [place?, toList_ended]
  exact Place.ofEvents?_append _ (by simp [Event.isPlace])

end Run

namespace Exec

variable {programs : Table Program} {call : Program → Exec Unit} {program : Program}
  {line steps index : Nat} {r : Run} {calls : List OpenCall}

/-- The end of an action that begins with some calls open: at a place that meets the condition
unless the program has ended, or with an error that tells the open calls. -/
def Traced (calls : List OpenCall) (back : Place → Prop) :
    EStateM.Result Halt Run Unit → Prop
  | .ok _ s => ∃ p, s.place? = some p ∧ (s.control.stopped = true ∨ back p)
  | .error (.failed e) s => s.place? = some ⟨e.calls.reverse ++ calls, some e.line⟩
  | .error .exhausted s => ∃ p, s.place? = some p

theorem Traced.mono {back back' : Place → Prop} {result : EStateM.Result Halt Run Unit}
    (h : Traced calls back result) (hback : ∀ p, back p → back' p) :
    Traced calls back' result := by
  cases result with
  | ok a s =>
    obtain ⟨p, hp, hor⟩ := h
    exact ⟨p, hp, hor.imp_right (hback p)⟩
  | error halt s => cases halt <;> exact h

def CallsTraced (call : Program → Exec Unit) : Prop :=
  ∀ callee (r : Run) p, r.place? = some p → Traced p.calls (·.calls = p.calls) (call callee r)

theorem callSubprogram_traced (hcall : CallsTraced call) (name : String) (callee : Program)
    (hr : r.place? = some ⟨calls, some line⟩) :
    Traced calls (· = ⟨calls, some line⟩) (callSubprogram call line name callee r) := by
  have hentered : (r.report (.enter name callee.blocks.length)).place? =
      some ⟨⟨line, name⟩ :: calls, none⟩ := Run.place?_report hr _
  have h := hcall callee _ _ hentered
  rw [callSubprogram_run]
  cases hx : call callee (r.report (.enter name callee.blocks.length)) with
  | ok a s =>
    rw [hx] at h
    obtain ⟨p, hp, hback⟩ := h
    -- A program that has ended inside the call is not left, so the call stays open.
    by_cases hs : s.control.stopped = true
    · simp only [hs, if_true]
      exact ⟨p, hp, .inl hs⟩
    · have hcalls : p.calls = ⟨line, name⟩ :: calls := hback.resolve_left hs
      simp only [hs, if_false, Bool.false_eq_true]
      refine ⟨_, (Run.place?_report hp _).trans ?_, .inr rfl⟩
      simp [Place.step, hcalls]
  | error halt s =>
    rw [hx] at h
    cases halt with
    | exhausted => exact h
    | failed e => simpa [Traced, Halt.within, RunError.within] using h

theorem statement_traced (programs : Table Program) (program : Program)
    (hcall : CallsTraced call) (st : Statement) (hr : r.place? = some ⟨calls, some line⟩) :
    Traced calls (· = ⟨calls, some line⟩) (statement programs call program line st r) := by
  rcases statement_cases programs call program line st r with
    ⟨name, callee, -, -, hx⟩ | ⟨-, -, -, hx⟩ | ⟨-, x, ho, hx⟩
  · rw [hx]
    exact callSubprogram_traced hcall name callee hr
  · rw [hx]
    exact ⟨_, (r.place?_ended).trans hr, .inl rfl⟩
  · rw [hx]
    cases hxr : x r with
    | ok a s =>
      exact ⟨_, (Run.place?_of_remarks ((ho.remarks r).of_ok hxr)).trans hr, .inr rfl⟩
    | error halt s =>
      obtain ⟨cause, rfl⟩ := ho.fails hxr
      exact (Run.place?_of_remarks ((ho.remarks r).of_error hxr)).trans hr

theorem statements_traced (programs : Table Program) (program : Program)
    (hcall : CallsTraced call) (list : List Statement)
    (hr : r.place? = some ⟨calls, some line⟩) :
    Traced calls (· = ⟨calls, some line⟩) (statements programs call program line list r) := by
  induction list generalizing r with
  | nil => exact ⟨_, hr, .inr rfl⟩
  | cons st rest ih =>
    cases hgo : r.control.stopped with
    | true =>
      rw [statements_stopped _ hgo]
      exact ⟨_, hr, .inr rfl⟩
    | false =>
      have h := statement_traced programs program hcall st hr
      rw [statements_cons st rest hgo]
      cases hx : statement programs call program line st r with
      | error halt s =>
        rw [hx] at h
        exact h
      | ok a s =>
        rw [hx] at h
        obtain ⟨p, hp, hstop | rfl⟩ := h
        · simp only [statements_stopped rest hstop]
          exact ⟨p, hp, .inl hstop⟩
        · exact ih hp

theorem block_traced (programs : Table Program) (program : Program) (hcall : CallsTraced call)
    (b : Block) (hr : r.place? = some ⟨calls, some b.line⟩) :
    Traced calls (· = ⟨calls, some b.line⟩) (block programs call program b r) := by
  have h := statements_traced programs program hcall b.statements hr
  rw [block_run]
  cases hx : statements programs call program b.line b.statements r with
  | error halt s =>
    rw [hx] at h
    exact h
  | ok a s =>
    rw [hx] at h
    obtain ⟨p, hp, hback⟩ := h
    exact ⟨p, s.place?_endBlock.trans hp, by rwa [Run.endBlock_stopped]⟩

theorem runFrom_traced (programs : Table Program) (steps : Nat) (program : Program) (index : Nat)
    {p : Place} (hr : r.place? = some p) :
    Traced p.calls (·.calls = p.calls) (runFrom programs steps program index r) := by
  -- The steps left bound the blocks and the calls alike, so that the hypothesis serves for the
  -- subprograms of the block and for the blocks behind it.
  induction steps generalizing program index r p with
  | zero => exact ⟨p, hr⟩
  | succ steps ih =>
    cases hb : program.blocks[index]? with
    | none =>
      rw [runFrom_none hb]
      exact ⟨p, hr, .inr rfl⟩
    | some b =>
      have hentered : (r.report (.block index b.line program.blocks.length)).place? =
          some ⟨p.calls, some b.line⟩ := Run.place?_report hr _
      have h : Traced p.calls _ _ :=
        block_traced programs program (fun callee _ _ hp => ih callee 0 hp) b hentered
      rw [runFrom_some hb]
      cases hx : block programs (fun callee => runFrom programs steps callee 0) program b
          (r.report (.block index b.line program.blocks.length)) with
      | error halt s =>
        rw [hx] at h
        exact h.mono (by rintro _ rfl; rfl)
      | ok a s =>
        rw [hx] at h
        obtain ⟨q, hq, hback⟩ := h
        by_cases hs : s.control.stopped = true
        · simp only [hs, if_true]
          exact ⟨q, hq, .inl hs⟩
        · simp only [hs, if_false, Bool.false_eq_true]
          obtain rfl := hback.resolve_left hs
          cases s.control.next? index with
          | none => exact ⟨_, hq, .inr rfl⟩
          | some next => exact ih program next (r := s.landed) (p := ⟨p.calls, some b.line⟩) hq

end Exec

/-- Each call that is reported as left is the innermost open one, with its name. A run that
succeeds without an end of the program leaves all calls, and one that fails has those calls
open that its error tells, each in the line of the block that was entered last there. -/
theorem events_mirror_calls (s : Session) (steps : Nat) (p : Program) :
    ∃ place, Place.ofEvents? (s.process steps p).1.events = some place ∧
      ((s.process steps p).1.halt = none → .ended ∉ (s.process steps p).1.events →
        place.calls = []) ∧
      ∀ error, (s.process steps p).1.halt = some (.failed error) →
        place.calls.reverse = error.calls ∧ place.line = some error.root.line ∧
          error.root.calls = [] := by
  have htraced := Exec.runFrom_traced s.programs steps p 0 (r := { state := s.state }) (p := {}) rfl
  have htold := Exec.runFrom_keepsTold s.programs steps p 0 { state := s.state }
  have hstart : Exec.Told { state := s.state } := by simp [Exec.Told]
  simp only [Session.process]
  cases hx : Exec.runFrom s.programs steps p 0 { state := s.state } with
  | ok a r =>
    rw [hx] at htraced
    obtain ⟨place, hplace, hback⟩ := htraced
    refine ⟨place, hplace, fun _ hended => ?_, by simp⟩
    exact hback.resolve_left (fun hs => hended ((htold.of_ok hx hstart).mpr hs))
  | error halt r =>
    rw [hx] at htraced
    cases halt with
    | exhausted =>
      obtain ⟨place, hplace⟩ := htraced
      exact ⟨place, hplace, by simp, by simp⟩
    | failed e =>
      refine ⟨_, htraced, by simp, fun error h => ?_⟩
      cases h
      simp [RunError.root]

def callingTwice : Program :=
  ⟨[{ line := 1 }, { line := 2, statements := [.instruction "MIDDLE" none] }]⟩

def failingTable : Table Program :=
  [("BACK", ⟨[{ line := 1 }]⟩),
   ("FAIL", ⟨[{ line := 1 }, { line := 2 }, { line := 3, statements := [.flow .endIf] }]⟩),
   ("MIDDLE", ⟨[{ line := 1, statements := [.instruction "BACK" none] },
     { line := 2 }, { line := 3 }, { line := 4, statements := [.instruction "fail" none] }]⟩)]

theorem events_mirror_calls_failed :
    ∃ place,
      Place.ofEvents? (Session.process 9 callingTwice { programs := failingTable }).1.events =
        some place ∧
      place.calls.reverse = [⟨2, "MIDDLE"⟩, ⟨4, "fail"⟩] ∧ place.line = some 3 := by
  obtain ⟨place, hplace, -, hfailed⟩ :=
    events_mirror_calls { programs := failingTable } 9 callingTwice
  obtain ⟨hcalls, hline, -⟩ := hfailed
    { calls := [⟨2, "MIDDLE"⟩, ⟨4, "fail"⟩], line := 3, cause := .strayBranch } rfl
  exact ⟨place, hplace, hcalls, hline⟩

end PartProgram
