import PartProgram.Proofs.Run.Continuity.Step

/-!
# Continuity of motion

A motion starts where the one before it has ended. Frames that stay and machines whose
axes are not centres are supplied; subprograms, jumps, errors and runs in a row are
covered.
-/

set_option autoImplicit false

namespace PartProgram

namespace Session

/-- What is asked of a session. -/
inductive Call where
  | process (steps : Nat) (program : Program)
  | addSubprogram (name : String) (program : Program)

def Call.program : Call → Program
  | process _ p => p
  | addSubprogram _ p => p

def perform (s : Session) : Call → List Event × Session
  | .process steps p =>
    let (outcome, after) := s.process steps p
    (outcome.events, after)
  | .addSubprogram name p => ([], s.addSubprogram name p)

def performAll : List Call → Session → List Event × Session
  | [], s => ([], s)
  | call :: calls, s =>
    let (events, after) := s.perform call
    let (rest, last) := performAll calls after
    (events ++ rest, last)

structure Steady (m : Machine) (s : Session) : Prop where
  machine : s.state.machine = m
  plain : s.state.scope.Plain
  programs : ∀ name p, s.programs.find? name = some p → p.LeavesAxes m

variable {m : Machine}

theorem perform_linked (hax : m.AxesApart) {s : Session} (hs : s.Steady m) {call : Call}
    (hcall : call.program.LeavesAxes m) :
    (s.perform call).2.Steady m ∧
      Linked m s.state.position (s.perform call).1 (s.perform call).2.state.position := by
  cases call with
  | addSubprogram name p =>
    refine ⟨⟨hs.machine, hs.plain, fun key q hq => ?_⟩, rfl⟩
    rw [perform, addSubprogram, Table.find?_insert] at hq
    split at hq
    · cases hq
      exact hcall
    · exact hs.programs key q hq
  | process steps p =>
    have hstart : Run.Steady m s.state.frame { state := s.state } :=
      ⟨hs.machine, rfl, rfl, hs.plain, by simp⟩
    have hrun := runFrom_continues (t := s.state.frame) (p := p) hax hs.programs steps hcall 0
      { state := s.state }
    simp only [perform, process]
    cases hx : Exec.runFrom s.programs steps p 0 { state := s.state } with
    | ok _ r =>
      obtain ⟨hr, events, he, hl⟩ := hrun.of_ok hx hstart
      exact ⟨⟨hr.machine, hr.plain, hs.programs⟩, by simpa [he] using hl⟩
    | error halt r =>
      obtain ⟨hr, events, he, hl⟩ := hrun.of_error hx hstart
      exact ⟨⟨hr.machine, hr.plain, hs.programs⟩, by simpa [he] using hl⟩

theorem performAll_linked (hax : m.AxesApart) (calls : List Call) {s : Session}
    (hs : s.Steady m) (hcalls : ∀ call ∈ calls, call.program.LeavesAxes m) :
    Linked m s.state.position (s.performAll calls).1 (s.performAll calls).2.state.position := by
  induction calls generalizing s with
  | nil => rfl
  | cons call calls ih =>
    obtain ⟨h1, h2⟩ := perform_linked hax hs (hcalls call (List.mem_cons_self ..))
    exact (linked_append _ _).mpr
      ⟨_, h2, ih h1 (fun c hc => hcalls c (List.mem_cons_of_mem _ hc))⟩

end Session

def Event.motion? : Event → Option (Scope × Scope)
  | motion start finish _ => some (start, finish)
  | _ => none

def motions (events : List Event) : List (Scope × Scope) := events.filterMap Event.motion?

theorem linked_first {m : Machine} {p q : String → Float} {events : List Event}
    (h : Linked m p events q) {pair : Scope × Scope} (hp : (motions events)[0]? = some pair) :
    m.axisValues pair.1 = p := by
  induction events generalizing p with
  | nil => simp [motions] at hp
  | cons e events ih =>
    cases he : e.isMotion with
    | false =>
      rw [linked_other he] at h
      refine ih h ?_
      cases e <;> first | exact hp | cases he
    | true =>
      cases e <;> cases he
      cases hp
      exact h.1

theorem linked_consecutive {m : Machine} {p q : String → Float} {events : List Event}
    (h : Linked m p events q) {i : Nat} {before after : Scope × Scope}
    (hb : (motions events)[i]? = some before) (ha : (motions events)[i + 1]? = some after) :
    m.axisValues after.1 = m.axisValues before.2 := by
  induction events generalizing p i with
  | nil => simp [motions] at hb
  | cons e events ih =>
    cases he : e.isMotion with
    | false =>
      rw [linked_other he] at h
      cases e <;> first | exact ih h hb ha | cases he
    | true =>
      cases e <;> cases he
      cases i with
      | zero =>
        cases hb
        exact linked_first h.2 ha
      | succ i => exact ih h.2 hb ha

/-- Of two motions in a row, in one run or in two, the later one starts where the
earlier one has ended, in every axis. -/
theorem motion_continuity (s : Session) (calls : List Session.Call)
    (haxes : s.state.machine.AxesApart) (hplain : s.state.scope.Plain)
    (hprograms : ∀ name p, s.programs.find? name = some p → p.LeavesAxes s.state.machine)
    (hcalls : ∀ call ∈ calls, call.program.LeavesAxes s.state.machine)
    {i : Nat} {before after : Scope × Scope}
    (hbefore : (motions (s.performAll calls).1)[i]? = some before)
    (hafter : (motions (s.performAll calls).1)[i + 1]? = some after)
    (name : String) (hname : s.state.machine.isCoordinate name = true) :
    after.1.getD name = before.2.getD name := by
  have hl := Session.performAll_linked haxes calls ⟨rfl, hplain, hprograms⟩ hcalls
  exact Machine.axisValues_eq_iff.mp (linked_consecutive hl hbefore hafter) name hname

theorem axesApart_default : ({} : Machine).AxesApart := by
  intro name h
  have hwords : ∀ word ∈ ["X", "Y", "Z", "A", "B", "C"],
      ({} : Machine).isTemporary word = false := by decide
  have hnames : ∀ word ∈ ["X", "Y", "Z", "A", "B", "C"], upper name = upper word →
      ({} : Machine).isTemporary name = false :=
    fun word hw hn => (Machine.isTemporary_congr hn).trans (hwords word hw)
  simp only [Machine.isCoordinate, Machine.isLinear, Machine.isRotary, hasName, List.any_cons,
    List.any_nil, Bool.or_false, Bool.or_eq_true, sameLetters_iff] at h
  rcases h with (h | h | h) | (h | h | h) <;> exact hnames _ (by simp) h

def twoMotions : Program :=
  ⟨[{ line := 1, statements := [.assign "X" none (.int 1)] },
    { line := 2, statements := [.assign "X" none (.int 2)] }]⟩

theorem motion_continuity_two_blocks :
    ∃ before after,
      (motions (({} : Session).performAll [.process 3 twoMotions]).1)[0]? = some before ∧
      (motions (({} : Session).performAll [.process 3 twoMotions]).1)[1]? = some after ∧
      after.1.getD "X" = before.2.getD "X" := by
  refine ⟨_, _, rfl, rfl, ?_⟩
  refine motion_continuity {} [.process 3 twoMotions] axesApart_default ?_ ?_ ?_
    (i := 0) rfl rfl "X" (by decide)
  · intro layer hl
    cases hl with
    | head => rfl
    | tail _ hl => cases hl
  · intro name p hp
    cases hp
  · intro call hc block hb st hst
    simp only [List.mem_singleton] at hc
    subst hc
    simp only [Session.Call.program, twoMotions, List.mem_cons, List.not_mem_nil, or_false] at hb
    rcases hb with rfl | rfl
    · cases List.mem_singleton.mp hst
      trivial
    · cases List.mem_singleton.mp hst
      trivial

end PartProgram
