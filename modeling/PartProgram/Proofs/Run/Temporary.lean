import PartProgram.Proofs.Run.Course

/-!
# Values for one motion only

The centre and the radius of an arc are given for the motion of one block. They
are kept with the motion and never reach the variables: assignments collect them,
a motion stores its end only, and a frame maps a pair of centres only if one of
them has a value. So no later arc can find a centre that it was not given.
-/

set_option autoImplicit false

namespace PartProgram

def Machine.Spares (m : Machine) (s : Scope) : Prop :=
  ∀ name, m.isTemporary name = true → s.get? name = none

section Scopes

variable {m : Machine} {s : Scope}

theorem isTemporary_of_center {g : AxisGroup} {name : String} (hg : g ∈ m.linear)
    (hn : name ∈ g.centers) : m.isTemporary name = true := by
  have hc : m.isCenter name = true :=
    List.any_eq_true.mpr ⟨g, hg, List.any_eq_true.mpr ⟨name, hn, (sameLetters_iff _ _).mpr rfl⟩⟩
  simp [Machine.isTemporary, hc]

theorem spares_set (hs : s.Plain) (h : m.Spares s) {name : String}
    (hn : m.isTemporary name = false) (value : Float) : m.Spares (s.set name value) := by
  intro key hkey
  have hne : upper key ≠ upper name := by
    intro heq
    rw [Machine.isTemporary_congr heq, hn] at hkey
    cases hkey
  rw [Scope.get?_set, Scope.canonical_plain hs, Scope.canonical_plain hs, if_neg hne]
  exact h key hkey

theorem spares_setAll (hs : s.Plain) (h : m.Spares s) (entries : Table Float)
    (hentries : ∀ entry ∈ entries, m.isTemporary entry.1 = false) :
    m.Spares (s.setAll entries) := by
  induction entries generalizing s with
  | nil => exact h
  | cons entry entries ih =>
    have hentry := hentries entry List.mem_cons_self
    have hrest : ∀ e ∈ entries, m.isTemporary e.1 = false :=
      fun e he => hentries e (List.mem_cons_of_mem entry he)
    exact ih (Scope.plain_set hs _ _) (spares_set hs h hentry _) hrest

theorem mapFirstPair_spares (hs : s.Plain) (h : m.Spares s) (f : Point → Point)
    {names : List String} (hn : ∀ n ∈ names, m.isTemporary n = false) :
    (mapFirstPair f names s).Plain ∧ m.Spares (mapFirstPair f names s) := by
  match names with
  | [] | [_] => exact ⟨hs, h⟩
  | x :: y :: _ =>
    have hx : ∀ value, m.Spares (s.set x value) := spares_set hs h (hn x (by simp))
    exact ⟨mapPair_plain hs f x y,
      spares_set (Scope.plain_set hs _ _) (hx _) (hn y (by simp)) _⟩

theorem mapSetPair_unset (h : m.Spares s) (f : Point → Point) {names : List String}
    (hn : ∀ n ∈ names, m.isTemporary n = true) : mapSetPair f names s = s := by
  match names with
  | [] | [_] => rfl
  | x :: y :: _ =>
    have hx : s.has x = false := by rw [Scope.has, h x (hn x (by simp))]; rfl
    have hy : s.has y = false := by rw [Scope.has, h y (hn y (by simp))]; rfl
    simp [mapSetPair, hx, hy]

theorem mapGroup_spares (hm : m.AxesApart) (hs : s.Plain) (h : m.Spares s) (f : Point → Point)
    {g : AxisGroup} (hg : g ∈ m.linear) :
    (mapGroup f s g).Plain ∧ m.Spares (mapGroup f s g) := by
  have haxes : ∀ n ∈ g.names, m.isTemporary n = false :=
    fun n hn => hm n (isCoordinate_of_mem hg hn)
  obtain ⟨hplain, hspares⟩ := mapFirstPair_spares hs h f haxes
  rw [mapGroup, mapSetPair_unset hspares f (fun n hn => isTemporary_of_center hg hn)]
  exact ⟨hplain, hspares⟩

theorem foldl_mapGroup_spares (hm : m.AxesApart) (f : Point → Point) (groups : List AxisGroup)
    (hg : ∀ g ∈ groups, g ∈ m.linear) (hs : s.Plain) (h : m.Spares s) :
    (groups.foldl (mapGroup f) s).Plain ∧ m.Spares (groups.foldl (mapGroup f) s) := by
  induction groups generalizing s with
  | nil => exact ⟨hs, h⟩
  | cons g groups ih =>
    obtain ⟨hplain, hspares⟩ := mapGroup_spares hm hs h f (hg g List.mem_cons_self)
    exact ih (fun g' hg' => hg g' (List.mem_cons_of_mem g hg')) hplain hspares

end Scopes

/-- No centre or radius has a value in the variables, and none will get one from the motion
that is under way. -/
structure Run.Spares (m : Machine) (r : Run) : Prop where
  machine : r.state.machine = m
  plain : r.state.scope.Plain
  unset : m.Spares r.state.scope
  motion : ∀ motion, r.control.motion = some motion →
    ∀ entry ∈ motion.finish, m.isTemporary entry.1 = false

/-- No centre or radius gets a value on the way from one run to another. -/
def Sparing (m : Machine) (r r' : Run) : Prop := r.Spares m → r'.Spares m

def Statement.SparesTemporary (m : Machine) : Statement → Prop
  | declare d => d.type = .int ∨ d.type = .real →
    ∀ v ∈ d.declared, m.isTemporary v.name = false
  | _ => True

def Program.SparesTemporary (m : Machine) (p : Program) : Prop :=
  ∀ block ∈ p.blocks, ∀ s ∈ block.statements, s.SparesTemporary m

section Steps

variable {m : Machine} {r : Run}

theorem sparing_passage (m : Machine) : Exec.Passage (Sparing m) where
  refl _ h := h
  trans h h' hr := h' (h hr)

theorem sparing_of_eq {r' : Run} (hmachine : r'.state.machine = r.state.machine)
    (hscope : r'.state.scope = r.state.scope) (hmotion : r'.control.motion = r.control.motion) :
    Sparing m r r' := by
  intro h
  constructor
  · rw [hmachine, h.machine]
  · rw [hscope]
    exact h.plain
  · rw [hscope]
    exact h.unset
  · rw [hmotion]
    exact h.motion

theorem sparing_set {name : String} (hn : m.isTemporary name = false) (value : Float) :
    Sparing m r { r with state := r.state.mapScope (·.set name value) } := by
  intro h
  exact ⟨h.machine, Scope.plain_set h.plain _ _, spares_set h.plain h.unset hn _, h.motion⟩

theorem collect_sparing {name : String} (value : Float) :
    Exec.Leads (Sparing m) (Exec.collect (m.isTemporary name) name value) r := by
  apply Exec.leads_get
  apply Exec.leads_modify
  intro h
  refine ⟨h.machine, h.plain, h.unset, ?_⟩
  intro motion hmotion entry hentry
  have hold : ∀ e ∈ (r.control.motion.getD {}).finish, m.isTemporary e.1 = false := by
    intro e he
    cases hx : r.control.motion with
    | none => simp [hx] at he
    | some old => exact h.motion old hx e (by simpa [hx] using he)
  cases hmotion
  cases ht : m.isTemporary name with
  | true => exact hold entry (by simpa [Motion.write, ht] using hentry)
  | false =>
    simp only [Motion.write, ht, Bool.false_eq_true, if_false] at hentry
    rcases Table.mem_insert hentry with rfl | hentry
    · rw [Scope.canonical_plain h.plain, Machine.isTemporary_congr (upper_upper name), ht]
    · exact hold entry hentry

theorem declareVariable_sparing (line : Nat) (zero : Expr) {v : DeclaredVariable}
    (hv : m.isTemporary v.name = false) :
    Exec.Along (Sparing m) (Exec.declareVariable line zero v) := by
  intro r
  apply Exec.leads_get
  apply (sparing_passage m).orFail_bind
  intro x _
  exact Exec.leads_modify (sparing_set hv x)

theorem declare_sparing (line : Nat) {d : Declaration}
    (hd : (Statement.declare d).SparesTemporary m) :
    Exec.Along (Sparing m) (Exec.declare line d) := by
  have hP := sparing_passage m
  unfold Exec.declare
  split
  · rename_i htype
    exact hP.forM _ (fun v hv => declareVariable_sparing line _ (hd (.inl htype) v hv))
  · rename_i htype
    exact hP.forM _ (fun v hv => declareVariable_sparing line _ (hd (.inr htype) v hv))
  · exact hP.pure ()

theorem assign_sparing (line : Nat) (name : String) (value : Expr) :
    Exec.Along (Sparing m) (Exec.assign line name value) := by
  intro r
  by_cases hr : r.state.machine = m
  · subst hr
    apply Exec.leads_get
    apply (sparing_passage _).orFail_bind
    intro x _
    apply Exec.leads_ite
    · exact fun _ => Exec.leads_modify (sparing_of_eq rfl rfl rfl)
    · intro _
      apply Exec.leads_ite
      · exact fun _ => Exec.leads_modify (sparing_of_eq rfl rfl rfl)
      · intro _
        apply Exec.leads_ite
        · exact fun _ => collect_sparing x
        · intro hname
          apply Exec.leads_modify
          apply sparing_set
          simp only [Bool.or_eq_true, not_or] at hname
          simpa using hname.1
  · -- A run of another machine is not spared to begin with.
    rw [Exec.Leads]
    split
    · exact fun h => absurd h.machine hr
    · exact fun h => absurd h.machine hr

theorem gcode_sparing (id : Nat) (args : Option (List Expr)) :
    Exec.Along (Sparing m) (Exec.gcode id args) :=
  fun _ => Exec.leads_gcode (fun _ _ _ => sparing_of_eq rfl rfl rfl) (sparing_of_eq rfl rfl rfl)
    (sparing_of_eq rfl rfl rfl)

theorem mcode_sparing (id : Nat) : Exec.Along (Sparing m) (Exec.mcode id) :=
  fun _ => Exec.leads_mcode (sparing_of_eq rfl rfl rfl) (fun _ => sparing_of_eq rfl rfl rfl)
    (sparing_of_eq rfl rfl rfl)

theorem beginFrame_sparing (hax : m.AxesApart) (replace : Bool) :
    Exec.Along (Sparing m) (Exec.beginFrame replace) := by
  intro r
  apply (sparing_passage m).bind_at
  · apply Exec.leads_modify
    intro h
    obtain ⟨hplain, hspares⟩ := foldl_mapGroup_spares hax r.state.frame.toMachine m.linear
      (fun _ hg => hg) h.plain h.unset
    rw [← h.machine] at hplain hspares
    cases replace with
    | true => exact ⟨h.machine, hplain, h.machine ▸ hspares, h.motion⟩
    | false => exact ⟨h.machine, hplain, h.machine ▸ hspares, h.motion⟩
  · exact fun _ _ => Exec.leads_modify (sparing_of_eq rfl rfl rfl)

theorem instruction_sparing (hax : m.AxesApart) {programs : Table Program}
    {call : Program → Exec Unit}
    (hcall : ∀ name p, programs.find? name = some p → Exec.Along (Sparing m) (call p))
    (line : Nat) (name : String) (args : Option Slots) :
    Exec.Along (Sparing m) (Exec.instruction programs call line name args) := by
  have hP := sparing_passage m
  intro r
  apply hP.instruction_at
  · exact fun replace _ => beginFrame_sparing hax replace r
  · intro callee _ hfind _
    exact hP.callSubprogram (hcall _ callee hfind) (fun _ _ _ => sparing_of_eq rfl rfl rfl) r
  · exact sparing_of_eq rfl rfl rfl

theorem statement_sparing (hax : m.AxesApart) {programs : Table Program}
    {call : Program → Exec Unit}
    (hcall : ∀ name p, programs.find? name = some p → Exec.Along (Sparing m) (call p))
    (program : Program) (line : Nat) {s : Statement} (hs : s.SparesTemporary m) :
    Exec.Along (Sparing m) (Exec.statement programs call program line s) := by
  have hP := sparing_passage m
  cases s with
  | flow f => exact fun _ => hP.flow_at (fun _ => sparing_of_eq rfl rfl rfl)
  | declare d => exact hP.unlessSkipping (declare_sparing line hs)
  | assign name fields value => exact hP.unlessSkipping (assign_sparing line name value)
  | gcode id args => exact hP.unlessSkipping (gcode_sparing id args)
  | mcode id => exact hP.unlessSkipping (mcode_sparing id)
  | jump direction target =>
    exact hP.unlessSkipping (fun _ => hP.jump_at (fun _ => sparing_of_eq rfl rfl rfl))
  | instruction name args =>
    exact hP.unlessSkipping (instruction_sparing hax hcall line name args)

theorem endDwell_sparing (r : Run) : Sparing m r r.endDwell := by
  unfold Run.endDwell
  split
  · exact sparing_of_eq rfl rfl rfl
  · exact (sparing_passage m).refl r

theorem endMotion_sparing (r : Run) : Sparing m r r.endMotion := by
  intro h
  unfold Run.endMotion
  split
  · rename_i motion hx
    exact ⟨h.machine, Scope.plain_setAll h.plain _,
      spares_setAll h.plain h.unset _ (h.motion motion hx), by simp⟩
  · exact h

theorem endFrame_sparing (hax : m.AxesApart) (r : Run) : Sparing m r r.endFrame := by
  intro h
  unfold Run.endFrame
  split
  · obtain ⟨hplain, hspares⟩ := foldl_mapGroup_spares hax r.state.frame.ofMachine m.linear
      (fun _ hg => hg) h.plain h.unset
    rw [← h.machine] at hplain hspares
    exact ⟨h.machine, hplain, h.machine ▸ hspares, h.motion⟩
  · exact h

theorem sparing_stepwise (hax : m.AxesApart) {programs : Table Program}
    (hprograms : ∀ name p, programs.find? name = some p → p.SparesTemporary m) :
    Exec.Stepwise programs (Program.SparesTemporary m) (Sparing m) where
  toPassage := sparing_passage m
  known := hprograms
  report _ _ _ := sparing_of_eq rfl rfl rfl
  statement _ hcall program hprogram block hblock s hs :=
    statement_sparing hax (fun name p hp => hcall p (hprograms name p hp)) program block.line
      (hprogram block hblock s hs)
  declares _ hprogram block hblock _ hd htype v hv zero :=
    declareVariable_sparing block.line zero (hprogram block hblock _ hd htype v hv)
  endDwell := endDwell_sparing
  endMotion := endMotion_sparing
  endFrame := endFrame_sparing hax
  landed _ := sparing_of_eq rfl rfl rfl

end Steps

namespace Session

structure Spares (m : Machine) (s : Session) : Prop where
  machine : s.state.machine = m
  plain : s.state.scope.Plain
  unset : m.Spares s.state.scope
  programs : ∀ name p, s.programs.find? name = some p → p.SparesTemporary m

variable {m : Machine} {s : Session}

theorem Spares.start (h : s.Spares m) : Run.Spares m { state := s.state } :=
  ⟨h.machine, h.plain, h.unset, by simp⟩

theorem course_spares (hax : m.AxesApart) (h : s.Spares m) {call : Call}
    (hcall : call.program.SparesTemporary m) {state : State} (hstate : state ∈ s.course call) :
    m.Spares state.scope := by
  cases call with
  | addSubprogram name p =>
    cases List.mem_singleton.mp hstate
    exact h.unset
  | process steps p =>
    obtain ⟨r, hr, rfl⟩ := List.mem_map.mp hstate
    exact ((sparing_stepwise hax h.programs).course steps hcall 0 hr h.start).unset

theorem perform_spares (hax : m.AxesApart) (h : s.Spares m) {call : Call}
    (hcall : call.program.SparesTemporary m) : (s.perform call).2.Spares m := by
  cases call with
  | addSubprogram name p =>
    refine ⟨h.machine, h.plain, h.unset, ?_⟩
    intro key q hq
    rw [perform, addSubprogram, Table.find?_insert] at hq
    split at hq
    · cases hq
      exact hcall
    · exact h.programs key q hq
  | process steps p =>
    have hrun := (sparing_stepwise hax h.programs).runFrom steps hcall 0 { state := s.state }
    simp only [perform, process]
    cases hx : Exec.runFrom s.programs steps p 0 { state := s.state } with
    | ok _ r =>
      have hr := hrun.of_ok hx h.start
      exact ⟨hr.machine, hr.plain, hr.unset, h.programs⟩
    | error halt r =>
      have hr := hrun.of_error hx h.start
      exact ⟨hr.machine, hr.plain, hr.unset, h.programs⟩

theorem courseOf_spares (hax : m.AxesApart) (calls : List Call) (h : s.Spares m)
    (hcalls : ∀ call ∈ calls, call.program.SparesTemporary m) {state : State}
    (hstate : state ∈ s.courseOf calls) : m.Spares state.scope := by
  induction calls generalizing s with
  | nil =>
    cases List.mem_singleton.mp hstate
    exact h.unset
  | cons call calls ih =>
    have hcall := hcalls call List.mem_cons_self
    rcases List.mem_append.mp hstate with hstate | hstate
    · exact course_spares hax h hcall hstate
    · exact ih (perform_spares hax h hcall)
        (fun c hc => hcalls c (List.mem_cons_of_mem call hc)) hstate

end Session

/-- Wherever runs in a row pass, no centre of an arc and no radius has a value among the
variables, if none had one before and no program declares one. -/
theorem temporaries_never_stored (s : Session) (calls : List Session.Call)
    (haxes : s.state.machine.AxesApart) (hplain : s.state.scope.Plain)
    (hunset : ∀ name, s.state.machine.isTemporary name = true → s.state.scope.get? name = none)
    (hprograms : ∀ name p, s.programs.find? name = some p →
      p.SparesTemporary s.state.machine)
    (hcalls : ∀ call ∈ calls, call.program.SparesTemporary s.state.machine) :
    ∀ state ∈ s.courseOf calls, ∀ name, s.state.machine.isTemporary name = true →
      state.scope.get? name = none := by
  intro state hstate
  exact Session.courseOf_spares haxes calls ⟨rfl, hplain, hunset, hprograms⟩ hcalls hstate

def arcInFrame : Program :=
  ⟨[{ line := 1, statements := [.gcode 2 none, .assign "X" none (.int 4),
      .assign "I" none (.int 2), .assign "CR" none (.int 2), .instruction "TRANS" none,
      .assign "X" none (.int 10)] },
    { line := 2, statements := [.assign "J" none (.int 1), .assign "Y" none (.var "R9" none)] }]⟩

theorem temporaries_never_stored_arc : ∃ state,
    (({} : Session).courseOf [.process 3 arcInFrame, .process 3 arcInFrame])[10]? = some state ∧
      state.scope.get? "X" = some (-6.0) ∧ state.scope.get? "i" = none ∧
        state.scope.get? "CR" = none := by
  have hplain : Scope.Plain {} := by
    intro layer hl
    cases List.mem_singleton.mp hl
    rfl
  have hprogram : arcInFrame.SparesTemporary {} := by
    simp [Program.SparesTemporary, arcInFrame, Statement.SparesTemporary]
  have hall := temporaries_never_stored {} [.process 3 arcInFrame, .process 3 arcInFrame]
    axesApart_default hplain (fun _ _ => rfl) (fun _ _ hp => by cases hp)
    (by simp [Session.Call.program, hprogram])
  refine ⟨_, rfl, rfl, ?_, ?_⟩
  · exact hall _ (List.mem_of_getElem? (i := 10) rfl) "i" (by decide)
  · exact hall _ (List.mem_of_getElem? (i := 10) rfl) "CR" (by decide)

end PartProgram
