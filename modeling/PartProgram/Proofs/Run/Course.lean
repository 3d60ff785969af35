import PartProgram.Proofs.Run.Continuity
import PartProgram.Proofs.Run.Executed

/-!
# The course of a run

All runs that a program passes through: at the beginning of a block, behind
every statement, behind every variable that is declared, and behind each part of
the end of a block, in the program and in the subprograms it calls, up to the
point where it ends or fails. What every step keeps has been kept at each of them.
-/

set_option autoImplicit false

namespace PartProgram

def Run.ending (r : Run) : List Run := [r.endDwell, r.endDwell.endMotion, r.endBlock]

namespace Exec

def passed {α : Type} (f : α → Exec PUnit) : List α → Run → List Run
  | [], _ => []
  | a :: rest, r =>
    match f a r with
    | .ok _ s => s :: passed f rest s
    | .error _ s => [s]

def declared (line : Nat) (d : Declaration) (r : Run) : List Run :=
  match d.type with
  | .int => passed (declareVariable line (.int 0)) d.declared r
  | .real => passed (declareVariable line (.real 0.0)) d.declared r
  | _ => []

def inside (programs : Table Program) (inner : Program → Run → List Run) (line : Nat)
    (s : Statement) (r : Run) : List Run :=
  if s.isExecuted r.control.branches then
    match s with
    | .declare d => declared line d r
    | s =>
      match s.callee? programs with
      | some (name, callee) => inner callee (r.report (.enter name callee.blocks.length))
      | none => []
  else []

def statementsCourse (programs : Table Program) (call : Program → Exec Unit)
    (inner : Program → Run → List Run) (program : Program) (line : Nat) :
    List Statement → Run → List Run
  | [], _ => []
  | s :: rest, r =>
    if r.control.stopped then []
    else
      inside programs inner line s r ++
        match statement programs call program line s r with
        | .ok _ after =>
          after :: statementsCourse programs call inner program line rest after
        | .error _ after => [after]

/-- The runs through which a program goes from a block on. -/
def course (programs : Table Program) : Nat → Program → Nat → Run → List Run
  | 0, _, _, r => [r]
  | steps + 1, program, index, r =>
    match program.blocks[index]? with
    | none => [r]
    | some b =>
      let call := fun callee => runFrom programs steps callee 0
      let inner := fun callee => course programs steps callee 0
      let entered := r.report (.block index b.line program.blocks.length)
      [r, entered] ++ statementsCourse programs call inner program b.line b.statements entered ++
        match statements programs call program b.line b.statements entered with
        | .error .. => []
        | .ok _ after =>
          after.ending ++
            if after.control.stopped then []
            else
              match after.control.next? index with
              | some next => course programs steps program next after.endBlock.landed
              | none => [after.endBlock.landed]

/-- A relation that every step of a run keeps, for programs of some kind that call programs
of that kind only. -/
structure Stepwise (programs : Table Program) (good : Program → Prop)
    (P : Run → Run → Prop) : Prop extends Passage P where
  known : ∀ name p, programs.find? name = some p → good p
  report : ∀ (r : Run) (e : Event), e.isPlace = true → P r (r.report e)
  statement : ∀ call : Program → Exec Unit, (∀ callee, good callee → Along P (call callee)) →
    ∀ program, good program → ∀ block ∈ program.blocks, ∀ s ∈ block.statements,
      Along P (Exec.statement programs call program block.line s)
  declares : ∀ program, good program → ∀ block ∈ program.blocks, ∀ d : Declaration,
    .declare d ∈ block.statements → d.type = .int ∨ d.type = .real → ∀ v ∈ d.declared,
      ∀ zero, Along P (declareVariable block.line zero v)
  endDwell : ∀ r : Run, P r r.endDwell
  endMotion : ∀ r : Run, P r r.endMotion
  endFrame : ∀ r : Run, P r r.endFrame
  landed : ∀ r : Run, P r r.landed

variable {P : Run → Run → Prop}

theorem Passage.passed (hP : Passage P) {α : Type} {f : α → Exec PUnit} (list : List α)
    (h : ∀ a ∈ list, Along P (f a)) {r s : Run} (hs : s ∈ Exec.passed f list r) : P r s := by
  induction list generalizing r with
  | nil => cases hs
  | cons a rest ih =>
    have ha := h a List.mem_cons_self r
    rw [Exec.passed] at hs
    split at hs
    · rename_i after hx
      have hr : P r after := ha.of_ok hx
      rcases List.mem_cons.mp hs with rfl | hs
      · exact hr
      · exact hP.trans hr (ih (fun b hb => h b (List.mem_cons_of_mem a hb)) hs)
    · rename_i after hx
      cases List.mem_singleton.mp hs
      exact ha.of_error hx

namespace Stepwise

variable {programs : Table Program} {good : Program → Prop} (h : Stepwise programs good P)
include h

theorem endBlock (r : Run) : P r r.endBlock :=
  h.trans (h.endDwell r) (h.trans (h.endMotion _) (h.endFrame _))

theorem ending {r s : Run} (hs : s ∈ r.ending) : P r s := by
  have hdwell := h.endDwell r
  have hmotion : P r r.endDwell.endMotion := h.trans hdwell (h.endMotion _)
  simp only [Run.ending, List.mem_cons, List.not_mem_nil, or_false] at hs
  rcases hs with rfl | rfl | rfl
  · exact hdwell
  · exact hmotion
  · exact h.endBlock r

theorem runFrom (steps : Nat) {program : Program} (hgood : good program) (index : Nat) :
    Along P (Exec.runFrom programs steps program index) :=
  h.toPassage.runFrom good h.report h.statement h.endBlock h.landed steps program index hgood

theorem declared {program : Program} (hgood : good program) {block : Block}
    (hblock : block ∈ program.blocks) {d : Declaration} (hd : .declare d ∈ block.statements)
    {r s : Run} (hs : s ∈ Exec.declared block.line d r) : P r s := by
  have hvariable := h.declares program hgood block hblock d hd
  unfold Exec.declared at hs
  split at hs
  · rename_i htype
    exact h.passed d.declared (fun v hv => hvariable (.inl htype) v hv _) hs
  · rename_i htype
    exact h.passed d.declared (fun v hv => hvariable (.inr htype) v hv _) hs
  · cases hs

theorem inside {inner : Program → Run → List Run}
    (hinner : ∀ callee, good callee → ∀ r, ∀ s ∈ inner callee r, P r s)
    {program : Program} (hgood : good program) {block : Block} (hblock : block ∈ program.blocks)
    {statement : Statement} (hmem : statement ∈ block.statements) {r s : Run}
    (hs : s ∈ Exec.inside programs inner block.line statement r) : P r s := by
  unfold Exec.inside at hs
  split at hs
  · split at hs
    · exact h.declared hgood hblock hmem hs
    · split at hs
      · rename_i name callee hcall
        have hcallee := h.known _ callee (Statement.find?_of_callee? hcall)
        exact h.trans (h.report r _ rfl) (hinner callee hcallee _ s hs)
      · cases hs
  · cases hs

theorem statementsCourse {call : Program → Exec Unit} {inner : Program → Run → List Run}
    (hcall : ∀ callee, good callee → Along P (call callee))
    (hinner : ∀ callee, good callee → ∀ r, ∀ s ∈ inner callee r, P r s)
    {program : Program} (hgood : good program) {block : Block} (hblock : block ∈ program.blocks)
    (list : List Statement) (hlist : ∀ s ∈ list, s ∈ block.statements) {r s : Run}
    (hs : s ∈ Exec.statementsCourse programs call inner program block.line list r) : P r s := by
  induction list generalizing r with
  | nil => cases hs
  | cons statement rest ih =>
    have hmem := hlist statement List.mem_cons_self
    have hrest : ∀ s ∈ rest, s ∈ block.statements :=
      fun s hs => hlist s (List.mem_cons_of_mem statement hs)
    rw [Exec.statementsCourse] at hs
    split at hs
    · cases hs
    rcases List.mem_append.mp hs with hs | hs
    · exact h.inside hinner hgood hblock hmem hs
    have hstep := h.statement call hcall program hgood block hblock statement hmem r
    split at hs
    · rename_i after hx
      have hr : P r after := hstep.of_ok hx
      rcases List.mem_cons.mp hs with rfl | hs
      · exact hr
      · exact h.trans hr (ih hrest hs)
    · rename_i after hx
      cases List.mem_singleton.mp hs
      exact hstep.of_error hx

theorem course (steps : Nat) {program : Program} (hgood : good program) (index : Nat) {r s : Run}
    (hs : s ∈ Exec.course programs steps program index r) : P r s := by
  induction steps generalizing program index r s with
  | zero =>
    cases List.mem_singleton.mp hs
    exact h.refl _
  | succ steps ih =>
    simp only [Exec.course] at hs
    split at hs
    · cases List.mem_singleton.mp hs
      exact h.refl _
    rename_i b hb
    have hmem : b ∈ program.blocks := List.mem_of_getElem? hb
    have hcall : ∀ callee, good callee → Along P (Exec.runFrom programs steps callee 0) :=
      fun callee hc => h.runFrom steps hc 0
    have hinner : ∀ callee, good callee → ∀ r, ∀ s ∈ Exec.course programs steps callee 0 r, P r s :=
      fun callee hc r s hs => ih hc 0 hs
    have hentered := h.report r (.block index b.line program.blocks.length) rfl
    rcases List.mem_append.mp hs with hs | hs
    · rcases List.mem_append.mp hs with hs | hs
      · simp only [List.mem_cons, List.not_mem_nil, or_false] at hs
        rcases hs with rfl | rfl
        · exact h.refl s
        · exact hentered
      · exact h.trans hentered
          (h.statementsCourse hcall hinner hgood hmem b.statements (fun _ hs => hs) hs)
    split at hs
    · cases hs
    rename_i after hx
    have hlist := h.toPassage.statements b.statements
      (h.statement _ hcall program hgood b hmem)
    have hafter : P r after := h.trans hentered ((hlist _).of_ok hx)
    have hlanded : P r after.endBlock.landed :=
      h.trans hafter (h.trans (h.endBlock after) (h.landed _))
    rcases List.mem_append.mp hs with hs | hs
    · exact h.trans hafter (h.ending hs)
    split at hs
    · cases hs
    split at hs
    · exact h.trans hlanded (ih hgood _ hs)
    · cases List.mem_singleton.mp hs
      exact hlanded

end Stepwise

end Exec

namespace Session

/-- The states through which one call goes. -/
def course (s : Session) : Call → List State
  | .process steps p => (Exec.course s.programs steps p 0 { state := s.state }).map Run.state
  | .addSubprogram .. => [s.state]

def courseOf : List Call → Session → List State
  | [], s => [s.state]
  | call :: calls, s => s.course call ++ courseOf calls (s.perform call).2

end Session

end PartProgram
