import PartProgram.Proofs.Run.InPlace.Call

/-!
# Subprograms in place

A block that does nothing but call a subprogram can be replaced by the blocks of
the subprogram.
-/

set_option autoImplicit false

namespace PartProgram

namespace Exec

variable {programs : Table Program} {call : Program → Exec Unit} {program : Program}
variable {steps : Nat} {r r' : Run}

/-- A program with a call in a block of its own, and the program with the blocks of the
subprogram in its place. -/
theorem in_place_matches {before after : List Block} {b : Block} {st : Statement} {name : String}
    {callee : Program} (hb : b.statements = [st])
    (hcallee : st.callee? programs = some (name, callee))
    (hmain : Program.JumpFree ⟨before ++ b :: after⟩) (hsub : callee.JumpFree)
    (hclosed : callee.depth callee.blocks.length = some 0) (steps steps' : Nat) {r : Run}
    (hdue : r.control.due = {}) (hgo : r.control.stopped = false) :
    Matches .exact (steps < steps' + 2) (steps' < steps + callee.blocks.length)
      (runFrom programs steps ⟨before ++ b :: after⟩ 0 r)
      (runFrom programs steps' ⟨before ++ (callee.blocks ++ after)⟩ 0 r) := by
  have hbefore : ∀ b' ∈ before, ∀ s ∈ b'.statements, s.isJump = false :=
    fun b' hb' => hmain b' (List.mem_append_left _ hb')
  have hafter : ∀ b' ∈ after, ∀ s ∈ b'.statements, s.isJump = false :=
    fun b' hb' => hmain b' (List.mem_append_right _ (List.mem_cons_of_mem b hb'))
  have hstart : (⟨before ++ b :: after⟩ : Program).blocks.drop 0 = before ++ b :: after := rfl
  have hstart' : (⟨before ++ (callee.blocks ++ after)⟩ : Program).blocks.drop 0 =
    before ++ (callee.blocks ++ after) := rfl
  have hp : (⟨before ++ b :: after⟩ : Program).blocks.drop (0 + before.length) = b :: after := by
    rw [Nat.zero_add]
    exact List.drop_left
  have hp' : (⟨before ++ (callee.blocks ++ after)⟩ : Program).blocks.drop (0 + before.length) =
      callee.blocks ++ after := by
    rw [Nat.zero_add]
    exact List.drop_left
  rcases run_through before hbefore steps steps' hstart hstart' (Run.Like.refl .exact r) hdue
    hgo with
    ⟨hmatch, -⟩ | ⟨hn, hm, r', s, hlike, hdue', hgo', hr, hs⟩
  · exact hmatch.mono (by omega) (by omega)
  rw [hr, hs]
  by_cases hskip : skipping r'.control.branches = true
  · exact (skipped_call_matches hafter hp hp' hb hcallee hclosed _ _ hlike hdue' hgo' hskip).mono
      (by omega) (by omega)
  · exact (reached_call_matches hafter hp hp' hb hcallee hsub _ _ hlike hdue' hgo'
      (Bool.eq_false_iff.mpr hskip)).mono (by omega) (by omega)

end Exec

def Halt.root : Halt → Halt
  | failed e => failed e.root
  | exhausted => exhausted

/-- Two runs have done the same: they report the same but for where they are, leave the same
session, and end well or with the same error at the root. -/
structure SameWork (x y : Outcome × Session) : Prop where
  events : x.1.events.filter (!·.isPlace) = y.1.events.filter (!·.isPlace)
  session : x.2 = y.2
  halt : x.1.halt.map Halt.root = y.1.halt.map Halt.root

theorem Event.seen_exact (events : List Event) :
    events.filterMap (Event.seen .exact) = events.filter (!·.isPlace) := by
  induction events with
  | nil => rfl
  | cons e events ih =>
    by_cases h : e.isPlace = true
    · simp [Event.seen, View.exact, h, ← ih]
    · simp [Event.seen, View.exact, h, ← ih, Event.rename_id]

theorem Halt.seen_exact (halt : Halt) : halt.seen .exact = halt.root := by
  cases halt <;> rfl

theorem Exec.Matches.sameWork {s : Session} {p p' : Program} {steps steps' : Nat}
    {short short' : Prop}
    (h : Exec.Matches .exact short short' (Exec.runFrom s.programs steps p 0 { state := s.state })
      (Exec.runFrom s.programs steps' p' 0 { state := s.state }))
    (hshort : short → (s.process steps p).1.halt ≠ some .exhausted)
    (hshort' : short' → (s.process steps' p').1.halt ≠ some .exhausted) :
    SameWork (s.process steps p) (s.process steps' p') := by
  have hevents : ∀ {r r' : Run}, r.Like .exact r' →
      r.events.toList.filter (!·.isPlace) = r'.events.toList.filter (!·.isPlace) := by
    intro r r' hlike
    rw [← Event.seen_exact, ← Event.seen_exact]
    exact hlike.seen
  unfold Session.process at hshort hshort' ⊢
  rcases h with ⟨h, t, hx⟩ | ⟨h, t, hy⟩ | ⟨_, r, r', hx, hy, hlike⟩ |
    ⟨halt, halt', r, r', hx, hy, hhalt, hlike⟩
  · rw [hx] at hshort
    exact absurd rfl (hshort h)
  · rw [hy] at hshort'
    exact absurd rfl (hshort' h)
  · rw [hx, hy]
    exact ⟨hevents hlike, by simp only [hlike.state], rfl⟩
  · rw [hx, hy]
    rw [Halt.seen_exact, Halt.seen_exact] at hhalt
    exact ⟨hevents hlike, by simp only [hlike.state], congrArg some hhalt⟩

/-- A call in a block of its own does what the blocks of the subprogram do in its place. One run
ends if the other does: the blocks in place take at most one step each, and the call takes a step
of its own and one to find the end of the subprogram. -/
theorem Session.call_in_place (s : Session) (before after : List Block) (b : Block)
    (st : Statement) (name : String) (callee : Program) (hb : b.statements = [st])
    (hcallee : st.callee? s.programs = some (name, callee))
    (hmain : Program.JumpFree ⟨before ++ b :: after⟩) (hsub : callee.JumpFree)
    (hclosed : callee.depth callee.blocks.length = some 0) (steps : Nat) :
    ((s.process steps ⟨before ++ b :: after⟩).1.halt ≠ some .exhausted →
      ∀ more, steps + callee.blocks.length ≤ more →
        SameWork (s.process steps ⟨before ++ b :: after⟩)
          (s.process more ⟨before ++ callee.blocks ++ after⟩)) ∧
    ((s.process steps ⟨before ++ callee.blocks ++ after⟩).1.halt ≠ some .exhausted →
      ∀ more, steps + 2 ≤ more →
        SameWork (s.process more ⟨before ++ b :: after⟩)
          (s.process steps ⟨before ++ callee.blocks ++ after⟩)) := by
  rw [List.append_assoc]
  have hmatches : ∀ n n', Exec.Matches .exact (n < n' + 2) (n' < n + callee.blocks.length)
      (Exec.runFrom s.programs n ⟨before ++ b :: after⟩ 0 { state := s.state })
      (Exec.runFrom s.programs n' ⟨before ++ (callee.blocks ++ after)⟩ 0 { state := s.state }) :=
    fun n n' => Exec.in_place_matches hb hcallee hmain hsub hclosed n n' rfl rfl
  constructor
  · intro hends more hmore
    apply (hmatches steps more).sameWork
    · exact fun _ => hends
    · intro hshort
      omega
  · intro hends more hmore
    apply (hmatches more steps).sameWork
    · intro hshort
      omega
    · exact fun _ => hends

theorem Session.call_in_place_branch :
    let callee : Program := ⟨[
      { line := 1, statements := [.flow (.ifThen (.int 1)), .mcode 6] },
      { line := 2, statements := [.flow .otherwise] },
      { line := 3, statements := [.mcode 7, .flow .endIf] }]⟩
    let call : Block := { line := 2, statements := [.instruction "sub" none] }
    let s : Session := { programs := [("SUB", callee)] }
    SameWork (s.process 9 ⟨[{ line := 1, statements := [.mcode 5] }] ++ call ::
        [{ line := 3, statements := [.mcode 9] }]⟩)
      (s.process 12 ⟨[{ line := 1, statements := [.mcode 5] }] ++ callee.blocks ++
        [{ line := 3, statements := [.mcode 9] }]⟩) := by
  intro callee call s
  have hmain : Program.JumpFree ⟨[{ line := 1, statements := [.mcode 5] }] ++ call ::
      [{ line := 3, statements := [.mcode 9] }]⟩ := by
    unfold Program.JumpFree
    decide
  have hsub : callee.JumpFree := by
    unfold Program.JumpFree
    decide
  exact (s.call_in_place [{ line := 1, statements := [.mcode 5] }]
    [{ line := 3, statements := [.mcode 9] }] call (.instruction "sub" none) "sub" callee rfl
    (by rfl) hmain hsub (by rfl) 9).1 (by decide) 12 (by decide)

end PartProgram
