import PartProgram.Block.Reader
import PartProgram.Proofs.Lockstep.Statement

/-!
# Blocks in lockstep

What a block holds in front of its line end is read the same at related
positions.
-/

set_option autoImplicit false

namespace PartProgram

/-- The block a number of lines further down. -/
def Block.below (k : Nat) (b : Block) : Block := { b with line := b.line + k }

namespace Lockstep

variable {d : Dialect} {k : Nat} {R : Cursor → Cursor → Prop} {n m : Nat} {c c' : Cursor}
variable (L : Lockstep d k R)
include L

theorem blockNumber (first : Option Statement) (h : R c c') (hn : c.size ≤ n)
    (hm : c'.size ≤ m) :
    Same k R n m (Reader.blockNumber first c) (Reader.blockNumber first c') := by
  match first with
  | none => exact Same.pure _ h hn hm
  | some (.assign name _ value) =>
    refine Same.ite (fun _ => ?_) (fun _ => Same.pure _ h hn hm)
    match value with
    | .num ⟨x, true, _⟩ =>
      dsimp only
      cases integral? x with
      | none => exact L.fail h _
      | some i => exact Same.pure _ h hn hm
    | .num ⟨_, false, _⟩ => exact L.fail h _
    | .str _ | .var .. | .call .. | .bracket _ | .un .. | .bin .. => exact L.fail h _
  | some (.gcode ..) | some (.mcode _) | some (.jump ..) | some (.declare _) | some (.flow _)
  | some (.instruction ..) => exact Same.pure _ h hn hm

omit L in
theorem labels_ended (ahead : List Char) (first : Option Statement) (h : c.inLine = none) :
    Reader.labels d ahead first c = .ok ([], first) c := by
  unfold Reader.labels
  split
  · rw [Reader.run_bind, accept_ended h (by decide)]
    rfl
  · rfl

theorem labels (ahead ahead' : List Char) (first : Option Statement) (h : R c c')
    (ha : c.size ≤ ahead.length) (ha' : c'.size ≤ ahead'.length) (hn : c.size ≤ n)
    (hm : c'.size ≤ m) :
    Same k R n m (Reader.labels d ahead first c) (Reader.labels d ahead' first c') := by
  induction ahead generalizing ahead' first c c' n m with
  | nil =>
    have hc : c.inLine = none := Cursor.inLine_of_size_zero (by simpa using ha)
    rw [labels_ended _ _ hc, labels_ended _ _ ((L.ended h).mpr hc)]
    exact Same.pure _ h hn hm
  | cons _ ahead ih =>
    cases ahead' with
    | nil =>
      have hc' : c'.inLine = none := Cursor.inLine_of_size_zero (by simpa using ha')
      rw [labels_ended _ _ ((L.ended h).mp hc'), labels_ended _ _ hc']
      exact Same.pure _ h hn hm
    | cons _ ahead' =>
      simp only [List.length_cons] at ha ha'
      match first with
      | some (.instruction name none) =>
        simp only [Reader.labels]
        cases hx : c.holds .colon ":" with
        | false =>
          have hx' := (L.holds h .colon (by decide) ":").trans hx
          rw [Reader.run_bind, Reader.run_bind, accept_missing hx, accept_missing hx']
          exact Same.pure _ h hn hm
        | true =>
          refine (L.accept_held (n := c.size - 1) (m := c'.size - 1) h (by decide) hx (by omega)
            (by omega)).bind (fun found c c' h h1 h2 => ?_)
          refine Same.ite (fun _ => ?_) (fun _ => Same.pure _ h (by omega) (by omega))
          refine (L.statement_within h h1 h2).bind (fun first c c' h h1 h2 => ?_)
          refine (ih ahead' first (n := n) (m := m) h (by omega) (by omega) (by omega)
            (by omega)).bind (fun rest c c' h h1 h2 => ?_)
          exact Same.pure _ h h1 h2
      | none | some (.instruction _ (some _)) | some (.assign ..) | some (.declare _)
      | some (.gcode ..) | some (.mcode _) | some (.jump ..) | some (.flow _) =>
        exact Same.pure _ h hn hm

omit L in
theorem statements_ended (ahead : List Char) (first : Option Statement) (h : c.inLine = none) :
    Reader.statements d ahead first c = .ok first.toList c := by
  cases first with
  | none => cases ahead <;> rfl
  | some s =>
    cases ahead with
    | nil => rfl
    | cons _ ahead =>
      have hs : Reader.statements d ahead none c = .ok [] c := by cases ahead <;> rfl
      have hl : c.atLineEnd = true := by rw [Cursor.atLineEnd_inLine, h]; rfl
      rw [Reader.statements, Reader.run_bind, statement_none hl]
      simp only [Reader.run_bind, hs]
      rfl

theorem statements (ahead ahead' : List Char) (first : Option Statement) (h : R c c')
    (ha : c.size ≤ ahead.length) (ha' : c'.size ≤ ahead'.length) (hn : c.size ≤ n)
    (hm : c'.size ≤ m) :
    Same k R n m (Reader.statements d ahead first c) (Reader.statements d ahead' first c') := by
  induction ahead generalizing ahead' first c c' n m with
  | nil =>
    have hc : c.inLine = none := Cursor.inLine_of_size_zero (by simpa using ha)
    rw [statements_ended _ _ hc, statements_ended _ _ ((L.ended h).mpr hc)]
    exact Same.pure _ h hn hm
  | cons _ ahead ih =>
    cases ahead' with
    | nil =>
      have hc' : c'.inLine = none := Cursor.inLine_of_size_zero (by simpa using ha')
      rw [statements_ended _ _ ((L.ended h).mp hc'), statements_ended _ _ hc']
      exact Same.pure _ h hn hm
    | cons _ ahead' =>
      simp only [List.length_cons] at ha ha'
      cases first with
      | none => exact Same.pure _ h hn hm
      | some s =>
        have none_left : ∀ ahead (c : Cursor), Reader.statements d ahead none c = .ok [] c := by
          intro ahead c
          cases ahead <;> rfl
        simp only [Reader.statements]
        rcases L.statement (n := c.size - 1) (m := c'.size - 1) h (by omega) (by omega) with
          ⟨hs, hs'⟩ | hs
        · simp only [Reader.run_bind, hs, hs', none_left]
          exact Same.pure _ h hn hm
        · refine hs.bind (fun first c c' h h1 h2 => ?_)
          exact (ih ahead' first h (by omega) (by omega) (by omega) (by omega)).bind
            (fun _ _ _ h h1 h2 => Same.pure _ h h1 h2)

theorem comment_held {t : Token} (h : R c c') (hc : c.held = some t) (ht : t.kind = .comment)
    (hn : c.size ≤ n + 1) (hm : c'.size ≤ m + 1) :
    Same k R n m (Reader.comment d c) (Reader.comment d c') := by
  have hs := L.select h (fun t => t.kind == .comment) (by intro t ht; simp [ht]) (fun _ => rfl)
  have hi : c.held.filter (fun t => t.kind == .comment) = some t := by
    simp [hc, Option.filter, ht]
  simp only [Reader.comment, Reader.run_get, hs, hi]
  exact L.advance_held_yield _ h hc (by simp [ht]) hn hm

theorem comment (h : R c c') (hn : c.size ≤ n) (hm : c'.size ≤ m) :
    Same k R n m (Reader.comment d c) (Reader.comment d c') := by
  have hs := L.select h (fun t => t.kind == .comment) (by intro t ht; simp [ht]) (fun _ => rfl)
  cases hi : c.held.filter (fun t => t.kind == .comment) with
  | none =>
    simp only [Reader.comment, Reader.run_get, hs, hi]
    exact Same.pure _ h hn hm
  | some t =>
    obtain ⟨hc, ht⟩ := Option.filter_eq_some_iff.mp hi
    exact L.comment_held h hc (by simpa using ht) (by omega) (by omega)

theorem blockBody (line : Nat) (number : Option Int) (ahead ahead' : List Char)
    (first : Option Statement) (h : R c c') (ha : c.size ≤ ahead.length)
    (ha' : c'.size ≤ ahead'.length) (hn : c.size ≤ n) (hm : c'.size ≤ m) :
    Agree (Apart k R) R (fun b b' => b' = b.below k) n m
      (Reader.blockBody d line number ahead first c)
      (Reader.blockBody d (line + k) number ahead' first c') := by
  refine (L.labels (n := c.size) (m := c'.size) ahead ahead' first h ha ha' (Nat.le_refl _)
    (Nat.le_refl _)).andThen (fun found c c' h h1 h2 => ?_)
  refine (L.statements (n := c.size) (m := c'.size) ahead ahead' found.2 h (by omega) (by omega)
    (Nat.le_refl _) (Nat.le_refl _)).andThen (fun list c c' h h3 h4 => ?_)
  refine (L.comment h h3 h4).andThen (fun comment c c' h h5 h6 => ?_)
  exact Agree.pure rfl h (by omega) (by omega)

omit L in
theorem blockContent_none (line : Nat) (h : c.atLineEnd = true) :
    Reader.blockContent d line c =
      (do return { line, comment := ← Reader.comment d } : Reader Block) c := by
  have hl : Reader.labels d c.ahead none c = .ok ([], none) c := by cases c.ahead <;> rfl
  have hs : Reader.statements d c.ahead none c = .ok [] c := by cases c.ahead <;> rfl
  simp only [Reader.blockContent, Reader.run_get]
  rw [Reader.run_bind, statement_none h]
  simp only [Reader.blockNumber, pure_bind, Reader.blockBody]
  rw [Reader.run_bind, hl]
  simp only [Reader.run_bind, hs]

theorem blockContent_more (line : Nat) (h : R c c') (hl : c.atLineEnd = false)
    (hn : c.size ≤ n + 1) (hm : c'.size ≤ m + 1) :
    Agree (Apart k R) R (fun b b' => b' = b.below k) n m
      (Reader.blockContent d line c) (Reader.blockContent d (line + k) c') := by
  have ha : c.size ≤ c.ahead.length := Nat.le_of_eq c.ahead_length.symm
  have ha' : c'.size ≤ c'.ahead.length := Nat.le_of_eq c'.ahead_length.symm
  simp only [Reader.blockContent, Reader.run_get]
  generalize c.ahead = ahead at ha
  generalize c'.ahead = ahead' at ha'
  refine (L.statement_more (n := c.size - 1) (m := c'.size - 1) h hl (by omega) (by omega)).andThen
    (fun first c c' h h1 h2 => ?_)
  refine (L.blockNumber first h h1 h2).andThen (fun number c c' h h1 h2 => ?_)
  cases number with
  | none =>
    exact L.blockBody line none ahead ahead' first h (by omega) (by omega) (by omega) (by omega)
  | some number =>
    refine (L.statement_within h h1 h2).andThen (fun first c c' h h1 h2 => ?_)
    exact L.blockBody line (some number) ahead ahead' first h (by omega) (by omega) (by omega)
      (by omega)

/-- The content of a block agrees and takes a token at least. -/
theorem blockContent (line : Nat) (h : R c c') (ht : c.inLine.isSome = true)
    (hn : c.size ≤ n + 1) (hm : c'.size ≤ m + 1) :
    Agree (Apart k R) R (fun b b' => b' = b.below k) n m
      (Reader.blockContent d line c) (Reader.blockContent d (line + k) c') := by
  cases hl : c.atLineEnd with
  | false => exact L.blockContent_more line h hl hn hm
  | true =>
    obtain ⟨t, hc⟩ := Option.isSome_iff_exists.mp ht
    have hk : t.kind = .comment := by simpa [Cursor.atLineEnd_inLine, hc] using hl
    rw [blockContent_none _ hl, blockContent_none _ ((L.atLineEnd h).trans hl)]
    refine (L.comment_held h (Cursor.held_of_inLine hc).1 hk hn hm).andThen
      (fun comment c c' h h1 h2 => ?_)
    exact Agree.pure rfl h h1 h2

end Lockstep

end PartProgram
