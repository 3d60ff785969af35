import Mathlib.Data.List.TakeWhile
import PartProgram.Proofs.Lines.Scan
import PartProgram.Proofs.Lines.Shift

/-!
# Reading a line with what follows

The block of a line, or its error, is the one that the line has on its own, and what follows
is read as a text of its own that begins one line further down.
-/

set_option autoImplicit false

namespace PartProgram

/-- A position in a line that stands alone, and the same position where a line
end and more text follow. -/
inductive Beside (e r : List Char) (line : Nat) : Cursor → Cursor → Prop where
  | held {u : List Char} {t : Token} (hu : Unbroken u) (hk : t.kind ≠ .newLine)
      (hl : t.line = line) : Beside e r line ⟨u, line, some t⟩ ⟨u ++ (e ++ r), line, some t⟩
  | ended (spaced : Bool) : Beside e r line ⟨[], line, none⟩
      ⟨r, line + 1, some ⟨.newLine, String.ofList e, spaced, line⟩⟩

variable {d : Dialect} {u e r : List Char} {line : Nat}

namespace Beside

theorem advance (d : Dialect) (line : Nat) (he : Scan.IsLineEnd e r) (hu : Unbroken u)
    (h : Option Token) :
    (∃ c c', Reader.advance d ⟨u, line, h⟩ = .ok () c ∧
        Reader.advance d ⟨u ++ (e ++ r), line, h⟩ = .ok () c' ∧ Beside e r line c c') ∨
      ∃ cause rest, Unbroken rest ∧
        Reader.advance d ⟨u, line, h⟩ = .error ⟨line, cause⟩ ⟨rest, line, h⟩ ∧
        Reader.advance d ⟨u ++ (e ++ r), line, h⟩ =
          .error ⟨line, cause⟩ ⟨rest ++ (e ++ r), line, h⟩ := by
  simp only [Reader.advance]
  cases hs : Scan.next d line u with
  | finished =>
    obtain ⟨spaced, hs'⟩ := Scan.next_lineEnd d line he hs
    simp only [hs']
    exact .inl ⟨_, _, rfl, rfl, .ended spaced⟩
  | token t after rest =>
    obtain ⟨hs', hk, hl, rfl, hr⟩ := Scan.next_token_line he.atLineEnd hu hs
    simp only [hs']
    exact .inl ⟨_, _, rfl, rfl, .held hr hk hl⟩
  | fault cause rest =>
    obtain ⟨hs', hr⟩ := Scan.next_fault_line he.atLineEnd hu hs
    simp only [hs']
    exact .inr ⟨cause, rest, hr, rfl, rfl⟩

theorem lockstep (d : Dialect) (line : Nat) (he : Scan.IsLineEnd e r) :
    Lockstep d 0 (Beside e r line) where
  inLine := by
    intro c c' h
    cases h with
    | held hu hk hl => simp [Cursor.inLine, Option.filter, hk]
    | ended spaced => rfl
  errorLine := by
    intro c c' h
    cases h with
    | held hu hk hl => rfl
    | ended spaced => rfl
  step := by
    intro c c' h ht
    cases h with
    | ended spaced => cases ht
    | @held u t hu hk hl =>
      rcases advance d line he hu (some t) with
        ⟨c, c', ha, ha', hb⟩ | ⟨cause, rest, hr, ha, ha'⟩
      · rw [ha, ha']
        exact hb
      · rw [ha, ha']
        exact ⟨rfl, .held hr hk hl⟩

theorem line_of_apart {err err' : ReadError} (h : Apart 0 (Beside e r line) err err') :
    err' = err ∧ err.line = line := by
  obtain ⟨rfl, c, c', hb, hl⟩ := h
  refine ⟨rfl, ?_⟩
  cases hb with
  | held hu hk ht =>
    rcases hl with hl | hl
    · exact hl
    · exact hl.trans ht
  | ended spaced => rcases hl with hl | hl <;> exact hl

end Beside

theorem blockBody_line {number : Option Int} {ahead : List Char} {first : Option Statement}
    {c after : Cursor} {b : Block}
    (h : Reader.blockBody d line number ahead first c = .ok b after) : b.line = line := by
  obtain ⟨_, _, -, h⟩ := Reader.ok_bind h
  obtain ⟨_, _, -, h⟩ := Reader.ok_bind h
  obtain ⟨_, _, -, h⟩ := Reader.ok_bind h
  cases h
  rfl

theorem blockContent_line {c after : Cursor} {b : Block}
    (h : Reader.blockContent d line c = .ok b after) : b.line = line := by
  obtain ⟨_, _, -, h⟩ := Reader.ok_bind h
  obtain ⟨_, _, -, h⟩ := Reader.ok_bind h
  obtain ⟨number, _, -, h⟩ := Reader.ok_bind h
  cases number with
  | none => exact blockBody_line h
  | some number =>
    obtain ⟨_, _, -, h⟩ := Reader.ok_bind h
    exact blockBody_line h

theorem lineEnd_held {t : Token} (hk : t.kind ≠ .newLine) :
    Reader.lineEnd d ⟨u, line, some t⟩ =
      .error ⟨t.line, .expectedLineEnd t.text⟩ ⟨u, line, some t⟩ := by
  simp only [Reader.lineEnd, Reader.run_get, hk, if_false, Reader.failWith, Cursor.errorLine,
    Cursor.found, Option.map_some, Option.getD_some]

/-- A block of a line with what follows: the same error, or the same block, behind
which the line end is stepped over. -/
theorem blockFrom_beside (he : Scan.IsLineEnd e r) {c c' : Cursor}
    (h : Beside e r line c c') (ht : c.inLine.isSome = true) :
    (∃ err after after', err.line = line ∧ Reader.blockFrom d line c = .error err after ∧
        Reader.blockFrom d line c' = .error err after') ∨
      ∃ b t, b.line = line ∧ Reader.blockFrom d line c = .ok b ⟨[], line, none⟩ ∧
        Reader.blockFrom d line c' =
          (do Reader.advance d; return b : Reader Block) ⟨r, line + 1, some t⟩ := by
  have hb := (Beside.lockstep d line he).blockContent (n := c.size) (m := c'.size) line h ht
    (by omega) (by omega)
  simp only [Reader.blockFrom, Nat.add_zero] at hb ⊢
  rw [Reader.run_bind, Reader.run_bind]
  cases hc : Reader.blockContent d line c with
  | error err after =>
    cases hc' : Reader.blockContent d line c' with
    | ok b' after' => rw [hc, hc'] at hb; exact hb.elim
    | error err' after' =>
      rw [hc, hc'] at hb
      obtain ⟨rfl, hl⟩ := Beside.line_of_apart hb.1
      exact .inl ⟨_, _, _, hl, rfl, rfl⟩
  | ok b after =>
    cases hc' : Reader.blockContent d line c' with
    | error err' after' => rw [hc, hc'] at hb; exact hb.elim
    | ok b' after' =>
      rw [hc, hc'] at hb
      obtain ⟨rfl, hab, -⟩ := hb
      have hl := blockContent_line hc
      cases hab with
      | @held u t hu hk htl =>
        refine .inl ⟨⟨t.line, .expectedLineEnd t.text⟩, ⟨u, line, some t⟩,
          ⟨u ++ (e ++ r), line, some t⟩, htl, ?_, ?_⟩
        · simp only [Reader.run_bind, lineEnd_held hk]
        · simp only [Reader.run_bind, lineEnd_held hk]
      | ended spaced => exact .inr ⟨b, _, hl, rfl, rfl⟩

theorem next_finished_iff (d : Dialect) (line : Nat) :
    Scan.next d line u = .finished ↔ u.all isBlank = true := by
  rw [List.all_eq_true]
  constructor
  · intro h c hc
    have hb : u.dropWhile isBlank = [] := by
      simp only [Scan.next] at h
      split at h
      · assumption
      · split at h <;> cases h
    exact List.dropWhile_eq_nil_iff.mp hb c hc
  · intro h
    simp only [Scan.next, List.dropWhile_eq_nil_iff.mpr h]

theorem nextBlock_beside (d : Dialect) (line : Nat) (he : Scan.IsLineEnd e r) (hu : Unbroken u) :
    (∃ err after after', err.line = line ∧ Reader.nextBlock d ⟨u, line, none⟩ = .error err after ∧
        Reader.nextBlock d ⟨u ++ (e ++ r), line, none⟩ = .error err after') ∨
      ∃ found t, (found = none ↔ u.all isBlank = true) ∧ (∀ b ∈ found, b.line = line) ∧
        Reader.nextBlock d ⟨u, line, none⟩ = .ok found ⟨[], line, none⟩ ∧
        Reader.nextBlock d ⟨u ++ (e ++ r), line, none⟩ =
          (do Reader.advance d; return some (found.getD { line }) : Reader (Option Block))
            ⟨r, line + 1, some t⟩ := by
  rw [nextBlock_start d rfl, nextBlock_start d rfl, Reader.run_bind, Reader.run_bind]
  rcases Beside.advance d line he hu none with
    ⟨c, c', ha, ha', hb⟩ | ⟨cause, rest, -, ha, ha'⟩
  · rw [ha, ha']
    have hfin : c.held = none ↔ u.all isBlank = true := by
      rw [← next_finished_iff d line]
      simp only [Reader.advance] at ha
      split at ha <;> cases ha <;> simp_all
    cases hb with
    | ended spaced =>
      refine .inr ⟨none, _, ⟨fun _ => hfin.mp rfl, fun _ => rfl⟩, by simp, rfl, rfl⟩
    | @held rest t hr hk hl =>
      have hblank : u.all isBlank ≠ true := fun h => by cases hfin.mpr h
      subst hl
      simp only [Reader.heldBlock, Reader.run_get, hk, if_false]
      rw [Reader.run_map, Reader.run_map]
      rcases blockFrom_beside (d := d) he (.held hr hk rfl)
          (by simp [Cursor.inLine, Option.filter, hk]) with
        ⟨err, after, after', hl, hx, hx'⟩ | ⟨b, t', hl, hx, hx'⟩
      · rw [hx, hx']
        exact .inl ⟨err, after, after', hl, rfl, rfl⟩
      · rw [hx, hx']
        refine .inr ⟨some b, t', by simpa using hblank, by simpa using hl, rfl, ?_⟩
        simp only [Reader.run_bind]
        cases Reader.advance d ⟨r, t.line + 1, some t'⟩ <;> rfl
  · rw [ha, ha']
    exact .inl ⟨_, _, _, rfl, rfl, rfl⟩

theorem blocksFrom_start (d : Dialect) (ahead : List Char) {c : Cursor} (h : c.held = none)
    (ha : c.size ≤ ahead.length) :
    Program.blocksFrom d ahead c = match Reader.advance d c with
      | .ok _ after => Program.blocksFrom d ahead after
      | .error err _ => .error err := by
  have hn := (nextBlock_start d h).trans (Reader.run_bind _ _ c)
  cases ahead with
  | nil =>
    obtain ⟨_, hz⟩ := nextBlock_nothing d (by simpa using ha : c.size = 0)
    cases hx : Reader.advance d c with
    | error err after => simp [hn, hx] at hz
    | ok _ after => rfl
  | cons _ ahead =>
    cases hx : Reader.advance d c with
    | error err after => simp only [Program.blocksFrom, hn, hx]
    | ok _ after =>
      simp only [Program.blocksFrom, hn, hx]
      cases hh : after.held with
      | none =>
        obtain ⟨_, hz⟩ := nextBlock_nothing d (size_of_finished hx hh)
        simp only [Reader.heldBlock, Reader.run_get, hh, hz]
        rfl
      | some t => rw [nextBlock_held d hh]

namespace Program

/-- The blocks of a text that begins on the given line. -/
def blocksAt (d : Dialect) (line : Nat) (cs : List Char) : Except ReadError (List Block) :=
  blocksFrom d cs ⟨cs, line, none⟩

theorem parse_eq (d : Dialect) (text : String) :
    parse d text = (⟨·⟩) <$> blocksAt d 1 text.toList := rfl

theorem blocksAt_below (d : Dialect) (line k : Nat) (cs : List Char) :
    blocksAt d (line + k) cs = shift k (blocksAt d line cs) :=
  blocksFrom_below d k cs cs ⟨cs, line, none⟩ (by simp [Cursor.size]) (by simp [Cursor.size])

theorem blocksAt_of_error {cs : List Char} {err : ReadError} {after : Cursor}
    (h : Reader.nextBlock d ⟨cs, line, none⟩ = .error err after) :
    blocksAt d line cs = .error err := by
  cases cs with
  | nil =>
    obtain ⟨_, hn⟩ := nextBlock_nothing d (rfl : Cursor.size ⟨[], line, none⟩ = 0)
    simp [hn] at h
  | cons c cs => simp only [blocksAt, blocksFrom, h]

theorem blocksAt_of_last {cs : List Char} {found : Option Block} {after : Cursor}
    (h : Reader.nextBlock d ⟨cs, line, none⟩ = .ok found after) (hz : after.size = 0) :
    blocksAt d line cs = .ok found.toList := by
  cases cs with
  | nil =>
    obtain ⟨_, hn⟩ := nextBlock_nothing d (rfl : Cursor.size ⟨[], line, none⟩ = 0)
    rw [hn] at h
    cases h
    rfl
  | cons c cs =>
    cases found with
    | none => simp only [blocksAt, blocksFrom, h, Option.toList]
    | some b =>
      simp only [blocksAt, blocksFrom, h, blocksFrom_nothing d cs hz]
      rfl

theorem blocksFrom_lineEnd (d : Dialect) (line : Nat) (t : Token) {ahead : List Char} (b : Block)
    (ha : r.length ≤ ahead.length) :
    (match (do Reader.advance d; return some b : Reader (Option Block)) ⟨r, line, some t⟩ with
      | .ok none _ => Except.ok []
      | .ok (some b) after => (b :: ·) <$> blocksFrom d ahead after
      | .error err _ => .error err) = (b :: ·) <$> blocksAt d line r := by
  have hs := blocksFrom_start d r (c := ⟨r, line, none⟩) rfl (by simp [Cursor.size])
  rw [blocksAt, hs, Reader.run_bind]
  cases hx : Reader.advance d ⟨r, line, none⟩ with
  | error err after =>
    have hx' : ∃ after', Reader.advance d ⟨r, line, some t⟩ = .error err after' := by
      simp only [Reader.advance] at hx ⊢
      cases hn : Scan.next d line r <;> simp [hn] at hx ⊢
      exact hx.1
    obtain ⟨after', hx'⟩ := hx'
    rw [hx']
    rfl
  | ok _ after =>
    have hx' : Reader.advance d ⟨r, line, some t⟩ = .ok () after := by
      simp only [Reader.advance] at hx ⊢
      cases hn : Scan.next d line r <;> simp [hn] at hx ⊢ <;> exact hx
    have hz : after.size ≤ r.length := advance_none_size rfl hx
    rw [hx']
    exact congrArg ((b :: ·) <$> ·) (blocksFrom_enough d r ahead after hz (Nat.le_trans hz ha))

theorem blocksAt_line (d : Dialect) (line : Nat) (he : Scan.IsLineEnd e r) (hu : Unbroken u) :
    (∃ err, err.line = line ∧ blocksAt d line u = .error err ∧
        blocksAt d line (u ++ (e ++ r)) = .error err) ∨
      ∃ found : Option Block, (found = none ↔ u.all isBlank = true) ∧
        (∀ b ∈ found, b.line = line) ∧ blocksAt d line u = .ok found.toList ∧
        blocksAt d line (u ++ (e ++ r)) =
          (found.getD { line } :: ·) <$> blocksAt d (line + 1) r := by
  rcases nextBlock_beside d line he hu with
    ⟨err, after, after', hl, hn, hn'⟩ | ⟨found, t, hf, hl, hn, hn'⟩
  · exact .inl ⟨err, hl, blocksAt_of_error hn, blocksAt_of_error hn'⟩
  · refine .inr ⟨found, hf, hl, blocksAt_of_last hn rfl, ?_⟩
    obtain ⟨x, xs, hx⟩ : ∃ x xs, u ++ (e ++ r) = x :: xs := by
      cases u with
      | cons x u => exact ⟨x, _, rfl⟩
      | nil => rcases he with rfl | rfl | ⟨rfl, -⟩ <;> exact ⟨_, _, rfl⟩
    have hlen : r.length ≤ xs.length := by
      have := congrArg List.length hx
      have he : 0 < e.length := by rcases he with rfl | rfl | ⟨rfl, -⟩ <;> decide
      simp only [List.length_append, List.length_cons] at this
      omega
    rw [← blocksFrom_lineEnd d (line + 1) t _ hlen, ← hn', blocksAt, hx]
    rfl

end Program

end PartProgram
