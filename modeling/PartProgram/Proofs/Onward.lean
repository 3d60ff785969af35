import PartProgram.Proofs.Lines.Shift

/-!
# Positions move onward

A reader leaves a position that is not behind the one it began at, also when it fails:
what is unread was unread before, and no more is left to read. Where it finds something
it has taken a token. The lockstep of a reading with itself carries both through the
readers of a line.
-/

set_option autoImplicit false

namespace PartProgram

/-- A later position of one reading: what is unread now was unread before, and no more
is left to read. -/
structure Cursor.Later (c after : Cursor) : Prop where
  suffix : after.unread <:+ c.unread
  size_le : after.size ≤ c.size

namespace Cursor.Later

variable {c mid after : Cursor}

theorem refl (c : Cursor) : Later c c := ⟨List.suffix_rfl, Nat.le_refl _⟩

theorem trans (h : Later c mid) (h' : Later mid after) : Later c after :=
  ⟨h'.suffix.trans h.suffix, Nat.le_trans h'.size_le h.size_le⟩

end Cursor.Later

namespace Reader

def position {α : Type} : EStateM.Result ReadError Cursor α → Cursor
  | .ok _ after => after
  | .error _ after => after

theorem advance_later (d : Dialect) (c : Cursor) : c.Later (position (advance d c)) := by
  simp only [advance]
  cases hs : Scan.next d c.line c.unread with
  | finished => exact ⟨List.nil_suffix, Nat.zero_le _⟩
  | token t line rest =>
    have hr := Scan.next_token_rest hs
    refine ⟨hr.2, ?_⟩
    simp only [position, Cursor.size, Option.isSome_some, if_true]
    omega
  | fault cause rest =>
    have hr := Scan.next_fault_rest hs
    exact ⟨hr, Nat.add_le_add_right hr.length_le _⟩

end Reader

/-- Two readings of one position, which has not moved back behind the start. -/
def Onward (start c c' : Cursor) : Prop := c' = c ∧ c.unread <:+ start.unread

theorem lockstep_onward (d : Dialect) (start : Cursor) : Lockstep d 0 (Onward start) where
  inLine := by
    rintro _ c ⟨rfl, -⟩
    cases c.inLine <;> rfl
  errorLine := by
    rintro _ c ⟨rfl, -⟩
    rfl
  step := by
    rintro _ c ⟨rfl, h⟩ -
    have ha := (Reader.advance_later d c).suffix
    cases hc : Reader.advance d c with
    | ok _ after => rw [hc] at ha; exact ⟨rfl, ha.trans h⟩
    | error e after => rw [hc] at ha; exact ⟨rfl, rfl, ha.trans h⟩

theorem onward_refl (c : Cursor) : Onward c c c := ⟨rfl, List.suffix_rfl⟩

theorem Agree.size_le {α β : Type} {E : ReadError → ReadError → Prop}
    {R : Cursor → Cursor → Prop} {S : α → β → Prop} {n m : Nat} {c c' after : Cursor}
    {p : Reader α} {p' : Reader β} {a : α} (h : Agree E R S n m (p c) (p' c'))
    (ha : p c = .ok a after) : after.size ≤ n := by
  rw [ha] at h
  cases hp : p' c' with
  | ok a' after' =>
    rw [hp] at h
    exact h.2.2.1
  | error e after' =>
    rw [hp] at h
    exact h.elim

namespace Reader

variable {d : Dialect} {c after : Cursor}

theorem takes_of_found {α : Type} {p : Reader (Option α)} {q : Prop} {found : Option α}
    (hp : p c = .ok none c ∧ q ∨ Same 0 (Onward c) (c.size - 1) (c.size - 1) (p c) (p c))
    (h : p c = .ok found after) : after.size ≤ c.size - (if found.isSome then 1 else 0) := by
  rcases hp with ⟨hnone, -⟩ | hsame
  · cases hnone.symm.trans h
    exact Nat.le_refl _
  · exact Nat.le_trans (hsame.size_le h) (by split <;> omega)

theorem binaryOperator_takes {found : Option BinaryOp} (h : binaryOperator d c = .ok found after) :
    after.size ≤ c.size - (if found.isSome then 1 else 0) :=
  takes_of_found ((lockstep_onward d c).binaryOperator (onward_refl c) (by omega) (by omega)) h

theorem unaryOperator_takes {found : Option UnaryOp} (h : unaryOperator d c = .ok found after) :
    after.size ≤ c.size - (if found.isSome then 1 else 0) :=
  takes_of_found ((lockstep_onward d c).unaryOperator (onward_refl c) (by omega) (by omega)) h

theorem statement_takes {found : Option Statement} (h : statement d c = .ok found after) :
    after.size ≤ c.size - (if found.isSome then 1 else 0) :=
  takes_of_found ((lockstep_onward d c).statement (onward_refl c) (by omega) (by omega)) h

theorem accept_takes {kind : TokenKind} {text : String} {found : Bool} (hk : kind ≠ .newLine)
    (h : accept d kind text c = .ok found after) :
    after.size ≤ c.size - (if found then 1 else 0) := by
  cases hx : c.holds kind text with
  | true =>
    refine Nat.le_trans (((lockstep_onward d c).accept_held (n := c.size - 1) (m := c.size)
      (onward_refl c) hk hx (by omega) (by omega)).size_le h) (by split <;> omega)
  | false =>
    rw [Lockstep.accept_missing hx] at h
    cases h
    exact Nat.le_refl _

theorem statement_size_le {found : Option Statement}
    (h : statement d c = .ok found after) : after.size ≤ c.size :=
  Nat.le_trans (statement_takes h) (Nat.sub_le _ _)

theorem nextBlock_takes {b : Block} (h : nextBlock d c = .ok (some b) after) :
    after.size < c.size := by
  have hs := (nextBlock_shifted d 0 c).size_le h
  have hc : c.size ≠ 0 := by
    intro hc
    obtain ⟨_, hnone⟩ := nextBlock_nothing d hc
    cases hnone.symm.trans h
  omega

theorem bind_later {α β : Type} {p : Reader α} {f : α → Reader β}
    (hp : c.Later (position (p c)))
    (hf : ∀ a after, p c = .ok a after → after.Later (position (f a after))) :
    c.Later (position ((p >>= f) c)) := by
  rw [run_bind]
  cases h : p c with
  | ok a mid =>
    rw [h] at hp
    exact hp.trans (hf a mid h)
  | error e mid =>
    rw [h] at hp
    exact hp

/-- A block's content is read onward, and an error in it leaves at most a token held in
place of the one it began with. -/
theorem blockContent_later (line : Nat) (ht : c.inLine.isSome = true) :
    c.Later (position (blockContent d line c)) := by
  obtain ⟨t, hc⟩ := Option.isSome_iff_exists.mp ht
  have hheld := (Cursor.held_of_inLine hc).1
  have h := (lockstep_onward d c).blockContent line (onward_refl c) ht (n := c.size)
    (m := c.size) (by omega) (by omega)
  rw [Nat.add_zero] at h
  cases hb : blockContent d line c with
  | ok b after =>
    rw [hb] at h
    exact ⟨h.2.1.2, h.2.2.1⟩
  | error e after =>
    rw [hb] at h
    have hs : after.unread <:+ c.unread := h.2.2
    have hsize : after.size ≤ after.unread.length + 1 := by
      unfold Cursor.size
      split <;> omega
    have hc : c.size = c.unread.length + 1 := by simp [Cursor.size, hheld]
    exact ⟨hs, hc ▸ Nat.le_trans hsize (Nat.succ_le_succ hs.length_le)⟩

theorem lineEnd_later (d : Dialect) (c : Cursor) : c.Later (position (lineEnd d c)) := by
  simp only [lineEnd, run_get]
  cases c.held with
  | none => exact Cursor.Later.refl c
  | some t =>
    dsimp only
    split
    · exact advance_later d c
    · exact Cursor.Later.refl c

theorem heldBlock_later (d : Dialect) (c : Cursor) : c.Later (position (heldBlock d c)) := by
  simp only [heldBlock, run_get]
  cases hc : c.held with
  | none => exact Cursor.Later.refl c
  | some t =>
    dsimp only
    split
    · exact bind_later (advance_later d c) (fun _ after _ => Cursor.Later.refl after)
    · rename_i hk
      have ht : c.inLine.isSome = true := by simp [Cursor.inLine, hc, Option.filter, hk]
      rw [map_eq_pure_bind, blockFrom]
      refine bind_later (bind_later (blockContent_later t.line ht) (fun b mid _ => ?_))
        (fun _ after _ => Cursor.Later.refl after)
      exact bind_later (lineEnd_later d mid) (fun _ after _ => Cursor.Later.refl after)

/-- A call moves the position onward, also if it fails. -/
theorem nextBlock_later (d : Dialect) (c : Cursor) : c.Later (position (nextBlock d c)) := by
  cases hc : c.held with
  | some t =>
    rw [nextBlock_held d hc]
    exact heldBlock_later d c
  | none =>
    rw [nextBlock_start d hc]
    exact bind_later (advance_later d c) (fun _ after _ => heldBlock_later d after)

theorem heldBlock_none (h : heldBlock d c = .ok none after) : c.held = none ∧ after = c := by
  simp only [heldBlock, run_get] at h
  cases hc : c.held with
  | none =>
    rw [hc] at h
    cases h
    exact ⟨rfl, rfl⟩
  | some t =>
    rw [hc] at h
    dsimp only at h
    split at h
    · obtain ⟨_, _, _, hb⟩ := ok_bind h
      cases hb
    · obtain ⟨_, _, hb⟩ := ok_map h
      cases hb

theorem nextBlock_none (h : nextBlock d c = .ok none after) : after.size = 0 := by
  cases hc : c.held with
  | some t =>
    rw [nextBlock_held d hc] at h
    simp [(heldBlock_none h).1] at hc
  | none =>
    rw [nextBlock_start d hc] at h
    obtain ⟨_, mid, hadvance, hheld⟩ := ok_bind h
    obtain ⟨hmid, rfl⟩ := heldBlock_none hheld
    exact size_of_finished hadvance hmid

end Reader

end PartProgram
