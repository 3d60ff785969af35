import PartProgram.Proofs.Lockstep.Block

/-!
# Reading further down

Where a text begins has no influence on how it is read: the blocks and errors
of a text that begins some lines further down are the same, that many lines
further down. The characters ahead that bound the reading do not matter either.
-/

set_option autoImplicit false

namespace PartProgram

/-- The position a number of lines further down. -/
def Cursor.below (k : Nat) (c : Cursor) : Cursor :=
  ⟨c.unread, c.line + k, c.held.map (Token.below k)⟩

@[simp]
theorem Cursor.size_below (k : Nat) (c : Cursor) : (c.below k).size = c.size := by
  simp [size, below]

@[simp]
theorem Cursor.below_zero (c : Cursor) : c.below 0 = c := by
  cases c with
  | mk unread line held => cases held <;> rfl

theorem Cursor.inLine_below (k : Nat) (c : Cursor) :
    (c.below k).inLine = c.inLine.map (Token.below k) := by
  cases hh : c.held with
  | none => simp [inLine, below, hh]
  | some t => by_cases ht : t.kind = .newLine <;> simp [inLine, below, hh, ht, Option.filter]

theorem Cursor.errorLine_below (k : Nat) (c : Cursor) :
    (c.below k).errorLine = c.errorLine + k := by
  cases hh : c.held with
  | none => simp [errorLine, below, hh]
  | some t => simp [errorLine, below, hh, Token.below]

def Scan.below (k : Nat) : Scan → Scan
  | finished => .finished
  | token t line rest => .token (t.below k) (line + k) rest
  | fault cause rest => .fault cause rest

theorem Scan.next_below (d : Dialect) (k line : Nat) (cs : List Char) :
    next d (line + k) cs = (next d line cs).below k := by
  simp only [next]
  cases cs.dropWhile isBlank with
  | nil => rfl
  | cons c rest =>
    cases hx : lexeme d c rest with
    | fault cause beyond => simp only [hx, Scan.below]
    | found kind text beyond =>
      simp only [hx, Scan.below, Token.below]
      split <;> simp only [Nat.add_right_comm]

/-- Two positions that differ only in where the text begins. -/
def Cursor.Below (k : Nat) (c c' : Cursor) : Prop := c' = c.below k

theorem advance_below (d : Dialect) (k : Nat) (c : Cursor) :
    Reader.advance d (c.below k) = match Reader.advance d c with
      | .ok _ after => .ok () (after.below k)
      | .error e after => .error (e.below k) (after.below k) := by
  simp only [Reader.advance]
  rw [show (c.below k).line = c.line + k from rfl, show (c.below k).unread = c.unread from rfl,
    Scan.next_below]
  cases Scan.next d c.line c.unread <;> rfl

theorem lockstep_below (d : Dialect) (k : Nat) : Lockstep d k (Cursor.Below k) where
  inLine := by
    rintro c _ rfl
    exact c.inLine_below k
  errorLine := by
    rintro c _ rfl
    exact c.errorLine_below k
  step := by
    rintro c _ rfl _
    rw [advance_below]
    cases Reader.advance d c with
    | ok _ after => rfl
    | error e after => exact ⟨rfl, rfl⟩

theorem advance_shifted (d : Dialect) (k n : Nat) (c : Cursor)
    (hn : ∀ after, Reader.advance d c = .ok () after → after.size ≤ n) :
    Same k (Cursor.Below k) n n (Reader.advance d c) (Reader.advance d (c.below k)) := by
  rw [advance_below]
  cases ha : Reader.advance d c with
  | ok _ after =>
    have hs := hn after ha
    exact ⟨rfl, rfl, hs, by rwa [Cursor.size_below]⟩
  | error e after => exact ⟨⟨rfl, c, _, rfl, .inl (Reader.advance_error ha)⟩, rfl⟩

theorem advance_none_size {d : Dialect} {c after : Cursor} (h : c.held = none)
    (ha : Reader.advance d c = .ok () after) : after.size ≤ c.size := by
  simp only [Reader.advance] at ha
  split at ha
  · cases ha
    simp [Cursor.size]
  · rename_i t line rest heq
    cases ha
    have := (Scan.next_token_rest heq).1
    simp only [Cursor.size, h, Option.isSome_some, if_true]
    omega
  · cases ha

theorem lineEnd_shifted (d : Dialect) (k n : Nat) (c : Cursor) (hn : c.size ≤ n) :
    Same k (Cursor.Below k) n n (Reader.lineEnd d c) (Reader.lineEnd d (c.below k)) := by
  cases hh : c.held with
  | none =>
    have hh' : (c.below k).held = none := by simp [Cursor.below, hh]
    simp only [Reader.lineEnd, Reader.run_get, hh, hh']
    exact Same.pure () rfl hn (by rwa [Cursor.size_below])
  | some t =>
    have hh' : (c.below k).held = some (t.below k) := by simp [Cursor.below, hh]
    simp only [Reader.lineEnd, Reader.run_get, hh, hh', Token.kind_below]
    refine Same.ite (fun _ => ?_) (fun _ => (lockstep_below d k).failWith rfl _)
    refine advance_shifted d k n c (fun after ha => ?_)
    have := Reader.advance_size (by simp [hh]) ha
    omega

theorem blockFrom_shifted (d : Dialect) (k n line : Nat) (c : Cursor)
    (ht : c.inLine.isSome = true) (hn : c.size ≤ n + 1) :
    Agree (Apart k (Cursor.Below k)) (Cursor.Below k) (fun b b' => b' = b.below k) n n
      (Reader.blockFrom d line c)
      (Reader.blockFrom d (line + k) (c.below k)) := by
  refine ((lockstep_below d k).blockContent (n := n) (m := n) line rfl ht hn
    (by rwa [Cursor.size_below])).bind ?_
  rintro b _ c _ rfl rfl h1 -
  refine (lineEnd_shifted d k n c h1).andThen ?_
  rintro _ c _ rfl h1 h2
  exact Agree.pure rfl rfl h1 h2

theorem heldBlock_shifted (d : Dialect) (k n : Nat) (c : Cursor) (hn : c.size ≤ n + 1)
    (hh : c.held = none → c.size ≤ n) :
    Agree (Apart k (Cursor.Below k)) (Cursor.Below k) (fun b b' => b' = b.map (Block.below k)) n n
      (Reader.heldBlock d c) (Reader.heldBlock d (c.below k)) := by
  cases hc : c.held with
  | none =>
    have hc' : (c.below k).held = none := by simp [Cursor.below, hc]
    simp only [Reader.heldBlock, Reader.run_get, hc, hc']
    exact Agree.pure rfl rfl (hh hc) (by rw [Cursor.size_below]; exact hh hc)
  | some t =>
    have hc' : (c.below k).held = some (t.below k) := by simp [Cursor.below, hc]
    have hk' : (t.below k).kind = t.kind := rfl
    simp only [Reader.heldBlock, Reader.run_get, hc, hc']
    by_cases hk : t.kind = .newLine
    · rw [if_pos hk, if_pos (hk'.trans hk)]
      refine Same.andThen (advance_shifted d k n c (fun after ha => ?_)) ?_
      · have := Reader.advance_size (by simp [hc]) ha
        omega
      · rintro _ c _ rfl h1 h2
        exact Agree.pure rfl rfl h1 h2
    · rw [if_neg hk, if_neg (hk' ▸ hk)]
      have ht : c.inLine.isSome = true := by simp [Cursor.inLine, hc, Option.filter, hk]
      exact (blockFrom_shifted d k n t.line c ht hn).map (by rintro b _ rfl; rfl)

theorem size_of_finished {d : Dialect} {c after : Cursor}
    (ha : Reader.advance d c = .ok () after) (h : after.held = none) : after.size = 0 := by
  simp only [Reader.advance] at ha
  split at ha
  · cases ha
    rfl
  · cases ha
    cases h
  · cases ha

theorem nextBlock_start (d : Dialect) {c : Cursor} (h : c.held = none) :
    Reader.nextBlock d c =
      (do Reader.advance d; Reader.heldBlock d : Reader (Option Block)) c := by
  simp only [Reader.nextBlock, Reader.run_get, h, Option.isNone_none, if_true]

theorem nextBlock_held (d : Dialect) {c : Cursor} {t : Token} (h : c.held = some t) :
    Reader.nextBlock d c = Reader.heldBlock d c := by
  simp only [Reader.nextBlock, Reader.run_get, h, Option.isNone_some, Bool.false_eq_true, if_false]

theorem nextBlock_shifted (d : Dialect) (k : Nat) (c : Cursor) :
    Agree (Apart k (Cursor.Below k)) (Cursor.Below k) (fun b b' => b' = b.map (Block.below k))
      (c.size - 1) (c.size - 1) (Reader.nextBlock d c) (Reader.nextBlock d (c.below k)) := by
  cases hc : c.held with
  | some t =>
    have hc' : (c.below k).held = some (t.below k) := by simp [Cursor.below, hc]
    rw [nextBlock_held d hc, nextBlock_held d hc']
    exact heldBlock_shifted d k (c.size - 1) c (by omega) (by simp [hc])
  | none =>
    have hc' : (c.below k).held = none := by simp [Cursor.below, hc]
    rw [nextBlock_start d hc, nextBlock_start d hc']
    cases ha : Reader.advance d c with
    | error e after =>
      have ha' := (advance_below d k c).trans (by rw [ha])
      rw [Reader.run_bind, Reader.run_bind, ha, ha']
      exact ⟨⟨rfl, c, _, rfl, .inl (Reader.advance_error ha)⟩, rfl⟩
    | ok _ after =>
      have ha' := (advance_below d k c).trans (by rw [ha])
      have hs := advance_none_size hc ha
      have hz := size_of_finished ha
      rw [Reader.run_bind, Reader.run_bind, ha, ha']
      exact heldBlock_shifted d k (c.size - 1) after (by omega) (fun hh => by rw [hz hh]; omega)

def Program.shift (k : Nat) : Except ReadError (List Block) → Except ReadError (List Block)
  | .ok blocks => .ok (blocks.map (Block.below k))
  | .error e => .error (e.below k)

theorem nextBlock_nothing (d : Dialect) {c : Cursor} (h : c.size = 0) :
    ∃ after, Reader.nextBlock d c = .ok none after := by
  have hh : c.held = none := by
    cases hc : c.held with
    | none => rfl
    | some t => simp [Cursor.size, hc] at h
  have hu : c.unread = [] := by simpa [Cursor.size, hh] using h
  have ha : Reader.advance d c = .ok () ⟨[], c.line, none⟩ := by
    simp [Reader.advance, hu, Scan.next]
  rw [nextBlock_start d hh, Reader.run_bind, ha]
  exact ⟨_, rfl⟩

theorem blocksFrom_nothing (d : Dialect) (ahead : List Char) {c : Cursor} (h : c.size = 0) :
    Program.blocksFrom d ahead c = .ok [] := by
  obtain ⟨after, hb⟩ := nextBlock_nothing d h
  cases ahead with
  | nil => rfl
  | cons _ ahead => simp only [Program.blocksFrom, hb]

/-- The blocks from a position on are the same further down, given enough characters
ahead. -/
theorem blocksFrom_below (d : Dialect) (k : Nat) (ahead ahead' : List Char) (c : Cursor)
    (ha : c.size ≤ ahead.length) (ha' : c.size ≤ ahead'.length) :
    Program.blocksFrom d ahead' (c.below k) = Program.shift k (Program.blocksFrom d ahead c) := by
  induction ahead generalizing ahead' c with
  | nil =>
    have hz : c.size = 0 := by simpa using ha
    rw [blocksFrom_nothing d _ hz, blocksFrom_nothing d _ ((c.size_below k).trans hz)]
    rfl
  | cons _ ahead ih =>
    cases ahead' with
    | nil =>
      have hz : c.size = 0 := by simpa using ha'
      rw [blocksFrom_nothing d _ hz, blocksFrom_nothing d _ ((c.size_below k).trans hz)]
      rfl
    | cons _ ahead' =>
      have hb := nextBlock_shifted d k c
      simp only [List.length_cons] at ha ha'
      simp only [Program.blocksFrom]
      cases hn : Reader.nextBlock d c with
      | error e after =>
        cases hn' : Reader.nextBlock d (c.below k) with
        | ok b' after' => rw [hn, hn'] at hb; exact hb.elim
        | error e' after' =>
          rw [hn, hn'] at hb
          obtain ⟨⟨rfl, -⟩, -⟩ := hb
          rfl
      | ok b after =>
        cases hn' : Reader.nextBlock d (c.below k) with
        | error e' after' => rw [hn, hn'] at hb; exact hb.elim
        | ok b' after' =>
          rw [hn, hn'] at hb
          obtain ⟨rfl, rfl, hs, -⟩ := hb
          cases b with
          | none => rfl
          | some b =>
            simp only [Option.map_some]
            rw [ih ahead' after (by omega) (by omega)]
            cases Program.blocksFrom d ahead after <;> rfl

theorem blocksFrom_enough (d : Dialect) (ahead ahead' : List Char) (c : Cursor)
    (ha : c.size ≤ ahead.length) (ha' : c.size ≤ ahead'.length) :
    Program.blocksFrom d ahead' c = Program.blocksFrom d ahead c := by
  have h := blocksFrom_below d 0 ahead ahead' c ha ha'
  rw [Cursor.below_zero] at h
  rw [h]
  cases Program.blocksFrom d ahead c with
  | error e => rfl
  | ok blocks => exact congrArg Except.ok (List.map_id blocks)

end PartProgram
