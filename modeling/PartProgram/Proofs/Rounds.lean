import PartProgram.Proofs.Rounds.Expr

/-!
# Loops within a number of rounds

The lists, labels, statements and blocks of a text are read by loops too. What lies between
the loops are readers one after another, which have an answer when their parts do. So a text
is read within more rounds than it has characters.
-/

set_option autoImplicit false

namespace PartProgram

namespace Attempt

def separated {α : Type} (d : Dialect) (entry : Reader α) : Nat → Attempt (List α)
  | 0 => unfinished
  | rounds + 1 => do
    let first ← entry
    if ← Reader.accept d .separator "," then
      return first :: (← separated d entry rounds)
    else return [first]

def labels (d : Dialect) :
    Nat → Option Statement → Attempt (List String × Option Statement)
  | 0, _ => unfinished
  | rounds + 1, some (.instruction name none) => do
    if ← Reader.accept d .colon ":" then
      let (names, first) ← labels d rounds (← Reader.statement d)
      return (name :: names, first)
    else return ([], some (.instruction name none))
  | _, first => return ([], first)

def statements (d : Dialect) : Nat → Option Statement → Attempt (List Statement)
  | _, none => return []
  | 0, some _ => unfinished
  | rounds + 1, some s => do
    return s :: (← statements d rounds (← Reader.statement d))

def blockBody (d : Dialect) (line : Nat) (number : Option Int) (rounds : Nat)
    (first : Option Statement) : Attempt Block := do
  let (labels, first) ← labels d rounds first
  let statements ← statements d rounds first
  let comment ← Reader.comment d
  return { line, number, labels, statements, comment }

def blockContent (d : Dialect) (line rounds : Nat) : Attempt Block := do
  let first ← Reader.statement d
  match ← Reader.blockNumber first with
  | some number => blockBody d line (some number) rounds (← Reader.statement d)
  | none => blockBody d line none rounds first

def blockFrom (d : Dialect) (line rounds : Nat) : Attempt Block := do
  let block ← blockContent d line rounds
  Reader.lineEnd d
  return block

def heldBlock (d : Dialect) (rounds : Nat) : Attempt (Option Block) := do
  match (← get).held with
  | none => return none
  | some t =>
    if t.kind = .newLine then
      Reader.advance d
      return some { line := t.line }
    else some <$> blockFrom d t.line rounds

def nextBlock (d : Dialect) (rounds : Nat) : Attempt (Option Block) := do
  if (← get).held.isNone then Reader.advance d
  heldBlock d rounds

def blocks (d : Dialect) : Nat → Attempt (List Block)
  | 0 => unfinished
  | rounds + 1 => do
    match ← nextBlock d (rounds + 1) with
    | none => return []
    | some b => return b :: (← blocks d rounds)

def parse (d : Dialect) (rounds : Nat) (text : String) : Option (Except ReadError Program) :=
  (blocks d rounds (Cursor.ofText text)).map (fun r => (⟨·⟩) <$> r.1)

section Block

variable {d : Dialect} {n rounds : Nat} {c after : Cursor}

theorem separated_settles {α : Type} {entry : Reader α}
    (he : ∀ (c : Cursor) a after, entry c = .ok a after → after.size ≤ c.size)
    {ahead : List Char} (ha : c.size ≤ ahead.length) (hr : ahead.length < rounds)
    (hn : c.size ≤ n) :
    Settles n (separated d entry rounds) (Reader.separated d entry ahead) c := by
  induction ahead generalizing rounds c with
  | nil =>
    obtain ⟨rounds, rfl⟩ := Nat.exists_eq_add_one.mpr hr
    refine Settles.lift_bind (fun first mid hmid => ?_)
    have hs := he c first mid hmid
    have hc : mid.inLine = none := Cursor.inLine_of_size_zero (by simp at ha; omega)
    exact ⟨run_lift (Lockstep.accept_ended hc (by decide) ","), (Settles.pure _ (by omega)).2⟩
  | cons _ ahead ih =>
    simp only [List.length_cons] at ha hr
    obtain ⟨rounds, rfl⟩ := Nat.exists_eq_add_one.mpr (Nat.zero_lt_of_lt hr)
    refine Settles.lift_bind (fun first mid hmid => ?_)
    have hs := he c first mid hmid
    refine Settles.lift_bind (fun more behind hbehind => ?_)
    have hs' := Reader.accept_takes (by decide) hbehind
    refine Settles.ite (fun hmore => ?_) (fun _ => Settles.pure _ (by omega))
    rw [if_pos hmore] at hs'
    exact (ih (by omega) (by omega) (by omega)).bind (fun _ _ hs => Settles.pure _ hs)

theorem separated_eq {α : Type} {entry : Reader α}
    (he : ∀ (c : Cursor) a after, entry c = .ok a after → after.size ≤ c.size)
    (hr : c.size < rounds) : separated d entry rounds c = of (Reader.entries d entry) c :=
  (separated_settles he (Nat.le_of_eq c.ahead_length.symm) (c.ahead_length ▸ hr)
    (Nat.le_refl _)).1

theorem labels_settles {ahead : List Char} (first : Option Statement)
    (ha : c.size ≤ ahead.length) (hr : ahead.length < rounds) (hn : c.size ≤ n) :
    Settles n (labels d rounds first) (Reader.labels d ahead first) c := by
  induction ahead generalizing rounds first c with
  | nil =>
    obtain ⟨rounds, rfl⟩ := Nat.exists_eq_add_one.mpr hr
    have hc : c.inLine = none := Cursor.inLine_of_size_zero (by simpa using ha)
    match first with
    | some (.instruction name none) =>
      exact ⟨run_lift (Lockstep.accept_ended hc (by decide) ":"), (Settles.pure _ hn).2⟩
    | none | some (.instruction _ (some _)) | some (.assign ..) | some (.declare _)
    | some (.gcode ..) | some (.mcode _) | some (.jump ..) | some (.flow _) =>
      exact Settles.pure _ hn
  | cons _ ahead ih =>
    simp only [List.length_cons] at ha hr
    obtain ⟨rounds, rfl⟩ := Nat.exists_eq_add_one.mpr (Nat.zero_lt_of_lt hr)
    match first with
    | some (.instruction name none) =>
      refine Settles.lift_bind (fun more mid hmid => ?_)
      have hs := Reader.accept_takes (by decide) hmid
      refine Settles.ite (fun hmore => ?_) (fun _ => Settles.pure _ (by omega))
      rw [if_pos hmore] at hs
      refine Settles.lift_bind (fun next behind hbehind => ?_)
      have hs' := Reader.statement_size_le hbehind
      exact (ih next (by omega) (by omega) (by omega)).bind (fun _ _ hs => Settles.pure _ hs)
    | none | some (.instruction _ (some _)) | some (.assign ..) | some (.declare _)
    | some (.gcode ..) | some (.mcode _) | some (.jump ..) | some (.flow _) =>
      exact Settles.pure _ hn

theorem statements_none (ahead : List Char) (hn : c.size ≤ n) :
    Settles n (statements d rounds none) (Reader.statements d ahead none) c := by
  have hloop : statements d rounds none = Pure.pure [] := by cases rounds <;> rfl
  have hread : Reader.statements d ahead none = Pure.pure [] := by cases ahead <;> rfl
  rw [hloop, hread]
  exact Settles.pure [] hn

theorem statements_settles {ahead : List Char} (first : Option Statement)
    (ha : c.size ≤ ahead.length) (hr : ahead.length < rounds) (hn : c.size ≤ n) :
    Settles n (statements d rounds first) (Reader.statements d ahead first) c := by
  induction ahead generalizing rounds first c with
  | nil =>
    obtain ⟨rounds, rfl⟩ := Nat.exists_eq_add_one.mpr hr
    have hc : c.inLine = none := Cursor.inLine_of_size_zero (by simpa using ha)
    have hl : c.atLineEnd = true := by rw [Cursor.atLineEnd_inLine, hc]; rfl
    cases first with
    | none => exact statements_none _ hn
    | some s =>
      refine ⟨?_, (Settles.pure _ hn).2⟩
      rw [statements, run_lift (Lockstep.statement_none hl), run_bind,
        (statements_none [] (Nat.le_refl _)).1]
      rfl
  | cons _ ahead ih =>
    simp only [List.length_cons] at ha hr
    obtain ⟨rounds, rfl⟩ := Nat.exists_eq_add_one.mpr (Nat.zero_lt_of_lt hr)
    cases first with
    | none => exact statements_none _ hn
    | some s =>
      refine Settles.lift_bind (fun next mid hmid => ?_)
      have hs := Reader.statement_takes hmid
      have hrest : Settles n (statements d rounds next) (Reader.statements d ahead next) mid := by
        cases next with
        | none => exact statements_none ahead (Nat.le_trans hs hn)
        | some s =>
          simp only [Option.isSome_some, if_true] at hs
          exact ih (some s) (by omega) (by omega) (by omega)
      exact hrest.bind (fun _ _ hs => Settles.pure _ hs)

theorem blockBody_eq (line : Nat) (number : Option Int) {ahead : List Char}
    (first : Option Statement) (ha : c.size ≤ ahead.length) (hr : ahead.length < rounds) :
    blockBody d line number rounds first c =
      of (Reader.blockBody d line number ahead first) c := by
  have hlabels := labels_settles (d := d) first ha hr (Nat.le_refl _)
  refine bind_eq_of hlabels.1 (fun found mid hmid => ?_)
  have hs := hlabels.2 found mid hmid
  refine bind_eq_of (statements_settles found.2 (by omega) hr (Nat.le_refl _)).1 (fun _ _ _ => ?_)
  exact bind_eq_of rfl (fun _ _ _ => rfl)

theorem blockContent_eq (line : Nat) (hr : c.size < rounds) :
    blockContent d line rounds c = of (Reader.blockContent d line) c := by
  have ha := c.ahead_length
  change _ = of (do
    let first ← Reader.statement d
    match ← Reader.blockNumber first with
    | some number => Reader.blockBody d line (some number) c.ahead (← Reader.statement d)
    | none => Reader.blockBody d line none c.ahead first : Reader Block) c
  refine bind_eq_of rfl (fun first mid hmid => bind_eq_of rfl (fun number behind hbehind => ?_))
  have hs := Reader.statement_size_le hmid
  have hs' : behind.size ≤ mid.size := ((lockstep_onward d mid).blockNumber first
    (onward_refl mid) (Nat.le_refl _) (Nat.le_refl _)).size_le hbehind
  cases number with
  | none => exact blockBody_eq line none first (by omega) (by omega)
  | some number =>
    refine bind_eq_of rfl (fun next after hafter => ?_)
    have := Reader.statement_size_le hafter
    exact blockBody_eq line (some number) next (by omega) (by omega)

theorem heldBlock_eq (hr : c.size < rounds) :
    heldBlock d rounds c = of (Reader.heldBlock d) c := by
  have hfrom : ∀ line, blockFrom d line rounds c = of (Reader.blockFrom d line) c := fun line =>
    bind_eq_of (blockContent_eq line hr) (fun _ _ _ => bind_eq_of rfl (fun _ _ _ => rfl))
  refine bind_eq_of rfl (fun held mid hmid => ?_)
  cases hmid
  cases c.held with
  | none => rfl
  | some t =>
    dsimp only
    split
    · exact bind_eq_of rfl (fun _ _ _ => rfl)
    · rw [map_eq_pure_bind, map_eq_pure_bind]
      exact bind_eq_of (hfrom t.line) (fun _ _ _ => rfl)

theorem nextBlock_eq (hr : c.size < rounds) :
    nextBlock d rounds c = of (Reader.nextBlock d) c := by
  refine bind_eq_of rfl (fun held mid hmid => ?_)
  cases hmid
  cases hh : c.held with
  | none =>
    refine bind_eq_of rfl (fun _ after hafter => heldBlock_eq ?_)
    exact Nat.lt_of_le_of_lt (advance_none_size hh hafter) hr
  | some t => exact heldBlock_eq hr

theorem blocks_eq (ahead : List Char) (ha : c.size ≤ ahead.length) (hr : ahead.length < rounds) :
    (blocks d rounds c).map Prod.fst = some (Program.blocksFrom d ahead c) := by
  induction ahead generalizing rounds c with
  | nil =>
    obtain ⟨rounds, rfl⟩ := Nat.exists_eq_add_one.mpr hr
    obtain ⟨after, h⟩ := nextBlock_nothing d (c := c) (by simpa using ha)
    rw [blocks, run_bind, nextBlock_eq (Nat.lt_of_le_of_lt ha hr), of, h]
    rfl
  | cons _ ahead ih =>
    have hnext := nextBlock_eq (d := d) (Nat.lt_of_le_of_lt ha hr)
    simp only [List.length_cons] at ha hr
    obtain ⟨rounds, rfl⟩ := Nat.exists_eq_add_one.mpr (Nat.zero_lt_of_lt hr)
    rw [blocks, run_bind, hnext, of, Program.blocksFrom]
    cases hb : Reader.nextBlock d c with
    | error e after => rfl
    | ok found after =>
      cases found with
      | none => rfl
      | some b =>
        have hs := Reader.nextBlock_takes hb
        have hrest : (blocks d rounds after).map Prod.fst =
            some (Program.blocksFrom d ahead after) := ih (by omega) (by omega)
        obtain ⟨⟨rest, behind⟩, hrun, hrest⟩ := Option.map_eq_some_iff.mp hrest
        replace hrest : rest = Program.blocksFrom d ahead after := hrest
        have hcons : (do return b :: (← blocks d rounds) : Attempt (List Block)) after =
            some ((b :: ·) <$> rest, behind) := by
          rw [run_bind, hrun]
          cases rest <;> rfl
        simp only [Option.bind_some, hcons, Option.map_some, hrest]

/-- With more rounds than the text has characters, reading it comes to its end. -/
theorem parse_eq (d : Dialect) {text : String} (hr : text.toList.length < rounds) :
    parse d rounds text = some (Program.parse d text) := by
  have hblocks := blocks_eq (d := d) (c := Cursor.ofText text) text.toList (Nat.le_refl _) hr
  obtain ⟨r, hrun, hfst⟩ := Option.map_eq_some_iff.mp hblocks
  rw [parse, hrun, Program.parse, ← hfst]
  rfl

end Block

/-- At a position no loop is cut off: each of them has the answer of its reader. -/
structure Complete (d : Dialect) (rounds : Nat) (c : Cursor) : Prop where
  expression : expression d rounds c = of (Reader.expression d) c
  arguments : separated d (Reader.expression d) rounds c =
    of (Reader.entries d (Reader.expression d)) c
  dimensions : separated d (Reader.natural d) rounds c = of (Reader.entries d (Reader.natural d)) c
  declared : separated d (Reader.declaredVariable d) rounds c =
    of (Reader.entries d (Reader.declaredVariable d)) c
  block : nextBlock d rounds c = of (Reader.nextBlock d) c

theorem complete (d : Dialect) {rounds : Nat} {c : Cursor} (hr : c.size < rounds) :
    Complete d rounds c where
  expression := expression_eq hr
  arguments := separated_eq (fun c _ _ h => ((lockstep_onward d c).expression_within
    (onward_refl c) (Nat.le_refl _) (Nat.le_refl _)).size_le h) hr
  dimensions := separated_eq (fun c _ _ h => ((lockstep_onward d c).natural (onward_refl c)
    (Nat.le_succ _) (Nat.le_succ _)).size_le h) hr
  declared := separated_eq (fun c _ _ h => (((lockstep_onward d c).declaredVariable c.size
    c.size).keeps (onward_refl c) (Nat.le_refl _) (Nat.le_refl _) (Nat.le_refl _)
    (Nat.le_refl _)).size_le h) hr
  block := nextBlock_eq hr

end Attempt

end PartProgram
