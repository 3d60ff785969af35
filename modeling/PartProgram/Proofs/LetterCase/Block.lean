import PartProgram.Block.Reader
import PartProgram.Proofs.LetterCase.Statement

/-!
# Programs in upper case

The blocks that are read in a text in upper case are those that are read in the
text itself, but for the case of their names. So two texts with the same upper case
are read as programs that differ in the case of names only, or both are refused.
-/

set_option autoImplicit false

namespace PartProgram

abbrev Block.upper (b : Block) : Block := b.rename PartProgram.upper

abbrev Program.upper (p : Program) : Program := p.rename PartProgram.upper

namespace Reader

variable (d : Dialect)

theorem folds_blockNumber {s s' : Option Statement} (h : Option.Rel Statement.FoldsTo s s') :
    FoldsBy d id (blockNumber s) (blockNumber s') := by
  cases h with
  | none => exact .pure rfl
  | some h =>
    rename_i s s'
    rcases h with rfl | ⟨name, rfl, rfl⟩
    · cases s with
      | assign name fields value =>
        simp only [blockNumber, Statement.upper, Statement.rename,
          sameLetters_congr (upper_upper name)]
        apply Folds.ite Iff.rfl
        · cases value with
          | num n =>
            obtain ⟨x, isInteger, radix⟩ := n
            cases isInteger with
            | true =>
              simp only [Expr.rename]
              cases integral? x with
              | some n => exact .pure rfl
              | none => exact folds_fail rfl
            | false => exact folds_fail rfl
          | var name fields => cases fields <;> exact folds_fail rfl
          | _ => exact folds_fail rfl
        · exact .pure rfl
      | _ => exact .pure rfl
    · exact .pure rfl

def LabelsFold (x y : List String × Option Statement) : Prop :=
  y.1.map upper = x.1.map upper ∧ Option.Rel Statement.FoldsTo x.2 y.2

theorem folds_labels {ahead ahead' : List Char} (hlength : ahead'.length = ahead.length)
    {s s' : Option Statement} (h : Option.Rel Statement.FoldsTo s s') :
    Folds d LabelsFold (labels d ahead s) (labels d ahead' s') := by
  induction ahead generalizing ahead' s s' with
  | nil =>
    cases List.eq_nil_of_length_eq_zero hlength
    exact .pure ⟨rfl, h⟩
  | cons x ahead ih =>
    cases ahead' with
    | nil => cases hlength
    | cons y ahead' =>
      have hlabel : ∀ {name name' : String}, upper name' = upper name →
          Option.Rel Statement.FoldsTo (some (.instruction name none))
            (some (.instruction name' none)) →
          Folds d LabelsFold (labels d (x :: ahead) (some (.instruction name none)))
            (labels d (y :: ahead') (some (.instruction name' none))) := by
        intro name name' hname hs
        apply (folds_accept d .colon (by decide)).bind
        intro colon
        apply Folds.ite Iff.rfl
        · apply (folds_statement d).bind
          intro next next' hnext
          apply (ih (Nat.succ.inj hlength) hnext).bind
          rintro ⟨names, first⟩ ⟨names', first'⟩ ⟨hnames, hfirst⟩
          exact .pure ⟨by rw [List.map_cons, List.map_cons, hname, hnames], hfirst⟩
        · exact .pure ⟨rfl, hs⟩
      cases h with
      | none => exact .pure ⟨rfl, .none⟩
      | some hs =>
        rename_i s s'
        have hrel := Option.Rel.some hs
        rcases hs with rfl | ⟨name, rfl, rfl⟩
        · cases s with
          | instruction name args =>
            cases args with
            | none => exact hlabel (upper_upper name) hrel
            | some args => exact .pure ⟨rfl, hrel⟩
          | _ => exact .pure ⟨rfl, hrel⟩
        · exact hlabel rfl hrel

theorem folds_statements {ahead ahead' : List Char} (hlength : ahead'.length = ahead.length)
    {s s' : Option Statement} (h : Option.Rel Statement.FoldsTo s s') :
    Folds d (fun list list' => list'.map Statement.upper = list.map Statement.upper)
      (statements d ahead s) (statements d ahead' s') := by
  induction ahead generalizing ahead' s s' with
  | nil =>
    cases List.eq_nil_of_length_eq_zero hlength
    cases h with
    | none => exact .pure rfl
    | some h => exact .pure (by rw [List.map_singleton, h.upper_eq, List.map_singleton])
  | cons _ ahead ih =>
    cases ahead' with
    | nil => cases hlength
    | cons _ ahead' =>
      cases h with
      | none => exact .pure rfl
      | some h =>
        apply (folds_statement d).bind
        intro next next' hnext
        apply (ih (Nat.succ.inj hlength) hnext).bind
        intro rest rest' hrest
        exact .pure (by rw [List.map_cons, h.upper_eq, hrest, List.map_cons])

theorem folds_comment : FoldsBy d id (comment d) (comment d) := by
  apply Folds.get
  intro c
  have hheld : (c.fold d).held.filter (·.kind == .comment) = c.held.filter (·.kind == .comment) := by
    cases h : c.held with
    | none => simp [Cursor.fold, h]
    | some t =>
      have hkind : t.fold.kind = t.kind := rfl
      by_cases hk : t.kind = .comment
      · have htext : t.fold = t := by
          rw [Token.fold, hk, foldText, String.ofList_toList, ← hk]
        simp [Cursor.fold, h, Option.filter, htext]
      · simp [Cursor.fold, h, Option.filter, hkind, hk]
  rw [hheld]
  cases c.held.filter (·.kind == .comment) with
  | some t => exact folds_advance_pure d rfl
  | none => exact .pure rfl

theorem folds_lineEnd : FoldsBy d id (lineEnd d) (lineEnd d) := by
  apply Folds.get
  intro c
  have hheld : (c.fold d).held = c.held.map Token.fold := rfl
  rw [hheld]
  cases c.held with
  | none => exact .pure rfl
  | some t =>
    apply Folds.ite Iff.rfl
    · exact folds_advance d
    · exact folds_failWith (fun _ _ => rfl)

theorem folds_blockBody (line : Nat) (number : Option Int) {ahead ahead' : List Char}
    (hlength : ahead'.length = ahead.length) {s s' : Option Statement}
    (h : Option.Rel Statement.FoldsTo s s') :
    Folds d (fun b b' => b'.upper = b.upper) (blockBody d line number ahead s)
      (blockBody d line number ahead' s') := by
  apply (folds_labels d hlength h).bind
  rintro ⟨names, first⟩ ⟨names', first'⟩ ⟨hnames, hfirst⟩
  apply (folds_statements d hlength hfirst).bind
  intro list list' hlist
  apply (folds_comment d).bind
  intro comment
  apply Folds.pure
  simp only [Block.upper, Block.rename, id_eq, Block.mk.injEq, true_and, and_true]
  exact ⟨hnames, hlist⟩

theorem folds_blockContent (line : Nat) :
    Folds d (fun b b' => b'.upper = b.upper) (blockContent d line) (blockContent d line) := by
  apply Folds.get
  intro c
  apply (folds_statement d).bind
  intro first first' hfirst
  apply (folds_blockNumber d hfirst).bind
  intro number
  cases number with
  | some number =>
    apply (folds_statement d).bind
    intro s s' hs
    exact folds_blockBody d line _ (c.ahead_fold d) hs
  | none => exact folds_blockBody d line _ (c.ahead_fold d) hfirst

theorem folds_blockFrom (line : Nat) :
    Folds d (fun b b' => b'.upper = b.upper) (blockFrom d line) (blockFrom d line) := by
  apply (folds_blockContent d line).bind
  intro b b' hb
  exact (folds_lineEnd d).bind (fun _ => .pure hb)

theorem folds_heldBlock :
    Folds d (Option.Rel (fun b b' => b'.upper = b.upper)) (heldBlock d) (heldBlock d) := by
  apply Folds.get
  intro c
  cases h : c.held with
  | none =>
    simp only [Cursor.fold, h, Option.map_none]
    exact .pure .none
  | some t =>
    have hline : t.fold.line = t.line := rfl
    simp only [Cursor.fold, h, Option.map_some, hline]
    apply Folds.ite Iff.rfl
    · exact folds_advance_pure d (.some rfl)
    · exact (folds_blockFrom d t.line).map (fun _ _ hb => Option.Rel.some hb)

theorem folds_nextBlock :
    Folds d (Option.Rel (fun b b' => b'.upper = b.upper)) (nextBlock d) (nextBlock d) := by
  apply Folds.get
  intro c
  apply Folds.ite (by rw [Cursor.fold, Option.isNone_map])
  · exact (folds_advance d).bind (fun _ => folds_heldBlock d)
  · exact folds_heldBlock d

end Reader

namespace Program

variable (d : Dialect)

def foldBlocks (result : Except ReadError (List Block)) : Except ReadError (List Block) :=
  (result.map (List.map Block.upper)).mapError ReadError.kind

theorem foldBlocks_cons (b : Block) (result : Except ReadError (List Block)) :
    foldBlocks ((b :: ·) <$> result) = (b.upper :: ·) <$> foldBlocks result := by
  cases result <;> rfl

theorem blocksFrom_fold {ahead ahead' : List Char} (hlength : ahead'.length = ahead.length)
    (c : Cursor) :
    foldBlocks (blocksFrom d ahead' (c.fold d)) = foldBlocks (blocksFrom d ahead c) := by
  induction ahead generalizing ahead' c with
  | nil =>
    cases List.eq_nil_of_length_eq_zero hlength
    rfl
  | cons _ ahead ih =>
    cases ahead' with
    | nil => cases hlength
    | cons _ ahead' =>
      have hnext := Reader.folds_nextBlock d c
      unfold blocksFrom
      cases hx : Reader.nextBlock d c with
      | error e after =>
        cases hy : Reader.nextBlock d (c.fold d) with
        | error e' after' =>
          rw [hx, hy] at hnext
          exact congrArg Except.error hnext
        | ok b' after' =>
          rw [hx, hy] at hnext
          exact hnext.elim
      | ok b after =>
        cases hy : Reader.nextBlock d (c.fold d) with
        | error e' after' =>
          rw [hx, hy] at hnext
          exact hnext.elim
        | ok b' after' =>
          rw [hx, hy] at hnext
          obtain ⟨hb, rfl⟩ := hnext
          cases hb with
          | none => rfl
          | some hb =>
            rw [foldBlocks_cons, foldBlocks_cons, ih (Nat.succ.inj hlength) after, hb]

/-- The program that a text is read as, up to the case of names, or the kind of the error and its
line. -/
def fold (result : Except ReadError Program) : Except ReadError Program :=
  (result.map Program.upper).mapError ReadError.kind

theorem parse_fold (text : String) :
    fold (parse d (String.ofList (foldCase d .code text.toList))) = fold (parse d text) := by
  have hprogram : ∀ result : Except ReadError (List Block),
      fold ((⟨·⟩) <$> result) = (⟨·⟩) <$> foldBlocks result := by
    intro result
    cases result <;> rfl
  have hblocks := blocksFrom_fold d (length_foldCase d .code text.toList) (Cursor.ofText text)
  rw [parse, parse, hprogram, hprogram, Cursor.ofText, String.toList_ofList, ← hblocks]
  rfl

/-- Texts with the same upper case are read as programs that differ in the case of names only,
or refused in the same line for a cause of the same kind. -/
theorem parse_congr {text text' : String}
    (h : foldCase d .code text.toList = foldCase d .code text'.toList) :
    fold (parse d text) = fold (parse d text') := by
  rw [← parse_fold, h, parse_fold]

end Program

end PartProgram
