import PartProgram.Proofs.BlockNumber.Word
import PartProgram.Proofs.Lines
import PartProgram.Proofs.RoundTrip.Position

/-!
# Lines with a block number

A block has the number that its line begins with. The word of the number is the first operand
of the expression with which the line is first read.
-/

set_option autoImplicit false

namespace PartProgram

/-- The operand with which an expression begins. -/
def Expr.first : Expr → Expr
  | bin _ lhs _ => lhs.first
  | e => e

theorem Expr.signedWord?_first {e : Expr} {word : String × Expr} (h : e.signedWord? = some word) :
    e.first = .var word.1 none ∧ word.1.utf8ByteSize = 1 := by
  unfold signedWord? at h
  split at h
  · split at h
    · rename_i hsize
      cases h
      exact ⟨rfl, hsize⟩
    · cases h
  · split at h
    · rename_i hsize
      cases h
      exact ⟨rfl, hsize⟩
    · cases h
  · cases h

namespace Pending

theorem unwind_reduce (op : BinaryOp) (pending : Pending) (current : Expr) :
    unwind (reduce op pending current).1 (reduce op pending current).2 =
      unwind pending current := by
  induction pending generalizing current with
  | nil => rfl
  | cons entry rest ih =>
    obtain ⟨top, lhs⟩ := entry
    simp only [reduce]
    split
    · exact ih _
    · rfl

theorem first_unwind_congr {pending : Pending} {e e' : Expr} (h : e.first = e'.first) :
    (unwind pending e).first = (unwind pending e').first := by
  induction pending generalizing e e' with
  | nil => exact h
  | cons entry rest ih => exact ih rfl

end Pending

namespace Reader

variable {d : Dialect} {letter : Char} {ds rest : List Char} {line : Nat}

theorem operations_first {p : Reader Expr} (ahead : List Char) {pending : Pending}
    {current e : Expr} {c after : Cursor}
    (h : operations d p ahead pending current c = .ok e after) :
    e.first = (pending.unwind current).first := by
  induction ahead generalizing pending current c with
  | nil =>
    cases h
    rfl
  | cons _ ahead ih =>
    obtain ⟨op, mid, -, h⟩ := ok_bind h
    cases op with
    | none =>
      cases h
      rfl
    | some op =>
      obtain ⟨rhs, behind, -, h⟩ := ok_bind h
      rw [ih h, ← Pending.unwind_reduce op pending current]
      exact Pending.first_unwind_congr (e := .bin op _ rhs) rfl

theorem expression_first (hletter : letter = 'N' ∨ letter = 'n') (hne : ds ≠ [])
    (hds : ∀ c ∈ ds, c.isDigit = true) (hrest : NumberEnds rest) {spaced : Bool} {e : Expr}
    {after : Cursor}
    (h : expression d ⟨ds ++ rest, line,
      some ⟨.identifier, String.ofList [letter], spaced, line⟩⟩ = .ok e after) :
    ∃ fields, e.first = .var (String.ofList (letter :: ds)) fields := by
  obtain ⟨first, mid, hfirst, h⟩ := ok_bind h
  rw [operations_first _ h]
  obtain ⟨op, c, hop, hfirst⟩ := ok_bind hfirst
  rw [unaryOperator, run_bind, heldOperator_none (by simp)] at hop
  cases hop
  simp only [] at hfirst
  rw [operandOf_held rfl (by simp) (by simp)] at hfirst
  simp only [variableOrCall_digits hletter hne hds hrest] at hfirst
  obtain ⟨_, next, -, hfirst⟩ := ok_bind hfirst
  simp only [run_get] at hfirst
  split at hfirst
  · obtain ⟨slots, _, -, hfirst⟩ := ok_bind hfirst
    cases hfirst
    exact ⟨some slots, rfl⟩
  · cases hfirst
    exact ⟨none, rfl⟩

theorem variableStatement_word (hne : ds ≠ []) (hds : ∀ c ∈ ds, c.isDigit = true)
    {fields : Option Slots} {c after : Cursor} {s : Statement}
    (h : variableStatement d (String.ofList (letter :: ds)) fields c = .ok s after) :
    (∃ value, s = .assign (String.ofList (letter :: ds)) fields value) ∨
      ∃ n, readInteger 10 ds = some n ∧ s = .assign (String.singleton letter) none (.int n) := by
  obtain ⟨digit, more, rfl⟩ := List.exists_cons_of_ne_nil hne
  have hdigit := hds digit List.mem_cons_self
  obtain ⟨equals, mid, -, h⟩ := ok_bind h
  cases equals with
  | true =>
    obtain ⟨value, _, -, h⟩ := ok_bind h
    cases h
    exact .inl ⟨value, rfl⟩
  | false =>
    simp only [Bool.false_eq_true, if_false, String.toList_ofList, hdigit, if_true] at h
    cases hf : fields.isSome with
    | true =>
      simp only [hf, if_true] at h
      cases h
    | false =>
      cases hn : readInteger 10 (digit :: more) with
      | none =>
        simp only [hf, hn, Bool.false_eq_true, if_false] at h
        cases h
      | some n =>
        simp only [hf, hn, Bool.false_eq_true, if_false] at h
        cases h
        exact .inr ⟨n, rfl, rfl⟩

theorem blockNumber_word (hletter : letter = 'N' ∨ letter = 'n') (hne : ds ≠ [])
    (hds : ∀ c ∈ ds, c.isDigit = true) (hrest : NumberEnds rest) {spaced : Bool}
    {first : Option Statement} {mid after : Cursor} {m : Int}
    (hs : statement d ⟨ds ++ rest, line,
      some ⟨.identifier, String.ofList [letter], spaced, line⟩⟩ = .ok first mid)
    (hm : blockNumber first mid = .ok (some m) after) :
    ∃ n, readInteger 10 ds = some n ∧ integral? (realOfInt n) = some m := by
  have hname : namedStatement d (String.ofList [letter]) = assignmentOrInstruction d := by
    rcases hletter with rfl | rfl <;> rfl
  have hhere : Cursor.atLineEnd ⟨ds ++ rest, line,
      some ⟨.identifier, String.ofList [letter], spaced, line⟩⟩ = false := rfl
  simp only [statement, run_get, hhere, hname, Bool.false_eq_true, if_false, if_true] at hs
  obtain ⟨s, hread, rfl⟩ := ok_map hs
  obtain ⟨e, behind, he, hread⟩ := ok_bind hread
  obtain ⟨fields, hfirst⟩ := expression_first hletter hne hds hrest he
  have hother : sameLetters (String.ofList (letter :: ds)) "N" = false := by
    obtain ⟨digit, more, rfl⟩ := List.exists_cons_of_ne_nil hne
    simp [sameLetters]
  have hsize : (String.ofList (letter :: ds)).utf8ByteSize ≠ 1 := by
    obtain ⟨digit, more, rfl⟩ := List.exists_cons_of_ne_nil hne
    have hl := letter.utf8Size_pos
    have hd := digit.utf8Size_pos
    simp
    omega
  cases e with
  | var name fields' =>
    cases hfirst
    rcases variableStatement_word hne hds hread with ⟨value, rfl⟩ | ⟨n, hn, rfl⟩
    · simp only [blockNumber, hother, Bool.false_eq_true, if_false] at hm
      cases hm
    · refine ⟨n, hn, ?_⟩
      have hsame : sameLetters (String.singleton letter) "N" = true := by
        rcases hletter with rfl | rfl <;> decide
      simp only [blockNumber, hsame, if_true, Expr.int] at hm
      cases hk : integral? (realOfInt n) with
      | none =>
        simp only [hk] at hm
        cases hm
      | some k =>
        simp only [hk] at hm
        cases hm
        rfl
  | bin op lhs rhs =>
    cases hword : (Expr.bin op lhs rhs).signedWord? with
    | none =>
      simp only [hword] at hread
      cases hread
    | some found =>
      obtain ⟨hvar, hone⟩ := Expr.signedWord?_first hword
      rw [hvar] at hfirst
      injection hfirst with hname'
      exact absurd (hname' ▸ hone) hsize
  | _ => cases hfirst

theorem blockBody_number {number : Option Int} {ahead : List Char} {first : Option Statement}
    {c after : Cursor} {b : Block} (h : blockBody d line number ahead first c = .ok b after) :
    b.number = number := by
  obtain ⟨_, _, -, h⟩ := ok_bind h
  obtain ⟨_, _, -, h⟩ := ok_bind h
  obtain ⟨_, _, -, h⟩ := ok_bind h
  cases h
  rfl

theorem number_of_blockContent {c after : Cursor} {b : Block}
    (h : blockContent d line c = .ok b after) :
    ∃ first mid next, statement d c = .ok first mid ∧
      blockNumber first mid = .ok b.number next := by
  obtain ⟨_, c', hget, h⟩ := ok_bind h
  cases hget
  obtain ⟨first, mid, hfirst, h⟩ := ok_bind h
  obtain ⟨number, next, hnumber, h⟩ := ok_bind h
  refine ⟨first, mid, next, hfirst, ?_⟩
  cases number with
  | none => rwa [blockBody_number h]
  | some number =>
    obtain ⟨_, _, -, h⟩ := ok_bind h
    rwa [blockBody_number h]

end Reader

namespace Program

variable {d : Dialect}

theorem blocksAt_get (cs : List Char) {line i : Nat} {blocks : List Block} {b : Block}
    (h : blocksAt d line cs = .ok blocks) (hb : blocks[i]? = some b) :
    ∃ u, (cutLines cs)[i]? = some u ∧
      (b = { line := line + i } ∨ blocksAt d (line + i) u = .ok [b]) := by
  induction cs using lines_induction generalizing line i blocks with
  | last u hu =>
    rw [cutLines_unbroken hu]
    rcases blocksAt_line d line (.inl rfl : Scan.IsLineEnd ['\n'] []) hu with
      ⟨err, -, hx, -⟩ | ⟨found, -, -, hx, -⟩
    · simp [hx] at h
    · rw [hx] at h
      cases h
      cases found with
      | none => simp at hb
      | some b' =>
        obtain ⟨rfl, rfl⟩ : i = 0 ∧ b' = b := by
          cases i with
          | zero => exact ⟨rfl, Option.some.inj hb⟩
          | succ i => simp at hb
        exact ⟨u, rfl, .inr hx⟩
  | line u e r hu he ih =>
    rw [cutLines_line he hu]
    rcases blocksAt_line d line he hu with ⟨err, -, -, hx⟩ | ⟨found, -, -, hx, hx'⟩
    · simp [hx] at h
    · rw [hx'] at h
      cases hr : blocksAt d (line + 1) r with
      | error err => simp [hr] at h
      | ok rest =>
        rw [hr] at h
        cases h
        cases i with
        | zero =>
          cases hb
          cases found with
          | none => exact ⟨u, rfl, .inl rfl⟩
          | some b' => exact ⟨u, rfl, .inr hx⟩
        | succ i =>
          obtain ⟨v, hv, hread⟩ := ih hr hb
          rw [show line + 1 + i = line + (i + 1) by omega] at hread
          exact ⟨v, hv, hread⟩

theorem nextBlock_of_blocksAt {line : Nat} {u : List Char} {b : Block} {rest : List Block}
    (h : blocksAt d line u = .ok (b :: rest)) :
    ∃ after, Reader.nextBlock d ⟨u, line, none⟩ = .ok (some b) after := by
  cases u with
  | nil => cases h
  | cons c u =>
    simp only [blocksAt, blocksFrom] at h
    split at h
    · cases h
    · rename_i found after hn
      cases hrest : blocksFrom d u after with
      | error err => simp [hrest] at h
      | ok more =>
        rw [hrest] at h
        cases h
        exact ⟨after, hn⟩
    · cases h

theorem number_of_word {text : String} {p : Program} (h : parse d text = .ok p) {i : Nat}
    {b : Block} (hb : p.blocks[i]? = some b) {m : Int} (hm : b.number = some m)
    {line ds : List Char} (hline : (cutLines text.toList)[i]? = some line)
    (hword : numberWord? line = some ds) :
    ∃ n, readInteger 10 ds = some n ∧ integral? (realOfInt n) = some m := by
  obtain ⟨u, hu, hread⟩ := blocksAt_get text.toList (parse_ok_iff.mp h) hb
  cases hline.symm.trans hu
  obtain ⟨letter, rest, hdrop, hletter, hne, hds, hrest⟩ := numberWord?_some hword
  rcases hread with rfl | hread
  · cases hm
  · obtain ⟨after, hnext⟩ := nextBlock_of_blocksAt hread
    obtain ⟨spaced, ha⟩ := Reader.advance_letter d (1 + i) hletter hne hds hdrop
    rw [nextBlock_start d rfl, Reader.run_bind, ha none] at hnext
    simp only [Reader.heldBlock, Reader.run_get, reduceCtorEq, if_false] at hnext
    obtain ⟨b', hblock, hb'⟩ := Reader.ok_map hnext
    cases hb'
    obtain ⟨b', mid, hcontent, hend⟩ := Reader.ok_bind hblock
    obtain ⟨_, _, -, hend⟩ := Reader.ok_bind hend
    cases hend
    obtain ⟨first, mid, next, hs, hn⟩ := Reader.number_of_blockContent hcontent
    rw [hm] at hn
    exact Reader.blockNumber_word hletter hne hds hrest hs hn

end Program

end PartProgram
