import PartProgram.Proofs.BlockNumber.Line
import PartProgram.Proofs.Run.Structured.Statement

/-!
# Block numbers

A block is found by the number that it was written with. The number passes
through a double where the block is read, and so does a plain number behind a
jump. A reference such as `N100` does not: it is compared as it is written. So
jump and block agree as long as no number is rounded.
-/

set_option autoImplicit false

namespace PartProgram

theorem readInteger_of_digits {ds : List Char} (hds : ∀ c ∈ ds, c.isDigit = true) {n : Int}
    (h : readInteger 10 ds = some n) : n = ofDigits 10 ds ∧ ofDigits 10 ds < wordLimit := by
  have hsign : splitSign ds = (false, ds) :=
    splitSign_digits (fun c hc => .inl (hds c (List.mem_of_mem_head? hc)))
  simp only [readInteger, hsign, signed, Bool.false_eq_true, if_false] at h
  split at h
  · split at h
    · rename_i hword
      cases h
      simp only [isWord, Bool.and_eq_true, decide_eq_true_eq] at hword
      exact ⟨rfl, by omega⟩
    · cases h
  · cases h

namespace Reader

variable {d : Dialect} {letter : Char} {ds : List Char} {line : Nat}

theorem expression_alone {c : Cursor} {t : Token} (hc : c.held = some t)
    (hop : t.kind ≠ .operator) {e : Expr}
    (he : ∀ inner ahead, operandOf d inner ahead c = .ok e ⟨[], line, none⟩) :
    expression d c = .ok e ⟨[], line, none⟩ := by
  have hahead : c.ahead = ' ' :: c.unread := by simp [Cursor.ahead, hc]
  have hunary : unaryOperator d c = .ok none c := by
    rw [unaryOperator, run_bind, heldOperator_none (by simp [hc, hop])]
    rfl
  have hoperand : operand d c.ahead c = .ok e ⟨[], line, none⟩ := by
    rw [hahead, operand, run_bind, hunary]
    exact he _ _
  rw [expression, expressionOf, run_bind, hoperand]
  exact operations_end (by simp) _ _ [] e

theorem expression_reference (hletter : letter = 'N' ∨ letter = 'n') (hne : ds ≠ [])
    (hds : ∀ c ∈ ds, c.isDigit = true) (spaced : Bool) :
    expression d ⟨ds, line, some ⟨.identifier, String.ofList [letter], spaced, line⟩⟩ =
      .ok (.var (String.ofList (letter :: ds)) none) ⟨[], line, none⟩ := by
  refine expression_alone rfl (by simp) (fun inner ahead => ?_)
  rw [operandOf_held rfl (by simp) (by simp)]
  have hread := @variableOrCall_digits d letter ds [] line hletter hne hds
    (by simp [NumberEnds]) inner ahead
    (some ⟨.identifier, String.ofList [letter], spaced, line⟩)
  rw [List.append_nil] at hread
  simp only [hread]
  rfl

theorem expression_digits (hne : ds ≠ []) (hds : ∀ c ∈ ds, c.isDigit = true)
    (hlt : ofDigits 10 ds < wordLimit) (spaced : Bool) :
    expression d ⟨[], line, some ⟨.number, String.ofList ds, spaced, line⟩⟩ =
      .ok (.int (ofDigits 10 ds)) ⟨[], line, none⟩ := by
  refine expression_alone rfl (by simp) (fun inner ahead => ?_)
  have hvalue : (Token.mk .number (String.ofList ds) spaced line).number? =
      some (realOfInt (ofDigits 10 ds)) := by
    rw [← Double.realOfDecimal_integer hlt, ← readReal_integer hne hds]
    obtain ⟨digit, more, rfl⟩ := List.exists_cons_of_ne_nil hne
    simp only [Token.number?, if_true, String.toList_ofList,
      radix_of_isDigit (hds digit List.mem_cons_self)]
  have hpoint : ds.contains '.' = false :=
    not_contains_point (fun c hc hp => by rw [hp] at hc; cases hds _ hc)
  rw [operandOf_held rfl (by simp) (by simp)]
  simp only []
  obtain ⟨digit, more, rfl⟩ := List.exists_cons_of_ne_nil hne
  rw [run_map]
  simp only [number, hvalue, String.toList_ofList, List.head?_cons, hpoint,
    radix_of_isDigit (hds digit List.mem_cons_self)]
  rfl

/-- What a word behind a jump is read as. -/
def ReadsTarget (d : Dialect) (word : List Char) (e : Expr) : Prop :=
  ∃ c, (∀ held, advance d ⟨' ' :: word, 1, held⟩ = .ok () c) ∧ expression d c = .ok e ⟨[], 1, none⟩

theorem readsTarget_reference (hletter : letter = 'N' ∨ letter = 'n') (hne : ds ≠ [])
    (hds : ∀ c ∈ ds, c.isDigit = true) :
    ReadsTarget d (letter :: ds) (.var (String.ofList (letter :: ds)) none) := by
  have hblank : isBlank letter = false := by rcases hletter with rfl | rfl <;> decide
  have hdrop : (' ' :: letter :: ds).dropWhile isBlank = letter :: (ds ++ []) := by
    have hspace : isBlank ' ' = true := rfl
    simp [hblank, hspace]
  obtain ⟨spaced, ha⟩ := advance_letter d 1 hletter hne hds hdrop
  rw [List.append_nil] at ha
  exact ⟨_, ha, expression_reference hletter hne hds spaced⟩

theorem readsTarget_digits (hne : ds ≠ []) (hds : ∀ c ∈ ds, c.isDigit = true)
    (hlt : ofDigits 10 ds < wordLimit) : ReadsTarget d ds (.int (ofDigits 10 ds)) := by
  refine ⟨_, fun held => ?_, expression_digits hne hds hlt true⟩
  have ha := @advance_digits d ds [] 1 hne hds (by simp [NumberEnds]) true held
  rwa [List.append_nil] at ha

theorem nextBlock_jump {direction : JumpDirection} (hd : direction ≠ .start) {word : List Char}
    {e : Expr} (h : ReadsTarget d word e) :
    nextBlock d ⟨("GOTO" ++ direction.suffix).toList ++ ' ' :: word, 1, none⟩ =
      .ok (some { line := 1, statements := [.jump direction (some e)] }) ⟨[], 1, none⟩ := by
  obtain ⟨c, ha, he⟩ := h
  have hfirst : advance d ⟨("GOTO" ++ direction.suffix).toList ++ ' ' :: word, 1, none⟩ =
      .ok () ⟨' ' :: word, 1, some ⟨.identifier, "GOTO" ++ direction.suffix, false, 1⟩⟩ := by
    have hword : Scan.IsWord ("GOTO" ++ direction.suffix).toList ∧
        Scan.isOperatorName ("GOTO" ++ direction.suffix).toList = false ∧
        (∃ more, ("GOTO" ++ direction.suffix).toList = 'G' :: more) := by
      cases direction <;> exact ⟨by decide, by decide, _, rfl⟩
    obtain ⟨hword, hop, more, hmore⟩ := hword
    have hparted : Parted (' ' :: word) := parted_cons (by decide) (by decide) (by decide)
    have hname := Scan.name_word hword hparted
    rw [hop, hmore] at hname
    have hdrop : (('G' :: more) ++ ' ' :: word).dropWhile isBlank =
        'G' :: (more ++ ' ' :: word) := rfl
    simp only [advance, Scan.next, hmore, hdrop, Scan.lexeme_name d (c := 'G') (by decide)]
    rw [show 'G' :: (more ++ ' ' :: word) = ('G' :: more) ++ ' ' :: word from rfl, hname]
    have hhead : isBlank ((('G' :: more) ++ ' ' :: word).headD 'G') = false := rfl
    simp only [hhead, Bool.false_eq_true, if_false, reduceCtorEq]
    rw [← hmore, String.ofList_toList]
  have hnamed : namedStatement d ("GOTO" ++ direction.suffix) = jump d direction := by
    cases direction <;> rfl
  have hstatement : statement d
      ⟨' ' :: word, 1, some ⟨.identifier, "GOTO" ++ direction.suffix, false, 1⟩⟩ =
      .ok (some (.jump direction (some e))) ⟨[], 1, none⟩ := by
    have hhere : Cursor.atLineEnd
        ⟨' ' :: word, 1, some ⟨.identifier, "GOTO" ++ direction.suffix, false, 1⟩⟩ = false := rfl
    simp only [statement, run_get, hhere, hnamed, Bool.false_eq_true, if_false, if_true]
    rw [run_map, jump, run_bind, ha]
    simp only [hd, if_false]
    rw [run_bind, he]
    rfl
  rw [nextBlock_start d rfl, run_bind, hfirst]
  simp only [heldBlock, run_get, reduceCtorEq, if_false]
  rw [run_map, blockFrom, run_bind, blockContent]
  simp only [run_get]
  rw [run_bind, hstatement]
  rfl

end Reader

namespace Program

variable {d : Dialect} {text : String} {p : Program}

theorem parse_jump {direction : JumpDirection} (hd : direction ≠ .start) {word : List Char}
    {e : Expr} (h : Reader.ReadsTarget d word e) :
    parse d ("GOTO" ++ direction.suffix ++ " " ++ String.ofList word) =
      .ok ⟨[{ line := 1, statements := [.jump direction (some e)] }]⟩ := by
  rw [parse_ok_iff]
  have htext : ("GOTO" ++ direction.suffix ++ " " ++ String.ofList word).toList =
      ("GOTO" ++ direction.suffix).toList ++ ' ' :: word := by simp
  rw [htext]
  exact blocksAt_of_last (Reader.nextBlock_jump hd h) rfl

/-- The integer that the number of a block denotes: the one that its digits spell, or for another
spelling the one that was read. -/
def denoted? (text : String) (p : Program) (i : Nat) : Option Int :=
  (p.blocks[i]?.bind (·.number)).map fun m =>
    match (cutLines text.toList)[i]?.bind numberWord? with
    | some ds => ofDigits 10 ds
    | none => m

theorem denoted?_eq (h : parse d text = .ok p) (i : Nat) {n : Nat} (hn : n < 2 ^ 53) :
    p.denoted? text i = some (n : Int) ↔ p.blocks[i]?.bind (·.number) = some (n : Int) := by
  cases hb : p.blocks[i]? with
  | none => simp [denoted?, hb]
  | some b =>
    cases hm : b.number with
    | none => simp [denoted?, hb, hm]
    | some m =>
      cases hword : (cutLines text.toList)[i]?.bind numberWord? with
      | none => simp [denoted?, hb, hm, hword]
      | some ds =>
        obtain ⟨line, hline, hds⟩ := Option.bind_eq_some_iff.mp hword
        obtain ⟨k, hk, hround⟩ := number_of_word h hb hm hline hds
        obtain ⟨-, -, -, -, -, hdigits, -⟩ := numberWord?_some hds
        obtain ⟨rfl, -⟩ := readInteger_of_digits hdigits hk
        simp only [denoted?, hb, hm, hword, Option.bind_some, Option.map_some, Option.some.injEq]
        constructor
        · intro heq
          rw [heq, Double.integral_small hn] at hround
          exact (Option.some.inj hround).symm
        · rintro rfl
          exact congrArg Nat.cast (Double.eq_of_integral_realOfInt hround hn)

theorem findNumber?_first {n : Int} {i : Nat} (h : p.blocks[i]?.bind (·.number) = some n) :
    ∃ j, p.findNumber? n = some j ∧ p.blocks[j]?.bind (·.number) = some n ∧
      ∀ k < j, p.blocks[k]?.bind (·.number) ≠ some n := by
  obtain ⟨b, hb, hnumber⟩ := Option.bind_eq_some_iff.mp h
  cases hf : p.findNumber? n with
  | none =>
    have hno := List.findIdx?_eq_none_iff.mp hf b (List.mem_of_getElem? hb)
    simp [hnumber] at hno
  | some j =>
    obtain ⟨hlt, hj, hfirst⟩ := List.findIdx?_eq_some_iff_getElem.mp hf
    refine ⟨j, rfl, ?_, fun k hk hfound => ?_⟩
    · simpa [List.getElem?_eq_getElem hlt] using hj
    · have hno := hfirst k hk
      rw [List.getElem?_eq_getElem (Nat.lt_trans hk hlt), Option.bind_some] at hfound
      simp [hfound] at hno

theorem target_reference {letter : Char} {ds : List Char} (hletter : letter = 'N' ∨ letter = 'n')
    (hne : ds ≠ []) (hds : ∀ c ∈ ds, c.isDigit = true) (hlt : ofDigits 10 ds < wordLimit) {j : Nat}
    (hj : p.findNumber? (ofDigits 10 ds) = some j) :
    p.target (some (.var (String.ofList (letter :: ds)) none)) = .ok j := by
  have hupper : letter.toUpper = 'N' := by rcases hletter with rfl | rfl <;> rfl
  have href : blockReference? (String.ofList (letter :: ds)) = some (ofDigits 10 ds : Int) := by
    have hall : ds.all Char.isDigit = true := List.all_eq_true.mpr hds
    simp only [blockReference?, String.toList_ofList, hupper, hall, hne, ne_eq, not_false_eq_true,
      decide_true, Bool.and_self, if_true]
    exact readInteger_eq hne (fun c hc => isDigitOf_of_isDigit (hds c hc)) hlt
  simp only [target, href, hj]
  rfl

theorem target_digits {n : Nat} (hn : integral? (realOfInt n) = some (n : Int)) {j : Nat}
    (hj : p.findNumber? n = some j) : p.target (some (.int n)) = .ok j := by
  simp only [target, Expr.int, hn, hj]
  rfl

end Program

theorem Exec.statement_jump {programs : Table Program} {call : Program → Exec Unit} {p : Program}
    {line j : Nat} {direction : JumpDirection} {target : Option Expr} {r : Run}
    (hj : p.target target = .ok j) (hskip : skipping r.control.branches = false) :
    Exec.statement programs call p line (.jump direction target) r =
      .ok () { r with control := { r.control with jump := some (.to j) } } := by
  rw [Exec.statement, Exec.unlessSkipping_run _ hskip, Exec.jump, hj]
  rfl

namespace Program

/-- A block that is written with a number below `2 ^ 53` is found by it. A jump to the number,
with the letter or without, leads to the first block whose number denotes the same integer. -/
theorem jump_finds_number (d : Dialect) (text : String) (p : Program) (i : Nat) (ds : List Char)
    (direction : JumpDirection) (word : List Char) (hparse : parse d text = .ok p)
    (hnumber : (p.blocks[i]?.bind (·.number)).isSome = true)
    (hword : (cutLines text.toList)[i]?.bind numberWord? = some ds)
    (hsmall : ofDigits 10 ds < 2 ^ 53) (hdirection : direction ≠ .start)
    (htarget : word = ds ∨ ∃ letter : Char, letter.toUpper = 'N' ∧ word = letter :: ds) :
    ∃ target j,
      parse d ("GOTO" ++ direction.suffix ++ " " ++ String.ofList word) =
        .ok ⟨[{ line := 1, statements := [.jump direction (some target)] }]⟩ ∧
      p.denoted? text j = some (ofDigits 10 ds : Int) ∧
      (∀ k < j, p.denoted? text k ≠ some (ofDigits 10 ds : Int)) ∧
      ∀ (programs : Table Program) (call : Program → Exec Unit) (line : Nat) (r : Run),
        skipping r.control.branches = false →
          Exec.statement programs call p line (.jump direction (some target)) r =
            .ok () { r with control := { r.control with jump := some (.to j) } } := by
  have hdenoted : p.denoted? text i = some (ofDigits 10 ds : Int) := by
    obtain ⟨m, hm⟩ := Option.isSome_iff_exists.mp hnumber
    simp only [denoted?, hm, hword, Option.map_some]
  obtain ⟨j, hj, hfound, hfirst⟩ := findNumber?_first ((denoted?_eq hparse i hsmall).mp hdenoted)
  obtain ⟨first, -, hbegins⟩ := Option.bind_eq_some_iff.mp hword
  obtain ⟨-, -, -, -, hne, hds, -⟩ := numberWord?_some hbegins
  have hlt : ofDigits 10 ds < wordLimit := lt_trans hsmall (by decide)
  -- Either way the jump has a target, which is the first block with the number.
  obtain ⟨target, hread, hgo⟩ : ∃ target, Reader.ReadsTarget d word target ∧
      p.target (some target) = .ok j := by
    rcases htarget with rfl | ⟨letter, hletter, rfl⟩
    · exact ⟨_, Reader.readsTarget_digits hne hds hlt,
        target_digits (Double.integral_small hsmall) hj⟩
    · have hcase := eq_of_toUpper_n hletter
      exact ⟨_, Reader.readsTarget_reference hcase hne hds, target_reference hcase hne hds hlt hj⟩
  refine ⟨target, j, parse_jump hdirection hread, (denoted?_eq hparse j hsmall).mpr hfound,
    fun k hk => ?_, fun programs call line r hskip => Exec.statement_jump hgo hskip⟩
  rw [ne_eq, denoted?_eq hparse k hsmall]
  exact hfirst k hk

theorem jump_finds_number_padded : ∃ p target j,
    parse {} "M6\nN07" = .ok p ∧
      parse {} "GOTOF n07" = .ok ⟨[{ line := 1, statements := [.jump .forward (some target)] }]⟩ ∧
      p.denoted? "M6\nN07" j = some 7 ∧
      Exec.statement [] (fun _ => pure ()) p 1 (.jump .forward (some target)) { state := {} } =
        .ok () { state := {}, control := { jump := some (.to j) } } := by
  have hread : (parse {} "M6\nN07").toOption.map
      (fun p => (p.blocks[1]?.bind (·.number)).isSome) = some true := by decide +kernel
  cases hp : parse {} "M6\nN07" with
  | error e =>
    rw [hp] at hread
    cases hread
  | ok p =>
    rw [hp] at hread
    obtain ⟨target, j, htarget, hj, -, hgo⟩ :=
      jump_finds_number {} "M6\nN07" p 1 ['0', '7'] .forward ['n', '0', '7'] hp
        (Option.some.inj hread) (by decide +kernel) (by decide) (by decide)
        (.inr ⟨'n', by decide, rfl⟩)
    exact ⟨p, target, j, rfl, htarget, hj, hgo [] _ 1 { state := {} } rfl⟩

/-- From `2 ^ 53` on a block can have another number than it was written with, and then a
reference to it leads nowhere. -/
theorem reference_lost_in_rounding : ∃ p,
    parse {} "N9007199254740993" = .ok p ∧
      p.denoted? "N9007199254740993" 0 = some 9007199254740993 ∧
      p.blocks.map (·.number) = [some 9007199254740992] ∧
      p.target (some (.var "N9007199254740993" none)) =
        .error (.unknownTarget "N9007199254740993") := by
  have hread : (parse {} "N9007199254740993").toOption.map
      (fun p => (p.denoted? "N9007199254740993" 0, p.blocks.map (·.number),
        p.target (some (.var "N9007199254740993" none)))) =
      some (some 9007199254740993, [some 9007199254740992],
        .error (.unknownTarget "N9007199254740993")) := by decide +kernel
  cases hp : parse {} "N9007199254740993" with
  | error e =>
    rw [hp] at hread
    cases hread
  | ok p =>
    rw [hp] at hread
    simp only [Except.toOption, Option.map_some, Option.some.injEq, Prod.mk.injEq] at hread
    exact ⟨p, rfl, hread.1, hread.2.1, hread.2.2⟩

end Program

end PartProgram
