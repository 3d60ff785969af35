import PartProgram.Proofs.RoundTrip.Instruction

/-!
# Reading written address words

A letter is written directly in front of its number. The letter takes digits with it, a sign
makes a difference of them that is taken apart again, and any other number stands alone.
-/

set_option autoImplicit false

namespace PartProgram

theorem isIdentifier_letter {letter : Char} (h : Scan.isNameChar letter = true) :
    IsIdentifier (String.ofList [letter]) := by
  refine ⟨⟨by simp, ?_, ?_, ?_⟩, ?_⟩
  · simp [h]
  · simp [h]
  · simp [Scan.cutName]
  · rw [String.toList_ofList]
    exact isOperatorName_letter letter

theorem leadingWord_letter (letter : Char) :
    leadingWord (String.ofList [letter]) = String.ofList [letter] := by
  simp [leadingWord]

theorem stands_letter_number {letter : Char} (hletter : Scan.isNameChar letter = true)
    {spelling text : List Char} (h : Spelling spelling text) (line : Nat) (spaced : Bool)
    (rest : List Char) :
    Stands line (lead spaced ++ (letter :: spelling ++ rest))
      ⟨spelling ++ rest, line, some ⟨.identifier, String.ofList [letter], spaced, line⟩⟩ := by
  have hdigit : ∀ whole tail : List Char, whole ≠ [] → (∀ c ∈ whole, c.isDigit = true) →
      Stands line (lead spaced ++ (letter :: (whole ++ tail)))
        ⟨whole ++ tail, line, some ⟨.identifier, String.ofList [letter], spaced, line⟩⟩ := by
    intro whole tail hne hw
    obtain ⟨digit, whole, rfl⟩ := List.exists_cons_of_ne_nil hne
    exact stands_letter hletter (hw digit List.mem_cons_self) line spaced (whole ++ tail)
  cases h with
  | digits hne hw => exact hdigit _ rest hne hw
  | @point whole fraction hne hw hf =>
    have hs := hdigit whole ('.' :: (fraction ++ rest)) hne hw
    simpa using hs
  | constant hw hmark =>
    have hparted : Parted ('\x27' :: (text ++ ['\x27']) ++ rest) :=
      parted_cons (by decide) (by decide) (by decide)
    have hs := stands_identifier (isIdentifier_letter hletter) line spaced hparted
    rw [String.toList_ofList] at hs
    exact hs

theorem Spelling.not_bare {spelling text : List Char} (h : Spelling spelling text)
    (ht : text.contains '.' = true ∨ ∀ c ∈ text.head?, c.isDigit = false) :
    ¬ ∀ c ∈ spelling, c.isDigit = true := by
  intro hbare
  cases h with
  | digits hne hw =>
    rcases ht with hpoint | hhead
    · exact absurd (hbare '.' (List.contains_iff_mem.mp hpoint)) (by decide)
    · obtain ⟨c, cs, rfl⟩ := List.exists_cons_of_ne_nil hne
      have hdigit := hbare c List.mem_cons_self
      rw [hhead c rfl] at hdigit
      cases hdigit
  | point hne hw hf => exact absurd (hbare '.' (by simp)) (by decide)
  | constant hw hmark => exact absurd (hbare '\x27' List.mem_cons_self) (by decide)

/-- A letter with a text behind it is read as an assignment of the number. -/
def AssignsLetter (letter : Char) (text : List Char) (value : Number) (line : Nat) (spaced : Bool)
    (rest : List Char) (after : Cursor) : Prop :=
  ∃ c, Stands line (lead spaced ++ (letter :: text ++ rest)) c ∧
    c.held = some ⟨.identifier, String.ofList [letter], spaced, line⟩ ∧
    Reader.assignmentOrInstruction {} c =
      .ok (.assign (String.ofList [letter]) none (.num value)) after

section Letter

variable {letter : Char} {rest : List Char} {after : Cursor} {line : Nat}

theorem assignsLetter_digits (hletter : Scan.isNameChar letter = true) {k : Nat}
    (hk : k < wordLimit) (spaced : Bool) (hr : NumberEnds rest) (hs : Stands line rest after)
    (hfresh : after.Fresh) :
    AssignsLetter letter (digits 10 k) ⟨realOfInt k, true, .decimal⟩ line spaced rest after := by
  have hequals := hfresh.not_holds .operator "=" (by decide) (by decide) (by decide)
  obtain ⟨digit, tail, hdigits⟩ := List.exists_cons_of_ne_nil (digits_ne_nil 10 k)
  have hall : ∀ c ∈ digits 10 k, c.isDigit = true := fun c hc => isDigit_mem_digits hc
  have hdigit : digit.isDigit = true := hall digit (hdigits ▸ List.mem_cons_self)
  have hname : (String.ofList (letter :: digits 10 k)).toList = letter :: digit :: tail := by
    rw [String.toList_ofList, hdigits]
  have hword : leadingWord (String.ofList (letter :: digits 10 k)) = String.ofList [letter] := by
    simp [leadingWord, hdigits, hdigit]
  have honly : DigitsOnly (String.ofList (letter :: digits 10 k)) := by
    intro letter' digit' tail' hname' _ c hc
    rw [hname] at hname'
    cases hname'
    exact hall c (hdigits ▸ List.mem_cons_of_mem _ hc)
  have hident : ¬ IsIdentifier (String.ofList (letter :: digits 10 k)) := by
    intro hi
    have hcut := hi.1.cut
    rw [hname] at hcut
    cases tail <;> simp [Scan.cutName, hdigit] at hcut
  obtain ⟨c, hc, hheld, hread⟩ := reads_variable
    (.inr ⟨letter, digit, tail, hname, hletter, hdigit⟩) honly line spaced hr
    (fun hi => absurd hi hident) hs hfresh.endsName
  rw [hword] at hheld
  refine ⟨c, by simpa using hc, hheld, ?_⟩
  rw [Reader.assignmentOrInstruction_var (Reader.expression_operand hread hfresh.no_operator)]
  apply Reader.variableStatement_number hname hdigit _ hequals
  rw [← hdigits]
  exact readInteger_digits (by decide) (by decide) hk

theorem gluedDigits_apart {text : List Char}
    (h : text.contains '.' = true ∨ ∀ c ∈ text.head?, c.isDigit = false) (name : String) :
    Reader.gluedDigits {} name ⟨rest, line, some ⟨.number, String.ofList text, false, line⟩⟩ =
      .ok name ⟨rest, line, some ⟨.number, String.ofList text, false, line⟩⟩ := by
  have hcond : (decide (name.utf8ByteSize = 1) && !false &&
      (Token.mk .number (String.ofList text) false line).isDecimal &&
      !(String.ofList text).toList.contains '.') = false := by
    rw [String.toList_ofList]
    rcases h with hpoint | hmark
    · simp [List.contains_iff_mem.mp hpoint]
    · cases text with
      | nil => simp [Token.isDecimal]
      | cons mark text => simp [Token.isDecimal, hmark mark rfl]
  simp only [Reader.gluedDigits, Reader.run_get, hcond]
  rfl

theorem assignsLetter_token (hletter : Scan.isNameChar letter = true)
    {spelling text : List Char} {value : Number} (hspell : Spelling spelling text)
    (hl : literal text = some value)
    (hapart : text.contains '.' = true ∨ ∀ c ∈ text.head?, c.isDigit = false) (spaced : Bool)
    (hr : NumberEnds rest) (hs : Stands line rest after) (hfresh : after.Fresh)
    (hd : after.Detached) : AssignsLetter letter spelling value line spaced rest after := by
  have hends := hfresh.ends hd
  have hnumber := (hspell.stands line false hr).close
  have hread : Reads (Reader.operand {}) ⟨spelling ++ rest, line,
      some ⟨.identifier, String.ofList [letter], spaced, line⟩⟩
      (.var (String.ofList [letter]) none)
      ⟨rest, line, some ⟨.number, String.ofList text, false, line⟩⟩ := by
    refine ⟨1, ?_⟩
    rintro (_ | ⟨x, ahead⟩) hahead
    · simp at hahead
    · rw [Reader.operand_name rfl rfl,
        Reader.variableOrCall_var (hnumber.advance _) rfl (gluedDigits_apart hapart _)]
      rfl
  refine ⟨_, stands_letter_number hletter hspell line spaced rest, rfl, ?_⟩
  rw [Reader.assignmentOrInstruction_var (Reader.expression_operand hread (by rintro t ⟨⟩; simp))]
  apply Reader.variableStatement_letter String.toList_ofList rfl
  exact Reader.expression_operand (Reader.operand_number rfl hl (hs.advance _) hends.1) hends.2

theorem assignsLetter_signed (hletter : Scan.isNameChar letter = true)
    {spelling text : List Char} {value : Number} (hspell : Spelling spelling text)
    (hl : literal text = some value) (spaced : Bool) (hr : NumberEnds rest)
    (hs : Stands line rest after) (hfresh : after.Fresh) (hd : after.Detached) :
    AssignsLetter letter ('-' :: spelling) value.negate line spaced rest after := by
  have hends := hfresh.ends hd
  have hnumber := (hspell.stands line false hr).close
  have hsign : Stands line (lead false ++ '-' :: (spelling ++ rest))
      ⟨spelling ++ rest, line, some ⟨.operator, "-", false, line⟩⟩ :=
    stands_lexeme line false (by decide)
      (Scan.lexeme_sign (by decide) (fun b _ => joins_minus b)) (by decide)
  have hparted : Parted ('-' :: (spelling ++ rest)) :=
    parted_cons (by decide) (by decide) (by decide)
  obtain ⟨c, hc, hheld, hread⟩ := reads_variable (.inl (isIdentifier_letter hletter))
    (isIdentifier_letter hletter).digitsOnly line spaced hparted.numberEnds (fun _ => hparted)
    hsign.close (by rintro t ⟨⟩; simp [Token.is])
  rw [leadingWord_letter] at hheld
  refine ⟨c, by simpa using hc, hheld, ?_⟩
  exact Reader.assignmentOrInstruction_difference (letter_utf8ByteSize hletter)
    (Reader.expression_difference hread rfl rfl rfl (hnumber.advance _)
      (Reader.operand_number rfl hl (hs.advance _) hends.1) hends.2)

theorem assignsLetter_number (hletter : Scan.isNameChar letter = true) {n : Number}
    (hn : n.value.isFinite = true) (hfits : n.Fits) (line : Nat) (spaced : Bool)
    (hr : NumberEnds rest) (hs : Stands line rest after) (hfresh : after.Fresh)
    (hd : ¬ n.IsBare → after.Detached) :
    AssignsLetter letter n.text.toList n.plain line spaced rest after := by
  rcases Number.text_cases hn hfits with ⟨k, hk, htext, hplain⟩ | ⟨text, hspell, hl, hapart⟩ |
    ⟨spelling, text, u, htext, hspell, hl, hplain⟩
  · rw [htext, hplain]
    exact assignsLetter_digits hletter hk spaced hr hs hfresh
  · exact assignsLetter_token hletter hspell hl hapart spaced hr hs hfresh
      (hd (hspell.not_bare hapart))
  · have hsigned : ¬ n.IsBare := by
      intro hbare
      exact absurd (hbare '-' (htext ▸ List.mem_cons_self)) (by decide)
    rw [htext, hplain]
    exact assignsLetter_signed hletter hspell hl spaced hr hs hfresh (hd hsigned)

end Letter

theorem statementText_letter {letter : Char} (hletter : Scan.isNameChar letter = true) {n : Number}
    (hn : n.value.isFinite = true) (hfits : n.Fits) (hfree : Free (String.ofList [letter]))
    (ending : Ending) (hending : ∀ rest after, ending.Allows rest after →
      NumberEnds rest ∧ (¬ n.IsBare → after.Detached)) :
    StatementText (letter :: n.text.toList) ending
      (.assign (String.ofList [letter]) none (.num n.plain)) := by
  intro line spaced rest after hallows hs hfresh
  obtain ⟨hr, hd⟩ := hending rest after hallows
  obtain ⟨c, hc, hheld, hread⟩ :=
    assignsLetter_number hletter hn hfits line spaced hr hs hfresh hd
  have hreserved : isReserved (leadingWord (String.ofList [letter])) = false := hfree
  rw [leadingWord_letter] at hreserved
  refine ⟨c, hc, by rw [hheld, Statement.word, leadingWord_letter], ?_⟩
  apply Reader.statement_named hheld rfl
  rw [Reader.namedStatement_free hreserved]
  exact hread

end PartProgram
