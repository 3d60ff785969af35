import PartProgram.Cursor
import PartProgram.Proofs.Decimal.Digits

/-!
# Scanning written tokens

A token that is written in front of more text is scanned again, provided that the
text does not go on with a character that would belong to it. A position stands
at a text if the first token of the text is held there.
-/

set_option autoImplicit false

namespace PartProgram

def lead (spaced : Bool) : List Char := if spaced then [' '] else []

/-- A text that does not go on with a name or a number. -/
def Parted (rest : List Char) : Prop :=
  ∀ c ∈ rest.head?, Scan.isNameChar c = false ∧ c.isDigit = false ∧ c ≠ '.'

theorem parted_nil : Parted [] := by
  intro c hc
  cases hc

theorem parted_cons {c : Char} {rest : List Char} (h : Scan.isNameChar c = false)
    (hd : c.isDigit = false) (hp : c ≠ '.') : Parted (c :: rest) := by
  intro c' hc
  cases hc
  exact ⟨h, hd, hp⟩

/-- The position at the first token of a text. -/
def Stands (line : Nat) (text : List Char) (c : Cursor) : Prop :=
  Reader.advance {} ⟨text, line, none⟩ = .ok () c

theorem Stands.advance {line : Nat} {text : List Char} {c : Cursor} (h : Stands line text c)
    (held : Option Token) : Reader.advance {} ⟨text, line, held⟩ = .ok () c := by
  unfold Stands at h
  simp only [Reader.advance] at h ⊢
  cases hn : Scan.next {} line text with
  | finished => simpa [hn] using h
  | token t line rest => simpa [hn] using h
  | fault cause rest => simp [hn] at h

theorem Stands.close {line : Nat} {text : List Char} {c : Cursor}
    (h : Stands line (lead false ++ text) c) : Stands line text c := h

theorem Stands.line {line : Nat} {text : List Char} {c : Cursor} (h : Stands line text c)
    {t : Token} (ht : c.held = some t) : t.line = line := by
  unfold Stands at h
  simp only [Reader.advance, Scan.next] at h
  cases hdrop : text.dropWhile isBlank with
  | nil =>
    simp only [hdrop] at h
    cases h
    cases ht
  | cons first rest =>
    simp only [hdrop] at h
    cases hl : Scan.lexeme {} first rest with
    | fault cause beyond =>
      simp only [hl] at h
      cases h
    | found kind text beyond =>
      simp only [hl] at h
      cases h
      cases ht
      rfl

theorem stands_lexeme (line : Nat) (spaced : Bool) {c : Char} {cs text rest : List Char}
    {kind : TokenKind} (hc : isBlank c = false)
    (hl : Scan.lexeme {} c cs = .found kind text rest) (hk : kind ≠ .newLine) :
    Stands line (lead spaced ++ c :: cs)
      ⟨rest, line, some ⟨kind, String.ofList text, spaced, line⟩⟩ := by
  have hdrop : (lead spaced ++ c :: cs).dropWhile isBlank = c :: cs := by
    have hblank : isBlank ' ' = true := rfl
    cases spaced <;> simp [lead, hc, hblank]
  have hhead : isBlank ((lead spaced ++ c :: cs).headD c) = spaced := by
    cases spaced
    · simpa [lead] using hc
    · rfl
  simp only [Stands, Reader.advance, Scan.next, hdrop, hl, hhead, hk, if_false]

theorem isAlpha_iff_toNat {c : Char} :
    c.isAlpha = true ↔ 65 ≤ c.toNat ∧ c.toNat ≤ 90 ∨ 97 ≤ c.toNat ∧ c.toNat ≤ 122 := by
  show (decide (_ ∧ _) || (decide _ && decide _)) = true ↔ _
  simp only [Bool.or_eq_true, Bool.and_eq_true, decide_eq_true_eq, ge_iff_le,
    UInt32.le_iff_toNat_le]
  rfl

namespace Scan

theorem toNat_nameChar {c : Char} (h : isNameChar c = true) : 36 ≤ c.toNat ∧ c.toNat ≤ 122 := by
  simp only [isNameChar, Bool.or_eq_true, beq_iff_eq, isAlpha_iff_toNat] at h
  rcases h with (h | rfl) | rfl
  · omega
  · decide
  · decide

theorem ne_of_isNameChar {c : Char} (h : isNameChar c = true) :
    isBlank c = false ∧ isLineEnd c = false ∧ c ≠ ';' ∧ c ≠ '(' := by
  have hne : ∀ d : Char, isNameChar d = false → c ≠ d := by
    rintro d hd rfl
    rw [h] at hd
    cases hd
  refine ⟨?_, ?_, hne ';' (by decide), hne '(' (by decide)⟩
  · simp [isBlank, hne ' ' (by decide), hne '\t' (by decide), hne '\x0c' (by decide)]
  · simp [isLineEnd, hne '\r' (by decide), hne '\n' (by decide)]

theorem lexeme_nameChar {c : Char} (h : isNameChar c = true) (cs : List Char) :
    lexeme {} c cs = name (c :: cs) := by
  obtain ⟨-, hl, hs, hp⟩ := ne_of_isNameChar h
  simp [lexeme, hl, hs, h]

/-- The names that scanning yields. -/
structure IsWord (w : List Char) : Prop where
  ne_nil : w ≠ []
  chars : ∀ c ∈ w, (isNameChar c || c.isDigit) = true
  first : ∀ c ∈ w.head?, isNameChar c = true
  cut : cutName w = w

instance (w : List Char) : Decidable (IsWord w) :=
  decidable_of_iff (w ≠ [] ∧ w.all (fun c => isNameChar c || c.isDigit) = true ∧
      w.head?.all isNameChar = true ∧ cutName w = w)
    ⟨fun ⟨hne, hchars, hfirst, hcut⟩ =>
        ⟨hne, List.all_eq_true.mp hchars, (Option.all_eq_true _ _).mp hfirst, hcut⟩,
      fun h =>
        ⟨h.ne_nil, List.all_eq_true.mpr h.chars, (Option.all_eq_true _ _).mpr h.first, h.cut⟩⟩

def isOperatorName (w : List Char) : Bool := operatorNames.any (sameLetters (String.ofList w))

theorem takeWhile_word {w rest : List Char} (hw : ∀ c ∈ w, (isNameChar c || c.isDigit) = true)
    (hr : Parted rest) : (w ++ rest).takeWhile (fun c => isNameChar c || c.isDigit) = w := by
  rw [List.takeWhile_append_of_pos hw]
  cases rest with
  | nil => simp
  | cons c rest =>
    obtain ⟨hn, hd, -⟩ := hr c rfl
    simp [hn, hd]

theorem name_word {w rest : List Char} (hw : IsWord w) (hr : Parted rest) :
    name (w ++ rest) =
      .found (if isOperatorName w then .operator else .identifier) w rest := by
  simp only [name, takeWhile_word hw.chars hr, hw.cut, List.drop_left]
  rfl

/-- A digit directly behind a single letter does not belong to the name. -/
theorem name_letter {c d : Char} (hd : d.isDigit = true) (hc : isNameChar c = true)
    (rest : List Char) :
    name (c :: d :: rest) =
      .found (if isOperatorName [c] then .operator else .identifier) [c] (d :: rest) := by
  have hcut : cutName ((c :: d :: rest).takeWhile (fun c => isNameChar c || c.isDigit)) = [c] := by
    simp only [List.takeWhile_cons, hc, hd, Bool.true_or, Bool.or_true, if_true]
    cases rest.takeWhile (fun c => isNameChar c || c.isDigit) with
    | nil => simp [cutName, hd]
    | cons e more => simp [cutName, hd]
  simp only [name, hcut, List.length_singleton, List.drop_one, List.tail_cons]
  rfl

theorem ne_of_isDigit {c : Char} (h : c.isDigit = true) :
    isBlank c = false ∧ isLineEnd c = false ∧ c ≠ ';' ∧ c ≠ '(' ∧ isNameChar c = false ∧
      c ≠ '\x27' := by
  have hne : ∀ d : Char, d.isDigit = false → c ≠ d := by
    rintro d hd rfl
    rw [h] at hd
    cases hd
  refine ⟨?_, ?_, hne ';' (by decide), hne '(' (by decide), ?_, hne '\x27' (by decide)⟩
  · simp [isBlank, hne ' ' (by decide), hne '\t' (by decide), hne '\x0c' (by decide)]
  · simp [isLineEnd, hne '\r' (by decide), hne '\n' (by decide)]
  · have halpha : c.isAlpha = false := by
      rw [Char.isDigit_iff_toNat] at h
      rw [Bool.eq_false_iff, ne_eq, isAlpha_iff_toNat]
      have h9 : '9'.toNat = 57 := rfl
      omega
    simp [isNameChar, halpha, hne '_' (by decide), hne '$' (by decide)]

theorem lexeme_digit {c : Char} (h : c.isDigit = true) (cs : List Char) :
    lexeme {} c cs = number (c :: cs) := by
  obtain ⟨-, hl, hs, hp, hn, hq⟩ := ne_of_isDigit h
  simp [lexeme, hl, hs, hn, hq, h]

theorem number_digits {whole rest : List Char} (h : ∀ c ∈ whole, c.isDigit = true)
    (hr : ∀ c ∈ rest.head?, c.isDigit = false ∧ c ≠ '.') :
    number (whole ++ rest) = .found .number whole rest := by
  obtain ⟨ht, hd⟩ := takeWhile_digits h rest (fun c hc => (hr c hc).1)
  simp only [number, ht, hd]
  split
  · exact absurd rfl (hr '.' rfl).2
  · rfl

theorem number_point {whole fraction rest : List Char} (h : ∀ c ∈ whole, c.isDigit = true)
    (hf : ∀ c ∈ fraction, c.isDigit = true)
    (hr : ∀ c ∈ rest.head?, c.isDigit = false ∧ c ≠ '.') :
    number (whole ++ '.' :: (fraction ++ rest)) =
      .found .number (whole ++ '.' :: fraction) rest := by
  obtain ⟨ht, hd⟩ := takeWhile_digits h ('.' :: (fraction ++ rest)) (by simp)
  obtain ⟨ht', hd'⟩ := takeWhile_digits hf rest (fun c hc => (hr c hc).1)
  simp only [number, ht, hd, ht', hd']
  split
  · exact absurd rfl (hr '.' rfl).2
  · rfl

theorem delimited_content (kind : TokenKind) {delimiter : Char} (cause : ReadCause)
    {content : List Char} (h : ∀ c ∈ content, isLineEnd c = false ∧ c ≠ delimiter)
    (rest : List Char) :
    delimited kind delimiter cause (content ++ delimiter :: rest) = .found kind content rest := by
  have hin : ∀ c ∈ content, (!isLineEnd c && c != delimiter) = true := by
    intro c hc
    simp [h c hc]
  simp [delimited, List.takeWhile_append_of_pos hin, List.dropWhile_append_of_pos hin]

theorem lexeme_string {content : List Char}
    (h : ∀ c ∈ content, isLineEnd c = false ∧ c ≠ '\x22') (rest : List Char) :
    lexeme {} '\x22' (content ++ '\x22' :: rest) = .found .string content rest :=
  delimited_content .string .unterminatedString h rest

theorem lexeme_constant {content : List Char}
    (h : ∀ c ∈ content, isLineEnd c = false ∧ c ≠ '\x27') (rest : List Char) :
    lexeme {} '\x27' (content ++ '\x27' :: rest) = .found .number content rest :=
  delimited_content .number .unterminatedConstant h rest

theorem lexeme_comment {content rest : List Char} (h : ∀ c ∈ content, isLineEnd c = false)
    (hr : ∀ c ∈ rest.head?, isLineEnd c = true) :
    lexeme {} ';' (content ++ rest) = .found .comment content rest := by
  have hin : ∀ c ∈ content, (!isLineEnd c) = true := by
    intro c hc
    simp [h c hc]
  show lineComment (content ++ rest) = _
  rw [lineComment, List.takeWhile_append_of_pos hin, List.dropWhile_append_of_pos hin]
  cases rest with
  | nil => simp
  | cons c rest => simp [hr c rfl]

theorem lexeme_sign {c : Char} (hc : isOperatorChar c = true) {rest : List Char}
    (hr : ∀ d ∈ rest.head?, joins c d = false) :
    lexeme {} c rest = .found .operator [c] rest := by
  have hl : lexeme {} c rest = operator c rest := by
    simp only [isOperatorChar, List.contains_iff_mem, List.mem_cons, List.not_mem_nil,
      or_false] at hc
    rcases hc with rfl | rfl | rfl | rfl | rfl | rfl | rfl <;> rfl
  rw [hl]
  cases rest with
  | nil => rfl
  | cons d rest => simp [operator, hr d rfl]

theorem lexeme_signs {c d : Char} (h : joins c d = true) (rest : List Char) :
    lexeme {} c (d :: rest) = .found .operator [c, d] rest := by
  have hl : lexeme {} c (d :: rest) = operator c (d :: rest) := by
    simp only [joins, List.contains_iff_mem, List.mem_cons, List.not_mem_nil, Prod.mk.injEq,
      or_false] at h
    rcases h with ⟨rfl, -⟩ | ⟨rfl, -⟩ | ⟨rfl, -⟩ | ⟨rfl, -⟩ | ⟨rfl, -⟩ <;> rfl
  rw [hl]
  simp [operator, h]

end Scan

end PartProgram
