import PartProgram.Expr
import PartProgram.Proofs.Decimal.ReadBack
import PartProgram.Proofs.RoundTrip.Scan

/-!
# Spellings of number tokens

Digits, digits with a point, and constants in other radices, with what a token so spelled is
read as.
-/

set_option autoImplicit false

namespace PartProgram

def NumberEnds (rest : List Char) : Prop := ∀ c ∈ rest.head?, c.isDigit = false ∧ c ≠ '.'

theorem Parted.numberEnds {rest : List Char} (h : Parted rest) : NumberEnds rest :=
  fun c hc => (h c hc).2

/-- The spellings of number tokens, with the text that the token has. -/
inductive Spelling : List Char → List Char → Prop where
  | digits {whole : List Char} (hne : whole ≠ []) (h : ∀ c ∈ whole, c.isDigit = true) :
      Spelling whole whole
  | point {whole fraction : List Char} (hne : whole ≠ []) (h : ∀ c ∈ whole, c.isDigit = true)
      (hf : ∀ c ∈ fraction, c.isDigit = true) :
      Spelling (whole ++ '.' :: fraction) (whole ++ '.' :: fraction)
  | constant {content : List Char} (h : ∀ c ∈ content, isLineEnd c = false ∧ c ≠ '\x27')
      (hmark : ∀ c ∈ content.head?, c.isDigit = false) :
      Spelling ('\x27' :: (content ++ ['\x27'])) content

theorem Spelling.stands {spelling text : List Char} (h : Spelling spelling text) (line : Nat)
    (spaced : Bool) {rest : List Char} (hr : NumberEnds rest) :
    Stands line (lead spaced ++ (spelling ++ rest))
      ⟨rest, line, some ⟨.number, String.ofList text, spaced, line⟩⟩ := by
  cases h with
  | digits hne h =>
    obtain ⟨c, whole, rfl⟩ := List.exists_cons_of_ne_nil hne
    have hc := h c List.mem_cons_self
    apply stands_lexeme line spaced (Scan.ne_of_isDigit hc).1
    · rw [Scan.lexeme_digit hc]
      exact Scan.number_digits h hr
    · decide
  | @point whole fraction hne h hf =>
    obtain ⟨c, whole, rfl⟩ := List.exists_cons_of_ne_nil hne
    have hc := h c List.mem_cons_self
    apply stands_lexeme line spaced (Scan.ne_of_isDigit hc).1
    · rw [Scan.lexeme_digit hc]
      have hn := Scan.number_point h hf hr
      simpa [List.append_assoc] using hn
    · decide
  | @constant content h hmark =>
    have hl := Scan.lexeme_constant h rest
    have hs := stands_lexeme line spaced (by decide : isBlank '\x27' = false) hl (by decide)
    simpa [List.append_assoc] using hs

def literal (text : List Char) : Option Number :=
  match (Token.mk .number (String.ofList text) false 0).number?, text.head? with
  | some value, some mark => some ⟨value, !text.contains '.', Radix.ofMark mark⟩
  | _, _ => none

theorem radix_of_isDigit {c : Char} (h : c.isDigit = true) : Radix.ofMark c = .decimal := by
  have hne : ∀ d : Char, d.isDigit = false → c ≠ d := by
    rintro d hd rfl
    rw [h] at hd
    cases hd
  rw [Radix.ofMark, toUpper_of_isDigit h, if_neg (hne 'H' (by decide)),
    if_neg (hne 'B' (by decide))]

theorem literal_decimal {text : List Char} {value : Float}
    (h : ∀ c ∈ text.head?, c.isDigit = true) (hread : readReal (String.ofList text) = some value)
    (hne : text ≠ []) :
    literal text = some ⟨value, !text.contains '.', .decimal⟩ := by
  obtain ⟨c, cs, rfl⟩ := List.exists_cons_of_ne_nil hne
  have hc := radix_of_isDigit (h c rfl)
  simp only [literal, Token.number?, if_true, String.toList_ofList, hc, hread, List.head?_cons]

theorem not_contains_point {text : List Char} (h : ∀ c ∈ text, c ≠ '.') :
    text.contains '.' = false := by
  rw [Bool.eq_false_iff]
  intro hc
  exact h '.' (List.contains_iff_mem.mp hc) rfl

theorem literal_constant {mark : Char} {cs : List Char} {n : Int}
    (hint : integerText? (mark :: cs) = some n) (hpoint : (mark :: cs).contains '.' = false)
    (hmark : Radix.ofMark mark ≠ .decimal) :
    literal (mark :: cs) = some ⟨realOfInt n, true, Radix.ofMark mark⟩ := by
  have hnumber : (Token.mk .number (String.ofList (mark :: cs)) false 0).number? =
      some (realOfInt n) := by
    simp only [Token.number?, Token.integer?, if_true, String.toList_ofList, hint]
    cases hm : Radix.ofMark mark with
    | decimal => exact absurd hm hmark
    | hex | binary => rfl
  simp only [literal, hnumber, List.head?_cons, hpoint]
  rfl

theorem literal_hex {n : Nat} (h : n < wordLimit) :
    literal ('H' :: digits 16 n) = some ⟨realOfInt n, true, .hex⟩ := by
  have hchars : ∀ c ∈ digits 16 n, isDigitOf 16 c = true :=
    fun c hc => isDigitOf_mem_digits (by decide) (by decide) hc
  have hne : ∀ d : Char, isDigitOf 16 d = false → ∀ c ∈ digits 16 n, c ≠ d := by
    rintro d hd c hc rfl
    rw [hchars c hc] at hd
    cases hd
  have hfilter : (digits 16 n).filter (fun c => decide (c ≠ ' ')) = digits 16 n := by
    rw [List.filter_eq_self]
    intro c hc
    exact decide_eq_true (hne ' ' (by decide) c hc)
  have hint : integerText? ('H' :: digits 16 n) = some (n : Int) := by
    show readInteger 16 ((digits 16 n).filter (fun c => decide (c ≠ ' '))) = _
    rw [hfilter, readInteger_digits (by decide) (by decide) h]
  have hpoint : ('H' :: digits 16 n).contains '.' = false := by
    apply not_contains_point
    rintro c (_ | ⟨_, hc⟩)
    · decide
    · exact hne '.' (by decide) c hc
  exact literal_constant hint hpoint (by decide)

theorem literal_binary {n : Nat} (h : n < wordLimit) :
    literal ('B' :: digits 2 n) = some ⟨realOfInt n, true, .binary⟩ := by
  have hchars : ∀ c ∈ digits 2 n, isDigitOf 2 c = true :=
    fun c hc => isDigitOf_mem_digits (by decide) (by decide) hc
  have hint : integerText? ('B' :: digits 2 n) = some (n : Int) := by
    show (readBinary (digits 2 n)).map Int64.toInt = _
    rw [readBinary_digits, Option.map_some, Int64.toInt_ofNat_of_lt h]
  have hpoint : ('B' :: digits 2 n).contains '.' = false := by
    apply not_contains_point
    rintro c (_ | ⟨_, hc⟩)
    · decide
    · rintro rfl
      exact absurd (hchars _ hc) (by decide)
  exact literal_constant hint hpoint (by decide)

theorem literal_digits {n : Nat} (h : n < wordLimit) :
    literal (digits 10 n) = some ⟨realOfInt n, true, .decimal⟩ := by
  have hdigits : ∀ c ∈ digits 10 n, c.isDigit = true := fun c hc => isDigit_mem_digits hc
  have hread : readReal (String.ofList (digits 10 n)) = some (realOfInt n) := by
    rw [readReal_integer (digits_ne_nil 10 n) hdigits, ofDigits_digits (by decide) (by decide),
      Double.realOfDecimal_integer h]
  have hpoint : (digits 10 n).contains '.' = false := by
    apply not_contains_point
    rintro c hc rfl
    exact absurd (hdigits _ hc) (by decide)
  rw [literal_decimal (fun c hc => hdigits c (List.mem_of_mem_head? hc)) hread (digits_ne_nil 10 n),
    hpoint]
  rfl

/-- A sign and a number token that denote a number. -/
inductive Denotes : List Char → Number → Prop where
  | plain {spelling text : List Char} {n : Number} (hs : Spelling spelling text)
      (hl : literal text = some n) : Denotes spelling n
  | negative {spelling text : List Char} {n : Number} (hs : Spelling spelling text)
      (hl : literal text = some n) : Denotes ('-' :: spelling) n.negate

theorem Denotes.signed (p : Prop) [Decidable p] {spelling text : List Char} {n : Number}
    (hs : Spelling spelling text) (hl : literal text = some n) :
    Denotes ((if p then ['-'] else []) ++ spelling) (if p then n.negate else n) := by
  by_cases h : p
  · rw [if_pos h, if_pos h]
    exact .negative hs hl
  · rw [if_neg h, if_neg h]
    exact .plain hs hl

theorem constant_content {mark : Char} {radix n : Nat} (hradix : 1 < radix) (hbound : radix ≤ 16)
    (hmark : isLineEnd mark = false ∧ mark ≠ '\x27') :
    ∀ c ∈ mark :: digits radix n, isLineEnd c = false ∧ c ≠ '\x27' := by
  rintro c (_ | ⟨_, hc⟩)
  · exact hmark
  · have hd := isDigitOf_mem_digits hradix hbound hc
    have hne : ∀ d : Char, (d.isDigit || d.isAlpha) = false → c ≠ d := by
      rintro d hd' rfl
      rw [isDigitOf, hd'] at hd
      cases hd
    exact ⟨by simp [isLineEnd, hne '\r' (by decide), hne '\n' (by decide)], hne _ (by decide)⟩

theorem toString_int (n : Int) :
    (toString n).toList = (if n < 0 then ['-'] else []) ++ digits 10 n.natAbs := by
  cases n with
  | ofNat n =>
    have h : ¬ (Int.ofNat n < 0) := by simp
    rw [if_neg h]
    simp [toString, Int.repr, Nat.repr, digits]
  | negSucc n =>
    rw [if_pos (Int.negSucc_lt_zero n)]
    simp [toString, Int.repr, Nat.repr, digits]

end PartProgram
