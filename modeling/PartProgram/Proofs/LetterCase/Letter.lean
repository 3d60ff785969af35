import PartProgram.Proofs.Decimal.ReadBack
import PartProgram.Proofs.RoundTrip.Scan

/-!
# The case of letters

Only letters have a case. So what is asked of a character, as far as it does not
tell one letter from another, is the same for both cases of it, and texts that
are equal in upper case are cut at the same places and denote the same numbers.
-/

set_option autoImplicit false

namespace PartProgram

theorem toUpper_cases (c : Char) :
    c.toUpper = c ∨ 97 ≤ c.toNat ∧ c.toNat ≤ 122 ∧ c.toUpper.toNat + 32 = c.toNat := by
  by_cases h : 'a'.val ≤ c.val ∧ c.val ≤ 'z'.val
  · right
    have hval : c.toUpper.val = c.val + ('A'.val - 'a'.val) := by
      delta Char.toUpper
      rw [dif_pos h]
    have hnat : c.toUpper.toNat = (c.val + ('A'.val - 'a'.val)).toNat := congrArg UInt32.toNat hval
    have h3 : ('A'.val - 'a'.val).toNat = 4294967264 := rfl
    simp only [UInt32.le_iff_toNat_le] at h
    have h1 : 'a'.val.toNat = 97 := rfl
    have h2 : 'z'.val.toNat = 122 := rfl
    have hc : c.val.toNat = c.toNat := rfl
    rw [UInt32.toNat_add] at hnat
    omega
  · exact .inl (toUpper_of_not_lower h)

/-- A character that is no letter is the upper case of no other one. -/
theorem toUpper_eq_iff {c d : Char} (hd : d.isAlpha = false) : c.toUpper = d ↔ c = d := by
  rcases toUpper_cases c with h | ⟨hl, hu, hn⟩
  · rw [h]
  · have hd' : ¬(65 ≤ d.toNat ∧ d.toNat ≤ 90 ∨ 97 ≤ d.toNat ∧ d.toNat ≤ 122) := by
      rw [← isAlpha_iff_toNat, hd]
      exact Bool.false_ne_true
    constructor
    · rintro rfl
      omega
    · rintro rfl
      omega

theorem isAlpha_toUpper (c : Char) : c.toUpper.isAlpha = c.isAlpha := by
  rcases toUpper_cases c with h | h
  · rw [h]
  · rw [Bool.eq_iff_iff, isAlpha_iff_toNat, isAlpha_iff_toNat]
    omega

theorem isDigit_toUpper (c : Char) : c.toUpper.isDigit = c.isDigit := by
  rcases toUpper_cases c with h | h
  · rw [h]
  · have h0 : '0'.toNat = 48 := rfl
    have h9 : '9'.toNat = 57 := rfl
    rw [Bool.eq_iff_iff, Char.isDigit_iff_toNat, Char.isDigit_iff_toNat]
    omega

theorem beq_toUpper (c : Char) {d : Char} (hd : d.isAlpha = false) : (c.toUpper == d) = (c == d) := by
  rw [Bool.eq_iff_iff, beq_iff_eq, beq_iff_eq, toUpper_eq_iff hd]

theorem isLineEnd_toUpper (c : Char) : isLineEnd c.toUpper = isLineEnd c := by
  simp only [isLineEnd, beq_toUpper c (d := '\r') rfl, beq_toUpper c (d := '\n') rfl]

theorem isBlank_toUpper (c : Char) : isBlank c.toUpper = isBlank c := by
  simp only [isBlank, beq_toUpper c (d := ' ') rfl, beq_toUpper c (d := '\t') rfl,
    beq_toUpper c (d := '\x0c') rfl]

theorem isNameChar_toUpper (c : Char) : Scan.isNameChar c.toUpper = Scan.isNameChar c := by
  simp only [Scan.isNameChar, isAlpha_toUpper, beq_toUpper c (d := '_') rfl,
    beq_toUpper c (d := '$') rfl]

section Lists

variable {p : Char → Bool} (hp : ∀ c : Char, p c.toUpper = p c)
include hp

theorem takeWhile_toUpper (cs : List Char) :
    (cs.map Char.toUpper).takeWhile p = (cs.takeWhile p).map Char.toUpper := by
  rw [List.takeWhile_map]
  exact congrArg (fun q => (cs.takeWhile q).map Char.toUpper) (funext hp)

theorem dropWhile_toUpper (cs : List Char) :
    (cs.map Char.toUpper).dropWhile p = (cs.dropWhile p).map Char.toUpper := by
  rw [List.dropWhile_map]
  exact congrArg (fun q => (cs.dropWhile q).map Char.toUpper) (funext hp)

theorem all_toUpper (cs : List Char) : (cs.map Char.toUpper).all p = cs.all p := by
  rw [List.all_map]
  exact congrArg cs.all (funext hp)

end Lists

theorem map_toUpper_of_digits {cs : List Char} (h : cs.all Char.isDigit = true) :
    cs.map Char.toUpper = cs := by
  conv_rhs => rw [← List.map_id cs]
  apply List.map_congr_left
  intro c hc
  exact toUpper_of_isDigit (List.all_eq_true.mp h c hc)

section Words

variable {a b : String} (h : upper a = upper b)
include h

theorem sameLetters_congr_right (c : String) : sameLetters c a = sameLetters c b := by
  rw [Bool.eq_iff_iff, sameLetters_iff, sameLetters_iff, h]

theorem ofWord_congr {α : Type} (table : List (String × α)) : ofWord table a = ofWord table b := by
  simp only [ofWord, sameLetters_congr_right h]

end Words

theorem contains_toUpper (cs : List Char) {d : Char} (hd : d.isAlpha = false) :
    (cs.map Char.toUpper).contains d = cs.contains d := by
  rw [Bool.eq_iff_iff]
  simp [toUpper_eq_iff hd]

theorem upper_append (a b : String) : upper (a ++ b) = upper a ++ upper b := by
  rw [← String.toList_inj]
  simp [upper_toList]

theorem utf8Size_toUpper (c : Char) : c.toUpper.utf8Size = c.utf8Size := by
  rcases toUpper_cases c with h | ⟨hl, hu, hn⟩
  · rw [h]
  · have hsmall : ∀ e : Char, e.toNat ≤ 127 → e.utf8Size = 1 :=
      fun e he => Char.utf8Size_eq_one_iff.mpr (UInt32.le_iff_toNat_le.mpr he)
    rw [hsmall c (by omega), hsmall c.toUpper (by omega)]

theorem utf8ByteSize_upper (s : String) : (upper s).utf8ByteSize = s.utf8ByteSize := by
  have hsize : ∀ cs : List Char, (String.ofList (cs.map Char.toUpper)).utf8ByteSize =
      (String.ofList cs).utf8ByteSize := by
    intro cs
    induction cs with
    | nil => rfl
    | cons c cs ih => simp [String.ofList_cons, utf8Size_toUpper, ih]
  rw [upper, hsize, String.ofList_toList]

section Numbers

theorem digitValue_toUpper (c : Char) : digitValue c.toUpper = digitValue c := by
  by_cases h : c.isDigit = true
  · rw [toUpper_of_isDigit h]
  · simp only [digitValue, isDigit_toUpper, toUpper_toUpper, if_neg h]

theorem isDigitOf_toUpper (radix : Nat) (c : Char) :
    isDigitOf radix c.toUpper = isDigitOf radix c := by
  simp only [isDigitOf, isDigit_toUpper, isAlpha_toUpper, digitValue_toUpper]

theorem ofDigits_toUpper (radix : Nat) (cs : List Char) :
    ofDigits radix (cs.map Char.toUpper) = ofDigits radix cs := by
  simp only [ofDigits, List.foldl_map, digitValue_toUpper]

theorem splitSign_toUpper (cs : List Char) :
    splitSign (cs.map Char.toUpper) = ((splitSign cs).1, (splitSign cs).2.map Char.toUpper) := by
  cases cs with
  | nil => rfl
  | cons c cs =>
    by_cases hp : c = '+'
    · subst hp
      rfl
    · by_cases hm : c = '-'
      · subst hm
        rfl
      · have hp' : c.toUpper ≠ '+' := fun h => hp ((toUpper_eq_iff rfl).mp h)
        have hm' : c.toUpper ≠ '-' := fun h => hm ((toUpper_eq_iff rfl).mp h)
        simp [splitSign, hp, hm, hp', hm']

theorem readInteger_toUpper (radix : Nat) (cs : List Char) :
    readInteger radix (cs.map Char.toUpper) = readInteger radix cs := by
  simp only [readInteger, splitSign_toUpper, all_toUpper (isDigitOf_toUpper radix),
    ofDigits_toUpper, ne_eq, List.map_eq_nil_iff]

theorem ofMark_toUpper (c : Char) : Radix.ofMark c.toUpper = Radix.ofMark c := by
  simp only [Radix.ofMark, toUpper_toUpper]

theorem shiftBit_toUpper (word : Int64) (c : Char) : shiftBit word c.toUpper = shiftBit word c := by
  simp only [shiftBit, toUpper_eq_iff (d := '0') rfl, toUpper_eq_iff (d := '1') rfl,
    toUpper_eq_iff (d := ' ') rfl]

theorem integerText?_toUpper (cs : List Char) :
    integerText? (cs.map Char.toUpper) = integerText? cs := by
  cases cs with
  | nil => rfl
  | cons c cs =>
    have hfilter : (cs.map Char.toUpper).filter (· ≠ ' ') = (cs.filter (· ≠ ' ')).map Char.toUpper := by
      rw [List.filter_map]
      refine congrArg (List.map Char.toUpper) (List.filter_congr ?_)
      intro c _
      simp [toUpper_eq_iff (d := ' ') rfl]
    have hbits : readBinary (cs.map Char.toUpper) = readBinary cs := by
      simp only [readBinary, List.foldlM_map, shiftBit_toUpper]
    have hwhole := readInteger_toUpper 10 (c :: cs)
    rw [List.map_cons] at hwhole
    simp only [List.map_cons, integerText?, ofMark_toUpper, hfilter, hbits, hwhole,
      readInteger_toUpper]

theorem readExponent_toUpper (cs : List Char) :
    readExponent (cs.map Char.toUpper) = readExponent cs := by
  cases cs with
  | nil => rfl
  | cons c cs =>
    simp only [List.map_cons, readExponent, splitSign_toUpper, toUpper_toUpper,
      all_toUpper isDigit_toUpper, ofDigits_toUpper, ne_eq, List.map_eq_nil_iff]

theorem splitFraction_toUpper (cs : List Char) :
    splitFraction (cs.map Char.toUpper) =
      ((splitFraction cs).1, (splitFraction cs).2.map Char.toUpper) := by
  have hfraction : ∀ cs : List Char, (cs.map Char.toUpper).takeWhile Char.isDigit =
      cs.takeWhile Char.isDigit := by
    intro cs
    rw [takeWhile_toUpper isDigit_toUpper]
    exact map_toUpper_of_digits List.all_takeWhile
  cases cs with
  | nil => rfl
  | cons c cs =>
    by_cases hc : c = '.'
    · subst hc
      have hpoint : '.'.toUpper = '.' := rfl
      simp only [List.map_cons, hpoint, splitFraction, hfraction, dropWhile_toUpper isDigit_toUpper]
    · have hc' : c.toUpper ≠ '.' := fun h => hc ((toUpper_eq_iff rfl).mp h)
      simp [splitFraction, hc, hc']

theorem readDigits_toUpper (negative : Bool) (cs : List Char) :
    readDigits negative (cs.map Char.toUpper) = readDigits negative cs := by
  have hwhole : (cs.takeWhile Char.isDigit).map Char.toUpper = cs.takeWhile Char.isDigit :=
    map_toUpper_of_digits List.all_takeWhile
  simp only [readDigits, takeWhile_toUpper isDigit_toUpper, dropWhile_toUpper isDigit_toUpper,
    hwhole, splitFraction_toUpper, readExponent_toUpper]

theorem readReal_toUpper (text : String) : readReal (upper text) = readReal text := by
  have hfold : ∀ cs : List Char, (cs.map Char.toUpper).map Char.toUpper = cs.map Char.toUpper := by
    intro cs
    rw [List.map_map]
    exact List.map_congr_left (fun c _ => toUpper_toUpper c)
  simp only [readReal, upper_toList, splitSign_toUpper, hfold, readDigits_toUpper]

end Numbers

end PartProgram
