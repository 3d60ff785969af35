import Mathlib.Data.List.TakeWhile
import Mathlib.Tactic.Linarith
import Mathlib.Tactic.Ring
import PartProgram.Decimal.Read
import PartProgram.Decimal.Text
import PartProgram.Token.Value

/-!
# Digits are read back

The digits of a number denote that number, in every radix up to sixteen and with
zeros in front of them. Zeros at the end of a fraction do not count.
-/

set_option autoImplicit false

namespace PartProgram

theorem tenTo_eq (n : Nat) : tenTo n = 10 ^ n := rfl

variable {radix n : Nat}

theorem digitValue_digitChar : ∀ d < 16, digitValue d.digitChar = d := by decide

theorem isAlphanum_digitChar : ∀ d < 16, (d.digitChar.isDigit || d.digitChar.isAlpha) = true := by
  decide

theorem ofDigits_append (radix : Nat) (as bs : List Char) :
    ofDigits radix (as ++ bs) = ofDigits radix as * radix ^ bs.length + ofDigits radix bs := by
  have hfold : ∀ (bs : List Char) (n : Nat),
      bs.foldl (fun n c => radix * n + digitValue c) n =
        n * radix ^ bs.length + ofDigits radix bs := by
    intro bs
    induction bs with
    | nil => simp [ofDigits]
    | cons b bs ih =>
      intro n
      have hcons : ofDigits radix (b :: bs) =
          (radix * 0 + digitValue b) * radix ^ bs.length + ofDigits radix bs := ih _
      rw [List.foldl_cons, ih, hcons, List.length_cons, pow_succ]
      ring
  rw [ofDigits, List.foldl_append, hfold]
  rfl

theorem digits_step (hradix : 1 < radix) (h : radix ≤ n) :
    digits radix n = digits radix (n / radix) ++ [(n % radix).digitChar] := by
  rw [digits, Nat.toDigits_eq_if hradix, if_neg (by omega)]
  rfl

theorem digits_small (h : n < radix) : digits radix n = [n.digitChar] :=
  Nat.toDigits_of_lt_base h

theorem digits_ne_nil (radix n : Nat) : digits radix n ≠ [] := Nat.toDigits_ne_nil

/-- Induction over the digits of a number, from the first to the last. -/
theorem digits_induction {motive : Nat → Prop} (hradix : 1 < radix)
    (small : ∀ n < radix, motive n)
    (step : ∀ n, radix ≤ n → motive (n / radix) → motive n) (n : Nat) : motive n := by
  induction n using Nat.strongRecOn with
  | ind n ih =>
    by_cases h : n < radix
    · exact small n h
    · exact step n (by omega) (ih _ (Nat.div_lt_self (by omega) hradix))

theorem ofDigits_digits (hradix : 1 < radix) (hbound : radix ≤ 16) (n : Nat) :
    ofDigits radix (digits radix n) = n := by
  have hlast : ∀ d < radix, ofDigits radix [d.digitChar] = d := by
    intro d hd
    rw [ofDigits, List.foldl_cons, List.foldl_nil, digitValue_digitChar d (by omega)]
    omega
  induction n using digits_induction hradix with
  | small n h => rw [digits_small h, hlast n h]
  | step n h ih =>
    rw [digits_step hradix h, ofDigits_append, ih, hlast _ (Nat.mod_lt _ (by omega)),
      List.length_singleton, pow_one, Nat.mul_comm]
    exact Nat.div_add_mod n radix

theorem isDigitOf_mem_digits (hradix : 1 < radix) (hbound : radix ≤ 16) {c : Char}
    (h : c ∈ digits radix n) : isDigitOf radix c = true := by
  have hlast : ∀ d < radix, isDigitOf radix d.digitChar = true := by
    intro d hd
    rw [isDigitOf, isAlphanum_digitChar d (by omega), digitValue_digitChar d (by omega)]
    simpa using hd
  induction n using digits_induction hradix with
  | small n hn =>
    rw [digits_small hn, List.mem_singleton] at h
    rw [h]
    exact hlast n hn
  | step n hn ih =>
    rw [digits_step hradix hn, List.mem_append, List.mem_singleton] at h
    rcases h with h | rfl
    · exact ih h
    · exact hlast _ (Nat.mod_lt _ (by omega))

theorem isDigit_mem_digits {c : Char} (h : c ∈ digits 10 n) : c.isDigit = true :=
  Nat.isDigit_of_mem_toDigits (by decide) (by decide) h

theorem isDigitOf_of_isDigit {c : Char} (h : c.isDigit = true) : isDigitOf 10 c = true := by
  rw [isDigitOf, h, Bool.true_or, Bool.true_and, decide_eq_true_iff, digitValue, if_pos h]
  simp only [Char.isDigit, Bool.and_eq_true, decide_eq_true_eq, UInt32.le_iff_toNat_le] at h
  have h9 : '9'.val.toNat = 57 := rfl
  have h0 : '0'.toNat = 48 := rfl
  have hc : c.toNat = c.val.toNat := rfl
  omega

theorem ofDigits_zeros (k : Nat) : ofDigits radix (List.replicate k '0') = 0 := by
  induction k with
  | zero => rfl
  | succ k ih =>
    rw [List.replicate_succ', ofDigits_append, ih]
    simp [ofDigits, digitValue]

theorem ofDigits_padded (width : Nat) (cs : List Char) :
    ofDigits radix (padded width cs) = ofDigits radix cs := by
  rw [padded, ofDigits_append, ofDigits_zeros, Nat.zero_mul, Nat.zero_add]

theorem isDigit_mem_padded {width : Nat} {c : Char} (h : c ∈ padded width (digits 10 n)) :
    c.isDigit = true := by
  rw [padded, List.mem_append] at h
  rcases h with h | h
  · rw [List.eq_of_mem_replicate h]
    rfl
  · exact isDigit_mem_digits h

/-- A text that begins with a digit has no sign. -/
theorem splitSign_digits {cs : List Char}
    (h : ∀ c ∈ cs.head?, c.isDigit = true ∨ c.isAlpha = true) : splitSign cs = (false, cs) := by
  unfold splitSign
  split
  · simp at h
  · simp at h
  · rfl

theorem takeWhile_digits {whole : List Char} (h : ∀ c ∈ whole, c.isDigit = true)
    (rest : List Char) (hrest : ∀ c ∈ rest.head?, c.isDigit = false) :
    (whole ++ rest).takeWhile Char.isDigit = whole ∧
      (whole ++ rest).dropWhile Char.isDigit = rest := by
  rw [List.takeWhile_append_of_pos h, List.dropWhile_append_of_pos h]
  cases rest with
  | nil => simp
  | cons c rest =>
    have hc : c.isDigit = false := hrest c rfl
    simp [hc]

theorem readInteger_eq {cs : List Char} (hne : cs ≠ [])
    (hall : ∀ c ∈ cs, isDigitOf radix c = true) (hlt : ofDigits radix cs < wordLimit) :
    readInteger radix cs = some (ofDigits radix cs : Int) := by
  have hsign : splitSign cs = (false, cs) := by
    apply splitSign_digits
    intro c hc
    have h := hall c (List.mem_of_mem_head? hc)
    simp only [isDigitOf, Bool.and_eq_true, Bool.or_eq_true] at h
    exact h.1
  have hword : isWord (ofDigits radix cs : Int) = true := by
    simp only [isWord, Bool.and_eq_true, decide_eq_true_eq]
    omega
  have hbody : (decide (cs ≠ []) && cs.all (isDigitOf radix)) = true := by
    simpa [hne] using hall
  simp only [readInteger, hsign, hbody, if_true, signed, Bool.false_eq_true, if_false, hword]

theorem readInteger_digits (hradix : 1 < radix) (hbound : radix ≤ 16) (h : n < wordLimit) :
    readInteger radix (digits radix n) = some (n : Int) := by
  have hn := ofDigits_digits hradix hbound n
  have hr := readInteger_eq (digits_ne_nil radix n)
    (fun c hc => isDigitOf_mem_digits hradix hbound hc) (by rw [hn]; exact h)
  rwa [hn] at hr

theorem readInteger_padded (width : Nat) (h : n < wordLimit) :
    readInteger 10 (padded width (digits 10 n)) = some (n : Int) := by
  have hn : ofDigits 10 (padded width (digits 10 n)) = n := by
    rw [ofDigits_padded, ofDigits_digits (by decide) (by decide)]
  have hne : padded width (digits 10 n) ≠ [] := by
    simp [padded, digits_ne_nil]
  have hr := readInteger_eq hne
    (fun c hc => isDigitOf_of_isDigit (isDigit_mem_padded hc)) (by rw [hn]; exact h)
  rwa [hn] at hr

theorem shiftBit_digitChar (n : Nat) {d : Nat} (hd : d < 2) :
    shiftBit (Int64.ofNat n) d.digitChar = some (Int64.ofNat (2 * n + d)) := by
  have hshift : Int64.ofNat n <<< (1 : Int64) = Int64.ofNat (2 * n) := by
    apply Int64.toBitVec_inj.mp
    apply BitVec.eq_of_toNat_eq
    simp [Int64.toBitVec_shiftLeft, Nat.shiftLeft_eq]
    omega
  obtain rfl | rfl : d = 0 ∨ d = 1 := by omega
  · show some (Int64.ofNat n <<< (1 : Int64)) = _
    rw [hshift]
    rfl
  · show some (Int64.ofNat n <<< (1 : Int64) + 1) = _
    rw [hshift, Int64.ofNat_add]
    rfl

theorem readBinary_digits (n : Nat) : readBinary (digits 2 n) = some (Int64.ofNat n) := by
  unfold readBinary
  induction n using digits_induction (by decide : 1 < 2) with
  | small n h =>
    rw [digits_small h]
    simpa using shiftBit_digitChar 0 h
  | step n h ih =>
    rw [digits_step (by decide) h, List.foldlM_append, ih]
    have hlast := shiftBit_digitChar (n / 2) (Nat.mod_lt n (by decide : 0 < 2))
    rw [Nat.div_add_mod] at hlast
    simpa using hlast

end PartProgram
