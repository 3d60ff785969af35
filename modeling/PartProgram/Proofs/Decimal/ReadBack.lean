import PartProgram.Proofs.Decimal.Shortest

/-!
# Numbers are read back

A double is read from its text as it was written, and an integer from its digits
in every radix. The sign is not part of the digits: what is read is the absolute
value, which is then negated.
-/

set_option autoImplicit false

namespace PartProgram

theorem toUpper_of_isDigit {c : Char} (h : c.isDigit = true) : c.toUpper = c := by
  obtain ⟨-, hu⟩ := Char.isDigit_iff_toNat.mp h
  apply toUpper_of_not_lower
  rintro ⟨ha, -⟩
  rw [UInt32.le_iff_toNat_le] at ha
  exact absurd (Nat.le_trans ha hu) (by decide)

theorem readReal_digit {c : Char} (hc : c.isDigit = true) (cs : List Char) :
    readReal (String.ofList (c :: cs)) = readDigits false (c :: cs) := by
  have hsign : splitSign (c :: cs) = (false, c :: cs) := splitSign_digits (by simp [hc])
  have hword : ∀ word : String, word.toList.head?.any Char.isDigit = false →
      String.ofList ((c :: cs).map Char.toUpper) ≠ word := by
    intro word hd heq
    rw [← heq, String.toList_ofList, List.map_cons, toUpper_of_isDigit hc] at hd
    simp [hc] at hd
  have hnan := hword "NAN" (by decide)
  have hinf : ¬(decide (String.ofList ((c :: cs).map Char.toUpper) = "INF") ||
      decide (String.ofList ((c :: cs).map Char.toUpper) = "INFINITY")) = true := by
    rw [Bool.or_eq_true, decide_eq_true_iff, decide_eq_true_iff]
    exact not_or.mpr ⟨hword "INF" (by decide), hword "INFINITY" (by decide)⟩
  simp only [readReal, String.toList_ofList, hsign]
  rw [if_neg hnan, if_neg hinf]

theorem readReal_point {whole fraction : List Char} (hne : whole ≠ [])
    (hwhole : ∀ c ∈ whole, c.isDigit = true) (hfraction : ∀ c ∈ fraction, c.isDigit = true) :
    readReal (String.ofList (whole ++ '.' :: fraction)) =
      some (realOfDecimal false (ofDigits 10 (whole ++ fraction)) (-(fraction.length : Int))) := by
  obtain ⟨hw, hd⟩ := takeWhile_digits hwhole ('.' :: fraction) (by simp)
  obtain ⟨hf, hr⟩ := takeWhile_digits hfraction [] (by simp)
  rw [List.append_nil] at hf hr
  have hread : readReal (String.ofList (whole ++ '.' :: fraction)) =
      readDigits false (whole ++ '.' :: fraction) := by
    cases whole with
    | nil => exact absurd rfl hne
    | cons c whole => exact readReal_digit (hwhole c List.mem_cons_self) _
  rw [hread]
  simp only [readDigits, hw, hd, splitFraction, hf, hr]
  rw [if_neg (by simp [hne])]
  simp [readExponent]

theorem readReal_integer {whole : List Char} (hne : whole ≠ [])
    (hwhole : ∀ c ∈ whole, c.isDigit = true) :
    readReal (String.ofList whole) = some (realOfDecimal false (ofDigits 10 whole) 0) := by
  obtain ⟨hw, hd⟩ := takeWhile_digits hwhole [] (by simp)
  rw [List.append_nil] at hw hd
  have hread : readReal (String.ofList whole) = readDigits false whole := by
    cases whole with
    | nil => exact absurd rfl hne
    | cons c whole => exact readReal_digit (hwhole c List.mem_cons_self) _
  rw [hread]
  simp only [readDigits, hw, hd, splitFraction, List.append_nil]
  rw [if_neg hne]
  simp [readExponent]

namespace Double

theorem ten_pow_gt {n : Nat} (h : n ≤ 1300) : (2 : ℚ) ^ n ≤ 10 ^ 400 := by
  calc (2 : ℚ) ^ n ≤ 2 ^ 1300 := pow_le_pow_right₀ (by norm_num) h
    _ = (2 ^ 13) ^ 100 := by rw [← pow_mul]
    _ ≤ (10 ^ 4) ^ 100 := by
      apply pow_le_pow_left₀ (by positivity)
      norm_num
    _ = 10 ^ 400 := by rw [← pow_mul]

theorem size_bounds {m : Nat} {e : Int} (hc : Canonical m e) (hm : 0 < m) {c k : Nat}
    (hr : Rounds m e ((c : ℚ) / 10 ^ k)) :
    0 < c ∧ -400 ≤ ((digits 10 c).length : Int) - k ∧ ((digits 10 c).length : Int) - k ≤ 400 := by
  have hk : (0 : ℚ) < 10 ^ k := by positivity
  have hlow : 1 / 10 ^ 400 < (c : ℚ) / 10 ^ k := by
    have hm' : (1 : ℚ) ≤ m := by exact_mod_cast hm
    have he : (2 : ℚ) ^ (-1074 : Int) ≤ 2 ^ e := zpow_le_zpow_right₀ (by norm_num) hc.low
    have hbound : (1 : ℚ) / 10 ^ 400 ≤ 1 / 2 ^ 1076 :=
      one_div_le_one_div_of_le (by positivity) (ten_pow_gt (by norm_num))
    have hstep : (1 : ℚ) / 2 ^ 1076 < 1 / 2 * 2 ^ (-1074 : Int) := by
      rw [zpow_neg, ← one_div, zpow_ofNat, pow_add 2 1074 2, one_div_mul_one_div,
        one_div_lt_one_div (by positivity) (by positivity)]
      have hpos := pow_pos (two_pos : (0 : ℚ) < 2) 1074
      generalize (2 : ℚ) ^ 1074 = unit at hpos
      linarith
    calc (1 : ℚ) / 10 ^ 400 ≤ 1 / 2 ^ 1076 := hbound
      _ < 1 / 2 * 2 ^ (-1074 : Int) := hstep
      _ ≤ 1 / 2 * 2 ^ e := mul_le_mul_of_nonneg_left he (by norm_num)
      _ ≤ (m - 1 / 2) * 2 ^ e :=
        mul_le_mul_of_nonneg_right (by linarith) (zpow_pos two_pos e).le
      _ ≤ c / 10 ^ k := hr.half.1
  have hhigh : (c : ℚ) / 10 ^ k < 10 ^ 400 := by
    have he : e + 53 ≤ 1024 := by linarith [hc.high]
    calc (c : ℚ) / 10 ^ k < 2 ^ (e + 53) := hr.lt hc.mantissa
      _ ≤ 2 ^ (1024 : Int) := zpow_le_zpow_right₀ (by norm_num) he
      _ = 2 ^ 1024 := zpow_ofNat 2 1024
      _ ≤ 10 ^ 400 := ten_pow_gt (by norm_num)
  rw [lt_div_iff₀ hk] at hlow
  rw [div_lt_iff₀ hk] at hhigh
  have hlen : 0 < (digits 10 c).length := Nat.length_toDigits_pos
  refine ⟨?_, ?_, ?_⟩
  · have hpos : (0 : ℚ) < c := lt_trans (by positivity) hlow
    exact_mod_cast hpos
  · by_contra hlt
    have hle : (digits 10 c).length ≤ k - 401 := by omega
    rw [digits, Nat.length_toDigits_le_iff (by decide) (by omega)] at hle
    have hc' : (c : ℚ) < 10 ^ (k - 401) := by exact_mod_cast hle
    have hsplit : (10 : ℚ) ^ k = 10 ^ (k - 401) * 10 ^ 401 := by
      rw [← pow_add]
      congr 1
      omega
    have hcancel : 1 / (10 : ℚ) ^ 400 * (10 ^ (k - 401) * (10 ^ 400 * 10)) =
        10 ^ (k - 401) * 10 := by
      have hlimit : (10 : ℚ) ^ 400 ≠ 0 := by positivity
      generalize (10 : ℚ) ^ 400 = limit at hlimit
      field_simp
    rw [hsplit, pow_succ 10 400, hcancel] at hlow
    linarith
  · by_contra hgt
    have hle : ¬(digits 10 c).length ≤ k + 400 := by omega
    rw [digits, Nat.length_toDigits_le_iff (by decide) (by omega), not_lt] at hle
    have hc' : (10 : ℚ) ^ (k + 400) ≤ c := by exact_mod_cast hle
    rw [pow_add, mul_comm] at hc'
    exact absurd hhigh (not_lt.mpr hc')

/-- A decimal in the interval of a double is read as that double. -/
theorem realOfDecimal_rounds {m : Nat} {e : Int} (hc : Canonical m e) (hm : 0 < m) {c k : Nat}
    (hr : Rounds m e ((c : ℚ) / 10 ^ k)) (negative : Bool) :
    ∃ num den, realOfDecimal negative c (-(k : Int)) = nearest negative num den ∧
      nearestBits num den = bitsOf m e := by
  obtain ⟨hpos, hlow, hhigh⟩ := size_bounds hc hm hr
  refine ⟨c, 10 ^ k, ?_, ?_⟩
  · unfold realOfDecimal
    simp only []
    rw [if_neg (by simp; omega), if_neg (by omega)]
    have hup : tenTo (-(k : Int)).toNat = 1 := by
      rw [show (-(k : Int)).toNat = 0 by omega]
      rfl
    have hdown : tenTo (- -(k : Int)).toNat = 10 ^ k := by
      rw [show (- -(k : Int)).toNat = k by omega]
      rfl
    rw [hup, hdown, Nat.mul_one]
  · apply nearestBits_eq hc hpos (by positivity)
    push_cast
    exact hr

/-- What the digits of a double are read as. -/
def unsigned (m : Nat) (e : Int) : Float :=
  let d := Decimal.shortest m e
  realOfDecimal false (ofDigits 10 (d.whole ++ d.shortFraction)) (-(d.shortFraction.length : Int))

theorem unsigned_nearest {x : Float} {m : Nat} {e : Int} (h : magnitude x = .finite m e) :
    ∃ num den, unsigned m e = nearest false num den ∧
      nearestBits num den = x.toBits.toNat % 2 ^ 63 := by
  obtain ⟨hc, hbits⟩ := magnitude_finite h
  rw [hbits]
  rcases Nat.eq_zero_or_pos m with rfl | hm
  · have hzero : ofDigits 10
        ((Decimal.shortest 0 e).whole ++ (Decimal.shortest 0 e).shortFraction) = 0 := by
      obtain ⟨k, -, hk⟩ := (Decimal.shortest 0 e).ofDigits_shortFraction
      rw [Decimal.shortest_zero] at hk
      exact (Nat.mul_eq_zero.mp hk).resolve_right (by positivity)
    refine ⟨0, 1, ?_, ?_⟩
    · simp [unsigned, hzero, realOfDecimal]
    · have he : e = -1074 := hc.normal.resolve_left (by norm_num)
      rw [he]
      rfl
  · apply realOfDecimal_rounds hc hm
    rw [Decimal.value_shortFraction]
    exact Decimal.shortest_rounds hm e

theorem unsigned_eq {x : Float} {m : Nat} {e : Int} (h : magnitude x = .finite m e) :
    (if isNegative x then -unsigned m e else unsigned m e) = x := by
  obtain ⟨num, den, hread, hbits⟩ := unsigned_nearest h
  have hfinite := isFinite_of_magnitude h
  rw [hread]
  by_cases hneg : isNegative x = true
  · rw [if_pos hneg]
    exact neg_nearest hfinite hneg hbits
  · rw [if_neg hneg, ← Bool.eq_false_iff.mpr hneg]
    exact nearest_eq hfinite hbits

theorem realOfDecimal_integer {n : Nat} (h : n < wordLimit) :
    realOfDecimal false n 0 = realOfInt n := by
  have hlen : (digits 10 n).length ≤ 20 := by
    rw [digits, Nat.length_toDigits_le_iff (by decide) (by decide)]
    exact lt_trans h (by decide)
  have hint : realOfInt n = nearest false n 1 := by
    have hneg : decide ((n : Int) < 0) = false := by
      rw [decide_eq_false_iff_not]
      omega
    rw [realOfInt, Int.natAbs_natCast, hneg]
  unfold realOfDecimal
  simp only []
  rw [hint]
  split
  · rename_i hz
    have hn : n = 0 := by
      rw [Bool.or_eq_true, decide_eq_true_iff, decide_eq_true_iff] at hz
      omega
    rw [hn]
  · rw [if_neg (by omega)]
    show nearest false (n * 1) 1 = nearest false n 1
    rw [Nat.mul_one]

theorem integerPart_eq {m n : Nat} {e : Int} (h : (m : ℚ) * 2 ^ e = n) :
    m * twoTo e.toNat / twoTo (-e).toNat = n := by
  have hdown : (2 : ℚ) ^ (-e).toNat ≠ 0 := by positivity
  rw [two_zpow, mul_div_assoc', div_eq_iff hdown] at h
  have heq : m * 2 ^ e.toNat = n * 2 ^ (-e).toNat := by exact_mod_cast h
  rw [twoTo_eq, twoTo_eq, heq]
  exact Nat.mul_div_cancel _ (by positivity)

theorem integral_value {x : Float} {n : Int} (h : integral? x = some n) :
    ∃ m e, magnitude x = .finite m e ∧ (m : ℚ) * 2 ^ e = n.natAbs ∧ n.natAbs < 2 ^ 63 ∧
      n = (if isNegative x then -(n.natAbs : Int) else n.natAbs) := by
  unfold integral? at h
  split at h
  · rename_i hwhole
    rw [Option.filter_eq_some_iff] at h
    obtain ⟨hpart, hlt⟩ := h
    unfold wholePart? at hpart
    split at hpart
    · rename_i m e hmag
      obtain ⟨k, hk⟩ := (isWhole_iff hmag).mp hwhole
      have hdiv := integerPart_eq hk
      have hn : n = if isNegative x then -(k : Int) else k := by
        rw [hdiv] at hpart
        exact (Option.some.inj hpart).symm
      have habs : n.natAbs = k := by
        rw [hn]
        split <;> omega
      refine ⟨m, e, hmag, ?_, ?_, ?_⟩
      · rw [habs]
        exact hk
      · exact of_decide_eq_true hlt
      · rw [habs]
        exact hn
    · cases hpart
  · cases h

theorem rounds_self (m : Nat) (e : Int) : Rounds m e (m * 2 ^ e) := by
  have hpos : (0 : ℚ) < 2 ^ e := zpow_pos two_pos e
  have hreach : 0 < reach m e := by
    unfold reach
    split <;> norm_num
  constructor
  · exact mul_le_mul_of_nonneg_right (by linarith) hpos.le
  · exact mul_le_mul_of_nonneg_right (by linarith) hpos.le
  · intro _
    exact ⟨mul_lt_mul_of_pos_right (by linarith) hpos, mul_lt_mul_of_pos_right (by linarith) hpos⟩

theorem nearestBits_exact {m n : Nat} {e : Int} (hc : Canonical m e) (h : (m : ℚ) * 2 ^ e = n) :
    nearestBits n 1 = bitsOf m e := by
  rcases Nat.eq_zero_or_pos m with rfl | hm
  · have hz : n = 0 := by
      rw [Nat.cast_zero, zero_mul] at h
      exact_mod_cast h.symm
    have he : e = -1074 := hc.normal.resolve_left (by norm_num)
    rw [hz, he]
    rfl
  · have hm' : (0 : ℚ) < m := by exact_mod_cast hm
    have hn : 0 < n := by
      have : (0 : ℚ) < n := by
        rw [← h]
        exact mul_pos hm' (zpow_pos two_pos e)
      exact_mod_cast this
    apply nearestBits_eq hc hn (by decide)
    rw [Nat.cast_one, div_one, ← h]
    exact rounds_self m e

theorem integral_bits {x : Float} {n : Int} (h : integral? x = some n) :
    nearestBits n.natAbs 1 = x.toBits.toNat % 2 ^ 63 := by
  obtain ⟨m, e, hmag, hvalue, -, -⟩ := integral_value h
  obtain ⟨hc, hbits⟩ := magnitude_finite hmag
  rw [hbits, nearestBits_exact hc hvalue]

theorem realOfDecimal_exact {x : Float} {m n : Nat} {e : Int} (h : magnitude x = .finite m e)
    (hm : 0 < m) (hvalue : (m : ℚ) * 2 ^ e = n) :
    (if isNegative x then -realOfDecimal false n 0 else realOfDecimal false n 0) = x := by
  obtain ⟨hc, hbits⟩ := magnitude_finite h
  have hfinite := isFinite_of_magnitude h
  obtain ⟨num, den, hread, hnear⟩ := realOfDecimal_rounds hc hm (c := n) (k := 0)
    (by rw [pow_zero, div_one, ← hvalue]; exact rounds_self m e) false
  have hread' : realOfDecimal false n 0 = nearest false num den := hread
  rw [hread']
  by_cases hneg : isNegative x = true
  · rw [if_pos hneg]
    exact neg_nearest hfinite hneg (hnear.trans hbits.symm)
  · rw [if_neg hneg, ← Bool.eq_false_iff.mpr hneg]
    exact nearest_eq hfinite (hnear.trans hbits.symm)

theorem truncate_integral {x : Float} {n : Int} (h : integral? x = some n) :
    (truncate x).toInt = n := by
  obtain ⟨m, e, hmag, -, hlt, -⟩ := integral_value h
  have hpart : wholePart? x = some n := by
    unfold integral? at h
    split at h
    · exact (Option.filter_eq_some_iff.mp h).1
    · cases h
  have hlimit : (wordLimit : Int) = 2 ^ 63 := rfl
  have hsat : saturate wordLimit x = n := by
    simp only [saturate, hpart, hlimit]
    omega
  rw [truncate, hsat]
  exact Int64.toInt_ofInt_of_le (by omega) (by omega)

theorem abs_lt_of_integral {x : Float} {n : Int} (h : integral? x = some n) :
    x.abs < realOfInt wordLimit := by
  obtain ⟨m, e, hmag, hvalue, hlt, -⟩ := integral_value h
  obtain ⟨hc, -⟩ := magnitude_finite hmag
  rw [abs_lt_wordLimit_iff hmag]
  left
  by_contra he
  have hm : (2 : ℚ) ^ 52 ≤ m := by
    have := hc.normal.resolve_right (by omega)
    exact_mod_cast this
  have hpow : (2 : ℚ) ^ (11 : Int) ≤ 2 ^ e := zpow_le_zpow_right₀ (by norm_num) (by omega)
  have hbig : (2 : ℚ) ^ 63 ≤ n.natAbs := by
    rw [← hvalue]
    have hsplit : (2 : ℚ) ^ 63 = 2 ^ 52 * 2 ^ (11 : Int) := by norm_num
    rw [hsplit]
    exact mul_le_mul hm hpow (by positivity) (by positivity)
  have : 2 ^ 63 ≤ n.natAbs := by exact_mod_cast hbig
  omega

/-- A double with the value of an integer below `2 ^ 63` is that integer. -/
theorem integral_of_value {x : Float} {m n : Nat} {e : Int} (h : magnitude x = .finite m e)
    (hvalue : (m : ℚ) * 2 ^ e = n) (hn : n < 2 ^ 63) :
    integral? x = some (if isNegative x then -(n : Int) else n) := by
  have hwhole : isWhole x = true := (isWhole_iff h).mpr ⟨n, hvalue⟩
  have hdiv := integerPart_eq hvalue
  rw [integral?, if_pos hwhole, wholePart?, h]
  simp only [hdiv]
  rw [Option.filter_eq_some_iff]
  refine ⟨rfl, decide_eq_true ?_⟩
  have habs : (if isNegative x = true then -(n : Int) else n).natAbs = n := by
    split <;> omega
  rw [habs]
  exact hn

theorem integral_realOfInt {m : Nat} {e k : Int} (hc : Canonical m e)
    (hvalue : (m : ℚ) * 2 ^ e = k.natAbs) (hk : k.natAbs < 2 ^ 63) :
    integral? (realOfInt k) = some k := by
  have hbits := nearestBits_exact hc hvalue
  have hmantissa := hc.mantissa
  have hhigh := hc.high
  have hsign : (realOfInt k).toBits.toNat = (if k < 0 then 2 ^ 63 else 0) + bitsOf m e := by
    have hsplit : (if decide (k < 0) = true then twoTo 63 else 0) + nearestBits k.natAbs 1 =
        (if k < 0 then 2 ^ 63 else 0) + bitsOf m e := by
      simp only [hbits, decide_eq_true_eq, twoTo_eq]
    rw [realOfInt, nearest, hsplit]
    unfold bitsOf
    apply toBits_ofBits
    · split <;> omega
    · unfold field
      split <;> omega
  have hmag : magnitude (realOfInt k) = .finite m e := by
    apply magnitude_of_bits hc
    rw [hsign]
    unfold bitsOf
    split <;> omega
  have hnegative : isNegative (realOfInt k) = true ↔ k < 0 := by
    rw [isNegative_iff, hsign]
    unfold bitsOf
    split <;> omega
  rw [integral_of_value hmag hvalue hk]
  by_cases hneg : k < 0
  · rw [if_pos (hnegative.mpr hneg)]
    congr 1
    omega
  · rw [if_neg (fun h => hneg (hnegative.mp h))]
    congr 1
    omega

theorem exists_canonical {n : Nat} (h : n < 2 ^ 53) :
    ∃ m e, Canonical m e ∧ (m : ℚ) * 2 ^ e = n := by
  rcases Nat.eq_zero_or_pos n with rfl | hpos
  · exact ⟨0, -1074, ⟨by omega, by omega, by omega, .inr rfl⟩, by simp⟩
  · have hlog : n.log2 < 53 := (Nat.log2_lt (by omega)).mpr h
    have hlow : 2 ^ n.log2 ≤ n := Nat.log2_self_le (by omega)
    have hhigh : n < 2 ^ (n.log2 + 1) := Nat.lt_log2_self
    obtain ⟨gap, hgap⟩ : ∃ gap, n.log2 + gap = 52 := ⟨52 - n.log2, by omega⟩
    refine ⟨n * 2 ^ gap, -gap, ⟨?_, by omega, by omega, .inl ?_⟩, ?_⟩
    · calc n * 2 ^ gap < 2 ^ (n.log2 + 1) * 2 ^ gap :=
          Nat.mul_lt_mul_of_pos_right hhigh (by positivity)
        _ = 2 ^ 53 := by rw [← pow_add, show n.log2 + 1 + gap = 53 by omega]
    · calc 2 ^ 52 = 2 ^ n.log2 * 2 ^ gap := by rw [← pow_add, hgap]
        _ ≤ n * 2 ^ gap := Nat.mul_le_mul_right _ hlow
    · push_cast
      rw [mul_assoc, zpow_neg, zpow_natCast, mul_inv_cancel₀ (by positivity), mul_one]

/-- The integer part of a double below `2 ^ 63` is an integer below `2 ^ 63`, and its own
double has it as its value. -/
theorem integral_truncate {x : Float} (hf : x.isFinite = true) (h : x.abs < realOfInt wordLimit) :
    (truncate x).toInt.natAbs < 2 ^ 63 ∧
      integral? (realOfInt (truncate x).toInt) = some (truncate x).toInt := by
  obtain ⟨m, e, hmag⟩ := magnitude_of_isFinite hf
  obtain ⟨hc, -⟩ := magnitude_finite hmag
  have hmantissa := hc.mantissa
  rw [abs_lt_wordLimit_iff hmag] at h
  obtain ⟨n, hn⟩ : ∃ n, m * twoTo e.toNat / twoTo (-e).toNat = n := ⟨_, rfl⟩
  have hlt : n < 2 ^ 63 := by
    rw [← hn, twoTo_eq, twoTo_eq]
    apply lt_of_le_of_lt (Nat.div_le_self _ _)
    have he : e.toNat ≤ 10 := by
      rcases h with h | ⟨rfl, h⟩
      · omega
      · have := hc.normal
        omega
    calc m * 2 ^ e.toNat ≤ m * 2 ^ 10 := Nat.mul_le_mul_left m (Nat.pow_le_pow_right (by decide) he)
      _ < 2 ^ 63 := by omega
  have htruncate : (truncate x).toInt = if isNegative x then -(n : Int) else n := by
    have hlimit : (wordLimit : Int) = 2 ^ 63 := rfl
    have hpart : wholePart? x = some (if isNegative x then -(n : Int) else n) := by
      simp only [wholePart?, hmag, hn]
    have hsat : saturate wordLimit x = if isNegative x then -(n : Int) else n := by
      simp only [saturate, hpart, hlimit]
      split <;> omega
    rw [truncate, hsat]
    apply Int64.toInt_ofInt_of_le
    · split <;> omega
    · split <;> omega
  have habs : (truncate x).toInt.natAbs = n := by
    rw [htruncate]
    split <;> omega
  refine ⟨by rw [habs]; exact hlt, ?_⟩
  by_cases he : 0 ≤ e
  · have hvalue : (m : ℚ) * 2 ^ e = (truncate x).toInt.natAbs := by
      have hzero : (-e).toNat = 0 := by omega
      rw [habs, ← hn, hzero, two_zpow, hzero]
      simp [twoTo_eq]
    exact integral_realOfInt hc hvalue (by omega)
  · have hsmall : n < 2 ^ 53 := by
      have hzero : e.toNat = 0 := by omega
      rw [← hn, hzero]
      exact lt_of_le_of_lt (Nat.div_le_self _ _) (by simpa [twoTo_eq] using hmantissa)
    obtain ⟨m', e', hc', hvalue⟩ := exists_canonical hsmall
    exact integral_realOfInt hc' (by rw [habs]; exact hvalue) (by omega)

end Double

end PartProgram
