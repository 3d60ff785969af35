import PartProgram.Proofs.Decimal.Digits
import PartProgram.Proofs.Decimal.Nearest

/-!
# The text of a double

The shortest decimal of a double lies in the interval of the numbers that are
rounded to the double. Its text is therefore read back as the double itself. The
text has digits behind a point just if the double has a fraction.
-/

set_option autoImplicit false

namespace PartProgram

namespace Decimal

theorem reaches_mono {closed : Bool} {a b c d : Nat} (h : reaches closed b c = true)
    (hab : a ≤ b) (hcd : c ≤ d) : reaches closed a d = true := by
  unfold reaches at h ⊢
  cases closed <;> simp at h ⊢ <;> omega

theorem down_le (mid p : Nat) : mid / tenTo p * tenTo p ≤ mid := Nat.div_mul_le_self mid (tenTo p)

theorem lt_up (mid p : Nat) : mid < mid / tenTo p * tenTo p + tenTo p :=
  Nat.lt_div_mul_add (Nat.pow_pos (by decide))

theorem coarsest_between {low mid high : Nat} {closed : Bool} (hlow : reaches closed low mid = true)
    (hhigh : reaches closed mid high = true) (p : Nat) :
    reaches closed low (coarsest low mid high closed p) = true ∧
      reaches closed (coarsest low mid high closed p) high = true := by
  induction p with
  | zero => exact ⟨hlow, hhigh⟩
  | succ p ih =>
    have hd := down_le mid (p + 1)
    have hu := lt_up mid (p + 1)
    simp only [coarsest]
    split
    · rename_i hdown
      split
      · rename_i hup
        rw [Bool.and_eq_true] at hup
        exact ⟨reaches_mono hdown (Nat.le_refl _) (Nat.le_add_right _ _), hup.1⟩
      · exact ⟨hdown, reaches_mono hhigh hd (Nat.le_refl _)⟩
    · split
      · rename_i hup
        exact ⟨reaches_mono hlow (Nat.le_refl _) (by omega), hup⟩
      · exact ih

theorem coarsest_dvd {low mid high : Nat} {closed : Bool} (hlow : reaches closed low mid = true)
    {k : Nat} (hmid : tenTo k ∣ mid) {p : Nat} (hp : k ≤ p) :
    tenTo k ∣ coarsest low mid high closed p := by
  have hpow : ∀ {q}, k ≤ q → tenTo k ∣ tenTo q := fun hq => Nat.pow_dvd_pow 10 hq
  induction p with
  | zero => exact hmid
  | succ p ih =>
    have hdown : tenTo k ∣ mid / tenTo (p + 1) * tenTo (p + 1) :=
      Dvd.dvd.mul_left (hpow hp) _
    have hup := Nat.dvd_add hdown (hpow hp)
    simp only [coarsest]
    split
    · split
      · exact hup
      · exact hdown
    · split
      · exact hup
      · rename_i hlow' _
        have hk : k ≤ p := by
          by_contra hk
          have hkp : k = p + 1 := by omega
          rw [← hkp, Nat.div_mul_cancel hmid] at hlow'
          exact hlow' hlow
        exact ih hk

/-- The number that a decimal stands for. -/
def value (d : Decimal) : ℚ := d.coefficient / 10 ^ d.places

theorem value_ofBinary (m : Nat) (e : Int) : (ofBinary m e).value = m * 2 ^ e := by
  have hfive : (5 : ℚ) ^ (-e).toNat ≠ 0 := by positivity
  rw [value, ofBinary, Double.two_zpow]
  show ((m * 2 ^ e.toNat * 5 ^ (-e).toNat : Nat) : ℚ) / 10 ^ (-e).toNat = _
  rw [show (10 : ℚ) = 2 * 5 by norm_num, mul_pow]
  push_cast
  field_simp

theorem reaches_le {closed : Bool} {a b : Nat} (h : reaches closed a b = true) : a ≤ b := by
  unfold reaches at h
  cases closed <;> simp at h <;> omega

theorem reaches_lt {a b : Nat} (h : reaches false a b = true) : a < b := by
  simpa [reaches] using h

theorem reaches_of_lt {a b : Nat} (h : a < b) (closed : Bool) : reaches closed a b = true := by
  unfold reaches
  cases closed <;> simp <;> omega

theorem ofBinary_lt {m n : Nat} (h : m < n) (e : Int) :
    (ofBinary m e).coefficient < (ofBinary n e).coefficient := by
  unfold ofBinary
  apply Nat.mul_lt_mul_of_pos_right
  · exact Nat.mul_lt_mul_of_pos_right h (Nat.pow_pos (by decide))
  · exact Nat.pow_pos (by decide)

/-- Below a mantissa lies a quarter or a half of the last place. -/
def below (m : Nat) (e : Int) : Nat := if m = twoTo 52 && e > -1074 then 1 else 2

theorem shortest_eq (m : Nat) (e : Int) :
    shortest m e =
      ⟨coarsest (ofBinary (4 * m - below m e) (e - 2)).coefficient
        (ofBinary (4 * m) (e - 2)).coefficient (ofBinary (4 * m + 2) (e - 2)).coefficient
        (m % 2 == 0) ((digits 10 (ofBinary (4 * m) (e - 2)).coefficient).length - 1),
        (-(e - 2)).toNat⟩ := rfl

theorem value_le_value {c d places : Nat} (h : c ≤ d) : value ⟨c, places⟩ ≤ value ⟨d, places⟩ := by
  unfold value
  have hcd : (c : ℚ) ≤ d := by exact_mod_cast h
  exact div_le_div_of_nonneg_right hcd (by positivity)

theorem value_lt_value {c d places : Nat} (h : c < d) : value ⟨c, places⟩ < value ⟨d, places⟩ := by
  unfold value
  have hcd : (c : ℚ) < d := by exact_mod_cast h
  exact div_lt_div_of_pos_right hcd (by positivity)

theorem value_quarters (n : Nat) (e : Int) : (ofBinary n (e - 2)).value = n / 4 * 2 ^ e := by
  rw [value_ofBinary, zpow_sub₀ two_ne_zero]
  norm_num
  ring

/-- The shortest decimal of a double is rounded to it. -/
theorem shortest_rounds {m : Nat} (hm : 0 < m) (e : Int) :
    Double.Rounds m e (shortest m e).value := by
  have hbelow : below m e ≤ 2 ∧ 0 < below m e := by
    unfold below
    split <;> omega
  have hcast : (((4 * m - below m e : Nat) : ℚ)) = 4 * m - below m e := by
    rw [Nat.cast_sub (by omega)]
    push_cast
    ring
  have hreach : Double.reach m e = below m e / 4 := by
    unfold Double.reach below
    have hiff : (decide (m = twoTo 52) && decide (e > -1074)) = true ↔ m = 2 ^ 52 ∧ -1074 < e := by
      rw [Bool.and_eq_true, decide_eq_true_iff, decide_eq_true_iff]
      exact Iff.rfl
    by_cases h : m = 2 ^ 52 ∧ -1074 < e
    · rw [if_pos h, if_pos (hiff.mpr h)]
      norm_num
    · rw [if_neg h, if_neg (hiff.not.mpr h)]
      norm_num
  obtain ⟨hlow, hhigh⟩ := coarsest_between
    (reaches_of_lt (ofBinary_lt (by omega : 4 * m - below m e < 4 * m) (e - 2)) (m % 2 == 0))
    (reaches_of_lt (ofBinary_lt (by omega : 4 * m < 4 * m + 2) (e - 2)) (m % 2 == 0))
    ((digits 10 (ofBinary (4 * m) (e - 2)).coefficient).length - 1)
  have hlowValue : ((m : ℚ) - Double.reach m e) * 2 ^ e =
      (ofBinary (4 * m - below m e) (e - 2)).value := by
    rw [value_quarters, hcast, hreach]
    ring
  have hhighValue : ((m : ℚ) + 1 / 2) * 2 ^ e = (ofBinary (4 * m + 2) (e - 2)).value := by
    rw [value_quarters]
    push_cast
    ring
  rw [shortest_eq]
  constructor
  · rw [hlowValue]
    exact value_le_value (reaches_le hlow)
  · rw [hhighValue]
    exact value_le_value (reaches_le hhigh)
  · intro hodd
    have hopen : (m % 2 == 0) = false := by simp [hodd]
    rw [hopen] at hlow hhigh ⊢
    rw [hlowValue, hhighValue]
    exact ⟨value_lt_value (reaches_lt hlow), value_lt_value (reaches_lt hhigh)⟩

theorem fraction_length (d : Decimal) : d.fraction.length = d.places := by
  unfold fraction
  by_cases h : d.places = 0
  · rw [if_pos h, h]
    rfl
  · rw [if_neg h]
    have hlt : d.coefficient % tenTo d.places < 10 ^ d.places :=
      Nat.mod_lt _ (Nat.pow_pos (by decide))
    have hle : (digits 10 (d.coefficient % tenTo d.places)).length ≤ d.places :=
      (Nat.length_toDigits_le_iff (by decide) (by omega)).mpr hlt
    rw [padded, List.length_append, List.length_replicate]
    omega

theorem isDigit_mem_fraction {d : Decimal} {c : Char} (h : c ∈ d.fraction) : c.isDigit = true := by
  unfold fraction at h
  split at h
  · cases h
  · exact isDigit_mem_padded h

theorem ofDigits_whole_fraction (d : Decimal) :
    ofDigits 10 (d.whole ++ d.fraction) = d.coefficient := by
  have hfraction : ofDigits 10 d.fraction = d.coefficient % tenTo d.places := by
    unfold fraction
    by_cases h : d.places = 0
    · rw [if_pos h, h]
      show 0 = d.coefficient % 1
      omega
    · rw [if_neg h, ofDigits_padded, ofDigits_digits (by decide) (by decide)]
  rw [ofDigits_append, fraction_length, hfraction, whole, ofDigits_digits (by decide) (by decide),
    Nat.mul_comm]
  exact Nat.div_add_mod d.coefficient (tenTo d.places)

/-- The fraction without the zeros at its end. -/
def shortFraction (d : Decimal) : List Char := (d.fraction.reverse.dropWhile (· == '0')).reverse

theorem fraction_eq (d : Decimal) :
    ∃ k, d.fraction = d.shortFraction ++ List.replicate k '0' := by
  refine ⟨(d.fraction.reverse.takeWhile (· == '0')).length, ?_⟩
  have hzeros : d.fraction.reverse.takeWhile (· == '0') =
      List.replicate (d.fraction.reverse.takeWhile (· == '0')).length '0' := by
    rw [List.eq_replicate_iff]
    refine ⟨rfl, fun c hc => ?_⟩
    simpa using List.mem_takeWhile_imp hc
  rw [← List.reverse_replicate, ← hzeros, shortFraction, ← List.reverse_append,
    List.takeWhile_append_dropWhile, List.reverse_reverse]

theorem isDigit_mem_shortFraction {d : Decimal} {c : Char} (h : c ∈ d.shortFraction) :
    c.isDigit = true := by
  obtain ⟨k, hk⟩ := d.fraction_eq
  apply isDigit_mem_fraction (d := d)
  rw [hk]
  exact List.mem_append_left _ h

theorem ofDigits_shortFraction (d : Decimal) :
    ∃ k, d.shortFraction.length + k = d.places ∧
      ofDigits 10 (d.whole ++ d.shortFraction) * 10 ^ k = d.coefficient := by
  obtain ⟨k, hk⟩ := d.fraction_eq
  refine ⟨k, ?_, ?_⟩
  · have hlen := d.fraction_length
    rw [hk, List.length_append, List.length_replicate] at hlen
    exact hlen
  · have hall := d.ofDigits_whole_fraction
    rw [hk, ← List.append_assoc, ofDigits_append, ofDigits_zeros, List.length_replicate] at hall
    exact hall

theorem shortFraction_nil_iff (d : Decimal) :
    d.shortFraction = [] ↔ tenTo d.places ∣ d.coefficient := by
  constructor
  · intro h
    obtain ⟨k, hlen, hk⟩ := d.ofDigits_shortFraction
    rw [h, List.length_nil, Nat.zero_add] at hlen
    rw [← hk, hlen]
    exact Nat.dvd_mul_left _ _
  · intro h
    have hzeros : ∀ c ∈ d.fraction, c = '0' := by
      unfold fraction
      rw [Nat.mod_eq_zero_of_dvd h]
      intro c hc
      split at hc
      · cases hc
      · rw [padded, List.mem_append] at hc
        rcases hc with hc | hc
        · exact List.eq_of_mem_replicate hc
        · exact List.mem_singleton.mp hc
    unfold shortFraction
    rw [List.reverse_eq_nil_iff, List.dropWhile_eq_nil_iff]
    intro c hc
    rw [hzeros c (List.mem_reverse.mp hc)]
    rfl

theorem value_shortFraction (d : Decimal) :
    (ofDigits 10 (d.whole ++ d.shortFraction) : ℚ) / 10 ^ d.shortFraction.length = d.value := by
  obtain ⟨k, hlen, hk⟩ := d.ofDigits_shortFraction
  rw [value, ← hlen, ← hk, pow_add]
  push_cast
  field_simp

theorem shortest_zero (e : Int) : (shortest 0 e).coefficient = 0 := by
  have hzero : ofBinary (4 * 0) (e - 2) = ⟨0, (-(e - 2)).toNat⟩ := by
    simp [ofBinary]
  rw [shortest_eq, hzero]
  simp [digits, coarsest]

theorem shortest_whole {m n : Nat} {e : Int} (h : (m : ℚ) * 2 ^ e = n) :
    tenTo (shortest m e).places ∣ (shortest m e).coefficient := by
  by_cases hm : m = 0
  · rw [hm, shortest_zero]
    exact Nat.dvd_zero _
  · have hmid : (ofBinary (4 * m) (e - 2)).coefficient = n * 10 ^ (-(e - 2)).toNat := by
      have hv := value_quarters (4 * m) e
      push_cast at hv
      rw [mul_div_cancel_left₀ _ (by norm_num : (4 : ℚ) ≠ 0), h, value,
        div_eq_iff (by positivity)] at hv
      exact_mod_cast hv
    have hn : 0 < n := by
      have hpos : (0 : ℚ) < m * 2 ^ e := by
        have hm' : (0 : ℚ) < m := by exact_mod_cast Nat.pos_of_ne_zero hm
        exact mul_pos hm' (zpow_pos two_pos e)
      rw [h] at hpos
      exact_mod_cast hpos
    have hlt : 4 * m - below m e < 4 * m := by
      unfold below
      split <;> omega
    rw [shortest_eq]
    apply coarsest_dvd (reaches_of_lt (ofBinary_lt hlt (e - 2)) _)
    · rw [hmid]
      exact Nat.dvd_mul_left _ _
    · -- The digits of the middle are more than its places.
      rcases Nat.eq_zero_or_pos (-(e - 2)).toNat with hz | hp
      · rw [hz]
        exact Nat.zero_le _
      · have hlen : ¬(digits 10 (ofBinary (4 * m) (e - 2)).coefficient).length ≤
            (-(e - 2)).toNat := by
          rw [digits, Nat.length_toDigits_le_iff (by decide) hp, hmid]
          have : 1 * 10 ^ (-(e - 2)).toNat ≤ n * 10 ^ (-(e - 2)).toNat :=
            Nat.mul_le_mul_right _ hn
          omega
        show (-(e - 2)).toNat ≤ _
        omega

theorem whole_of_shortest {m : Nat} {e : Int} (hm : 0 < m)
    (h : tenTo (shortest m e).places ∣ (shortest m e).coefficient) :
    ∃ n : Nat, (m : ℚ) * 2 ^ e = n := by
  obtain ⟨n, hn⟩ := h
  have hv : (shortest m e).value = n := by
    rw [value, hn, tenTo_eq]
    push_cast
    field_simp
  have hr := shortest_rounds hm e
  rw [hv] at hr
  by_cases he : 0 ≤ e
  · obtain ⟨k, rfl⟩ := Int.eq_ofNat_of_zero_le he
    exact ⟨m * 2 ^ k, by push_cast; rfl⟩
  · obtain ⟨k, rfl⟩ : ∃ k : Nat, e = -(k : Int) := ⟨(-e).toNat, by omega⟩
    have hpow : (0 : ℚ) < 2 ^ k := by positivity
    have hscaled : (m : ℚ) * 2 ^ (-(k : Int)) = m / 2 ^ k := by
      rw [zpow_neg, zpow_natCast, div_eq_mul_inv]
    have hlow := hr.half.1
    have hhigh := hr.high
    rw [zpow_neg, zpow_natCast, ← div_eq_mul_inv, div_le_iff₀ hpow] at hlow
    rw [zpow_neg, zpow_natCast, ← div_eq_mul_inv, le_div_iff₀ hpow] at hhigh
    have heq : m = n * 2 ^ k := by
      have h1 : ((2 * m : Nat) : ℚ) ≤ ((2 * (n * 2 ^ k) + 1 : Nat) : ℚ) := by
        push_cast
        linarith
      have h2 : ((2 * (n * 2 ^ k) : Nat) : ℚ) ≤ ((2 * m + 1 : Nat) : ℚ) := by
        push_cast
        linarith
      have h1' : 2 * m ≤ 2 * (n * 2 ^ k) + 1 := by exact_mod_cast h1
      have h2' : 2 * (n * 2 ^ k) ≤ 2 * m + 1 := by exact_mod_cast h2
      omega
    refine ⟨n, ?_⟩
    rw [hscaled, heq]
    push_cast
    field_simp

end Decimal

namespace Double

theorem isWhole_iff {x : Float} {m : Nat} {e : Int} (h : magnitude x = .finite m e) :
    isWhole x = true ↔ ∃ n : Nat, (m : ℚ) * 2 ^ e = n := by
  have hdown : (2 : ℚ) ^ (-e).toNat ≠ 0 := by positivity
  simp only [isWhole, h, beq_iff_eq, twoTo_eq]
  rw [two_zpow, mul_div_assoc']
  constructor
  · intro hmod
    obtain ⟨n, hn⟩ := Nat.dvd_of_mod_eq_zero hmod
    refine ⟨n, ?_⟩
    rw [div_eq_iff hdown]
    have hn' : ((m * 2 ^ e.toNat : Nat) : ℚ) = ((2 ^ (-e).toNat * n : Nat) : ℚ) := by rw [hn]
    push_cast at hn'
    rw [hn', mul_comm]
  · rintro ⟨n, hn⟩
    rw [div_eq_iff hdown] at hn
    have hn' : ((m * 2 ^ e.toNat : Nat) : ℚ) = ((n * 2 ^ (-e).toNat : Nat) : ℚ) := by
      push_cast
      exact hn
    have heq : m * 2 ^ e.toNat = n * 2 ^ (-e).toNat := by exact_mod_cast hn'
    rw [heq]
    exact Nat.mul_mod_left _ _

theorem shortFraction_iff {x : Float} {m : Nat} {e : Int} (h : magnitude x = .finite m e) :
    (Decimal.shortest m e).shortFraction = [] ↔ isWhole x = true := by
  rw [Decimal.shortFraction_nil_iff, isWhole_iff h]
  constructor
  · intro hdvd
    rcases Nat.eq_zero_or_pos m with rfl | hm
    · exact ⟨0, by simp⟩
    · exact Decimal.whole_of_shortest hm hdvd
  · rintro ⟨n, hn⟩
    exact Decimal.shortest_whole hn

end Double

end PartProgram
