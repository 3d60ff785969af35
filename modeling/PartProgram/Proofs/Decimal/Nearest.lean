import Mathlib.Data.Rat.Cast.Order
import Mathlib.Tactic.FieldSimp
import Mathlib.Tactic.Linarith
import Mathlib.Tactic.Positivity
import Mathlib.Tactic.Ring
import PartProgram.Proofs.Decimal.Bits

/-!
# Rounding to the nearest double

A quotient that lies nearer to a double than to its neighbours is rounded to that
double. At the ends of the interval the mantissa decides: an even one takes them
in. The interval is shorter below a power of two, where the doubles are closer.
-/

set_option autoImplicit false

namespace PartProgram

namespace Double

theorem two_zpow (g : Int) : (2 : ℚ) ^ g = 2 ^ g.toNat / 2 ^ (-g).toNat := by
  obtain ⟨n, rfl | rfl⟩ := g.eq_nat_or_neg
  · simp
  · simp

theorem twoTo_le_iff {num den : Nat} (hden : 0 < den) (g : Int) :
    den * twoTo g.toNat ≤ num * twoTo (-g).toNat ↔ (2 : ℚ) ^ g ≤ num / den := by
  have hden' : (0 : ℚ) < den := by exact_mod_cast hden
  rw [two_zpow, div_le_div_iff₀ (by positivity) hden', twoTo_eq, twoTo_eq]
  constructor
  · intro h
    have h' : ((den * 2 ^ g.toNat : Nat) : ℚ) ≤ ((num * 2 ^ (-g).toNat : Nat) : ℚ) := by
      exact_mod_cast h
    push_cast at h'
    linarith
  · intro h
    have h' : ((den * 2 ^ g.toNat : Nat) : ℚ) ≤ ((num * 2 ^ (-g).toNat : Nat) : ℚ) := by
      push_cast
      linarith
    exact_mod_cast h'

theorem floorLog_spec {num den : Nat} (hnum : 0 < num) (hden : 0 < den) :
    (2 : ℚ) ^ floorLog num den ≤ num / den ∧ (num : ℚ) / den < 2 ^ (floorLog num den + 1) := by
  have hden' : (0 : ℚ) < den := by exact_mod_cast hden
  have hnumLow : (2 : ℚ) ^ num.log2 ≤ num := by
    exact_mod_cast Nat.log2_self_le (by omega : num ≠ 0)
  have hnumHigh : (num : ℚ) < 2 ^ (num.log2 + 1) := by exact_mod_cast Nat.lt_log2_self
  have hdenLow : (2 : ℚ) ^ den.log2 ≤ den := by
    exact_mod_cast Nat.log2_self_le (by omega : den ≠ 0)
  have hdenHigh : (den : ℚ) < 2 ^ (den.log2 + 1) := by exact_mod_cast Nat.lt_log2_self
  have hpow : ∀ g : Int, (2 : ℚ) ^ ((num.log2 : Int) - den.log2 + g) =
      2 ^ num.log2 / 2 ^ den.log2 * 2 ^ g := by
    intro g
    rw [zpow_add₀ two_ne_zero, zpow_sub₀ two_ne_zero, zpow_natCast, zpow_natCast]
  unfold floorLog
  simp only []
  split
  · rename_i h
    rw [twoTo_le_iff hden] at h
    refine ⟨h, ?_⟩
    rw [hpow 1, zpow_one, div_mul_eq_mul_div, div_lt_div_iff₀ hden' (by positivity)]
    rw [pow_succ] at hnumHigh
    nlinarith [pow_pos (two_pos : (0 : ℚ) < 2) num.log2, pow_pos (two_pos : (0 : ℚ) < 2) den.log2]
  · rename_i h
    rw [twoTo_le_iff hden, not_le] at h
    constructor
    · rw [sub_eq_add_neg, hpow (-1), zpow_neg_one, div_mul_eq_mul_div,
        div_le_div_iff₀ (by positivity) hden']
      rw [pow_succ] at hdenHigh
      nlinarith [pow_pos (two_pos : (0 : ℚ) < 2) num.log2,
        pow_pos (two_pos : (0 : ℚ) < 2) den.log2]
    · simpa using h

theorem roundDiv_eq {num den n : Nat} (hden : 0 < den) (hlow : 2 * n * den ≤ 2 * num + den)
    (hhigh : 2 * num ≤ (2 * n + 1) * den)
    (hodd : n % 2 = 1 → 2 * n * den < 2 * num + den ∧ 2 * num < (2 * n + 1) * den) :
    roundDiv num den = n := by
  have hdiv := Nat.div_add_mod num den
  have hmod := Nat.mod_lt num hden
  unfold roundDiv
  simp only []
  generalize num / den = q at *
  generalize num % den = r at *
  have hq : n = q ∨ n = q + 1 := by
    by_contra hne
    rcases Nat.lt_or_ge n q with h | h
    · obtain ⟨k, rfl⟩ := Nat.exists_eq_add_of_lt h
      nlinarith
    · obtain ⟨k, rfl⟩ : ∃ k, n = q + 2 + k := ⟨n - (q + 2), by omega⟩
      nlinarith
  rcases hq with rfl | rfl
  · have hle : 2 * r ≤ den := by nlinarith
    have hlt : n % 2 = 1 → 2 * r < den := fun h => by nlinarith [(hodd h).2]
    split
    · rfl
    · rw [if_neg (by omega)]
      omega
  · have hle : den ≤ 2 * r := by nlinarith
    have hlt : (q + 1) % 2 = 1 → den < 2 * r := fun h => by nlinarith [(hodd h).1]
    rw [if_neg (by omega)]
    split
    · rfl
    · omega

theorem roundDiv_scaled {num den n : Nat} {e : Int} (hden : 0 < den)
    (hlow : ((n : ℚ) - 1 / 2) * 2 ^ e ≤ num / den) (hhigh : (num : ℚ) / den ≤ (n + 1 / 2) * 2 ^ e)
    (hodd : n % 2 = 1 → ((n : ℚ) - 1 / 2) * 2 ^ e < num / den ∧
      (num : ℚ) / den < (n + 1 / 2) * 2 ^ e) :
    roundDiv (num * twoTo (-e).toNat) (den * twoTo e.toNat) = n := by
  have hden' : (0 : ℚ) < den := by exact_mod_cast hden
  have hup : (0 : ℚ) < 2 ^ e.toNat := by positivity
  have hdown : (0 : ℚ) < 2 ^ (-e).toNat := by positivity
  rw [two_zpow] at hlow hhigh hodd
  rw [mul_div_assoc', div_le_div_iff₀ hdown hden'] at hlow
  rw [mul_div_assoc', div_le_div_iff₀ hden' hdown] at hhigh
  rw [mul_div_assoc', mul_div_assoc', div_lt_div_iff₀ hdown hden', div_lt_div_iff₀ hden' hdown]
    at hodd
  rw [twoTo_eq, twoTo_eq]
  apply roundDiv_eq
  · positivity
  · have h : ((2 * n * (den * 2 ^ e.toNat) : Nat) : ℚ) ≤
        ((2 * (num * 2 ^ (-e).toNat) + den * 2 ^ e.toNat : Nat) : ℚ) := by
      push_cast
      linarith
    exact_mod_cast h
  · have h : ((2 * (num * 2 ^ (-e).toNat) : Nat) : ℚ) ≤
        (((2 * n + 1) * (den * 2 ^ e.toNat) : Nat) : ℚ) := by
      push_cast
      linarith
    exact_mod_cast h
  · intro ho
    obtain ⟨hl, hh⟩ := hodd ho
    constructor
    · have h : ((2 * n * (den * 2 ^ e.toNat) : Nat) : ℚ) <
          ((2 * (num * 2 ^ (-e).toNat) + den * 2 ^ e.toNat : Nat) : ℚ) := by
        push_cast
        linarith
      exact_mod_cast h
    · have h : ((2 * (num * 2 ^ (-e).toNat) : Nat) : ℚ) <
          (((2 * n + 1) * (den * 2 ^ e.toNat) : Nat) : ℚ) := by
        push_cast
        linarith
      exact_mod_cast h

/-- The part of the unit in the last place that belongs to a double below it. -/
def reach (m : Nat) (e : Int) : ℚ := if m = 2 ^ 52 ∧ -1074 < e then 1 / 4 else 1 / 2

/-- The numbers that are rounded to a double. -/
structure Rounds (m : Nat) (e : Int) (v : ℚ) : Prop where
  low : ((m : ℚ) - reach m e) * 2 ^ e ≤ v
  high : v ≤ (m + 1 / 2) * 2 ^ e
  odd : m % 2 = 1 → ((m : ℚ) - reach m e) * 2 ^ e < v ∧ v < (m + 1 / 2) * 2 ^ e

theorem reach_le (m : Nat) (e : Int) : reach m e ≤ 1 / 2 := by
  unfold reach
  split <;> norm_num

theorem Rounds.half {m : Nat} {e : Int} {v : ℚ} (h : Rounds m e v) :
    ((m : ℚ) - 1 / 2) * 2 ^ e ≤ v ∧ (m % 2 = 1 → ((m : ℚ) - 1 / 2) * 2 ^ e < v) := by
  have hpos : (0 : ℚ) < 2 ^ e := zpow_pos two_pos e
  have hle : ((m : ℚ) - 1 / 2) * 2 ^ e ≤ (m - reach m e) * 2 ^ e := by
    apply mul_le_mul_of_nonneg_right _ hpos.le
    linarith [reach_le m e]
  exact ⟨hle.trans h.low, fun ho => hle.trans_lt (h.odd ho).1⟩

theorem two_zpow_add (e : Int) (n : Nat) : (2 : ℚ) ^ (e + n) = 2 ^ n * 2 ^ e := by
  rw [zpow_add₀ two_ne_zero, zpow_natCast, mul_comm]

theorem two_zpow_lt_iff {a b : Int} : (2 : ℚ) ^ a < 2 ^ b ↔ a < b :=
  zpow_lt_zpow_iff_right₀ (by norm_num)

theorem Rounds.lt {m : Nat} {e : Int} {v : ℚ} (h : Rounds m e v) (hm : m < 2 ^ 53) :
    v < 2 ^ (e + 53) := by
  have hpos : (0 : ℚ) < 2 ^ e := zpow_pos two_pos e
  have hm' : (m : ℚ) + 1 ≤ 2 ^ 53 := by exact_mod_cast hm
  calc v ≤ (m + 1 / 2) * 2 ^ e := h.high
    _ < 2 ^ 53 * 2 ^ e := by
      apply mul_lt_mul_of_pos_right _ hpos
      linarith
    _ = 2 ^ (e + 53) := (two_zpow_add e 53).symm

/-- Below a power of two lies only what is rounded up to it: the last place is half as large
there, and rounding carries. -/
theorem Rounds.carry {m : Nat} {e : Int} {v : ℚ} (h : Rounds m e v) (hc : Canonical m e)
    (he : e ≠ -1074) (hbelow : v < 2 ^ (e + 52)) :
    m = 2 ^ 52 ∧ ((2 ^ 53 : Nat) - 1 / 2 : ℚ) * 2 ^ (e - 1) ≤ v := by
  have hpos : (0 : ℚ) < 2 ^ e := zpow_pos two_pos e
  have hnormal : 2 ^ 52 ≤ m := hc.normal.resolve_right he
  have htop : m = 2 ^ 52 := by
    by_contra hne
    have hm' : (2 : ℚ) ^ 52 + 1 ≤ m := by exact_mod_cast (by omega : 2 ^ 52 + 1 ≤ m)
    have hge : (2 : ℚ) ^ 52 * 2 ^ e ≤ (m - 1 / 2) * 2 ^ e := by
      apply mul_le_mul_of_nonneg_right _ hpos.le
      linarith
    have heq : (2 : ℚ) ^ (e + 52) = 2 ^ 52 * 2 ^ e := two_zpow_add e 52
    linarith [h.half.1]
  have hreach : reach m e = 1 / 4 := if_pos ⟨htop, lt_of_le_of_ne hc.low he.symm⟩
  have hhalf : (2 : ℚ) ^ e = 2 * 2 ^ (e - 1) := by
    rw [zpow_sub₀ two_ne_zero, zpow_one]
    ring
  have hlow := h.low
  rw [hreach, htop, hhalf] at hlow
  push_cast at hlow ⊢
  exact ⟨htop, by linarith⟩

theorem Canonical.bitsOf_le {m : Nat} {e : Int} (hc : Canonical m e) :
    bitsOf m e ≤ 2047 * 2 ^ 52 := by
  have hmantissa := hc.mantissa
  have hhigh := hc.high
  unfold bitsOf
  omega

theorem nearestBits_of_exponent {num den n : Nat} {e : Int} (hnum : 0 < num)
    (hexp : max (-1074) (floorLog num den - 52) = e)
    (hround : roundDiv (num * twoTo (-e).toNat) (den * twoTo e.toNat) = n)
    (hle : bitsOf n e ≤ 2047 * 2 ^ 52) : nearestBits num den = bitsOf n e := by
  rw [nearestBits, if_neg (by omega)]
  simp only [hexp, hround]
  exact Nat.min_eq_left hle

theorem nearestBits_eq {m : Nat} {e : Int} (hc : Canonical m e) {num den : Nat}
    (hnum : 0 < num) (hden : 0 < den) (h : Rounds m e (num / den)) :
    nearestBits num den = bitsOf m e := by
  obtain ⟨hfl, hfh⟩ := floorLog_spec hnum hden
  have hlow := hc.low
  have hf : floorLog num den < e + 53 :=
    two_zpow_lt_iff.mp (hfl.trans_lt (h.lt hc.mantissa))
  by_cases hbinade : e = -1074 ∨ (2 : ℚ) ^ (e + 52) ≤ num / den
  · have hexp : max (-1074) (floorLog num den - 52) = e := by
      rcases hbinade with he | hle
      · omega
      · have : e + 52 < floorLog num den + 1 := two_zpow_lt_iff.mp (hle.trans_lt hfh)
        omega
    apply nearestBits_of_exponent hnum hexp _ hc.bitsOf_le
    exact roundDiv_scaled hden h.half.1 h.high (fun ho => ⟨h.half.2 ho, (h.odd ho).2⟩)
  · push Not at hbinade
    obtain ⟨he, hbelow⟩ := hbinade
    obtain ⟨htop, hcarry⟩ := h.carry hc he hbelow
    have hpos : (0 : ℚ) < 2 ^ (e - 1) := zpow_pos two_pos _
    have hexp : max (-1074) (floorLog num den - 52) = e - 1 := by
      have h1 : floorLog num den < e + 52 := two_zpow_lt_iff.mp (hfl.trans_lt hbelow)
      have h2 : e + 51 < floorLog num den + 1 := by
        apply two_zpow_lt_iff.mp (lt_of_le_of_lt _ hfh)
        have hpow : (2 : ℚ) ^ (e - 1 + 52) = 2 ^ 52 * 2 ^ (e - 1) := two_zpow_add _ 52
        rw [show e + 51 = e - 1 + 52 by ring, hpow]
        push_cast at hcarry
        linarith
      omega
    have hbits : bitsOf m e = bitsOf (2 ^ 53) (e - 1) := by
      rw [htop]
      unfold bitsOf
      omega
    rw [hbits]
    apply nearestBits_of_exponent hnum hexp _ (hbits ▸ hc.bitsOf_le)
    apply roundDiv_scaled hden hcarry
    · have hpow : (2 : ℚ) ^ (e - 1 + 53) = 2 ^ 53 * 2 ^ (e - 1) := two_zpow_add _ 53
      rw [show e + 52 = e - 1 + 53 by ring, hpow] at hbelow
      push_cast
      linarith
    · intro ho
      exact absurd ho (by decide)

end Double

end PartProgram
