import PartProgram.Decimal.Binary
import PartProgram.Proofs.Decimal.Parts

/-!
# The bits of doubles

A finite double is given by its sign and by the bits of its absolute value, which
are the mantissa and the exponent in one number. The sign of a double can be
turned without a change of the other bits, and two finite doubles with the same
bits are equal.
-/

set_option autoImplicit false

namespace PartProgram

open Float.Model Float.Model.UnpackedFloat

namespace Double

theorem abs_unpacked (s : Sign) (e : BitVec 11) (f : BitVec 52) :
    (unpacked s e f).abs = unpacked .positive e f := by
  rcases unpacked_cases e f with ⟨-, h | h⟩ | ⟨-, h | ⟨m, k, hm, h⟩⟩
  all_goals
    rw [h, h]
    rfl

theorem toBits_abs {x : Float} (h : x.isFinite = true) :
    x.abs.toBits.toNat = x.toBits.toNat % 2 ^ 63 := by
  rw [isFinite_iff] at h
  generalize hb : x.toModel.toBits.toBitVec = b
  have hx : x.toBits.toNat = b.toNat := by
    rw [← hb]
    rfl
  rw [hx] at h ⊢
  have habs : x.abs.toBits.toNat = (UnpackedFloat.pack Format.binary64
      (UnpackedFloat.unpack Format.binary64 b).abs).toNat := by
    rw [← hb]
    rfl
  have hlt := b.isLt
  rw [habs, unpack_eq, abs_unpacked, pack_unpacked _ (exponent_ne h), packComponents_toNat,
    field_toNat, fraction_toNat]
  show 0 * 2 ^ 63 + _ + _ = _
  omega

/-- The mantissas and exponents of doubles. -/
structure Canonical (m : Nat) (e : Int) : Prop where
  mantissa : m < 2 ^ 53
  low : -1074 ≤ e
  high : e ≤ 971
  normal : 2 ^ 52 ≤ m ∨ e = -1074

def bitsOf (m : Nat) (e : Int) : Nat := m + (e + 1074).toNat * 2 ^ 52

theorem magnitude_eq (x : Float) :
    magnitude x =
      if field x.toBits.toNat = 2047 then
        if x.toBits.toNat % 2 ^ 52 = 0 then .infinite else .undefined
      else if field x.toBits.toNat = 0 then .finite (x.toBits.toNat % 2 ^ 52) (-1074)
      else .finite (2 ^ 52 + x.toBits.toNat % 2 ^ 52) (field x.toBits.toNat - 1075) := rfl

theorem magnitude_finite {x : Float} {m : Nat} {e : Int} (h : magnitude x = .finite m e) :
    Canonical m e ∧ x.toBits.toNat % 2 ^ 63 = bitsOf m e := by
  rw [magnitude_eq] at h
  have hfield : field x.toBits.toNat < 2 ^ 11 := Nat.mod_lt _ (by decide)
  have hfraction : x.toBits.toNat % 2 ^ 52 < 2 ^ 52 := Nat.mod_lt _ (by decide)
  split at h
  · split at h <;> cases h
  · split at h
    · cases h
      refine ⟨⟨by omega, by omega, by omega, .inr rfl⟩, ?_⟩
      simp only [bitsOf, field] at *
      omega
    · cases h
      refine ⟨⟨by omega, by omega, by omega, .inl (by omega)⟩, ?_⟩
      simp only [bitsOf, field] at *
      omega

theorem magnitude_of_bits {x : Float} {m : Nat} {e : Int} (hc : Canonical m e)
    (h : x.toBits.toNat % 2 ^ 63 = bitsOf m e) : magnitude x = .finite m e := by
  obtain ⟨hm, hlow, hhigh, hnormal⟩ := hc
  unfold bitsOf at h
  rw [magnitude_eq, field]
  rcases Nat.lt_or_ge m (2 ^ 52) with hsub | hnorm
  · have he : e = -1074 := hnormal.resolve_left (by omega)
    rw [if_neg (by omega), if_pos (by omega)]
    congr 1
    · omega
    · omega
  · rw [if_neg (by omega), if_neg (by omega)]
    congr 1
    · omega
    · omega

theorem magnitude_of_isFinite {x : Float} (h : x.isFinite = true) :
    ∃ m e, magnitude x = .finite m e := by
  rw [isFinite_iff] at h
  rw [magnitude_eq, if_neg h]
  split
  · exact ⟨_, _, rfl⟩
  · exact ⟨_, _, rfl⟩

theorem isFinite_of_magnitude {x : Float} {m : Nat} {e : Int} (h : magnitude x = .finite m e) :
    x.isFinite = true := by
  rw [isFinite_iff]
  intro hf
  rw [magnitude_eq, if_pos hf] at h
  split at h <;> cases h

theorem magnitude_congr {x y : Float} (h : x.toBits.toNat % 2 ^ 63 = y.toBits.toNat % 2 ^ 63) :
    magnitude x = magnitude y := by
  have hfield : field x.toBits.toNat = field y.toBits.toNat := by
    unfold field
    omega
  have hfraction : x.toBits.toNat % 2 ^ 52 = y.toBits.toNat % 2 ^ 52 := by omega
  rw [magnitude_eq, magnitude_eq, hfield, hfraction]

theorem isNegative_iff (x : Float) : isNegative x = true ↔ x.toBits.toNat / 2 ^ 63 = 1 := by
  simp [isNegative, twoTo_eq]

theorem toBits_eq (x : Float) :
    x.toBits.toNat = (if isNegative x then 2 ^ 63 else 0) + x.toBits.toNat % 2 ^ 63 := by
  have hlt := x.toBits.toNat_lt
  by_cases h : isNegative x = true
  · rw [if_pos h]
    rw [isNegative_iff] at h
    omega
  · rw [if_neg h]
    rw [isNegative_iff] at h
    omega

theorem toBits_nearest {x : Float} (h : x.isFinite = true) {num den : Nat}
    (hbits : nearestBits num den = x.toBits.toNat % 2 ^ 63) (negative : Bool) :
    (nearest negative num den).toBits.toNat =
      (if negative then 2 ^ 63 else 0) + x.toBits.toNat % 2 ^ 63 := by
  rw [isFinite_iff, field] at h
  have hn : (if negative then twoTo 63 else 0) + nearestBits num den =
      (if negative then 2 ^ 63 else 0) + x.toBits.toNat % 2 ^ 63 := by
    rw [hbits]
    rfl
  rw [nearest, hn]
  apply toBits_ofBits
  · cases negative <;> simp only [Bool.false_eq_true, if_false, if_true] <;> omega
  · unfold field
    cases negative <;> simp only [Bool.false_eq_true, if_false, if_true] <;> omega

theorem nearest_eq {x : Float} (h : x.isFinite = true) {num den : Nat}
    (hbits : nearestBits num den = x.toBits.toNat % 2 ^ 63) :
    nearest (isNegative x) num den = x := by
  apply eq_of_toBits
  rw [toBits_nearest h hbits, ← toBits_eq]

theorem nearestBits_le (num den : Nat) : nearestBits num den ≤ 2047 * 2 ^ 52 := by
  unfold nearestBits
  split
  · omega
  · exact Nat.min_le_right _ _

theorem toBits_nearest_of_ne {num den : Nat} (h : nearestBits num den ≠ 2047 * 2 ^ 52)
    (negative : Bool) : (nearest negative num den).toBits.toNat =
      (if negative then 2 ^ 63 else 0) + nearestBits num den := by
  have hle := nearestBits_le num den
  apply toBits_ofBits
  · cases negative <;> simp only [Bool.false_eq_true, if_false, if_true, twoTo_eq] <;> omega
  · unfold field
    cases negative <;> simp only [Bool.false_eq_true, if_false, if_true, twoTo_eq] <;> omega

theorem neg_nearest_not (negative : Bool) (num den : Nat) :
    -nearest negative num den = nearest (!negative) num den := by
  have hle := nearestBits_le num den
  by_cases hmax : nearestBits num den = 2047 * 2 ^ 52
  · rw [nearest, nearest, hmax]
    cases negative <;> rfl
  · have hbits := toBits_nearest_of_ne hmax
    have hfinite : (nearest negative num den).isFinite = true := by
      rw [isFinite_iff, field, hbits]
      cases negative <;> simp only [Bool.false_eq_true, if_false, if_true] <;> omega
    apply eq_of_toBits
    rw [toBits_neg hfinite, hbits, hbits]
    cases negative <;> simp only [Bool.not_false, Bool.not_true, Bool.false_eq_true, if_false,
      if_true] <;> omega

theorem neg_nearest_eq (num den : Nat) : -nearest false num den = nearest true num den :=
  neg_nearest_not false num den

theorem neg_nearest {x : Float} (h : x.isFinite = true) (hneg : isNegative x = true)
    {num den : Nat} (hbits : nearestBits num den = x.toBits.toNat % 2 ^ 63) :
    -nearest false num den = x := by
  rw [neg_nearest_eq, ← hneg, nearest_eq h hbits]

theorem unpack_of_isFinite {x : Float} (h : x.isFinite = true) :
    (∃ s, x.toModel.unpack = .zero s) ∨ ∃ s m e hm, x.toModel.unpack = .finite s m e hm := by
  have hx : x.toModel.unpack.isFinite = true := h
  cases hu : x.toModel.unpack with
  | infinity s =>
    rw [hu] at hx
    cases hx
  | notANumber =>
    rw [hu] at hx
    cases hx
  | zero s => exact .inl ⟨s, rfl⟩
  | finite s m e hm => exact .inr ⟨s, m, e, hm, rfl⟩

theorem beq_self {x : Float} (h : x.isFinite = true) : (x == x) = true := by
  show x.toModel.unpack.beq x.toModel.unpack = true
  rcases unpack_of_isFinite h with ⟨s, hu⟩ | ⟨s, m, e, hm, hu⟩
  · rw [hu]
    rfl
  · have hself : (compare e e).then (compare m m) = .eq := by simp
    rw [hu]
    cases s with
    | positive =>
      show (some ((compare e e).then (compare m m)) == some Ordering.eq) = true
      rw [hself]
      rfl
    | negative =>
      show (some ((compare e e).then (compare m m)).swap == some Ordering.eq) = true
      rw [hself]
      rfl

theorem unpack_magnitude {x : Float} {m : Nat} {e : Int} (h : magnitude x = .finite m e) :
    (m = 0 ∧ ∃ s, x.toModel.unpack = .zero s) ∨
      ∃ s hm, x.toModel.unpack = .finite s m e hm := by
  have hne := (isFinite_iff x).mp (isFinite_of_magnitude h)
  have hexp : @unpackExponent Format.binary64 x.toModel.toBits.toBitVec ≠ -1#11 := exponent_ne hne
  have hfield : (@unpackExponent Format.binary64 x.toModel.toBits.toBitVec).toNat =
      field x.toBits.toNat := field_toNat _
  have hfraction : (@unpackMantissa Format.binary64 x.toModel.toBits.toBitVec).toNat =
      x.toBits.toNat % 2 ^ 52 := fraction_toNat _
  have hx : x.toModel.unpack = _ := unpack_eq x.toModel.toBits.toBitVec
  rw [magnitude_eq, if_neg hne] at h
  rw [hx, unpacked, if_neg hexp]
  generalize @unpackExponent Format.binary64 x.toModel.toBits.toBitVec = field' at *
  generalize @unpackMantissa Format.binary64 x.toModel.toBits.toBitVec = fraction' at *
  by_cases hz : field' = 0#11
  · have hz' : field x.toBits.toNat = 0 := by
      rw [← hfield, hz]
      rfl
    rw [if_pos hz', ← hfraction] at h
    cases h
    rw [if_pos hz]
    by_cases hf : fraction' = 0#52
    · rw [dif_pos hf, hf]
      exact .inl ⟨rfl, _, rfl⟩
    · rw [dif_neg hf, hz]
      exact .inr ⟨_, _, rfl⟩
  · have hz' : field x.toBits.toNat ≠ 0 := by
      rw [← hfield]
      exact fun h' => hz (BitVec.eq_of_toNat_eq h')
    rw [if_neg hz', ← hfraction, ← hfield, ← append_one] at h
    cases h
    rw [if_neg hz]
    exact .inr ⟨_, _, rfl⟩

theorem beq_zeros {x y : Float} {e e' : Int} (hx : magnitude x = .finite 0 e)
    (hy : magnitude y = .finite 0 e') : (x == y) = true := by
  have hzero : ∀ {z : Float} {e : Int}, magnitude z = .finite 0 e →
      ∃ s, z.toModel.unpack = .zero s := by
    intro z e hz
    rcases unpack_magnitude hz with ⟨-, h⟩ | ⟨s, hm, -⟩
    · exact h
    · exact absurd hm (Nat.lt_irrefl 0)
  obtain ⟨s, hs⟩ := hzero hx
  obtain ⟨t, ht⟩ := hzero hy
  show x.toModel.unpack.beq y.toModel.unpack = true
  rw [hs, ht]
  rfl

theorem unpack_wordLimit :
    ∃ hm, (realOfInt wordLimit).toModel.unpack = .finite .positive (2 ^ 52) 11 hm :=
  ⟨by decide, rfl⟩

theorem sign_of_unpack {x : Float} {s : Sign} {m : Nat} {e : Int} {hm : 0 < m}
    (h : x.toModel.unpack = .finite s m e hm) :
    s = if isNegative x then .negative else .positive := by
  have hx : x.toModel.unpack = _ := unpack_eq x.toModel.toBits.toBitVec
  have hs : s = Sign.ofBitVec (@unpackSign Format.binary64 x.toModel.toBits.toBitVec) := by
    rw [hx] at h
    rcases unpacked_cases (@unpackExponent Format.binary64 x.toModel.toBits.toBitVec)
      (@unpackMantissa Format.binary64 x.toModel.toBits.toBitVec) with
      ⟨-, h' | h'⟩ | ⟨-, h' | ⟨m, k, hm, h'⟩⟩
    all_goals
      rw [h'] at h
      cases h
    rfl
  have hbit : (@unpackSign Format.binary64 x.toModel.toBits.toBitVec).toNat =
      x.toBits.toNat / 2 ^ 63 := sign_toNat _
  rw [hs, isNegative, twoTo_eq, ← hbit]
  generalize @unpackSign Format.binary64 x.toModel.toBits.toBitVec = v
  have hv : v = 0#1 ∨ v = 1#1 := by
    revert v
    decide
  rcases hv with rfl | rfl <;> rfl

theorem abs_lt_wordLimit_iff {x : Float} {m : Nat} {e : Int} (h : magnitude x = .finite m e) :
    x.abs < realOfInt wordLimit ↔ e < 11 ∨ e = 11 ∧ m < 2 ^ 52 := by
  obtain ⟨hm', hlimit⟩ := unpack_wordLimit
  have hfinite := isFinite_of_magnitude h
  have hbits := toBits_abs hfinite
  have habs : magnitude x.abs = .finite m e := by
    rw [← h]
    apply magnitude_congr
    rw [hbits]
    omega
  have hpositive : isNegative x.abs = false := by
    rw [Bool.eq_false_iff, Ne, isNegative_iff, hbits]
    omega
  have hlt : x.abs < realOfInt wordLimit ↔
      x.abs.toModel.unpack.lt (realOfInt wordLimit).toModel.unpack = true := decide_eq_true_iff
  rw [hlt, hlimit]
  rcases unpack_magnitude habs with ⟨rfl, s, hs⟩ | ⟨s, hm, hs⟩
  · rw [hs]
    have hc := (magnitude_finite h).1
    have he : e = -1074 := hc.normal.resolve_left (by decide)
    exact ⟨fun _ => .inl (by omega), fun _ => rfl⟩
  · have hsign := sign_of_unpack hs
    rw [hpositive, if_neg Bool.false_ne_true] at hsign
    subst hsign
    rw [hs]
    show (some ((compare e 11).then (compare m (2 ^ 52))) == some Ordering.lt) = true ↔ _
    rcases Int.lt_trichotomy e 11 with he | rfl | he
    · simp [Int.compare_eq_lt.mpr he, he]
    · simp [Nat.compare_eq_lt]
    · rw [Int.compare_eq_gt.mpr he]
      simp
      omega

end Double

end PartProgram
