import Mathlib.Tactic.Ring
import PartProgram.Decimal.Power

/-!
# The parts of a double

A double is put together from its sign, the field of its exponent and its fraction, and taken
apart into these again.
-/

set_option autoImplicit false

namespace PartProgram

open Float.Model Float.Model.UnpackedFloat

theorem twoTo_eq (n : Nat) : twoTo n = 2 ^ n := rfl

namespace Double

theorem append_one (f : BitVec 52) : (1#1 ++ f).toNat = 2 ^ 52 + f.toNat := by
  rw [BitVec.toNat_append, ← Nat.shiftLeft_add_eq_or_of_lt f.isLt]
  rfl

/-- The parts of a double of the given sign, exponent field and fraction. -/
def unpacked (s : Sign) (e : BitVec 11) (f : BitVec 52) : UnpackedFloat :=
  if e = -1#11 then
    if f = 0#52 then .infinity s else .notANumber
  else if e = 0#11 then
    if h : f = 0#52 then .zero s
    else .finite s f.toNat ((e.toNat : Int) - 1075 + 1)
      (by simpa [BitVec.toNat_pos, BitVec.pos_iff_ne_zero])
  else .finite s (1#1 ++ f).toNat ((e.toNat : Int) - 1075) (by rw [append_one]; omega)

theorem unpack_eq (b : BitVec 64) :
    UnpackedFloat.unpack Format.binary64 b =
      unpacked (Sign.ofBitVec (@unpackSign Format.binary64 b))
        (@unpackExponent Format.binary64 b) (@unpackMantissa Format.binary64 b) :=
  rfl

theorem unpacked_cases (e : BitVec 11) (f : BitVec 52) :
    (e = -1#11 ∧ ((∀ s, unpacked s e f = .infinity s) ∨ ∀ s, unpacked s e f = .notANumber)) ∨
      (e ≠ -1#11 ∧ ((∀ s, unpacked s e f = .zero s) ∨
        ∃ m k hm, ∀ s, unpacked s e f = .finite s m k hm)) := by
  by_cases he : e = -1#11
  · by_cases hf : f = 0#52
    · exact .inl ⟨he, .inl fun s => by rw [unpacked, if_pos he, if_pos hf]⟩
    · exact .inl ⟨he, .inr fun s => by rw [unpacked, if_pos he, if_neg hf]⟩
  · refine .inr ⟨he, ?_⟩
    by_cases hz : e = 0#11
    · by_cases hf : f = 0#52
      · exact .inl fun s => by rw [unpacked, if_neg he, if_pos hz, dif_pos hf]
      · exact .inr ⟨_, _, _, fun s => by rw [unpacked, if_neg he, if_pos hz, dif_neg hf]⟩
    · exact .inr ⟨_, _, _, fun s => by rw [unpacked, if_neg he, if_neg hz]⟩

theorem neg_unpacked (s : Sign) (e : BitVec 11) (f : BitVec 52) :
    (unpacked s e f).neg = unpacked (-s) e f := by
  rcases unpacked_cases e f with ⟨-, h | h⟩ | ⟨-, h | ⟨m, k, hm, h⟩⟩
  all_goals
    rw [h, h]
    rfl

theorem toNat_ne_of_ne {e : BitVec 11} (h : e ≠ -1#11) : e.toNat < 2047 := by
  have hlt := e.isLt
  have hne : e.toNat ≠ 2047 := fun h' => h (BitVec.eq_of_toNat_eq h')
  omega

theorem pack_unpacked (s : Sign) {e : BitVec 11} (he : e ≠ -1#11) (f : BitVec 52) :
    UnpackedFloat.pack Format.binary64 (unpacked s e f) = packComponents Format.binary64 s e f := by
  have hlt := toNat_ne_of_ne he
  have hf := f.isLt
  unfold unpacked
  rw [if_neg he]
  by_cases h0 : e = 0#11
  · rw [if_pos h0]
    by_cases hz : f = 0#52
    · rw [dif_pos hz, h0, hz]
      rfl
    · rw [dif_neg hz, h0]
      have hpos : f.toNat ≠ 0 := fun h => hz (BitVec.eq_of_toNat_eq h)
      have hlog : ¬f.toNat.log2 + 1 = Format.binary64.mantissaBits := by
        have : f.toNat.log2 < 52 := (Nat.log2_lt hpos).mpr hf
        show ¬f.toNat.log2 + 1 = 53
        omega
      unfold UnpackedFloat.pack
      simp only []
      rw [if_neg (by decide), if_neg hlog, BitVec.ofNat_toNat, BitVec.setWidth_eq]
  · rw [if_neg h0]
    have hpos : e.toNat ≠ 0 := fun h => h0 (BitVec.eq_of_toNat_eq h)
    have hlog : (1#1 ++ f).toNat.log2 + 1 = Format.binary64.mantissaBits := by
      have : (1#1 ++ f).toNat.log2 = 52 := by
        rw [append_one, Nat.log2_eq_iff (by omega)]
        omega
      rw [this]
      rfl
    have hexp : ((e.toNat : Int) - 1075 + Format.binary64.exponentBias + ((52 : Nat) : Int)).toNat =
        e.toNat := by
      show ((e.toNat : Int) - 1075 + 1023 + 52).toNat = e.toNat
      omega
    have hfraction : BitVec.ofNat 52 (1#1 ++ f).toNat = f := by
      apply BitVec.eq_of_toNat_eq
      rw [BitVec.toNat_ofNat, append_one, Nat.add_mod_left, Nat.mod_eq_of_lt hf]
    unfold UnpackedFloat.pack
    simp only []
    rw [if_neg (by rw [hexp]; show ¬2 ^ 11 ≤ e.toNat + 1; omega), if_pos hlog, hexp, hfraction,
      BitVec.ofNat_toNat, BitVec.setWidth_eq]

theorem packComponents_toNat (s : Sign) (e : BitVec 11) (f : BitVec 52) :
    (packComponents Format.binary64 s e f).toNat =
      s.toBitVec.toNat * 2 ^ 63 + e.toNat * 2 ^ 52 + f.toNat := by
  have he := e.isLt
  have hf := f.isLt
  show ((s.toBitVec ++ e) ++ f).toNat = _
  rw [BitVec.toNat_append, ← Nat.shiftLeft_add_eq_or_of_lt hf, BitVec.toNat_append,
    ← Nat.shiftLeft_add_eq_or_of_lt he, Nat.shiftLeft_eq, Nat.shiftLeft_eq]
  omega

theorem fraction_toNat (b : BitVec 64) :
    (@unpackMantissa Format.binary64 b).toNat = b.toNat % 2 ^ 52 := by
  show (b.extractLsb 51 0).toNat = _
  rw [BitVec.extractLsb_toNat, Nat.shiftRight_zero]

theorem field_toNat (b : BitVec 64) :
    (@unpackExponent Format.binary64 b).toNat = b.toNat / 2 ^ 52 % 2 ^ 11 := by
  show (b.extractLsb 62 52).toNat = _
  rw [BitVec.extractLsb_toNat, Nat.shiftRight_eq_div_pow]

theorem sign_toNat (b : BitVec 64) :
    (@unpackSign Format.binary64 b).toNat = b.toNat / 2 ^ 63 := by
  have h := b.isLt
  show (b.extractLsb 63 63).toNat = _
  rw [BitVec.extractLsb_toNat, Nat.shiftRight_eq_div_pow]
  omega

theorem sign_toBitVec (v : BitVec 1) : (Sign.ofBitVec v).toBitVec = v := by
  revert v
  decide

theorem packComponents_parts (b : BitVec 64) :
    packComponents Format.binary64 (Sign.ofBitVec (@unpackSign Format.binary64 b))
      (@unpackExponent Format.binary64 b) (@unpackMantissa Format.binary64 b) = b := by
  apply BitVec.eq_of_toNat_eq
  rw [packComponents_toNat, sign_toBitVec, sign_toNat, field_toNat, fraction_toNat]
  omega

def field (bits : Nat) : Nat := bits / 2 ^ 52 % 2 ^ 11

theorem exponent_ne {b : BitVec 64} (h : field b.toNat ≠ 2047) :
    @unpackExponent Format.binary64 b ≠ -1#11 := by
  intro heq
  apply h
  rw [field, ← field_toNat, heq]
  rfl

theorem pack_unpack {b : BitVec 64} (h : field b.toNat ≠ 2047) :
    UnpackedFloat.pack Format.binary64 (UnpackedFloat.unpack Format.binary64 b) = b := by
  rw [unpack_eq, pack_unpacked _ (exponent_ne h), packComponents_parts]

theorem eq_of_toBits {x y : Float} (h : x.toBits.toNat = y.toBits.toNat) : x = y := by
  obtain ⟨⟨a, ha⟩⟩ := x
  obtain ⟨⟨b, hb⟩⟩ := y
  have hab : a = b := UInt64.toNat_inj.mp h
  subst hab
  rfl

/-- Bits that are those of a finite double are kept. -/
theorem toBits_ofBits {n : Nat} (hn : n < 2 ^ 64) (h : field n ≠ 2047) :
    (Float.ofBits (UInt64.ofNat n)).toBits.toNat = n := by
  have hto : (UInt64.ofNat n).toBitVec.toNat = n := by
    show (UInt64.ofNat n).toNat = n
    rw [UInt64.toNat_ofNat', Nat.mod_eq_of_lt hn]
  show (UnpackedFloat.pack Format.binary64
    (UnpackedFloat.unpack Format.binary64 (UInt64.ofNat n).toBitVec)).toNat = n
  rw [pack_unpack (by rw [hto]; exact h), hto]

theorem isFinite_iff (x : Float) : x.isFinite = true ↔ field x.toBits.toNat ≠ 2047 := by
  have hf := field_toNat x.toModel.toBits.toBitVec
  show (UnpackedFloat.unpack Format.binary64 x.toModel.toBits.toBitVec).isFinite = true ↔
    field x.toModel.toBits.toBitVec.toNat ≠ 2047
  rw [field, ← hf, unpack_eq]
  generalize @unpackExponent Format.binary64 x.toModel.toBits.toBitVec = e
  rcases unpacked_cases e (@unpackMantissa Format.binary64 x.toModel.toBits.toBitVec) with
    ⟨rfl, h | h⟩ | ⟨he, h | ⟨m, k, hm, h⟩⟩
  · rw [h]
    exact ⟨fun h => absurd h Bool.false_ne_true, fun h => absurd rfl h⟩
  · rw [h]
    exact ⟨fun h => absurd h Bool.false_ne_true, fun h => absurd rfl h⟩
  · rw [h]
    exact ⟨fun _ => Nat.ne_of_lt (toNat_ne_of_ne he), fun _ => rfl⟩
  · rw [h]
    exact ⟨fun _ => Nat.ne_of_lt (toNat_ne_of_ne he), fun _ => rfl⟩

theorem toBits_neg {x : Float} (h : x.isFinite = true) :
    (-x).toBits.toNat = x.toBits.toNat % 2 ^ 63 + (1 - x.toBits.toNat / 2 ^ 63) * 2 ^ 63 := by
  rw [isFinite_iff] at h
  generalize hb : x.toModel.toBits.toBitVec = b
  have hx : x.toBits.toNat = b.toNat := by
    rw [← hb]
    rfl
  rw [hx] at h ⊢
  have hneg : (-x).toBits.toNat = (UnpackedFloat.pack Format.binary64
      (UnpackedFloat.unpack Format.binary64 b).neg).toNat := by
    rw [← hb]
    rfl
  have hlt := b.isLt
  have hs : (-Sign.ofBitVec (@unpackSign Format.binary64 b)).toBitVec.toNat =
      1 - (@unpackSign Format.binary64 b).toNat := by
    generalize @unpackSign Format.binary64 b = v
    revert v
    decide
  rw [hneg, unpack_eq, neg_unpacked, pack_unpacked _ (exponent_ne h), packComponents_toNat, hs,
    sign_toNat, field_toNat, fraction_toNat]
  omega

end Double

end PartProgram
