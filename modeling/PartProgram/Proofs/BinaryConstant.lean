import Mathlib.Data.Int.ModEq
import PartProgram.Proofs.Decimal.Digits

/-!
# Binary constants

A binary constant may have more digits than a word has bits. Its value is then the
word of the last 64 digits, which is negative if the first of these is a one. Reading
shifts the digits into a word one by one; the word is at every step the one that the
digits so far denote.
-/

set_option autoImplicit false

namespace PartProgram

def IsBinaryChar (c : Char) : Prop := c = '0' ∨ c = '1' ∨ c = ' '

/-- The integer of 64 bits with a sign that has the last 64 binary digits of a number. -/
structure IsWordOf (value : Nat) (n : Int) : Prop where
  lower : -2 ^ 63 ≤ n
  upper : n < 2 ^ 63
  congruent : n ≡ value [ZMOD 2 ^ 64]

theorem IsWordOf.unique {value : Nat} {n m : Int} (hn : IsWordOf value n) (hm : IsWordOf value m) :
    n = m := by
  have h : n % 2 ^ 64 = m % 2 ^ 64 := hn.congruent.trans hm.congruent.symm
  have := hn.lower
  have := hn.upper
  have := hm.lower
  have := hm.upper
  omega

theorem isWordOf_ofNat (value : Nat) : IsWordOf value (Int64.ofNat value).toInt where
  lower := Int64.le_toInt _
  upper := Int64.toInt_lt _
  congruent := by
    rw [← Int64.ofInt_eq_ofNat, Int64.toInt_ofInt]
    exact Int.bmod_emod

theorem toInt_shiftLeft_one (word : Int64) : ∃ half : Int, (word <<< 1).toInt = 2 * half := by
  have hshift : (word <<< 1).toInt = ((2 * word.toBitVec.toNat : Nat) : Int).bmod (2 ^ 64) := by
    have hone : (1 : Int64).toBitVec.smod 64 = 1#64 := rfl
    rw [← Int64.toInt_toBitVec, Int64.toBitVec_shiftLeft, BitVec.toInt_eq_toNat_bmod, hone,
      BitVec.shiftLeft_eq', BitVec.toNat_shiftLeft, Nat.shiftLeft_eq, Nat.mul_comm]
    exact Int.emod_bmod (2 * word.toBitVec.toNat) (2 ^ 64)
  rw [hshift, Int.bmod_def]
  split
  · exact ⟨word.toBitVec.toNat % 2 ^ 63, by omega⟩
  · exact ⟨word.toBitVec.toNat % 2 ^ 63 - 2 ^ 63, by omega⟩

theorem toInt_shiftLeft_add_one (word : Int64) :
    (word <<< 1 + 1).toInt = (word <<< 1).toInt + 1 := by
  obtain ⟨half, heven⟩ := toInt_shiftLeft_one word
  have hlower := Int64.le_toInt (word <<< 1)
  have hupper := Int64.toInt_lt (word <<< 1)
  have hone : (1 : Int64).toInt = 1 := rfl
  rw [Int64.toInt_add, hone, Int.bmod_def]
  split <;> omega

theorem shiftBit_eq_some {word next : Int64} {c : Char} (h : shiftBit word c = some next) :
    IsBinaryChar c := by
  simp only [shiftBit] at h
  split at h
  · exact .inl ‹_›
  · split at h
    · exact .inr (.inl ‹_›)
    · split at h
      · exact .inr (.inr ‹_›)
      · cases h

theorem shiftBit_digit (n : Nat) {c : Char} (h : c = '0' ∨ c = '1') :
    shiftBit (Int64.ofNat n) c = some (Int64.ofNat (2 * n + digitValue c)) := by
  rcases h with rfl | rfl
  · exact shiftBit_digitChar n (d := 0) (by decide)
  · exact shiftBit_digitChar n (d := 1) (by decide)

theorem binaryChars_of_readBinary {cs : List Char} {word next : Int64}
    (h : cs.foldlM shiftBit word = some next) : ∀ c ∈ cs, IsBinaryChar c := by
  induction cs generalizing word with
  | nil => exact List.forall_mem_nil _
  | cons c cs ih =>
    obtain ⟨mid, hc, hcs⟩ := Option.bind_eq_some_iff.mp h
    exact List.forall_mem_cons.mpr ⟨shiftBit_eq_some hc, ih hcs⟩

theorem readBinary_eq {cs : List Char} (h : ∀ c ∈ cs, IsBinaryChar c) :
    readBinary cs = some (Int64.ofNat (ofDigits 2 (cs.filter (· ≠ ' ')))) := by
  have hfold : ∀ n : Nat, cs.foldlM shiftBit (Int64.ofNat n) =
      some (Int64.ofNat ((cs.filter (· ≠ ' ')).foldl (fun n c => 2 * n + digitValue c) n)) := by
    induction cs with
    | nil => exact fun n => rfl
    | cons c cs ih =>
      intro n
      obtain ⟨hc, hcs⟩ := List.forall_mem_cons.mp h
      by_cases hblank : c = ' '
      · subst hblank
        exact ih hcs n
      · have hdigit : c = '0' ∨ c = '1' := by
          rcases hc with hc | hc | hc
          · exact .inl hc
          · exact .inr hc
          · exact absurd hc hblank
        rw [List.foldlM_cons, shiftBit_digit n hdigit,
          List.filter_cons_of_pos (by simpa using hblank)]
        exact ih hcs _
  exact hfold 0

namespace Token

/-- A binary constant has a value if it consists of binary digits and spaces. The value is the
one integer of 64 bits with a sign that has the last 64 of the digits, and no word overflows
when a one is added to it on the way. -/
theorem binary_constant_wraps {t : Token} {mark : Char} {s : List Char} (hkind : t.kind = .number)
    (htext : t.text.toList = mark :: s) (hmark : mark = 'B' ∨ mark = 'b') :
    (t.integer?.isSome = true ↔ ∀ c ∈ s, IsBinaryChar c) ∧
    (∀ n, t.integer? = some n → ∀ m, IsWordOf (ofDigits 2 (s.filter (· ≠ ' '))) m ↔ m = n) ∧
    ∀ before after word, s = before ++ '1' :: after → readBinary before = some word →
      (word <<< 1 + 1).toInt = (word <<< 1).toInt + 1 := by
  have hradix : Radix.ofMark mark = .binary := by
    rcases hmark with rfl | rfl <;> rfl
  have hvalue : t.integer? = (readBinary s).map Int64.toInt := by
    simp only [integer?, if_pos hkind, htext, integerText?, hradix]
  have hread : t.integer?.isSome = true ↔ ∀ c ∈ s, IsBinaryChar c := by
    rw [hvalue, Option.isSome_map]
    constructor
    · intro h
      obtain ⟨word, hword⟩ := Option.isSome_iff_exists.mp h
      exact binaryChars_of_readBinary hword
    · intro h
      rw [readBinary_eq h]
      rfl
  refine ⟨hread, ?_, fun _ _ word _ _ => toInt_shiftLeft_add_one word⟩
  intro n hn m
  have hchars := hread.mp (Option.isSome_iff_exists.mpr ⟨n, hn⟩)
  rw [hvalue, readBinary_eq hchars, Option.map_some, Option.some.injEq] at hn
  have hword := isWordOf_ofNat (ofDigits 2 (s.filter (· ≠ ' ')))
  rw [hn] at hword
  constructor
  · exact fun hm => hm.unique hword
  · rintro rfl
    exact hword

theorem binary_constant_wraps_ones :
    let s := '1' :: ' ' :: List.replicate 64 '1'
    let t : Token := ⟨.number, String.ofList ('b' :: s), false, 1⟩
    t.integer? = some (-1) ∧ ofDigits 2 (s.filter (· ≠ ' ')) = 2 ^ 65 - 1 ∧
      ∀ m, IsWordOf (2 ^ 65 - 1) m ↔ m = -1 := by
  intro s t
  have htext : t.text.toList = 'b' :: s := String.toList_ofList
  have hvalue : t.integer? = some (-1) := by decide +kernel
  have hdigits : ofDigits 2 (s.filter (· ≠ ' ')) = 2 ^ 65 - 1 := by decide +kernel
  have hword := (binary_constant_wraps rfl htext (.inr rfl)).2.1 (-1) hvalue
  rw [hdigits] at hword
  exact ⟨hvalue, hdigits, hword⟩

end Token

end PartProgram
