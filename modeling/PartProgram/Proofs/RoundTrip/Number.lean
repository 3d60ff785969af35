import PartProgram.Expr.Printer
import PartProgram.Proofs.RoundTrip.Spelling

/-!
# Written numbers

A number is written as a sign and one number token, which is read as the absolute
value. A finite number with a point is read back as it was, in decimal. So is an integer
below `2 ^ 63`, except that a zero loses its sign; an integer beyond is read in decimal.
-/

set_option autoImplicit false

namespace PartProgram

namespace Number

/-- The number that the text of a number denotes. Digits behind the point of an integer are
dropped, and the radix counts only for an integer below `2 ^ 63`. -/
def plain (n : Number) : Number :=
  if !n.isInteger then { n with radix := .decimal }
  else if n.value.abs < realOfInt wordLimit then
    { n with value := realOfInt (truncate n.value).toInt }
  else { n with radix := .decimal }

/-- The numbers whose text denotes them: finite, as an integer whole and below `2 ^ 63`, and
with a point only in decimal. -/
def Exact (n : Number) : Prop :=
  n.value.isFinite = true ∧
    if n.isInteger then (integral? n.value).isSome = true else n.radix = .decimal

/-- The numbers that may stand behind a letter, where digits are read as an integer of 64
bits. -/
def Fits (n : Number) : Prop :=
  n.isInteger = true → isNegative n.value = false → n.value.abs < realOfInt wordLimit

def IsBare (n : Number) : Prop := ∀ c ∈ n.text.toList, c.isDigit = true

theorem plain_real {n : Number} (hi : n.isInteger = false) :
    n.plain = ⟨n.value, false, .decimal⟩ := by
  rw [plain, hi]
  rfl

theorem plain_word {n : Number} (hi : n.isInteger = true) (h : n.value.abs < realOfInt wordLimit) :
    n.plain = ⟨realOfInt (truncate n.value).toInt, true, n.radix⟩ := by
  simp only [plain, hi, Bool.not_true, Bool.false_eq_true, if_false, if_pos h]

theorem plain_beyond {n : Number} (hi : n.isInteger = true)
    (h : ¬ n.value.abs < realOfInt wordLimit) : n.plain = ⟨n.value, true, .decimal⟩ := by
  simp only [plain, hi, Bool.not_true, Bool.false_eq_true, if_false, if_neg h]

theorem realOfInt_sign (k : Int) :
    realOfInt k = if k < 0 then -realOfInt k.natAbs else realOfInt k.natAbs := by
  have hnat : realOfInt (k.natAbs : Int) = nearest false k.natAbs 1 := by
    rw [realOfInt, Int.natAbs_natCast, decide_eq_false (by omega)]
  by_cases hk : k < 0
  · rw [if_pos hk, hnat, Double.neg_nearest_eq, realOfInt, decide_eq_true hk]
  · rw [if_neg hk, hnat, realOfInt, decide_eq_false hk]

theorem realOfInt_integral {x : Float} {k : Int} (h : integral? x = some k) :
    realOfInt k = x ∨ k = 0 ∧ (realOfInt k == x) = true := by
  obtain ⟨m, e, hmag, hvalue, -, hsign⟩ := Double.integral_value h
  have hfinite := Double.isFinite_of_magnitude hmag
  have hbits := Double.integral_bits h
  by_cases hk : k = 0
  · right
    have hm : m = 0 := by
      have hpow : (2 : ℚ) ^ e ≠ 0 := zpow_ne_zero e two_ne_zero
      rw [hk, Int.natAbs_zero, Nat.cast_zero, mul_eq_zero] at hvalue
      exact_mod_cast hvalue.resolve_right hpow
    refine ⟨hk, ?_⟩
    have hzero : magnitude (realOfInt 0) = .finite 0 (-1074) := by decide
    rw [hk]
    exact Double.beq_zeros hzero (hm ▸ hmag)
  · left
    have hneg : decide (k < 0) = isNegative x := by
      by_cases hx : isNegative x = true
      · rw [if_pos hx] at hsign
        rw [hx, decide_eq_true_iff]
        omega
      · rw [if_neg hx] at hsign
        rw [Bool.eq_false_iff.mpr hx, decide_eq_false_iff_not]
        omega
    rw [realOfInt, hneg, Double.nearest_eq hfinite hbits]

theorem plain_same {n : Number} (h : n.Exact) : (n.plain.same n) = true := by
  obtain ⟨hfinite, hkind⟩ := h
  have hself := Double.beq_self hfinite
  by_cases hi : n.isInteger = true
  · rw [if_pos hi, Option.isSome_iff_exists] at hkind
    obtain ⟨k, hk⟩ := hkind
    have hvalue : (realOfInt k == n.value) = true := by
      rcases realOfInt_integral hk with heq | ⟨-, hbeq⟩
      · rw [heq]
        exact hself
      · exact hbeq
    rw [plain_word hi (Double.abs_lt_of_integral hk), Double.truncate_integral hk, same, hvalue, hi]
    simp
  · rw [if_neg hi] at hkind
    rw [plain_real (Bool.eq_false_iff.mpr hi), same, hself, hkind, Bool.eq_false_iff.mpr hi]
    simp

theorem text_word {n : Number} (hi : n.isInteger = true) (h : n.value.abs < realOfInt wordLimit) :
    n.text = match n.radix with
      | .decimal => toString (truncate n.value).toInt
      | .hex => constant 'H' 16 (truncate n.value).toInt
      | .binary => constant 'B' 2 (truncate n.value).toInt := by
  cases hr : n.radix <;> simp [text, hi, h, hr]

theorem denotes_word {n : Number} (hf : n.value.isFinite = true) (hi : n.isInteger = true)
    (h : n.value.abs < realOfInt wordLimit) : Denotes n.text.toList n.plain := by
  obtain ⟨hlt, -⟩ := Double.integral_truncate hf h
  rw [text_word hi h, plain_word hi h]
  generalize (truncate n.value).toInt = k at hlt
  have hof : ∀ {spelling text : List Char}, Spelling spelling text →
      literal text = some ⟨realOfInt k.natAbs, true, n.radix⟩ →
      Denotes ((if k < 0 then ['-'] else []) ++ spelling) ⟨realOfInt k, true, n.radix⟩ := by
    intro spelling text hs hl
    have hplain : Number.mk (realOfInt k) true n.radix =
        if k < 0 then Number.negate ⟨realOfInt k.natAbs, true, n.radix⟩
        else ⟨realOfInt k.natAbs, true, n.radix⟩ := by
      rw [realOfInt_sign k]
      by_cases hk : k < 0
      · rw [if_pos hk, if_pos hk, negate]
      · rw [if_neg hk, if_neg hk]
    rw [hplain]
    exact .signed (k < 0) hs hl
  have hconstant : ∀ (mark : Char) (radix : Nat),
      (constant mark radix k).toList = (if k < 0 then ['-'] else []) ++
        '\x27' :: ((mark :: digits radix k.natAbs) ++ ['\x27']) := by
    intro mark radix
    by_cases hk : k < 0
    · simp [constant, hk]
    · simp [constant, hk]
  cases hr : n.radix with
  | decimal =>
    simp only [toString_int]
    rw [hr] at hof
    exact hof (.digits (digits_ne_nil 10 _) (fun c hc => isDigit_mem_digits hc))
      (literal_digits hlt)
  | hex =>
    simp only [hconstant]
    rw [hr] at hof
    exact hof (.constant (constant_content (by decide) (by decide) (by decide)) (by simp))
      (literal_hex hlt)
  | binary =>
    simp only [hconstant]
    rw [hr] at hof
    exact hof (.constant (constant_content (by decide) (by decide) (by decide)) (by simp))
      (literal_binary hlt)

theorem text_beyond {n : Number} {m : Nat} {e : Int} (hi : n.isInteger = true)
    (h : ¬ n.value.abs < realOfInt wordLimit) (hmag : magnitude n.value = .finite m e) :
    n.text.toList = (if isNegative n.value then ['-'] else []) ++ digits 10 (m * 2 ^ e.toNat) := by
  have he : (-e).toNat = 0 := by
    rw [Double.abs_lt_wordLimit_iff hmag] at h
    omega
  have hround (k : Nat) : roundDiv k 1 = k := by
    simp [roundDiv, Nat.mod_one]
  have hdigits : ((Decimal.ofBinary m e).roundTo 0).fixedText = digits 10 (m * 2 ^ e.toNat) := by
    simp only [Decimal.ofBinary, Decimal.roundTo, he]
    show Decimal.fixedText ⟨roundDiv (m * twoTo e.toNat * 1 * 1) 1, 0⟩ = _
    rw [hround, Decimal.fixedText, Decimal.layout, Decimal.fraction, if_pos rfl, if_pos rfl,
      Decimal.whole, twoTo_eq, Nat.mul_one, Nat.mul_one]
    show digits 10 (m * 2 ^ e.toNat / 1) = _
    rw [Nat.div_one]
  simp only [text, hi, h, Bool.not_true, Bool.false_eq_true, if_false, decide_false, Bool.not_false,
    if_true, placesText, signedText, hmag, hdigits, String.toList_ofList]

theorem denotes_beyond {n : Number} (hf : n.value.isFinite = true) (hi : n.isInteger = true)
    (h : ¬ n.value.abs < realOfInt wordLimit) : Denotes n.text.toList n.plain := by
  obtain ⟨m, e, hmag⟩ := Double.magnitude_of_isFinite hf
  obtain ⟨hc, -⟩ := Double.magnitude_finite hmag
  rw [text_beyond hi h hmag, plain_beyond hi h]
  rw [Double.abs_lt_wordLimit_iff hmag] at h
  have hm : 0 < m := by
    have := hc.normal
    omega
  have hvalue : (m : ℚ) * 2 ^ e = (m * 2 ^ e.toNat : Nat) := by
    rw [Double.two_zpow, show (-e).toNat = 0 by omega]
    push_cast
    rw [pow_zero, div_one]
  have hx := Double.realOfDecimal_exact hmag hm hvalue
  have hdigits : ∀ c ∈ digits 10 (m * 2 ^ e.toNat), c.isDigit = true :=
    fun c hc => isDigit_mem_digits hc
  have hne := digits_ne_nil 10 (m * 2 ^ e.toNat)
  have hl : literal (digits 10 (m * 2 ^ e.toNat)) =
      some ⟨realOfDecimal false (m * 2 ^ e.toNat) 0, true, .decimal⟩ := by
    have hread := readReal_integer hne hdigits
    rw [ofDigits_digits (by decide) (by decide)] at hread
    have hpoint : (digits 10 (m * 2 ^ e.toNat)).contains '.' = false := by
      apply not_contains_point
      rintro c hc rfl
      exact absurd (hdigits _ hc) (by decide)
    rw [literal_decimal (fun c hc => hdigits c (List.mem_of_mem_head? hc)) hread hne, hpoint]
    rfl
  have hd := Denotes.signed (isNegative n.value = true) (.digits hne hdigits) hl
  by_cases hneg : isNegative n.value = true
  · rw [if_pos hneg] at hx hd ⊢
    rw [if_pos hneg, negate, hx] at hd
    exact hd
  · rw [if_neg hneg] at hx hd ⊢
    rw [if_neg hneg, hx] at hd
    exact hd

end Number

theorem realText_toList {x : Float} {m : Nat} {e : Int} (h : magnitude x = .finite m e) :
    (realText x).toList = (if isNegative x then ['-'] else []) ++
      Decimal.layout (Decimal.shortest m e).whole (Decimal.shortest m e).shortFraction := by
  simp only [realText, signedText, h, String.toList_ofList]
  rfl

theorem literal_point {m : Nat} {e : Int} :
    literal ((Decimal.shortest m e).whole ++ '.' :: (Decimal.shortest m e).shortFraction) =
      some ⟨Double.unsigned m e, false, .decimal⟩ := by
  have hwhole : ∀ c ∈ (Decimal.shortest m e).whole, c.isDigit = true :=
    fun c hc => isDigit_mem_digits hc
  have hne : (Decimal.shortest m e).whole ≠ [] := digits_ne_nil 10 _
  have hread : readReal (String.ofList ((Decimal.shortest m e).whole ++ '.' ::
      (Decimal.shortest m e).shortFraction)) = some (Double.unsigned m e) :=
    readReal_point hne hwhole (fun c hc => Decimal.isDigit_mem_shortFraction hc)
  obtain ⟨c, cs, hcs⟩ := List.exists_cons_of_ne_nil hne
  have hhead : ∀ d ∈ ((Decimal.shortest m e).whole ++ '.' ::
      (Decimal.shortest m e).shortFraction).head?, d.isDigit = true := by
    rw [hcs]
    rintro _ ⟨⟩
    exact hwhole c (hcs ▸ List.mem_cons_self)
  rw [literal_decimal hhead hread (by simp)]
  simp

theorem denotes_realText {x : Float} (h : x.isFinite = true) :
    ∃ n : Number, Denotes (realText x).toList n ∧ n.value = x := by
  obtain ⟨m, e, hm⟩ := Double.magnitude_of_isFinite h
  have hx := Double.unsigned_eq hm
  have hwhole : ∀ c ∈ (Decimal.shortest m e).whole, c.isDigit = true :=
    fun c hc => isDigit_mem_digits hc
  have hne : (Decimal.shortest m e).whole ≠ [] := digits_ne_nil 10 _
  have hof : ∀ {spelling : List Char} {u : Number}, Spelling spelling spelling →
      literal spelling = some u → u.value = Double.unsigned m e →
      ∃ n : Number, Denotes ((if isNegative x then ['-'] else []) ++ spelling) n ∧ n.value = x := by
    intro spelling u hs hl hu
    refine ⟨_, .signed (isNegative x = true) hs hl, ?_⟩
    by_cases hneg : isNegative x = true
    · rw [if_pos hneg] at hx
      rw [if_pos hneg, Number.negate, hu, hx]
    · rw [if_neg hneg] at hx
      rw [if_neg hneg, hu, hx]
  rw [realText_toList hm, Decimal.layout]
  by_cases hnil : (Decimal.shortest m e).shortFraction = []
  · rw [if_pos hnil]
    have hread := readReal_integer hne hwhole
    apply hof (.digits hne hwhole)
      (literal_decimal (fun c hc => hwhole c (List.mem_of_mem_head? hc)) hread hne)
    simp [Double.unsigned, hnil]
  · rw [if_neg hnil]
    exact hof (.point hne hwhole (fun c hc => Decimal.isDigit_mem_shortFraction hc)) literal_point
      rfl

namespace Number

theorem text_real {n : Number} {m : Nat} {e : Int} (hi : n.isInteger = false)
    (h : magnitude n.value = .finite m e) :
    n.text.toList = (if isNegative n.value then ['-'] else []) ++
      ((Decimal.shortest m e).whole ++ '.' :: (Decimal.shortest m e).shortFraction) := by
  have hiff := Double.shortFraction_iff h
  simp only [text, hi, Bool.not_false, if_true]
  split
  · rename_i hwhole
    rw [String.toList_append, realText_toList h, Decimal.layout, hiff.mpr hwhole, if_pos rfl,
      List.append_assoc]
    rfl
  · rename_i hwhole
    rw [realText_toList h, Decimal.layout, if_neg (fun hnil => hwhole (hiff.mp hnil))]

theorem denotes_real {n : Number} (hf : n.value.isFinite = true) (hi : n.isInteger = false) :
    Denotes n.text.toList n.plain := by
  obtain ⟨m, e, hm⟩ := Double.magnitude_of_isFinite hf
  have hx := Double.unsigned_eq hm
  have hspelling := Spelling.point (digits_ne_nil 10 _ : (Decimal.shortest m e).whole ≠ [])
    (fun c hc => isDigit_mem_digits hc)
    (fun c hc => Decimal.isDigit_mem_shortFraction (d := Decimal.shortest m e) hc)
  rw [text_real hi hm, plain_real hi]
  have hd := Denotes.signed (isNegative n.value = true) hspelling literal_point
  by_cases hneg : isNegative n.value = true
  · rw [if_pos hneg] at hx hd ⊢
    rw [if_pos hneg, negate, hx] at hd
    exact hd
  · rw [if_neg hneg] at hx hd ⊢
    rw [if_neg hneg, hx] at hd
    exact hd

theorem denotes_text {n : Number} (h : n.value.isFinite = true) :
    Denotes n.text.toList n.plain := by
  by_cases hi : n.isInteger = true
  · by_cases hword : n.value.abs < realOfInt wordLimit
    · exact denotes_word h hi hword
    · exact denotes_beyond h hi hword
  · exact denotes_real h (Bool.eq_false_iff.mpr hi)

theorem text_plain {n : Number} (h : n.value.isFinite = true) : n.plain.text = n.text := by
  by_cases hi : n.isInteger = true
  · by_cases hword : n.value.abs < realOfInt wordLimit
    · obtain ⟨-, hint⟩ := Double.integral_truncate h hword
      have hplain := text_word (n := ⟨realOfInt (truncate n.value).toInt, true, n.radix⟩) rfl
        (Double.abs_lt_of_integral hint)
      rw [plain_word hi hword, text_word hi hword, hplain, Double.truncate_integral hint]
    · rw [plain_beyond hi hword]
      simp only [text, hi, hword, Bool.not_true, Bool.false_eq_true, if_false, decide_false,
        Bool.not_false, if_true]
  · rw [plain_real (Bool.eq_false_iff.mpr hi)]
    simp only [text, Bool.eq_false_iff.mpr hi, Bool.not_false, if_true]

/-- The forms of a number behind a letter: digits, which go with the letter; a token that
does not; or a sign and a token. -/
theorem text_cases {n : Number} (h : n.value.isFinite = true) (hfits : n.Fits) :
    (∃ k : Nat, k < wordLimit ∧ n.text.toList = digits 10 k ∧
        n.plain = ⟨realOfInt k, true, .decimal⟩) ∨
      (∃ text, Spelling n.text.toList text ∧ literal text = some n.plain ∧
        (text.contains '.' = true ∨ ∀ c ∈ text.head?, c.isDigit = false)) ∨
      ∃ spelling text u, n.text.toList = '-' :: spelling ∧ Spelling spelling text ∧
        literal text = some u ∧ n.plain = u.negate := by
  have hd := denotes_text h
  generalize htext : n.text.toList = text at hd ⊢
  generalize hplain : n.plain = m at hd ⊢
  cases hd with
  | negative hs hl => exact .inr (.inr ⟨_, _, _, rfl, hs, hl, rfl⟩)
  | plain hs hl =>
    cases hs with
    | constant hc hmark => exact .inr (.inl ⟨_, .constant hc hmark, hl, .inr hmark⟩)
    | point hne hw hf => exact .inr (.inl ⟨_, .point hne hw hf, hl, .inl (by simp)⟩)
    | digits hne hw =>
      left
      obtain ⟨m', e, hm⟩ := Double.magnitude_of_isFinite h
      by_cases hi : n.isInteger = true
      · have hsign : '-' ∉ text := fun hs => absurd (hw _ hs) (by decide)
        have hword : n.value.abs < realOfInt wordLimit := by
          by_contra hword
          have hneg : isNegative n.value = true := by
            rw [← Bool.not_eq_false]
            exact fun hneg => hword (hfits hi hneg)
          rw [text_beyond hi hword hm, if_pos hneg] at htext
          exact hsign (htext ▸ List.mem_cons_self)
        obtain ⟨hlt, -⟩ := Double.integral_truncate h hword
        have hmark : '\x27' ∉ text := fun hm => absurd (hw _ hm) (by decide)
        rw [text_word hi hword] at htext
        rw [← hplain, plain_word hi hword]
        generalize (truncate n.value).toInt = k at hlt htext
        cases hr : n.radix with
        | decimal =>
          simp only [hr, toString_int] at htext
          by_cases hneg : k < 0
          · rw [if_pos hneg] at htext
            exact absurd (htext ▸ List.mem_cons_self) hsign
          · rw [if_neg hneg, List.nil_append] at htext
            refine ⟨k.natAbs, hlt, htext.symm, ?_⟩
            rw [show ((k.natAbs : Nat) : Int) = k by omega]
        | hex =>
          simp only [hr] at htext
          exact absurd (htext ▸ by simp [constant]) hmark
        | binary =>
          simp only [hr] at htext
          exact absurd (htext ▸ by simp [constant]) hmark
      · rw [text_real (Bool.eq_false_iff.mpr hi) hm] at htext
        exact absurd (hw '.' (htext ▸ by simp)) (by decide)

end Number

end PartProgram
