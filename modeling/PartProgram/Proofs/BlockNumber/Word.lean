import PartProgram.Expr.Reader
import PartProgram.Proofs.LetterCase.Letter
import PartProgram.Proofs.RoundTrip.Spelling

/-!
# The word of a block number

The number of a block is a letter with digits behind it, which is first read as a variable.
The digits pass through a double, where no integer below `2 ^ 53` is rounded and no larger
one is rounded to one of these.
-/

set_option autoImplicit false

namespace PartProgram

namespace Double

theorem integral_small {n : Nat} (h : n < 2 ^ 53) : integral? (realOfInt n) = some (n : Int) := by
  obtain ⟨m, e, hc, hvalue⟩ := exists_canonical h
  exact integral_realOfInt hc (by simpa using hvalue) (by simp only [Int.natAbs_natCast]; omega)

theorem div_le_roundDiv (num den : Nat) : num / den ≤ roundDiv num den := by
  unfold roundDiv
  simp only []
  split
  · exact Nat.le_refl _
  · split <;> omega

theorem nearestBits_large {n : Nat} (h : 2 ^ 53 ≤ n) : 1076 * 2 ^ 52 ≤ nearestBits n 1 := by
  obtain ⟨hlow, hhigh⟩ := floorLog_spec (by omega : 0 < n) Nat.one_pos
  rw [Nat.cast_one, div_one] at hlow hhigh
  have hlog : 53 < floorLog n 1 + 1 := by
    apply two_zpow_lt_iff.mp (lt_of_le_of_lt _ hhigh)
    exact_mod_cast h
  obtain ⟨k, hk⟩ : ∃ k : Nat, floorLog n 1 = k + 53 := ⟨(floorLog n 1 - 53).toNat, by omega⟩
  have hexp : max (-1074) (floorLog n 1 - 52) = ((k + 1 : Nat) : Int) := by omega
  have hmantissa : 2 ^ 52 ≤ n / 2 ^ (k + 1) := by
    rw [Nat.le_div_iff_mul_le (by positivity), ← pow_add]
    rw [hk, show ((k : Int) + 53) = ((52 + (k + 1) : Nat) : Int) by omega, zpow_natCast] at hlow
    exact_mod_cast hlow
  have hround := hmantissa.trans (div_le_roundDiv n (2 ^ (k + 1)))
  have hdown : (-((k + 1 : Nat) : Int)).toNat = 0 := by omega
  have hup : (((k + 1 : Nat) : Int) + 1074).toNat = k + 1075 := by omega
  rw [nearestBits, if_neg (by omega)]
  simp only [hexp, hdown, hup, twoTo_eq, pow_zero, Nat.mul_one, Nat.one_mul, Int.toNat_natCast]
  generalize roundDiv n (2 ^ (k + 1)) = mantissa at hround
  omega

theorem exponent_large {negative : Bool} {n m : Nat} {e : Int} (h : 2 ^ 53 ≤ n)
    (hmag : magnitude (nearest negative n 1) = .finite m e) : 1 ≤ e := by
  obtain ⟨hc, hbits⟩ := magnitude_finite hmag
  have hinf : nearestBits n 1 ≠ 2047 * 2 ^ 52 := by
    intro heq
    have hlimit : magnitude (Float.ofBits (UInt64.ofNat
        ((if negative then twoTo 63 else 0) + 2047 * 2 ^ 52))) = .infinite := by
      cases negative <;> decide +kernel
    rw [nearest, heq, hlimit] at hmag
    cases hmag
  have hle := nearestBits_le n 1
  have hlarge := nearestBits_large h
  have hmantissa := hc.mantissa
  rw [toBits_nearest_of_ne hinf, bitsOf] at hbits
  cases negative <;> simp only [Bool.false_eq_true, if_false, if_true] at hbits <;> omega

theorem eq_of_integral_realOfInt {k n : Nat} (h : integral? (realOfInt k) = some (n : Int))
    (hn : n < 2 ^ 53) : k = n := by
  rcases Nat.lt_or_ge k (2 ^ 53) with hk | hk
  · rw [integral_small hk] at h
    exact_mod_cast Option.some.inj h
  · exfalso
    obtain ⟨m, e, hmag, hvalue, -⟩ := integral_value h
    obtain ⟨hc, -⟩ := magnitude_finite hmag
    rw [realOfInt, Int.natAbs_natCast] at hmag
    -- The exponent is that of `2 ^ 53` at least, and then the mantissa is a full one.
    have he : 1 ≤ e := exponent_large hk hmag
    have hm : 2 ^ 52 ≤ m := hc.normal.resolve_right (by omega)
    have hbig : (2 : ℚ) ^ 53 ≤ (m : ℚ) * 2 ^ e := by
      have hpow : (2 : ℚ) ^ (1 : Int) ≤ 2 ^ e := zpow_le_zpow_right₀ one_le_two he
      have hm' : (2 : ℚ) ^ 52 ≤ m := by exact_mod_cast hm
      rw [zpow_one] at hpow
      have hprod : (2 : ℚ) ^ 52 * 2 ≤ (m : ℚ) * 2 ^ e :=
        mul_le_mul hm' hpow (by norm_num) (by positivity)
      rwa [← pow_succ] at hprod
    rw [hvalue, Int.natAbs_natCast] at hbig
    have : 2 ^ 53 ≤ n := by exact_mod_cast hbig
    omega

end Double

/-- The digits of the word `N100` with which a line begins. -/
def numberWord? (line : List Char) : Option (List Char) :=
  match line.dropWhile isBlank with
  | [] => none
  | letter :: cs =>
    if letter.toUpper = 'N' ∧ cs.takeWhile Char.isDigit ≠ [] ∧
        (cs.dropWhile Char.isDigit).head? ≠ some '.' then
      some (cs.takeWhile Char.isDigit)
    else none

theorem eq_of_toUpper_n {c : Char} (h : c.toUpper = 'N') : c = 'N' ∨ c = 'n' := by
  rcases toUpper_cases c with hc | ⟨-, -, hc⟩
  · exact .inl (hc.symm.trans h)
  · rw [h] at hc
    exact .inr (Char.toNat_inj.mp hc.symm)

theorem numberWord?_some {line ds : List Char} (h : numberWord? line = some ds) :
    ∃ letter rest, line.dropWhile isBlank = letter :: (ds ++ rest) ∧
      (letter = 'N' ∨ letter = 'n') ∧ ds ≠ [] ∧ (∀ c ∈ ds, c.isDigit = true) ∧
      NumberEnds rest := by
  unfold numberWord? at h
  split at h
  · cases h
  · rename_i letter cs hdrop
    split at h
    · rename_i hword
      cases h
      refine ⟨letter, cs.dropWhile Char.isDigit, ?_, eq_of_toUpper_n hword.1, hword.2.1, ?_, ?_⟩
      · rw [List.takeWhile_append_dropWhile]
        exact hdrop
      · exact fun c hc => List.all_eq_true.mp List.all_takeWhile c hc
      · intro c hc
        refine ⟨?_, fun hp => hword.2.2 (hp ▸ hc)⟩
        have hhead := List.head?_dropWhile_not Char.isDigit cs
        rw [Option.mem_def.mp hc] at hhead
        simpa using hhead
    · cases h

namespace Scan

theorem lexeme_name (d : Dialect) {c : Char} (h : isNameChar c = true) (cs : List Char) :
    lexeme d c cs = name (c :: cs) := by
  obtain ⟨-, hl, hs, hp⟩ := ne_of_isNameChar h
  simp [lexeme, hl, hs, hp, h]

theorem lexeme_number (d : Dialect) {c : Char} (h : c.isDigit = true) (cs : List Char) :
    lexeme d c cs = number (c :: cs) := by
  obtain ⟨-, hl, hs, hp, hn, hq⟩ := ne_of_isDigit h
  simp [lexeme, hl, hs, hp, hn, hq, h]

end Scan

namespace Reader

variable {d : Dialect} {letter : Char} {ds rest : List Char} {line : Nat}

theorem advance_letter (d : Dialect) (line : Nat) (hletter : letter = 'N' ∨ letter = 'n')
    (hne : ds ≠ []) (hds : ∀ c ∈ ds, c.isDigit = true) {cs : List Char}
    (hcs : cs.dropWhile isBlank = letter :: (ds ++ rest)) :
    ∃ spaced, ∀ held, advance d ⟨cs, line, held⟩ =
      .ok () ⟨ds ++ rest, line, some ⟨.identifier, String.ofList [letter], spaced, line⟩⟩ := by
  have hname : Scan.isNameChar letter = true := by rcases hletter with rfl | rfl <;> decide
  have hop : Scan.isOperatorName [letter] = false := by rcases hletter with rfl | rfl <;> decide
  obtain ⟨digit, more, rfl⟩ := List.exists_cons_of_ne_nil hne
  have hlexeme : Scan.lexeme d letter (digit :: more ++ rest) =
      .found .identifier [letter] (digit :: more ++ rest) := by
    rw [Scan.lexeme_name d hname]
    refine (Scan.name_letter (hds digit List.mem_cons_self) hname (more ++ rest)).trans ?_
    rw [hop]
    rfl
  refine ⟨isBlank (cs.headD letter), fun held => ?_⟩
  simp only [advance, Scan.next, hcs, hlexeme]
  rfl

theorem advance_digits (hne : ds ≠ []) (hds : ∀ c ∈ ds, c.isDigit = true)
    (hrest : NumberEnds rest) (spaced : Bool) (held : Option Token) :
    advance d ⟨lead spaced ++ (ds ++ rest), line, held⟩ =
      .ok () ⟨rest, line, some ⟨.number, String.ofList ds, spaced, line⟩⟩ := by
  obtain ⟨digit, more, rfl⟩ := List.exists_cons_of_ne_nil hne
  have hdigit := hds digit List.mem_cons_self
  have hblank : isBlank digit = false := (Scan.ne_of_isDigit hdigit).1
  have hlexeme : Scan.lexeme d digit (more ++ rest) = .found .number (digit :: more) rest := by
    rw [Scan.lexeme_number d hdigit]
    exact Scan.number_digits hds hrest
  have hdrop : (lead spaced ++ (digit :: more ++ rest)).dropWhile isBlank =
      digit :: (more ++ rest) := by
    have hspace : isBlank ' ' = true := rfl
    cases spaced <;> simp [lead, hblank, hspace]
  have hhead : isBlank ((lead spaced ++ (digit :: more ++ rest)).headD digit) = spaced := by
    cases spaced
    · exact hblank
    · rfl
  simp only [advance, Scan.next, hdrop, hlexeme, hhead]
  rfl

theorem variableOrCall_digits (hletter : letter = 'N' ∨ letter = 'n') (hne : ds ≠ [])
    (hds : ∀ c ∈ ds, c.isDigit = true) (hrest : NumberEnds rest) (expression : Reader Expr)
    (ahead : List Char) (held : Option Token) :
    variableOrCall d (String.ofList [letter]) expression ahead ⟨ds ++ rest, line, held⟩ =
      (do
        advance d
        if (← get).holds .fieldBrace "[" then
          return .var (String.ofList (letter :: ds)) (some (← braced d .field expression ahead))
        else return .var (String.ofList (letter :: ds)) none : Reader Expr)
        ⟨rest, line, some ⟨.number, String.ofList ds, false, line⟩⟩ := by
  obtain ⟨digit, more, rfl⟩ := List.exists_cons_of_ne_nil hne
  have hdigit := hds digit List.mem_cons_self
  have hsize : (String.ofList [letter]).utf8ByteSize = 1 := by
    rcases hletter with rfl | rfl <;> decide
  have hpoint : (digit :: more).contains '.' = false := by
    rw [Bool.eq_false_iff, ne_eq, List.contains_iff_mem]
    intro hmem
    cases hds _ hmem
  have hglued : gluedDigits d (String.ofList [letter])
      ⟨rest, line, some ⟨.number, String.ofList (digit :: more), false, line⟩⟩ =
      (do
        advance d
        return String.ofList (letter :: digit :: more) : Reader String)
        ⟨rest, line, some ⟨.number, String.ofList (digit :: more), false, line⟩⟩ := by
    simp only [gluedDigits, run_get, hsize, Token.isDecimal, String.toList_ofList, List.head?_cons,
      Option.map_some, Option.getD_some, hdigit, hpoint]
    rw [show String.ofList [letter] ++ String.ofList (digit :: more) =
      String.ofList (letter :: digit :: more) by simp]
    rfl
  have hround : Cursor.holds .brace "("
      ⟨rest, line, some ⟨.number, String.ofList (digit :: more), false, line⟩⟩ = false := by
    simp [Cursor.holds, Token.is]
  have hdigits : advance d ⟨digit :: more ++ rest, line, held⟩ =
      .ok () ⟨rest, line, some ⟨.number, String.ofList (digit :: more), false, line⟩⟩ :=
    advance_digits hne hds hrest false held
  rw [variableOrCall, run_bind, hdigits]
  simp only [run_get, hround, Bool.false_eq_true, if_false]
  rw [run_bind, hglued, run_bind, run_bind]
  cases advance d ⟨rest, line, some ⟨.number, String.ofList (digit :: more), false, line⟩⟩ <;> rfl

end Reader

end PartProgram
