import PartProgram.Proofs.BlockNumber
import PartProgram.Proofs.RoundTrip
import PartProgram.Proofs.SignedWord

/-!
# Number literals

A number that was read is written and read again. Its text keeps whether it is an integer, and it
keeps the radix of an integer below `2 ^ 63`; all other numbers are written in decimal. The value
is kept if an integer is one. An integer that is written without quotes always is, since the
double nearest to an integer has no fraction, and so is a constant in another radix. A quoted
decimal constant need not be: it may have a negative exponent, and no point.
-/

set_option autoImplicit false

namespace PartProgram

namespace Double

variable {x : Float}

/-- The double nearest to an integer of either sign. -/
def Rounded (x : Float) : Prop := ∃ negative n, x = nearest negative n 1

theorem rounded_realOfInt (k : Int) : Rounded (realOfInt k) := ⟨_, _, rfl⟩

theorem rounded_realOfDecimal (negative : Bool) (n : Nat) :
    Rounded (realOfDecimal negative n 0) := by
  simp only [realOfDecimal]
  split
  · exact ⟨negative, 0, rfl⟩
  · split
    · exact ⟨negative, _, rfl⟩
    · exact ⟨negative, n * tenTo 0, rfl⟩

theorem Rounded.neg (h : Rounded x) : Rounded (-x) := by
  obtain ⟨negative, n, rfl⟩ := h
  exact ⟨!negative, n, neg_nearest_not negative n 1⟩

theorem magnitude_small (negative : Bool) {n : Nat} (h : n < 2 ^ 53) :
    ∃ m e, magnitude (nearest negative n 1) = .finite m e ∧ (m : ℚ) * 2 ^ e = n := by
  obtain ⟨m, e, hc, hvalue⟩ := exists_canonical h
  have hbits := nearestBits_exact hc hvalue
  have hmantissa := hc.mantissa
  have hhigh := hc.high
  have hle : nearestBits n 1 < 2047 * 2 ^ 52 := by
    rw [hbits, bitsOf]
    omega
  refine ⟨m, e, magnitude_of_bits hc ?_, hvalue⟩
  rw [toBits_nearest_of_ne (by omega), ← hbits]
  cases negative <;> simp only [Bool.false_eq_true, if_false, if_true] <;> omega

/-- Rounding an integer gives no fraction: below `2 ^ 53` it is exact, and from there on all
doubles are integers. -/
theorem Rounded.isWhole (h : Rounded x) (hf : x.isFinite = true) : isWhole x = true := by
  obtain ⟨negative, n, rfl⟩ := h
  rcases Nat.lt_or_ge n (2 ^ 53) with hn | hn
  · obtain ⟨m, e, hmag, hvalue⟩ := magnitude_small negative hn
    exact (isWhole_iff hmag).mpr ⟨n, hvalue⟩
  · obtain ⟨m, e, hmag⟩ := magnitude_of_isFinite hf
    have he : 1 ≤ e := exponent_large hn hmag
    obtain ⟨k, rfl⟩ : ∃ k : Nat, e = k := ⟨e.toNat, by omega⟩
    refine (isWhole_iff hmag).mpr ⟨m * 2 ^ k, ?_⟩
    push_cast
    rw [zpow_natCast]

theorem integral_of_isWhole (hf : x.isFinite = true) (hw : isWhole x = true)
    (h : x.abs < realOfInt wordLimit) : ∃ k, integral? x = some k := by
  obtain ⟨m, e, hmag⟩ := magnitude_of_isFinite hf
  obtain ⟨hc, -⟩ := magnitude_finite hmag
  obtain ⟨n, hvalue⟩ := (isWhole_iff hmag).mp hw
  refine ⟨_, integral_of_value hmag hvalue ?_⟩
  have he : e ≤ 10 := by
    have hnormal := hc.normal
    rw [abs_lt_wordLimit_iff hmag] at h
    omega
  have hlt : (m : ℚ) * 2 ^ e < 2 ^ 63 := by
    have hm : (m : ℚ) < 2 ^ 53 := by exact_mod_cast hc.mantissa
    have hpow : (2 : ℚ) ^ e ≤ 2 ^ (10 : Int) := zpow_le_zpow_right₀ one_le_two he
    have hpos : (0 : ℚ) < 2 ^ e := zpow_pos two_pos e
    calc (m : ℚ) * 2 ^ e < 2 ^ 53 * 2 ^ e := by gcongr
      _ ≤ 2 ^ 53 * 2 ^ (10 : Int) := by gcongr
      _ = 2 ^ 63 := by norm_num
  rw [hvalue] at hlt
  exact_mod_cast hlt

end Double

theorem Number.plain_value {n : Number} (hf : n.value.isFinite = true)
    (hw : n.isInteger = true → isWhole n.value = true) : (n.plain.value == n.value) = true := by
  have hself := Double.beq_self hf
  cases hi : n.isInteger with
  | false => rwa [plain_real hi]
  | true =>
    by_cases hword : n.value.abs < realOfInt wordLimit
    · obtain ⟨k, hk⟩ := Double.integral_of_isWhole hf (hw hi) hword
      rw [plain_word hi hword, Double.truncate_integral hk]
      rcases realOfInt_integral hk with heq | ⟨-, hbeq⟩
      · rwa [heq]
      · exact hbeq
    · rwa [plain_beyond hi hword]

theorem Number.plain_isInteger (n : Number) : n.plain.isInteger = n.isInteger := by
  unfold plain
  split
  · rfl
  · split <;> rfl

theorem Number.plain_radix (n : Number) : n.plain.radix =
    if n.isInteger = true ∧ n.value.abs < realOfInt wordLimit then n.radix else .decimal := by
  cases hi : n.isInteger with
  | false => rw [plain_real hi, if_neg (by simp)]
  | true =>
    by_cases hword : n.value.abs < realOfInt wordLimit
    · rw [plain_word hi hword, if_pos ⟨rfl, hword⟩]
    · rw [plain_beyond hi hword, if_neg (fun h => hword h.2)]

namespace Token

def Unquoted (t : Token) : Prop :=
  t.kind = .number → ∀ c ∈ t.text.toList, c.isDigit = true ∨ c = '.'

variable {t : Token} {n : Number}

theorem literal_rounded (hk : t.kind = .number) (h : t.literal? = some n)
    (hi : n.isInteger = true) (hq : n.radix ≠ .decimal ∨ t.Unquoted) :
    Double.Rounded n.value := by
  obtain ⟨value, mark, hvalue, hmark, rfl⟩ := literal_eq_some h
  obtain ⟨cs, htext⟩ : ∃ cs, t.text.toList = mark :: cs := by
    cases htext : t.text.toList with
    | nil => simp [htext] at hmark
    | cons c cs =>
      simp only [htext, List.head?_cons, Option.some.injEq] at hmark
      exact ⟨cs, by rw [hmark]⟩
  simp only [number?, if_pos hk, htext] at hvalue
  cases hradix : Radix.ofMark mark with
  | hex | binary =>
    simp only [hradix, Option.map_eq_some_iff] at hvalue
    obtain ⟨k, -, rfl⟩ := hvalue
    exact Double.rounded_realOfInt k
  | decimal =>
    have hdigits : ∀ c ∈ t.text.toList, c.isDigit = true := by
      intro c hc
      refine (hq.resolve_left (fun hne => hne hradix) hk c hc).resolve_right ?_
      rintro rfl
      simp only [Bool.not_eq_true', List.contains_eq_mem, decide_eq_false_iff_not] at hi
      exact hi hc
    simp only [hradix] at hvalue
    rw [← String.ofList_toList (s := t.text), readReal_integer (by simp [htext]) hdigits] at hvalue
    cases hvalue
    exact Double.rounded_realOfDecimal false _

end Token

theorem SpellsNumber.rounded {ts : List Token} {n : Number} {next : Option Token}
    (h : SpellsNumber ts n next) (hi : n.isInteger = true)
    (hq : n.radix ≠ .decimal ∨ ∀ t ∈ ts, t.Unquoted) : Double.Rounded n.value := by
  cases h with
  | plain hk hvalue =>
    exact Token.literal_rounded hk hvalue hi (hq.imp_right (fun h => h _ List.mem_cons_self))
  | scaled => cases hi

theorem SpellsOperand.rounded {ts : List Token} {n : Number} {next : Option Token}
    (h : SpellsOperand ts (.num n) next) (hi : n.isInteger = true)
    (hq : n.radix ≠ .decimal ∨ ∀ t ∈ ts, t.Unquoted) : Double.Rounded n.value := by
  cases h with
  | num h => exact h.rounded hi hq

theorem UnaryOp.apply_num {op : UnaryOp} {e : Expr} {n : Number} (h : op.apply e = .num n) :
    ∃ m, e = .num m ∧ n = m.negate := by
  cases op <;> cases e <;> simp [UnaryOp.apply] at h
  exact ⟨_, rfl, h.symm⟩

theorem Spells.rounded : ∀ {ts : List Token} {e : Expr} {next : Option Token}, Spells ts e next →
    ∀ {n : Number}, e = .num n → n.isInteger = true →
      (n.radix ≠ .decimal ∨ ∀ t ∈ ts, t.Unquoted) → Double.Rounded n.value
  | _, _, _, .operand h, _, he, hi, hq => SpellsOperand.rounded (he ▸ h) hi hq
  | _, _, _, .plus _ h, _, he, hi, hq =>
    SpellsOperand.rounded (he ▸ h) hi
      (hq.imp_right (fun h t ht => h t (List.mem_cons_of_mem _ ht)))
  | _, _, _, .un _ h, _, he, hi, hq => by
    obtain ⟨m, hm, rfl⟩ := UnaryOp.apply_num he
    exact (h.rounded hm hi (hq.imp_right (fun h t ht => h t (List.mem_cons_of_mem _ ht)))).neg
  | _, _, _, .bin .., _, he, _, _ => by cases he

def Lexeme.Unquoted : Lexeme → Prop
  | found kind text _ => kind = .number → ∀ c ∈ text, c.isDigit = true ∨ c = '.'
  | fault .. => True

namespace Scan

theorem number_unquoted (cs : List Char) : (number cs).Unquoted := by
  have hdigit : ∀ {cs : List Char} {c : Char}, c ∈ cs.takeWhile Char.isDigit →
      c.isDigit = true :=
    fun hc => List.mem_takeWhile_imp hc
  unfold number
  simp only
  split
  · split
    · trivial
    · intro _ c hc
      rcases List.mem_append.mp hc with hc | hc
      · exact .inl (hdigit hc)
      · rcases List.mem_cons.mp hc with rfl | hc
        · exact .inr rfl
        · exact .inl (hdigit hc)
  · exact fun _ c hc => .inl (hdigit hc)

theorem unquoted_of_kind {kind : TokenKind} (h : kind ≠ .number) (text rest : List Char) :
    (Lexeme.found kind text rest).Unquoted :=
  fun hk => absurd hk h

theorem lexeme_unquoted {c : Char} (hc : c ≠ '\x27') (cs : List Char) :
    (lexeme {} c cs).Unquoted := by
  fun_cases lexeme {} c cs
  case case1 =>
    unfold lineEnd
    split
    · split <;> exact unquoted_of_kind (by decide) _ _
    · exact unquoted_of_kind (by decide) _ _
  case case3 h => simp at h
  case case4 =>
    unfold name
    simp only
    split <;> exact unquoted_of_kind (by decide) _ _
  case case5 h => exact absurd (beq_iff_eq.mp h) hc
  case case6 => exact number_unquoted _
  case case7 =>
    unfold delimited
    simp only
    split
    · split
      · exact unquoted_of_kind (by decide) _ _
      · trivial
    · trivial
  case case12 =>
    unfold operator
    split
    · split <;> exact unquoted_of_kind (by decide) _ _
    · exact unquoted_of_kind (by decide) _ _
  case case13 => trivial
  all_goals exact unquoted_of_kind (by decide) _ _

end Scan

/-- A position behind which there is no quote. -/
structure Cursor.Unquoted (c : Cursor) : Prop where
  held : ∀ t ∈ c.held, t.Unquoted
  unread : '\x27' ∉ c.unread

theorem Reader.advance_unquoted {c after : Cursor} (h : Reader.advance {} c = .ok () after)
    (hc : '\x27' ∉ c.unread) : after.Unquoted := by
  rcases Reader.advance_cases h with ⟨-, rfl⟩ | ⟨t, line, rest, hnext, rfl, -⟩
  · exact ⟨by simp, by simp⟩
  · refine ⟨?_, fun hmem => hc ((Scan.next_token_rest hnext).2.subset hmem)⟩
    rintro _ ⟨⟩
    simp only [Scan.next] at hnext
    split at hnext
    · cases hnext
    · rename_i first behind hdrop
      have hfirst : first ≠ '\x27' := by
        rintro rfl
        exact hc ((List.dropWhile_suffix _).subset (hdrop ▸ List.mem_cons_self))
      have hlexeme := Scan.lexeme_unquoted hfirst behind
      split at hnext
      · cases hnext
      · rename_i hl
        cases hnext
        rw [hl] at hlexeme
        simpa [Token.Unquoted, Lexeme.Unquoted] using hlexeme

theorem Cursor.Steps.unquoted {c after : Cursor} {ts : List Token} (h : c.Steps ts after)
    (hc : c.Unquoted) : ∀ t ∈ ts, t.Unquoted := by
  induction ts generalizing c with
  | nil => simp
  | cons t ts ih =>
    obtain ⟨hheld, -, next, hnext, hsteps⟩ := h
    have hnext := ih hsteps (Reader.advance_unquoted hnext hc.unread)
    exact List.forall_mem_cons.mpr ⟨hc.held t hheld, hnext⟩

theorem Expr.rounded_of_parse {text : String} {n : Number} (h : Expr.parse text = .ok (.num n))
    (hi : n.isInteger = true) (hq : n.radix ≠ .decimal ∨ '\x27' ∉ text.toList) :
    Double.Rounded n.value := by
  obtain ⟨ts, next, ⟨c, after, ha, hs, -, -⟩, hspells, -⟩ := spells_of_parse h
  exact hspells.rounded rfl hi (hq.imp_right
    (fun hq => hs.unquoted (Reader.advance_unquoted ha hq)))

/-- A number literal with a finite value is read again from its text: as an integer if it is one,
with its radix if it is one below `2 ^ 63` and else in decimal, and with the same value unless it
is a quoted decimal constant with a fraction but without a point. -/
theorem Expr.literal_read_back (text : String) (n : Number) (h : Expr.parse text = .ok (.num n))
    (hf : n.value.isFinite = true) :
    ∃ found, Expr.parse (Expr.num n).text = .ok (.num found) ∧ found.isInteger = n.isInteger ∧
      found.radix =
        (if n.isInteger = true ∧ n.value.abs < realOfInt wordLimit then n.radix else .decimal) ∧
      ((found.value == n.value) = true ∨ n.isInteger = true ∧ isWhole n.value = false ∧
        n.radix = .decimal ∧ '\x27' ∈ text.toList) := by
  have hsound : (Expr.num n).Sound := every_leaf rfl ⟨trivial, hf⟩
  refine ⟨n.plain, parse_sound hsound, n.plain_isInteger, n.plain_radix, ?_⟩
  by_cases hw : n.isInteger = true → isWhole n.value = true
  · exact .inl (n.plain_value hf hw)
  · obtain ⟨hi, hfraction⟩ := Classical.not_imp.mp hw
    have hnot : ¬ (n.radix ≠ .decimal ∨ '\x27' ∉ text.toList) := fun hq =>
      hfraction ((rounded_of_parse h hi hq).isWhole hf)
    rw [not_or, not_not, not_not] at hnot
    exact .inr ⟨hi, by simpa using hfraction, hnot⟩

def largestHex : Token := ⟨.number, "H7FFFFFFFFFFFFFFF", false, 1⟩

def roundedHex : Number := ⟨realOfInt wordLimit, true, .hex⟩

def minusFive : Number := ⟨-realOfInt 5, true, .binary⟩

theorem Expr.parse_minusFive : Expr.parse "-'B1 01'" = .ok (.num minusFive) := by
  have hline : FirstLine "-'B1 01'"
      [⟨.operator, "-", false, 1⟩, ⟨.number, "B1 01", false, 1⟩] none :=
    ⟨_, _, rfl, ⟨rfl, rfl, _, rfl, rfl, rfl, _, rfl, rfl⟩, rfl, rfl⟩
  have hfive : Token.literal? ⟨.number, "B1 01", false, 1⟩ =
      some ⟨realOfInt 5, true, .binary⟩ := by decide +kernel
  have hspells : Spells [⟨.operator, "-", false, 1⟩, ⟨.number, "B1 01", false, 1⟩]
      (UnaryOp.negate.apply (.num ⟨realOfInt 5, true, .binary⟩)) none :=
    .un (by decide) (.operand (.num (.plain rfl hfive (by simp))))
  exact parse_of_spells hline hspells (every_leaf rfl trivial)

theorem Expr.literal_read_back_minusFive : ∃ found,
    Expr.parse "-'B1 01'" = .ok (.num minusFive) ∧ minusFive.value.isFinite = true ∧
      Expr.parse (Expr.num minusFive).text = .ok (.num found) ∧ found.isInteger = true ∧
      found.radix = .binary ∧ (found.value == -5.0) = true := by
  have hfinite : minusFive.value.isFinite = true := by decide +kernel
  obtain ⟨found, hparse, hinteger, hradix, hvalue⟩ :=
    literal_read_back "-'B1 01'" minusFive parse_minusFive hfinite
  refine ⟨found, parse_minusFive, hfinite, hparse, hinteger, ?_, ?_⟩
  · rw [hradix, if_pos ⟨rfl, by decide +kernel⟩]
    rfl
  · have hfive : minusFive.value = -5.0 := by decide +kernel
    rcases hvalue with hvalue | ⟨-, -, hdecimal, -⟩
    · rwa [hfive] at hvalue
    · cases hdecimal

/-- The largest hexadecimal constant is rounded to `2 ^ 63`, which is written in decimal. -/
theorem Expr.literal_radix_lost : ∃ found,
    Expr.parse "'H7FFFFFFFFFFFFFFF'" = .ok (.num roundedHex) ∧
      roundedHex.value.isFinite = true ∧
      Expr.parse (Expr.num roundedHex).text = .ok (.num found) ∧ roundedHex.radix = .hex ∧
      found.radix = .decimal := by
  have hline : FirstLine "'H7FFFFFFFFFFFFFFF'" [largestHex] none :=
    ⟨_, _, rfl, ⟨rfl, rfl, _, rfl, rfl⟩, rfl, rfl⟩
  have hliteral : largestHex.literal? = some roundedHex := by decide +kernel
  have hfinite : roundedHex.value.isFinite = true := by decide +kernel
  have hbeyond : ¬ roundedHex.value.abs < realOfInt wordLimit := by decide +kernel
  refine ⟨roundedHex.plain, ?_, hfinite, parse_sound (every_leaf rfl ⟨trivial, hfinite⟩), rfl, ?_⟩
  · exact parse_of_spells hline (.operand (.num (.plain rfl hliteral (by simp))))
      (every_leaf rfl trivial)
  · rw [Number.plain_beyond rfl hbeyond]

end PartProgram
