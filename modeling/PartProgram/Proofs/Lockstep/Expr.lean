import PartProgram.Proofs.Lockstep.Token

/-!
# Expressions in lockstep

The readers of expressions agree at related positions, whatever number of characters
ahead they were given, if only it is enough.
-/

set_option autoImplicit false

namespace PartProgram

namespace Lockstep

variable {d : Dialect} {k : Nat} {R : Cursor → Cursor → Prop} {n m : Nat} {c c' : Cursor}

variable (L : Lockstep d k R)
include L

omit L in
theorem heldOperator_ended (h : c.inLine = none) : Reader.heldOperator c = .ok none c := by
  simp only [Reader.heldOperator, Reader.run_get, Reader.run_pure]
  rcases Cursor.ended_cases h with hh | ⟨t, hh, ht⟩
  · rw [hh]
    rfl
  · simp [hh, ht, Option.filter]

omit L in
theorem binaryOperator_ended (h : c.inLine = none) :
    Reader.binaryOperator d c = .ok none c := by
  simp only [Reader.binaryOperator, Reader.run_bind, heldOperator_ended h, Reader.run_pure]

omit L in
theorem operations_ended (op : Reader Expr) (ahead : List Char) (pending : Pending)
    (current : Expr) (h : c.inLine = none) :
    Reader.operations d op ahead pending current c = .ok (pending.unwind current) c := by
  cases ahead with
  | nil => rfl
  | cons _ ahead =>
    simp only [Reader.operations, Reader.run_bind, binaryOperator_ended h, Reader.run_pure]

/-- Operations agree if their operands do, given enough characters ahead. -/
theorem operations {F F' : Nat} {op op' : Reader Expr} (hop : Takes k R F F' op op')
    (ahead ahead' : List Char) (pending : Pending) (current : Expr) (h : R c c')
    (hF : c.size ≤ F) (hF' : c'.size ≤ F') (ha : c.size ≤ ahead.length)
    (ha' : c'.size ≤ ahead'.length) (hn : c.size ≤ n) (hm : c'.size ≤ m) :
    Same k R n m (Reader.operations d op ahead pending current c)
      (Reader.operations d op' ahead' pending current c') := by
  induction ahead generalizing ahead' pending current c c' n m with
  | nil =>
    have hc : c.inLine = none := Cursor.inLine_of_size_zero (by simpa using ha)
    have hc' : c'.inLine = none := (L.ended h).mpr hc
    rw [operations_ended op _ _ _ hc, operations_ended op' _ _ _ hc']
    exact Same.pure _ h hn hm
  | cons _ ahead ih =>
    cases ahead' with
    | nil =>
      have hc' : c'.inLine = none := Cursor.inLine_of_size_zero (by simpa using ha')
      have hc : c.inLine = none := (L.ended h).mp hc'
      rw [operations_ended op _ _ _ hc, operations_ended op' _ _ _ hc']
      exact Same.pure _ h hn hm
    | cons _ ahead' =>
      simp only [List.length_cons] at ha ha'
      simp only [Reader.operations]
      rcases L.binaryOperator (n := c.size - 1) (m := c'.size - 1) h (by omega) (by omega) with
        ⟨hb, hb'⟩ | hb
      · rw [Reader.run_bind, Reader.run_bind, hb, hb']
        exact Same.pure _ h hn hm
      · refine hb.bind (fun op c c' h h1 h2 => ?_)
        cases op with
        | none => exact Same.pure _ h (by omega) (by omega)
        | some op =>
          refine (hop.keeps h (by omega) (by omega) h1 h2).bind (fun e c c' h h1 h2 => ?_)
          exact ih _ _ _ h (by omega) (by omega) (by omega) (by omega) (by omega) (by omega)

theorem expressionOf {F F' : Nat} {op op' : Reader Expr} (hop : Takes k R F F' op op')
    {ahead ahead' : List Char} (ha : F ≤ ahead.length + 1) (ha' : F' ≤ ahead'.length + 1) :
    Takes k R F F' (Reader.expressionOf d op ahead) (Reader.expressionOf d op' ahead') := by
  intro n m c c' h hF hF' hn hm
  refine (hop (c.size - 1) (c'.size - 1) c c' h hF hF' (by omega) (by omega)).bind
    (fun e c c' h h1 h2 => ?_)
  exact L.operations hop _ _ _ _ h (by omega) (by omega) (by omega) (by omega) (by omega)
    (by omega)

omit L in
theorem slots_ended (b : Braces) (e : Reader Expr) (ahead : List Char) (h : c.inLine = none) :
    Reader.slots d b e ahead c = Reader.failWith b.unclosed c := by
  cases ahead with
  | nil => rfl
  | cons _ ahead =>
    have hk : b.kind ≠ .newLine := by cases b <;> decide
    have hb : c.holds b.kind b.closing = false := by rw [Cursor.holds_inLine _ _ hk, h]; rfl
    have hl : c.atLineEnd = true := by rw [Cursor.atLineEnd_inLine, h]; rfl
    simp only [Reader.slots, Reader.run_get, hb, hl, Bool.true_or, if_true, Bool.false_eq_true,
      if_false]

theorem slots {F F' : Nat} {e e' : Reader Expr} (he : Takes k R F F' e e') (b : Braces)
    (ahead ahead' : List Char) (h : R c c') (hF : c.size ≤ F) (hF' : c'.size ≤ F')
    (ha : c.size ≤ ahead.length) (ha' : c'.size ≤ ahead'.length) (hn : c.size ≤ n)
    (hm : c'.size ≤ m) :
    Same k R n m (Reader.slots d b e ahead c) (Reader.slots d b e' ahead' c') := by
  induction ahead generalizing ahead' c c' n m with
  | nil =>
    have hc : c.inLine = none := Cursor.inLine_of_size_zero (by simpa using ha)
    rw [slots_ended b e _ hc, slots_ended b e' _ ((L.ended h).mpr hc)]
    exact L.failWith h _
  | cons _ ahead ih =>
    cases ahead' with
    | nil =>
      have hc' : c'.inLine = none := Cursor.inLine_of_size_zero (by simpa using ha')
      rw [slots_ended b e _ ((L.ended h).mp hc'), slots_ended b e' _ hc']
      exact L.failWith h _
    | cons _ ahead' =>
      have hk : b.kind ≠ .newLine := by cases b <;> decide
      simp only [List.length_cons] at ha ha'
      simp only [Reader.slots, Reader.run_get, L.holds h _ hk, L.holds h .brace (by decide),
        L.holds h .fieldBrace (by decide), L.holds h .separator (by decide),
        L.atLineEnd h]
      refine Same.ite (fun ht => ?_) (fun _ => Same.ite (fun _ => L.failWith h _) (fun _ => ?_))
      · exact L.advance_yield _ h (Cursor.inLine_of_holds hk ht) (by omega) (by omega)
      · -- An entry, or the comma behind a gap, takes a token at least.
        refine Same.ite (fun ht => ?_) (fun _ => ?_)
        · refine (L.accept_held (n := c.size - 1) (m := c'.size - 1) h (by decide) ht (by omega)
            (by omega)).bind (fun _ c c' h h1 h2 => ?_)
          exact (ih ahead' h (by omega) (by omega) (by omega) (by omega) (by omega)
            (by omega)).bind (fun _ _ _ h h1 h2 => Same.pure _ h h1 h2)
        · refine ((he (c.size - 1) (c'.size - 1) c c' h hF hF' (by omega) (by omega)).map
            some).bind (fun entry c c' h h1 h2 => ?_)
          refine (L.accept h (by decide) "," h1 h2).bind (fun _ c c' h h1 h2 => ?_)
          exact (ih ahead' h (by omega) (by omega) (by omega) (by omega) (by omega)
            (by omega)).bind (fun _ _ _ h h1 h2 => Same.pure _ h h1 h2)

theorem braced {F F' : Nat} {e e' : Reader Expr} (he : Takes k R F F' e e') (b : Braces)
    {ahead ahead' : List Char} (h : R c c') (ht : c.inLine.isSome = true) (hF : c.size ≤ F + 1)
    (hF' : c'.size ≤ F' + 1) (ha : F ≤ ahead.length) (ha' : F' ≤ ahead'.length)
    (hn : c.size ≤ n + 1) (hm : c'.size ≤ m + 1) :
    Same k R n m (Reader.braced d b e ahead c) (Reader.braced d b e' ahead' c') := by
  refine (L.advance (n := c.size - 1) (m := c'.size - 1) h ht (by omega) (by omega)).bind
    (fun _ c c' h h1 h2 => ?_)
  exact L.slots he b _ _ h (by omega) (by omega) (by omega) (by omega) (by omega) (by omega)

theorem variableOrCall {F F' : Nat} {e e' : Reader Expr} (he : Takes k R F F' e e')
    (name : String) {ahead ahead' : List Char} (h : R c c') (ht : c.inLine.isSome = true)
    (hF : c.size ≤ F + 1) (hF' : c'.size ≤ F' + 1) (ha : F ≤ ahead.length)
    (ha' : F' ≤ ahead'.length) (hn : c.size ≤ n + 1) (hm : c'.size ≤ m + 1) :
    Same k R n m (Reader.variableOrCall d name e ahead c)
      (Reader.variableOrCall d name e' ahead' c') := by
  refine (L.advance (n := c.size - 1) (m := c'.size - 1) h ht (by omega) (by omega)).bind
    (fun _ c c' h h1 h2 => ?_)
  simp only [Reader.run_get, L.holds h .brace (by decide)]
  refine Same.ite (fun ht => ?_) (fun _ => ?_)
  · refine (L.braced he .round h (Cursor.inLine_of_holds (by decide) ht) (by omega) (by omega) ha
      ha' (by omega) (by omega)).bind (fun _ _ _ h h1 h2 => Same.pure _ h h1 h2)
  · refine (L.gluedDigits name h h1 h2).bind (fun name c c' h h1 h2 => ?_)
    simp only [Reader.run_get, L.holds h .fieldBrace (by decide)]
    refine Same.ite (fun ht => ?_) (fun _ => Same.pure _ h (by omega) (by omega))
    refine (L.braced he .field h (Cursor.inLine_of_holds (by decide) ht) (by omega) (by omega) ha
      ha' (by omega) (by omega)).bind (fun _ _ _ h h1 h2 => Same.pure _ h h1 h2)

theorem bracket {F F' : Nat} {e e' : Reader Expr} (he : Takes k R F F' e e') (h : R c c')
    (ht : c.inLine.isSome = true) (hF : c.size ≤ F + 1) (hF' : c'.size ≤ F' + 1)
    (hn : c.size ≤ n + 1) (hm : c'.size ≤ m + 1) :
    Same k R n m (Reader.bracket d e c) (Reader.bracket d e' c') := by
  refine (L.advance (n := c.size - 1) (m := c'.size - 1) h ht (by omega) (by omega)).bind
    (fun _ c c' h h1 h2 => ?_)
  refine (he.keeps h (by omega) (by omega) h1 h2).bind (fun inner c c' h h1 h2 => ?_)
  refine (L.expect h (by decide) ")" _ h1 h2).bind (fun _ c c' h h1 h2 => ?_)
  exact Same.pure _ h (by omega) (by omega)

omit L in
theorem operandOf_ended (e : Reader Expr) (ahead : List Char) (h : c.atLineEnd = true) :
    Reader.operandOf d e ahead c = Reader.fail .unexpectedLineEnd c := by
  have hx : Reader.expectMore c = Reader.fail .unexpectedLineEnd c := by
    simp only [Reader.expectMore, Reader.run_get, h, if_true]
  rw [Reader.operandOf, Reader.run_bind, hx]
  rfl

theorem operandOf_held {F F' : Nat} {e e' : Reader Expr} (he : Takes k R F F' e e')
    {ahead ahead' : List Char} {t : Token} (h : R c c') (hk : t.kind ≠ .newLine)
    (hc : c.held = some t) (hc' : c'.held = some (t.below k)) (hl : c.atLineEnd = false)
    (hF : c.size ≤ F + 1) (hF' : c'.size ≤ F' + 1) (ha : F ≤ ahead.length)
    (ha' : F' ≤ ahead'.length) (hn : c.size ≤ n + 1) (hm : c'.size ≤ m + 1) :
    Same k R n m (Reader.operandOf d e ahead c) (Reader.operandOf d e' ahead' c') := by
  have more : ∀ {c : Cursor}, c.atLineEnd = false → Reader.expectMore c = .ok () c := by
    intro c hc
    simp only [Reader.expectMore, Reader.run_get, hc, Bool.false_eq_true, if_false]
    rfl
  have ht : c.inLine.isSome = true := by simp [Cursor.inLine, hc, Option.filter, hk]
  simp only [Reader.operandOf, Reader.run_bind Reader.expectMore, more hl,
    more ((L.atLineEnd h).trans hl), Reader.run_get, hc, hc', Token.kind_below, Token.text_below]
  cases t.kind with
  | number => exact (L.number h hc hk hn hm).map _
  | identifier => exact L.variableOrCall he _ h ht hF hF' ha ha' hn hm
  | string => exact L.advance_yield _ h ht hn hm
  | brace => exact Same.ite (fun _ => L.bracket he h ht hF hF' hn hm) (fun _ => L.fail h _)
  | _ => exact L.fail h _

theorem operandOf {F F' : Nat} {e e' : Reader Expr} (he : Takes k R F F' e e')
    {ahead ahead' : List Char} (h : R c c') (hF : c.size ≤ F + 1) (hF' : c'.size ≤ F' + 1)
    (ha : F ≤ ahead.length) (ha' : F' ≤ ahead'.length) (hn : c.size ≤ n + 1)
    (hm : c'.size ≤ m + 1) :
    Same k R n m (Reader.operandOf d e ahead c) (Reader.operandOf d e' ahead' c') := by
  cases hl : c.atLineEnd with
  | true =>
    rw [operandOf_ended e _ hl, operandOf_ended e' _ ((L.atLineEnd h).trans hl)]
    exact L.fail h _
  | false =>
    rcases L.cases h with ⟨t, hk, hc, hc'⟩ | ⟨hc, -⟩
    · exact L.operandOf_held he h hk hc hc' hl hF hF' ha ha' hn hm
    · rw [Cursor.atLineEnd_inLine, hc] at hl
      cases hl

omit L in
theorem unaryOperator_ended (h : c.inLine = none) : Reader.unaryOperator d c = .ok none c := by
  simp only [Reader.unaryOperator, Reader.run_bind, heldOperator_ended h, Reader.run_pure]

omit L in
theorem operand_ended (ahead : List Char) (h : c.inLine = none) :
    Reader.operand d ahead c = Reader.fail .unexpectedLineEnd c := by
  cases ahead with
  | nil => rfl
  | cons _ ahead =>
    have hl : c.atLineEnd = true := by rw [Cursor.atLineEnd_inLine, h]; rfl
    simp only [Reader.operand, Reader.run_bind, unaryOperator_ended h, operandOf_ended _ _ hl]

theorem operand (ahead ahead' : List Char) :
    Takes k R ahead.length ahead'.length (Reader.operand d ahead) (Reader.operand d ahead') := by
  induction ahead generalizing ahead' with
  | nil =>
    intro n m c c' h hF hF' hn hm
    have hc : c.inLine = none := Cursor.inLine_of_size_zero (by simpa using hF)
    rw [operand_ended _ hc, operand_ended _ ((L.ended h).mpr hc)]
    exact L.fail h _
  | cons x ahead ih =>
    intro n m c c' h hF hF' hn hm
    cases ahead' with
    | nil =>
      have hc' : c'.inLine = none := Cursor.inLine_of_size_zero (by simpa using hF')
      rw [operand_ended _ ((L.ended h).mp hc'), operand_ended _ hc']
      exact L.fail h _
    | cons x' ahead' =>
      simp only [List.length_cons] at hF hF'
      have hop := ih ahead'
      have he : Takes k R ahead.length ahead'.length
          (Reader.expressionOf d (Reader.operand d ahead) ahead)
          (Reader.expressionOf d (Reader.operand d ahead') ahead') :=
        L.expressionOf hop (by omega) (by omega)
      simp only [Reader.operand]
      rcases L.unaryOperator (n := c.size - 1) (m := c'.size - 1) h (by omega) (by omega) with
        ⟨hu, hu'⟩ | hu
      · rw [Reader.run_bind, Reader.run_bind, hu, hu']
        exact L.operandOf he h hF hF' (by omega) (by omega) hn hm
      · refine hu.bind (fun op c c' h h1 h2 => ?_)
        cases op with
        | none =>
          exact L.operandOf he h (by omega) (by omega) (by omega) (by omega) (by omega)
            (by omega)
        | some op =>
          exact (hop.keeps h (by omega) (by omega) (by omega) (by omega)).bind
            (fun _ _ _ h h1 h2 => Same.pure _ h h1 h2)

/-- Expressions agree wherever they stand. -/
theorem expression (F F' : Nat) :
    Takes k R F F' (Reader.expression d) (Reader.expression d) := by
  intro n m c c' h _ _ hn hm
  have hc := c.ahead_length
  have hc' := c'.ahead_length
  exact L.expressionOf (L.operand c.ahead c'.ahead) (by omega) (by omega) n m c c' h (by omega)
    (by omega) hn hm

theorem expression_at (h : R c c') (hn : c.size ≤ n + 1) (hm : c'.size ≤ m + 1) :
    Same k R n m (Reader.expression d c) (Reader.expression d c') :=
  L.expression c.size c'.size n m c c' h (Nat.le_refl _) (Nat.le_refl _) hn hm

theorem expression_within (h : R c c') (hn : c.size ≤ n) (hm : c'.size ≤ m) :
    Same k R n m (Reader.expression d c) (Reader.expression d c') :=
  L.expression_at h (by omega) (by omega)

end Lockstep

end PartProgram
