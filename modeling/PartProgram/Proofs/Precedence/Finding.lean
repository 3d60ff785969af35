import PartProgram.Proofs.Precedence.Numeral

/-!
# What is read is spelled by its tokens

What is read as an expression is a tree that the tokens read spell, and no operator follows it.
The operands that wait on the stack are spelled by the tokens in front of the current one, in
their order, and completing an operation does not change these tokens.
-/

set_option autoImplicit false

namespace PartProgram

namespace Reader

variable {c after : Cursor} {t : Token}

/-- What an expression reads is spelled by its tokens, and no operator follows. This holds
where no more than so many characters are left. -/
def Finds (n : Nat) (p : Reader Expr) : Prop :=
  ∀ (c : Cursor) (e : Expr) (after : Cursor), c.size ≤ n → p c = .ok e after →
    ∃ ts, c.Steps ts after ∧ Spells ts e after.held ∧ ∀ t ∈ after.held, t.isOperator = false

def FindsOperand (n : Nat) (p : Reader Expr) : Prop :=
  ∀ (c : Cursor) (e : Expr) (after : Cursor), c.size ≤ n → p c = .ok e after →
    ∃ ts, c.Steps ts after ∧ Spells ts e after.held

/-- One round of a list closes it, passes a gap in front of a comma, or reads an entry, behind
which a comma may be missing. -/
theorem slots_round {b : Braces} {e : Reader Expr} {x : Char} {ahead : List Char} {slots : Slots}
    (h : Reader.slots {} b e (x :: ahead) c = .ok slots after) :
    (slots = [] ∧ c.holds b.kind b.closing = true ∧ advance {} c = .ok () after) ∨
    (∃ next rest, slots = none :: rest ∧ c.holds .separator "," = true ∧
      advance {} c = .ok () next ∧ Reader.slots {} b e ahead next = .ok rest after) ∨
    ∃ value mid next rest, slots = some value :: rest ∧ e c = .ok value mid ∧
      (mid.holds .separator "," = true ∧ advance {} mid = .ok () next ∨
        mid.holds .separator "," = false ∧ next = mid) ∧
      Reader.slots {} b e ahead next = .ok rest after := by
  simp only [Reader.slots, run_get] at h
  cases hclosing : c.holds b.kind b.closing with
  | true =>
    simp only [hclosing, if_true] at h
    obtain ⟨_, _, ha, hp⟩ := ok_bind h
    cases hp
    exact .inl ⟨rfl, rfl, ha⟩
  | false =>
    simp only [hclosing, Bool.false_eq_true, if_false] at h
    cases hend : c.atLineEnd || c.holds .brace ")" || c.holds .fieldBrace "]" with
    | true =>
      simp only [hend, if_true] at h
      cases h
    | false =>
      simp only [hend, Bool.false_eq_true, if_false] at h
      cases hcomma : c.holds .separator "," with
      | true =>
        simp only [hcomma, if_true, pure_bind] at h
        obtain ⟨found, next, hfound, h⟩ := ok_bind h
        obtain ⟨rest, _, hrest, hp⟩ := ok_bind h
        cases hp
        rcases accept_ok hfound with ⟨-, -, ha⟩ | ⟨-, hnot, -⟩
        · exact .inr (.inl ⟨next, rest, rfl, rfl, ha, hrest⟩)
        · rw [hcomma] at hnot
          cases hnot
      | false =>
        simp only [hcomma, Bool.false_eq_true, if_false] at h
        obtain ⟨entry, mid, hentry, h⟩ := ok_bind h
        obtain ⟨found, next, hfound, h⟩ := ok_bind h
        obtain ⟨rest, _, hrest, hp⟩ := ok_bind h
        cases hp
        obtain ⟨value, hvalue, rfl⟩ := ok_map hentry
        refine .inr (.inr ⟨value, mid, next, rest, rfl, hvalue, ?_, hrest⟩)
        rcases accept_ok hfound with ⟨-, hheld, ha⟩ | ⟨-, hnot, hsame⟩
        · exact .inl ⟨hheld, ha⟩
        · exact .inr ⟨hnot, hsame⟩

theorem slots_ok {n : Nat} {e : Reader Expr} (he : Finds n e) (b : Braces) (ahead : List Char) :
    ∀ (c : Cursor) (slots : Slots) (after : Cursor), c.size ≤ n →
      Reader.slots {} b e ahead c = .ok slots after →
      ∃ ts, c.Steps ts after ∧ SpellsSlots b ts slots := by
  induction ahead with
  | nil =>
    intro c slots after _ h
    cases h
  | cons x ahead ih =>
    intro c slots after hsize h
    rcases slots_round h with ⟨rfl, hclosing, ha⟩ | ⟨next, rest, rfl, hcomma, ha, hrest⟩ |
      ⟨value, mid, next, rest, rfl, hvalue, hcomma, hrest⟩
    · obtain ⟨t, ht, his⟩ := steps_holds hclosing (by cases b <;> decide) (by cases b <;> decide) ha
      exact ⟨[t], ht, .nil his⟩
    · obtain ⟨t, ht, his⟩ := steps_holds hcomma (by decide) (by decide) ha
      have hless := ht.size
      obtain ⟨ts, hts, hslots⟩ := ih next rest after (by omega) hrest
      exact ⟨t :: ts, ht.append hts, .gap his hslots⟩
    · obtain ⟨ts, hts, hspells, hops⟩ := he c value mid hsize hvalue
      have hless := hts.size
      rcases hcomma with ⟨hheld, ha⟩ | ⟨hnot, rfl⟩
      · obtain ⟨t, ht, his⟩ := steps_holds hheld (by decide) (by decide) ha
        have hless' := ht.size
        obtain ⟨us, hus, hslots⟩ := ih next rest after (by omega) hrest
        rw [ht.1] at hspells
        exact ⟨ts ++ t :: us, hts.append (ht.append hus), .entry hspells his hslots⟩
      · obtain ⟨us, hus, hslots⟩ := ih next rest after (by omega) hrest
        cases us with
        | nil => exact absurd rfl hslots.ne_nil
        | cons t us =>
          rw [hus.1] at hspells
          exact ⟨ts ++ t :: us, hts.append hus,
            .joined hspells (Cursor.not_of_holds hnot t hus.1) (hops t hus.1) hslots⟩

theorem braced_ok {n : Nat} {e : Reader Expr} (he : Finds n e) (b : Braces) {ahead : List Char}
    {slots : Slots} (hsize : c.size ≤ n + 1) (hb : c.holds b.kind b.opening = true)
    (h : braced {} b e ahead c = .ok slots after) :
    ∃ brace ts, c.Steps (brace :: ts) after ∧ brace.is b.kind b.opening = true ∧
      SpellsSlots b ts slots := by
  obtain ⟨_, mid, ha, h⟩ := ok_bind h
  obtain ⟨t, ht, his⟩ := steps_holds hb (by cases b <;> decide) (by cases b <;> decide) ha
  have hless := ht.size
  simp only [List.length_singleton] at hless
  obtain ⟨ts, hts, hslots⟩ := slots_ok he b ahead mid slots after (by omega) h
  exact ⟨t, ts, ht.append hts, his, hslots⟩

theorem variableOrCall_ok {n : Nat} {e : Reader Expr} (he : Finds n e) {ahead : List Char}
    {value : Expr} (hsize : c.size ≤ n + 1) (ht : c.held = some t) (hk : t.kind = .identifier)
    (h : variableOrCall {} t.text e ahead c = .ok value after) :
    ∃ ts, c.Steps ts after ∧ SpellsOperand ts value after.held := by
  obtain ⟨_, mid, ha, h⟩ := ok_bind h
  have hfirst := steps_advance ht (by simp [hk]) (by simp [hk]) ha
  have hless := hfirst.size
  simp only [run_get] at h
  cases hround : mid.holds .brace "(" with
  | true =>
    simp only [hround, if_true] at h
    obtain ⟨args, _, hargs, hp⟩ := ok_bind h
    cases hp
    obtain ⟨brace, ts, hts, his, hslots⟩ := braced_ok he .round (by omega) hround hargs
    exact ⟨t :: brace :: ts, hfirst.append hts, .call hk his hslots⟩
  | false =>
    simp only [hround, Bool.false_eq_true, if_false] at h
    obtain ⟨name, behind, hname, h⟩ := ok_bind h
    obtain ⟨ts, hts, hspells⟩ := gluedDigits_ok hname hk hfirst hround
    have hless' := hts.size
    simp only [run_get] at h
    cases hfield : behind.holds .fieldBrace "[" with
    | true =>
      simp only [hfield, if_true] at h
      obtain ⟨fields, _, hfields, hp⟩ := ok_bind h
      cases hp
      obtain ⟨brace, us, hus, his, hslots⟩ := braced_ok he .field (by omega) hfield hfields
      rw [hus.1] at hspells
      exact ⟨ts ++ brace :: us, hts.append hus, .element hspells his hslots⟩
    | false =>
      simp only [hfield, Bool.false_eq_true, if_false] at h
      cases h
      exact ⟨ts, hts, .var hspells (Cursor.not_of_holds hfield)⟩

theorem bracket_ok {n : Nat} {e : Reader Expr} (he : Finds n e) {value : Expr}
    (hsize : c.size ≤ n + 1) (hb : c.holds .brace "(" = true)
    (h : bracket {} e c = .ok value after) :
    ∃ ts, c.Steps ts after ∧ SpellsOperand ts value after.held := by
  obtain ⟨_, mid, ha, h⟩ := ok_bind h
  obtain ⟨inner, behind, hinner, h⟩ := ok_bind h
  obtain ⟨_, _, hclose, hp⟩ := ok_bind h
  cases hp
  obtain ⟨t, ht, his⟩ := steps_holds hb (by decide) (by decide) ha
  have hless := ht.size
  simp only [List.length_singleton] at hless
  obtain ⟨ts, hts, hspells, -⟩ := he mid inner behind (by omega) hinner
  simp only [expect, run_get] at hclose
  cases hheld : behind.holds .brace ")" with
  | true =>
    simp only [hheld, if_true] at hclose
    obtain ⟨u, hu, hclosing⟩ := steps_holds hheld (by decide) (by decide) hclose
    rw [hu.1] at hspells
    exact ⟨t :: (ts ++ [u]), ht.append (hts.append hu), .bracket his hspells hclosing⟩
  | false =>
    simp only [hheld, Bool.false_eq_true, if_false] at hclose
    cases hclose

theorem operandOf_ok {n : Nat} {e : Reader Expr} (he : Finds n e) {ahead : List Char}
    {value : Expr} (hsize : c.size ≤ n + 1) (h : operandOf {} e ahead c = .ok value after) :
    ∃ ts, c.Steps ts after ∧ SpellsOperand ts value after.held := by
  cases hend : c.atLineEnd with
  | true =>
    rw [Lockstep.operandOf_ended e ahead hend] at h
    cases h
  | false =>
    cases ht : c.held with
    | none => simp [Cursor.atLineEnd, ht] at hend
    | some t =>
      have hk : t.kind ≠ .newLine ∧ t.kind ≠ .comment := by
        simpa [Cursor.atLineEnd, ht] using hend
      rw [operandOf_held ht hk.1 hk.2] at h
      cases hkind : t.kind with
      | number =>
        simp only [hkind] at h
        obtain ⟨n, hn, rfl⟩ := ok_map h
        obtain ⟨ts, hts, hspells⟩ := number_ok hn ht hkind
        exact ⟨ts, hts, .num hspells⟩
      | identifier =>
        simp only [hkind] at h
        exact variableOrCall_ok he hsize ht hkind h
      | string =>
        simp only [hkind] at h
        obtain ⟨_, _, ha, hp⟩ := ok_bind h
        cases hp
        exact ⟨[t], steps_advance ht hk.1 hk.2 ha, .str hkind⟩
      | brace =>
        simp only [hkind] at h
        by_cases hopen : t.text = "("
        · rw [if_pos hopen] at h
          exact bracket_ok he hsize (by simp [Cursor.holds, ht, Token.is, hkind, hopen]) h
        · rw [if_neg hopen] at h
          cases h
      | newLine => exact absurd hkind hk.1
      | comment => exact absurd hkind hk.2
      | operator | fieldBrace | separator | colon =>
        simp only [hkind] at h
        cases h

end Reader

namespace Pending

/-- The operands that wait and their operators are spelled by the tokens, the latest last. -/
def Spelled : Pending → List Token → Prop
  | [], ts => ts = []
  | (op, lhs) :: rest, ts =>
    ∃ us vs sign, ts = us ++ (vs ++ [sign]) ∧ Spelled rest us ∧ Spells vs lhs (some sign) ∧
      sign.binary? = some op

theorem Spelled.unwind {pending : Pending} {current : Expr} {us vs : List Token}
    {next : Option Token} (h : Spelled pending us) (hc : Spells vs current next) :
    Spells (us ++ vs) (unwind pending current) next := by
  induction pending generalizing current us vs with
  | nil =>
    cases h
    exact hc
  | cons entry rest ih =>
    obtain ⟨op, lhs⟩ := entry
    obtain ⟨us, ws, sign, rfl, hrest, hlhs, hop⟩ := h
    rw [List.append_assoc, List.append_assoc]
    exact ih hrest (Spells.bin hlhs hop hc)

theorem Spelled.reduce {pending : Pending} {current : Expr} {us vs : List Token}
    {next : Option Token} (op : BinaryOp) (h : Spelled pending us) (hc : Spells vs current next) :
    ∃ us' vs', us' ++ vs' = us ++ vs ∧ Spelled (reduce op pending current).1 us' ∧
      Spells vs' (reduce op pending current).2 next := by
  induction pending generalizing current us vs with
  | nil => exact ⟨us, vs, rfl, h, hc⟩
  | cons entry rest ih =>
    obtain ⟨top, lhs⟩ := entry
    rw [Pending.reduce]
    split
    · obtain ⟨us, ws, sign, rfl, hrest, hlhs, hop⟩ := h
      obtain ⟨us', vs', heq, hspelled, hspells⟩ := ih hrest (Spells.bin hlhs hop hc)
      exact ⟨us', vs', by simpa [List.append_assoc] using heq, hspelled, hspells⟩
    · exact ⟨us, vs, rfl, h, hc⟩

end Pending

namespace Reader

variable {c after : Cursor} {t : Token}

theorem operations_ok {n : Nat} {p : Reader Expr} (hp : FindsOperand n p) (ahead : List Char) :
    ∀ (c : Cursor) (pending : Pending) (current e : Expr) (after : Cursor) (us vs : List Token),
      c.size ≤ n → c.size ≤ ahead.length → pending.Spelled us → Spells vs current c.held →
      operations {} p ahead pending current c = .ok e after →
      ∃ ts, c.Steps ts after ∧ Spells (us ++ vs ++ ts) e after.held ∧
        ∀ t ∈ after.held, t.isOperator = false := by
  induction ahead with
  | nil =>
    intro c pending current e after us vs _ hahead hus hvs h
    cases h
    have hnone : c.held = none := by
      cases hh : c.held with
      | none => rfl
      | some t => simp [Cursor.size, hh] at hahead
    refine ⟨[], rfl, ?_, by simp [hnone]⟩
    rw [List.append_nil]
    exact hus.unwind hvs
  | cons x ahead ih =>
    intro c pending current e after us vs hn hahead hus hvs h
    rw [operations] at h
    obtain ⟨found, mid, hfound, hread⟩ := ok_bind h
    rcases binaryOperator_ok hfound with ⟨rfl, rfl, hnone⟩ | ⟨t, op, rfl, hop, hstep⟩
    · cases hread
      refine ⟨[], rfl, ?_, hnone⟩
      rw [List.append_nil]
      exact hus.unwind hvs
    · obtain ⟨rhs, behind, hrhs, hread⟩ := ok_bind hread
      have hless := hstep.size
      simp only [List.length_singleton] at hless
      simp only [List.length_cons] at hahead
      obtain ⟨ws, hws, hspells⟩ := hp mid rhs behind (by omega) hrhs
      have hless' := hws.size
      rw [hstep.1] at hvs
      obtain ⟨us', vs', heq, hwaiting, hlhs⟩ := hus.reduce op hvs
      have hpending : Pending.Spelled ((op, (pending.reduce op current).2) ::
          (pending.reduce op current).1) (us' ++ (vs' ++ [t])) :=
        ⟨us', vs', t, rfl, hwaiting, hlhs, hop⟩
      obtain ⟨ts, hts, hresult, hend⟩ := ih behind _ rhs e after _ ws (by omega) (by omega)
        hpending hspells hread
      refine ⟨t :: (ws ++ ts), hstep.append (hws.append hts), ?_, hend⟩
      rw [← heq]
      simpa [List.append_assoc] using hresult

theorem expressionOf_ok {n : Nat} {p : Reader Expr} (hp : FindsOperand n p) {ahead : List Char}
    (ha : n ≤ ahead.length) : Finds n (expressionOf {} p ahead) := by
  intro c e after hsize h
  obtain ⟨first, mid, hfirst, h⟩ := ok_bind h
  obtain ⟨ts, hts, hspells⟩ := hp c first mid hsize hfirst
  have hless := hts.size
  obtain ⟨us, hus, hresult, hend⟩ := operations_ok hp ahead mid [] first e after [] ts (by omega)
    (by omega) rfl hspells h
  exact ⟨ts ++ us, hts.append hus, hresult, hend⟩

/-- Every operand that is read is spelled by the tokens read. -/
theorem operand_ok (ahead : List Char) : FindsOperand ahead.length (operand {} ahead) := by
  induction ahead with
  | nil =>
    intro c e after _ h
    cases h
  | cons x ahead ih =>
    intro c e after hsize h
    simp only [List.length_cons] at hsize
    rw [operand] at h
    obtain ⟨found, mid, hfound, hread⟩ := ok_bind h
    have hexpr := expressionOf_ok ih (Nat.le_refl ahead.length)
    rcases unaryOperator_ok hfound with
      ⟨rfl, rfl⟩ | ⟨rfl, t, hplus, hstep⟩ | ⟨t, op, rfl, hop, hstep⟩
    · obtain ⟨ts, hts, hspells⟩ := operandOf_ok hexpr hsize hread
      exact ⟨ts, hts, .operand hspells⟩
    · have hless := hstep.size
      obtain ⟨ts, hts, hspells⟩ := operandOf_ok hexpr (by omega) hread
      exact ⟨t :: ts, hstep.append hts, .plus hplus hspells⟩
    · have hless := hstep.size
      simp only [List.length_singleton] at hless
      obtain ⟨arg, _, harg, hp⟩ := ok_bind hread
      cases hp
      obtain ⟨ts, hts, hspells⟩ := ih mid arg after (by omega) harg
      exact ⟨t :: ts, hstep.append hts, .un hop hspells⟩

theorem expression_ok {e : Expr} (h : expression {} c = .ok e after) :
    ∃ ts, c.Steps ts after ∧ Spells ts e after.held ∧ ∀ t ∈ after.held, t.isOperator = false :=
  expressionOf_ok (operand_ok c.ahead) (Nat.le_refl _) c e after
    (Nat.le_of_eq c.ahead_length.symm) h

end Reader

end PartProgram
