import PartProgram.Proofs.Onward

/-!
# Expressions within a number of rounds

The readers that repeat or nest recurse on the characters ahead, and where these
are used up they answer as at the end of the text. Here the same loops have a
number of rounds instead, and no answer at all when the rounds are used up.
Every round takes a token. With more rounds than there is to read, each loop
therefore has an answer, and it is the one of the reader.
-/

set_option autoImplicit false

namespace PartProgram

/-- A reading that may be cut off, and then has no answer. -/
abbrev Attempt (α : Type) : Type := ExceptT ReadError (StateT Cursor Option) α

namespace Attempt

def of {α : Type} (p : Reader α) : Attempt α := fun c =>
  match p c with
  | .ok a after => some (.ok a, after)
  | .error e after => some (.error e, after)

instance : MonadLift Reader Attempt := ⟨of⟩

theorem run_get {α : Type} (f : Cursor → Attempt α) (c : Cursor) :
    ((get : Attempt Cursor) >>= f) c = f c c := rfl

theorem run_bind {α β : Type} (u : Attempt α) (f : α → Attempt β) (c : Cursor) :
    (u >>= f) c = (u c).bind fun
      | (.ok a, after) => f a after
      | (.error e, after) => some (.error e, after) := by
  simp only [bind, ExceptT.bind, ExceptT.mk, StateT.bind]
  cases u c with
  | none => rfl
  | some r => obtain ⟨a | e, after⟩ := r <;> rfl

theorem run_lift {α β : Type} {p : Reader α} {f : α → Attempt β} {c after : Cursor} {a : α}
    (h : p c = .ok a after) : ((liftM p : Attempt α) >>= f) c = f a after := by
  have hp : (liftM p : Attempt α) c = some (.ok a, after) := by
    change of p c = _
    rw [of, h]
  rw [run_bind, hp]
  rfl

theorem run_lift_error {α β : Type} {p : Reader α} {f : α → Attempt β} {c after : Cursor}
    {e : ReadError} (h : p c = .error e after) :
    ((liftM p : Attempt α) >>= f) c = some (.error e, after) := by
  have hp : (liftM p : Attempt α) c = some (.error e, after) := by
    change of p c = _
    rw [of, h]
  rw [run_bind, hp]
  rfl

theorem bind_eq_of {α β : Type} {u : Attempt α} {p : Reader α} {f : α → Attempt β}
    {g : α → Reader β} {c : Cursor} (h : u c = of p c)
    (hf : ∀ a after, p c = .ok a after → f a after = of (g a) after) :
    (u >>= f) c = of (p >>= g) c := by
  rw [run_bind, h]
  simp only [of, Reader.run_bind]
  cases hp : p c with
  | ok a after => exact hf a after hp
  | error e after => rfl

def unfinished {α : Type} : Attempt α := fun _ => none

def operations (d : Dialect) (operand : Attempt Expr) :
    Nat → Pending → Expr → Attempt Expr
  | 0, _, _ => unfinished
  | rounds + 1, pending, current => do
    match ← Reader.binaryOperator d with
    | none => return pending.unwind current
    | some op =>
      let (waiting, lhs) := pending.reduce op current
      operations d operand rounds ((op, lhs) :: waiting) (← operand)

def expressionOf (d : Dialect) (operand : Attempt Expr) (rounds : Nat) : Attempt Expr := do
  operations d operand rounds [] (← operand)

def slots (d : Dialect) (b : Braces) (expression : Attempt Expr) : Nat → Attempt Slots
  | 0 => unfinished
  | rounds + 1 => do
    let c ← get
    if c.holds b.kind b.closing then
      Reader.advance d
      return []
    else if c.atLineEnd || c.holds .brace ")" || c.holds .fieldBrace "]" then
      Reader.failWith b.unclosed
    else
      let entry ← if c.holds .separator "," then pure none else some <$> expression
      let _ ← Reader.accept d .separator ","
      return entry :: (← slots d b expression rounds)

def braced (d : Dialect) (b : Braces) (expression : Attempt Expr) (rounds : Nat) :
    Attempt Slots := do
  Reader.advance d
  slots d b expression rounds

def variableOrCall (d : Dialect) (name : String) (expression : Attempt Expr) (rounds : Nat) :
    Attempt Expr := do
  Reader.advance d
  if (← get).holds .brace "(" then
    return .call name (← braced d .round expression rounds)
  else
    let name ← Reader.gluedDigits d name
    if (← get).holds .fieldBrace "[" then
      return .var name (some (← braced d .field expression rounds))
    else return .var name none

def bracket (d : Dialect) (expression : Attempt Expr) : Attempt Expr := do
  Reader.advance d
  let inner ← expression
  Reader.expect d .brace ")" .expectedClosingBracket
  return .bracket inner

def operandOf (d : Dialect) (expression : Attempt Expr) (rounds : Nat) : Attempt Expr := do
  Reader.expectMore
  match (← get).held with
  | none => Reader.fail .unexpectedLineEnd
  | some t =>
    match t.kind with
    | .number => return .num (← Reader.number d t)
    | .identifier => variableOrCall d t.text expression rounds
    | .string =>
      Reader.advance d
      return .str t.text
    | .brace =>
      if t.text = "(" then bracket d expression else Reader.fail (.expectedOperand t.text)
    | _ => Reader.fail (.expectedOperand t.text)

def operand (d : Dialect) : Nat → Attempt Expr
  | 0 => unfinished
  | rounds + 1 => do
    match ← Reader.unaryOperator d with
    | some op => return op.apply (← operand d rounds)
    | none => operandOf d (expressionOf d (operand d rounds) rounds) rounds

def expression (d : Dialect) (rounds : Nat) : Attempt Expr :=
  expressionOf d (operand d rounds) rounds

/-- The reading has an answer at a position, which is that of the reader. A success
leaves at most `n` to read. -/
def Settles {α : Type} (n : Nat) (u : Attempt α) (p : Reader α) (c : Cursor) : Prop :=
  u c = of p c ∧ ∀ a after, p c = .ok a after → after.size ≤ n

/-- The reading settles where at most `F` is left to read, and it takes a token at
least. -/
def SettlesUpTo {α : Type} (F : Nat) (u : Attempt α) (p : Reader α) : Prop :=
  ∀ (n : Nat) (c : Cursor), c.size ≤ F → c.size ≤ n + 1 → Settles n u p c

namespace Settles

variable {α β : Type} {n i : Nat} {c : Cursor}

theorem pure (a : α) (hn : c.size ≤ n) : Settles n (Pure.pure a) (Pure.pure a : Reader α) c :=
  ⟨rfl, fun _ _ ha => by cases ha; exact hn⟩

theorem failWith (cause : String → ReadCause) :
    Settles n (liftM (Reader.failWith cause : Reader α)) (Reader.failWith cause) c :=
  ⟨rfl, fun _ _ ha => by cases ha⟩

theorem fail (cause : ReadCause) :
    Settles n (liftM (Reader.fail cause : Reader α)) (Reader.fail cause) c :=
  failWith (fun _ => cause)

theorem bind {u : Attempt α} {p : Reader α} {f : α → Attempt β} {g : α → Reader β}
    (h : Settles i u p c)
    (hf : ∀ a after, after.size ≤ i → Settles n (f a) (g a) after) :
    Settles n (u >>= f) (p >>= g) c := by
  refine ⟨bind_eq_of h.1 (fun a mid ha => (hf a mid (h.2 a mid ha)).1), fun b after hb => ?_⟩
  obtain ⟨a, mid, ha, hb⟩ := Reader.ok_bind hb
  exact (hf a mid (h.2 a mid ha)).2 b after hb

theorem lift_bind {p : Reader α} {f : α → Attempt β} {g : α → Reader β}
    (hf : ∀ a after, p c = .ok a after → Settles n (f a) (g a) after) :
    Settles n (liftM p >>= f) (p >>= g) c := by
  refine ⟨bind_eq_of rfl (fun a mid ha => (hf a mid ha).1), fun b after hb => ?_⟩
  obtain ⟨a, mid, ha, hb⟩ := Reader.ok_bind hb
  exact (hf a mid ha).2 b after hb

theorem map (f : α → β) {u : Attempt α} {p : Reader α} (h : Settles n u p c) :
    Settles n (f <$> u) (f <$> p) c := by
  rw [map_eq_pure_bind, map_eq_pure_bind]
  exact h.bind (fun a _ hs => pure (f a) hs)

theorem ite {b : Prop} [Decidable b] {u v : Attempt α} {p q : Reader α}
    (ht : b → Settles n u p c) (hf : ¬b → Settles n v q c) :
    Settles n (if b then u else v) (if b then p else q) c := by
  by_cases hb : b
  · simpa only [if_pos hb] using ht hb
  · simpa only [if_neg hb] using hf hb

theorem get {f : Cursor → Attempt α} {g : Cursor → Reader α} (h : Settles n (f c) (g c) c) :
    Settles n (MonadState.get >>= f) (MonadState.get >>= g) c := h

end Settles

section Expression

variable {d : Dialect} {n F rounds : Nat} {c after : Cursor}

theorem operations_settles {u : Attempt Expr} {p : Reader Expr} (h : SettlesUpTo F u p)
    {ahead : List Char} (pending : Pending) (current : Expr) (hF : c.size ≤ F)
    (ha : c.size ≤ ahead.length) (hr : ahead.length < rounds) (hn : c.size ≤ n) :
    Settles n (operations d u rounds pending current)
      (Reader.operations d p ahead pending current) c := by
  induction ahead generalizing rounds pending current c with
  | nil =>
    obtain ⟨rounds, rfl⟩ := Nat.exists_eq_add_one.mpr hr
    have hc : c.inLine = none := Cursor.inLine_of_size_zero (by simpa using ha)
    exact ⟨run_lift (Lockstep.binaryOperator_ended hc), (Settles.pure _ hn).2⟩
  | cons _ ahead ih =>
    simp only [List.length_cons] at ha hr
    obtain ⟨rounds, rfl⟩ := Nat.exists_eq_add_one.mpr (Nat.zero_lt_of_lt hr)
    refine Settles.lift_bind (fun found mid hmid => ?_)
    have hs := Reader.binaryOperator_takes hmid
    cases found with
    | none => exact Settles.pure _ (Nat.le_trans hs hn)
    | some op =>
      simp only [Option.isSome_some, if_true] at hs
      refine (h mid.size mid (by omega) (by omega)).bind (fun e after hs' => ?_)
      exact ih _ _ (by omega) (by omega) (by omega) (by omega)

theorem expressionOf_settles {u : Attempt Expr} {p : Reader Expr} (h : SettlesUpTo F u p)
    {ahead : List Char} (ha : F ≤ ahead.length + 1) (hr : ahead.length < rounds) :
    SettlesUpTo F (expressionOf d u rounds) (Reader.expressionOf d p ahead) := by
  intro n c hF hn
  refine (h (c.size - 1) c hF (by omega)).bind (fun e after hs => ?_)
  exact operations_settles h [] e (by omega) (by omega) hr (by omega)

theorem slots_settles {u : Attempt Expr} {p : Reader Expr} (h : SettlesUpTo F u p) (b : Braces)
    {ahead : List Char} (hF : c.size ≤ F) (ha : c.size ≤ ahead.length)
    (hr : ahead.length < rounds) (hn : c.size ≤ n) :
    Settles n (slots d b u rounds) (Reader.slots d b p ahead) c := by
  have hk : b.kind ≠ .newLine := by cases b <;> decide
  induction ahead generalizing rounds c with
  | nil =>
    obtain ⟨rounds, rfl⟩ := Nat.exists_eq_add_one.mpr hr
    have hc : c.inLine = none := Cursor.inLine_of_size_zero (by simpa using ha)
    have hb : c.holds b.kind b.closing = false := by rw [Cursor.holds_inLine _ _ hk, hc]; rfl
    have hl : c.atLineEnd = true := by rw [Cursor.atLineEnd_inLine, hc]; rfl
    refine ⟨?_, fun _ _ ha => by cases ha⟩
    simp only [slots, run_get, hb, hl, Bool.true_or, if_true, Bool.false_eq_true, if_false]
    rfl
  | cons _ ahead ih =>
    have L := lockstep_onward d c
    simp only [List.length_cons] at ha hr
    obtain ⟨rounds, rfl⟩ := Nat.exists_eq_add_one.mpr (Nat.zero_lt_of_lt hr)
    refine Settles.get (Settles.ite (fun hclose => ?_)
      (fun _ => Settles.ite (fun _ => Settles.failWith _) (fun _ => ?_)))
    · refine Settles.lift_bind (fun _ mid hmid => Settles.pure _ ?_)
      exact (L.advance_within (onward_refl c) (Cursor.inLine_of_holds hk hclose) hn hn).size_le hmid
    · -- An entry, or the comma behind a gap, takes a token at least.
      refine Settles.ite (fun hcomma => ?_) (fun _ => ?_)
      · refine Settles.lift_bind (fun _ mid hmid => ?_)
        have hs : mid.size ≤ c.size - 1 := (L.accept_held (m := c.size) (onward_refl c) (by decide)
          hcomma (by omega) (by omega)).size_le hmid
        exact (ih (by omega) (by omega) (by omega) (by omega)).bind
          (fun _ _ hs => Settles.pure _ hs)
      · refine ((h (c.size - 1) c hF (by omega)).map some).bind (fun entry mid hs => ?_)
        refine Settles.lift_bind (fun _ behind hbehind => ?_)
        have hs' := Nat.le_trans (Reader.accept_takes (by decide) hbehind) (Nat.sub_le _ _)
        exact (ih (by omega) (by omega) (by omega) (by omega)).bind
          (fun _ _ hs => Settles.pure _ hs)

theorem braced_settles {u : Attempt Expr} {p : Reader Expr} (h : SettlesUpTo F u p) (b : Braces)
    {ahead : List Char} (hheld : c.held.isSome = true) (hF : c.size ≤ F + 1)
    (ha : F ≤ ahead.length) (hr : ahead.length < rounds) (hn : c.size ≤ n) :
    Settles n (braced d b u rounds) (Reader.braced d b p ahead) c := by
  refine Settles.lift_bind (fun _ mid hmid => ?_)
  have := Reader.advance_size hheld hmid
  exact slots_settles h b (by omega) (by omega) hr (by omega)

theorem variableOrCall_settles {u : Attempt Expr} {p : Reader Expr} (h : SettlesUpTo F u p)
    (name : String) {ahead : List Char} (hheld : c.held.isSome = true) (hF : c.size ≤ F + 1)
    (ha : F ≤ ahead.length) (hr : ahead.length < rounds) (hn : c.size ≤ n + 1) :
    Settles n (variableOrCall d name u rounds) (Reader.variableOrCall d name p ahead) c := by
  have held : ∀ {c : Cursor} {kind text}, c.holds kind text = true → c.held.isSome = true := by
    intro c kind text h
    cases hc : c.held with
    | none => simp [Cursor.holds, hc] at h
    | some t => rfl
  refine Settles.lift_bind (fun _ mid hmid => ?_)
  have hs := Reader.advance_size hheld hmid
  refine Settles.get (Settles.ite (fun hopen => ?_) (fun _ => ?_))
  · exact (braced_settles h .round (held hopen) (by omega) ha hr (by omega)).bind
      (fun _ _ hs => Settles.pure _ hs)
  · refine Settles.lift_bind (fun name behind hbehind => ?_)
    have hs' := ((lockstep_onward d mid).gluedDigits _ (onward_refl mid) (Nat.le_refl _)
      (Nat.le_refl _)).size_le hbehind
    refine Settles.get (Settles.ite (fun hopen => ?_) (fun _ => Settles.pure _ (by omega)))
    exact (braced_settles h .field (held hopen) (by omega) ha hr (by omega)).bind
      (fun _ _ hs => Settles.pure _ hs)

theorem bracket_settles {u : Attempt Expr} {p : Reader Expr} (h : SettlesUpTo F u p)
    (hheld : c.held.isSome = true) (hF : c.size ≤ F + 1) (hn : c.size ≤ n + 1) :
    Settles n (bracket d u) (Reader.bracket d p) c := by
  refine Settles.lift_bind (fun _ mid hmid => ?_)
  have hs := Reader.advance_size hheld hmid
  refine (h n mid (by omega) (by omega)).bind (fun inner behind hs' => ?_)
  refine Settles.lift_bind (fun _ after hafter => Settles.pure _ ?_)
  exact ((lockstep_onward d behind).expect (onward_refl behind) (by decide) ")" _ hs' hs').size_le
    hafter

theorem operandOf_settles {u : Attempt Expr} {p : Reader Expr} (h : SettlesUpTo F u p)
    {ahead : List Char} (hF : c.size ≤ F + 1) (ha : F ≤ ahead.length)
    (hr : ahead.length < rounds) (hn : c.size ≤ n + 1) :
    Settles n (operandOf d u rounds) (Reader.operandOf d p ahead) c := by
  refine Settles.lift_bind (fun _ mid hmid => ?_)
  have hmid : mid = c := by
    simp only [Reader.expectMore, Reader.run_get] at hmid
    split at hmid <;> cases hmid
    rfl
  rw [hmid]
  refine Settles.get ?_
  cases hc : c.held with
  | none => exact Settles.fail _
  | some t =>
    have hheld : c.held.isSome = true := by simp [hc]
    dsimp only
    cases hk : t.kind with
    | number =>
      rw [map_eq_pure_bind]
      refine Settles.lift_bind (fun _ after hafter => Settles.pure _ ?_)
      exact ((lockstep_onward d c).number (onward_refl c) hc (by simp [hk]) hn hn).size_le hafter
    | identifier => exact variableOrCall_settles h t.text hheld hF ha hr hn
    | string =>
      refine Settles.lift_bind (fun _ after hafter => Settles.pure _ ?_)
      have := Reader.advance_size hheld hafter
      omega
    | brace => exact Settles.ite (fun _ => bracket_settles h hheld hF hn) (fun _ => Settles.fail _)
    | _ => exact Settles.fail _

theorem operand_settles (ahead : List Char) (hr : ahead.length < rounds) :
    SettlesUpTo ahead.length (operand d rounds) (Reader.operand d ahead) := by
  induction ahead generalizing rounds with
  | nil =>
    intro n c hF hn
    obtain ⟨rounds, rfl⟩ := Nat.exists_eq_add_one.mpr hr
    have hc : c.inLine = none := Cursor.inLine_of_size_zero (by simpa using hF)
    have hl : c.atLineEnd = true := by rw [Cursor.atLineEnd_inLine, hc]; rfl
    have hmore : Reader.expectMore c = .error ⟨c.errorLine, .unexpectedLineEnd⟩ c := by
      simp only [Reader.expectMore, Reader.run_get, hl, if_true]
      rfl
    refine ⟨?_, fun _ _ ha => by cases ha⟩
    rw [operand, run_lift (Lockstep.unaryOperator_ended hc)]
    exact run_lift_error hmore
  | cons _ ahead ih =>
    intro n c hF hn
    simp only [List.length_cons] at hF hr
    obtain ⟨rounds, rfl⟩ := Nat.exists_eq_add_one.mpr (Nat.zero_lt_of_lt hr)
    have hop : SettlesUpTo ahead.length (operand d rounds) (Reader.operand d ahead) := ih (by omega)
    refine Settles.lift_bind (fun found mid hmid => ?_)
    have hs := Reader.unaryOperator_takes hmid
    cases found with
    | some op =>
      simp only [Option.isSome_some, if_true] at hs
      exact (hop n mid (by omega) (by omega)).bind (fun _ _ hs => Settles.pure _ hs)
    | none =>
      replace hs : mid.size ≤ c.size := hs
      exact operandOf_settles (expressionOf_settles hop (by omega) (by omega)) (by omega)
        (Nat.le_refl _) (by omega) (by omega)

theorem expression_eq (hr : c.size < rounds) :
    expression d rounds c = of (Reader.expression d) c := by
  have ha := c.ahead_length
  exact (expressionOf_settles (operand_settles c.ahead (by omega)) (by omega) (by omega) c.size c
    (by omega) (by omega)).1

end Expression

end Attempt

end PartProgram
