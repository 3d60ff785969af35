import PartProgram.Proofs.RoundTrip.Expr

/-!
# Recursive descent

Another way to read an expression: one level for each priority, the tightest innermost. A level
reads the next tighter one, and as long as an operator of its own priority follows, that level
again. No operand waits on a stack. Both ways agree at every position, also in their errors: what
a level has completed when it ends is what the stack completes at the operator that comes next.
-/

set_option autoImplicit false

namespace PartProgram

namespace Reader

def heldBinary : Reader (Option BinaryOp) := do
  match ← heldOperator with
  | none => return none
  | some text =>
    match BinaryOp.ofText text with
    | some op => return some op
    | none => fail (.expectedBinaryOperator text)

/-- Operations of one priority, from left to right, after the first operand. -/
def chain (d : Dialect) (priority : Nat) (tighter : Reader Expr) :
    List Char → Expr → Reader Expr
  | [], lhs => return lhs
  | _ :: ahead, lhs => do
    match ← heldBinary with
    | none => return lhs
    | some op =>
      if op.priority = priority then
        advance d
        chain d priority tighter ahead (.bin op lhs (← tighter))
      else return lhs

/-- Expressions with the operators of the tightest priorities only; at no level there is just
an operand. -/
def level (d : Dialect) (operand : Reader Expr) (ahead : List Char) : Nat → Reader Expr
  | 0 => operand
  | n + 1 => do
    chain d (10 - n) (level d operand ahead n) ahead (← level d operand ahead n)

def descendOperand (d : Dialect) : List Char → Reader Expr
  | [] => fail .unexpectedLineEnd
  | _ :: ahead => do
    match ← unaryOperator d with
    | some op => return op.apply (← descendOperand d ahead)
    | none => operandOf d (level d (descendOperand d ahead) ahead 10) ahead

def descend (d : Dialect) : Reader Expr := fun c =>
  level d (descendOperand d c.ahead) c.ahead 10 c

def descendWhole (d : Dialect) : Reader Expr := do
  advance d
  let e ← descend d
  if (← get).atLineEnd then return e else failWith .expectedLineEnd

end Reader

def Expr.descend (text : String) : Except ReadError Expr :=
  match Reader.descendWhole {} (Cursor.ofText text) with
  | .ok e _ => .ok e
  | .error e _ => .error e

namespace Reader

variable {d : Dialect} {c : Cursor}

theorem bind_congr_at {α β : Type} {p : Reader α} {f g : α → Reader β}
    (h : ∀ a after, p c = .ok a after → f a after = g a after) : (p >>= f) c = (p >>= g) c := by
  rw [run_bind, run_bind]
  cases hp : p c with
  | ok a after => exact h a after hp
  | error e after => rfl

theorem heldBinary_cases (c : Cursor) :
    heldBinary c = .ok none c ∨ (∃ op, heldBinary c = .ok (some op) c) ∨
      ∃ error, heldBinary c = .error error c := by
  simp only [heldBinary, heldOperator, bind_assoc, run_get, pure_bind]
  cases (c.held.filter (fun t => t.kind == .operator && t.text != "=")).map Token.text with
  | none => exact .inl rfl
  | some text =>
    simp only
    cases BinaryOp.ofText text with
    | none => exact .inr (.inr ⟨_, rfl⟩)
    | some op => exact .inr (.inl ⟨op, rfl⟩)

theorem heldBinary_ended (h : c.held = none) : heldBinary c = .ok none c := by
  simp only [heldBinary, heldOperator, bind_assoc, run_get, pure_bind, h]
  rfl

theorem binaryOperator_run (d : Dialect) (c : Cursor) :
    binaryOperator d c = match heldBinary c with
      | .ok none _ => .ok none c
      | .ok (some op) _ => (do advance d; return some op : Reader (Option BinaryOp)) c
      | .error error _ => .error error c := by
  simp only [heldBinary, binaryOperator, heldOperator, bind_assoc, run_get, pure_bind]
  cases (c.held.filter (fun t => t.kind == .operator && t.text != "=")).map Token.text with
  | none => rfl
  | some text =>
    simp only
    cases BinaryOp.ofText text <;> rfl

/-- A reader that takes a token at least, wherever no more than so many characters are left. -/
abbrev TakesToken (n : Nat) (p : Reader Expr) : Prop := Takes 0 (Cursor.Below 0) n n p p

def resume (d : Dialect) (operand : Reader Expr) (pending : Pending) (current : Expr) :
    Reader Expr := fun c =>
  operations d operand c.ahead pending current c

/-- None of the given number of tightest priorities is that of the operator held. -/
def Ends (k : Nat) (c : Cursor) : Prop :=
  ∀ op, heldBinary c = .ok (some op) c → op.priority ≤ 10 - k

variable {ahead : List Char} {p : Reader Expr} {e : Expr} {after : Cursor} {pending : Pending}

theorem TakesToken.size {n : Nat} (hp : TakesToken n p) (hc : c.size ≤ n)
    (h : p c = .ok e after) : after.size ≤ c.size := by
  have hsame := hp.keeps c.below_zero.symm hc hc (Nat.le_refl c.size) (Nat.le_refl c.size)
  rw [h] at hsame
  exact hsame.2.2.1

theorem operations_eq_resume {n : Nat} (hp : TakesToken n p) (hc : c.size ≤ n)
    (ha : c.size ≤ ahead.length) (current : Expr) :
    operations d p ahead pending current c = resume d p pending current c := by
  have hlength := c.ahead_length
  exact eq_of_same ((lockstep_below d 0).operations hp ahead c.ahead pending current
    c.below_zero.symm hc hc ha (by omega) (Nat.le_refl c.size) (Nat.le_refl c.size))

theorem resume_none (h : heldBinary c = .ok none c) (current : Expr) :
    resume d p pending current c = .ok (pending.unwind current) c := by
  rw [resume]
  cases c.ahead with
  | nil => rfl
  | cons x ahead =>
    rw [operations, run_bind, binaryOperator_run, h]
    rfl

theorem ahead_of_heldBinary (h : heldBinary c ≠ .ok none c) :
    c.held.isSome = true ∧ ∃ x rest, c.ahead = x :: rest ∧ c.size = rest.length + 1 := by
  have hheld : c.held.isSome = true := by
    cases hc : c.held with
    | none => exact absurd (heldBinary_ended hc) h
    | some t => rfl
  refine ⟨hheld, ' ', c.unread, by simp [Cursor.ahead, hheld], by simp [Cursor.size, hheld]⟩

theorem resume_error {error : ReadError} (h : heldBinary c = .error error c) (current : Expr) :
    resume d p pending current c = .error error c := by
  obtain ⟨-, x, rest, hahead, -⟩ := ahead_of_heldBinary (c := c) (by simp [h])
  rw [resume, hahead, operations, run_bind, binaryOperator_run, h]

theorem resume_operator {n : Nat} (hp : TakesToken n p) (hc : c.size ≤ n) {op : BinaryOp}
    (h : heldBinary c = .ok (some op) c) (current : Expr) :
    resume d p pending current c = (do
      advance d
      let rhs ← p
      resume d p ((op, (pending.reduce op current).2) :: (pending.reduce op current).1) rhs) c := by
  obtain ⟨hheld, x, rest, hahead, hlength⟩ := ahead_of_heldBinary (c := c) (by simp [h])
  rw [resume, hahead, operations, run_bind, binaryOperator_run, h]
  simp only
  rw [run_bind (advance d), run_bind (advance d)]
  cases ha : advance d c with
  | error error mid => rfl
  | ok _ mid =>
    have hless := advance_size hheld ha
    simp only [run_pure]
    apply bind_congr_at
    intro rhs after hrhs
    have hsize := hp.size (by omega) hrhs
    exact operations_eq_resume hp (by omega) (by omega) rhs

theorem resume_complete {n : Nat} (hp : TakesToken n p) (hc : c.size ≤ n) {op : BinaryOp}
    {lhs rhs : Expr} (h : ∀ next, heldBinary c = .ok (some next) c → next.priority ≤ op.priority) :
    resume d p ((op, lhs) :: pending) rhs c = resume d p pending (.bin op lhs rhs) c := by
  rcases heldBinary_cases c with hb | ⟨next, hb⟩ | ⟨error, hb⟩
  · rw [resume_none hb, resume_none hb]
    rfl
  · rw [resume_operator hp hc hb, resume_operator hp hc hb, Pending.reduce, if_pos (h next hb)]
  · rw [resume_error hb, resume_error hb]

theorem chain_ends {k n : Nat} {q : Reader Expr}
    (hq : ∀ c e after, c.size ≤ n → q c = .ok e after → after.size ≤ c.size ∧ Ends k after)
    (more : List Char) : ∀ (c : Cursor) (lhs e : Expr) (after : Cursor), c.size ≤ n →
      c.size ≤ more.length → Ends k c → chain d (10 - k) q more lhs c = .ok e after →
      after.size ≤ c.size ∧ Ends (k + 1) after ∧ ∃ found, heldBinary after = .ok found after := by
  have hnone : ∀ c : Cursor, heldBinary c = .ok none c → Ends (k + 1) c := by
    intro c hc op hop
    rw [hc] at hop
    cases hop
  induction more with
  | nil =>
    intro c lhs e after _ hmore _ h
    cases h
    have hheld : c.held = none := by
      cases hc : c.held with
      | none => rfl
      | some t => simp [Cursor.size, hc] at hmore
    exact ⟨Nat.le_refl _, hnone c (heldBinary_ended hheld), none, heldBinary_ended hheld⟩
  | cons x more ih =>
    intro c lhs e after hn hmore hends h
    rw [chain, run_bind] at h
    rcases heldBinary_cases c with hb | ⟨op, hb⟩ | ⟨error, hb⟩
    · rw [hb] at h
      cases h
      exact ⟨Nat.le_refl _, hnone c hb, none, hb⟩
    · rw [hb] at h
      simp only at h
      split at h
      · obtain ⟨_, mid, ha, h⟩ := ok_bind h
        obtain ⟨rhs, behind, hrhs, h⟩ := ok_bind h
        have hless := advance_size (ahead_of_heldBinary (by simp [hb])).1 ha
        obtain ⟨hsize, hstop⟩ := hq mid rhs behind (by omega) hrhs
        simp only [List.length_cons] at hmore
        obtain ⟨hsize', hresult⟩ := ih behind _ e after (by omega) (by omega) hstop h
        exact ⟨by omega, hresult⟩
      · rename_i hne
        cases h
        refine ⟨Nat.le_refl _, ?_, some op, hb⟩
        intro op' hop'
        rw [hb] at hop'
        cases hop'
        have hle := hends op hb
        omega
    · rw [hb] at h
      cases h

theorem level_ends (hp : TakesToken ahead.length p) (k : Nat) :
    ∀ (c : Cursor) (e : Expr) (after : Cursor), c.size ≤ ahead.length →
      level d p ahead k c = .ok e after → after.size ≤ c.size ∧ Ends k after := by
  induction k with
  | zero =>
    intro c e after hc h
    refine ⟨hp.size hc h, fun op _ => ?_⟩
    have hlt := Expr.priority_lt op
    omega
  | succ k ih =>
    intro c e after hc h
    obtain ⟨lhs, mid, hlhs, h⟩ := ok_bind h
    obtain ⟨hsize, hends⟩ := ih c lhs mid hc hlhs
    obtain ⟨hsize', hends', -⟩ := chain_ends ih ahead mid lhs e after (by omega) (by omega) hends h
    exact ⟨by omega, hends'⟩

theorem chain_resume {k : Nat} (hk : k ≤ 10) (hp : TakesToken ahead.length p)
    (hlevel : ∀ (c : Cursor) (pending : Pending), c.size ≤ ahead.length →
      (∀ top ∈ pending.head?, top.1.priority < 11 - k) →
      (level d p ahead k >>= resume d p pending) c = (p >>= resume d p pending) c)
    (hpending : ∀ top ∈ pending.head?, top.1.priority < 10 - k) (more : List Char) :
    ∀ (c : Cursor) (lhs : Expr), c.size ≤ ahead.length →
      (chain d (10 - k) (level d p ahead k) more lhs >>= resume d p pending) c =
        resume d p pending lhs c := by
  induction more with
  | nil => exact fun c lhs _ => rfl
  | cons x more ih =>
    intro c lhs hc
    rw [chain, bind_assoc, run_bind]
    rcases heldBinary_cases c with hb | ⟨op, hb⟩ | ⟨error, hb⟩
    · rw [hb]
      rfl
    · rw [hb]
      simp only
      split
      · rename_i hpriority
        rw [resume_operator hp hc hb, reduce_waiting (by rwa [hpriority])]
        simp only [bind_assoc]
        apply bind_congr_at
        intro _ mid ha
        have hless := advance_size (ahead_of_heldBinary (by simp [hb])).1 ha
        rw [← hlevel mid _ (by omega) (by rintro _ ⟨⟩; simp only; omega)]
        apply bind_congr_at
        intro rhs after hrhs
        obtain ⟨hsize, hends⟩ := level_ends hp k mid rhs after (by omega) hrhs
        rw [ih after _ (by omega), resume_complete hp (by omega)]
        rwa [hpriority]
      · rfl
    · rw [hb, resume_error hb]

/-- A level followed by the rest of the stack is the stack from its first operand on, if what
waits there binds less tight than all operators of the level. -/
theorem level_resume (hp : TakesToken ahead.length p) {k : Nat} (hk : k ≤ 10) :
    ∀ (c : Cursor) (pending : Pending), c.size ≤ ahead.length →
      (∀ top ∈ pending.head?, top.1.priority < 11 - k) →
      (level d p ahead k >>= resume d p pending) c = (p >>= resume d p pending) c := by
  induction k with
  | zero => exact fun c pending _ _ => rfl
  | succ k ih =>
    intro c pending hc hpending
    rw [level, bind_assoc, ← ih (by omega) c pending hc (fun top htop => by
      have := hpending top htop
      omega)]
    apply bind_congr_at
    intro lhs mid hlhs
    have hsize := (level_ends hp k c lhs mid hc hlhs).1
    exact chain_resume (by omega) hp (ih (by omega))
      (fun top htop => by have := hpending top htop; omega) ahead mid lhs (by omega)

theorem level_finish (hp : TakesToken ahead.length p) (hc : c.size ≤ ahead.length)
    (h : level d p ahead 10 c = .ok e after) : heldBinary after = .ok none after := by
  obtain ⟨lhs, mid, hlhs, hchain⟩ := ok_bind h
  obtain ⟨hsize, hends⟩ := level_ends hp 9 c lhs mid hc hlhs
  obtain ⟨-, hends', found, hfound⟩ := chain_ends (level_ends hp 9) ahead mid lhs e after (by omega)
    (by omega) hends hchain
  cases found with
  | none => exact hfound
  | some op =>
    have hle := hends' op hfound
    have hpos : 0 < op.priority := by cases op <;> decide
    omega

theorem level_eq_expressionOf (hp : TakesToken ahead.length p) (hc : c.size ≤ ahead.length) :
    level d p ahead 10 c = expressionOf d p ahead c := by
  have hfinish : (level d p ahead 10 >>= resume d p []) c = level d p ahead 10 c := by
    rw [run_bind]
    cases h : level d p ahead 10 c with
    | error error after => rfl
    | ok e after => exact resume_none (level_finish hp hc h) e
  rw [← hfinish, level_resume hp (Nat.le_refl 10) c [] hc (by simp), expressionOf]
  apply bind_congr_at
  intro e mid he
  have hsize := hp.size hc he
  exact (operations_eq_resume hp (by omega) (by omega) e).symm

theorem TakesToken.of_takes {n : Nat} {q : Reader Expr} (h : Takes 0 (Cursor.Below 0) n n p q) :
    TakesToken n q := by
  rintro i j c _ rfl hc hc' hi hj
  rw [Cursor.below_zero] at hc' hj ⊢
  have hsame := h i j c c c.below_zero.symm hc hc hi hj
  rw [eq_of_same hsame] at hsame
  exact hsame

theorem takes_level {q : Reader Expr}
    (h : Takes 0 (Cursor.Below 0) ahead.length ahead.length p q) :
    Takes 0 (Cursor.Below 0) ahead.length ahead.length (expressionOf d p ahead)
      (level d q ahead 10) := by
  intro i j c c' hc hF hF' hi hj
  rw [level_eq_expressionOf (TakesToken.of_takes h) hF']
  exact (lockstep_below d 0).expressionOf h (by omega) (by omega) i j c c' hc hF hF' hi hj

theorem takes_descendOperand (d : Dialect) (ahead : List Char) :
    Takes 0 (Cursor.Below 0) ahead.length ahead.length (operand d ahead)
      (descendOperand d ahead) := by
  have L := lockstep_below d 0
  induction ahead with
  | nil => exact fun i j c c' h _ _ _ _ => L.fail h _
  | cons x ahead ih =>
    intro i j c c' h hF hF' hi hj
    have hexpr := takes_level (d := d) ih
    simp only [List.length_cons] at hF hF'
    simp only [operand, descendOperand]
    rcases L.unaryOperator (n := c.size - 1) (m := c'.size - 1) h (by omega) (by omega) with
      ⟨hu, hu'⟩ | hu
    · rw [run_bind, run_bind, hu, hu']
      exact L.operandOf hexpr h hF hF' (Nat.le_refl _) (Nat.le_refl _) hi hj
    · refine hu.bind (fun op c c' h h1 h2 => ?_)
      cases op with
      | none =>
        exact L.operandOf hexpr h (by omega) (by omega) (Nat.le_refl _) (Nat.le_refl _) (by omega)
          (by omega)
      | some op =>
        exact (ih.keeps h (by omega) (by omega) (by omega) (by omega)).bind
          (fun _ _ _ h h1 h2 => Same.pure _ h h1 h2)

theorem descend_eq (d : Dialect) : descend d = expression d := by
  funext c
  have hlength := c.ahead_length
  have hsame := takes_level (d := d) (takes_descendOperand d c.ahead) c.size c.size c c
    c.below_zero.symm (by omega) (by omega) (by omega) (by omega)
  exact (eq_of_same hsame).symm

end Reader

/-- Level by level a text is read as with the stack, also if it is refused. -/
theorem Expr.descend_eq_parse (text : String) : Expr.descend text = Expr.parse text := by
  have hwhole : Reader.descendWhole {} = Reader.wholeExpression {} := by
    rw [Reader.descendWhole, Reader.wholeExpression, Reader.descend_eq]
  rw [Expr.descend, hwhole]
  rfl

end PartProgram
