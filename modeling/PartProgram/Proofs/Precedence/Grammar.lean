import PartProgram.Proofs.RoundTrip.Expr

/-!
# The grammar of expressions

Which tokens spell which tree. The grammar does not know the priorities of operators, so the
same tokens spell many trees: an operation stands between any two expressions, and a prefix
operator stands in front of any. A number or a name takes what belongs to it from the tokens
behind it, so the grammar looks at the token that comes next. In a list the comma between two
entries may be missing; then an entry goes on as long as operators follow.
-/

set_option autoImplicit false

namespace PartProgram

namespace Token

def isOperator (t : Token) : Bool := t.kind == .operator && t.text != "="

def binary? (t : Token) : Option BinaryOp := if t.isOperator then BinaryOp.ofText t.text else none

def unary? (t : Token) : Option UnaryOp := if t.isOperator then UnaryOp.ofText t.text else none

def literal? (t : Token) : Option Number :=
  match t.number?, t.text.toList.head? with
  | some value, some mark => some ⟨value, !t.text.toList.contains '.', Radix.ofMark mark⟩
  | _, _ => none

/-- The word `EX` directly behind a number. -/
def isExponentMark (t : Token) : Bool := t.isKeyword "EX" && !t.spaced

def glues (name : String) (t : Token) : Bool :=
  name.utf8ByteSize = 1 && !t.spaced && t.isDecimal && !t.text.toList.contains '.'

end Token

inductive SpellsExponent : List Token → Float → Prop
  | unsigned {t : Token} {x : Float} (decimal : t.isDecimal = true)
      (value : readReal t.text = some x) : SpellsExponent [t] (1.0 * x)
  | positive {sign t : Token} {x : Float} (plus : sign.is .operator "+" = true)
      (decimal : t.isDecimal = true) (value : readReal t.text = some x) :
      SpellsExponent [sign, t] (1.0 * x)
  | negative {sign t : Token} {x : Float} (minus : sign.is .operator "-" = true)
      (decimal : t.isDecimal = true) (value : readReal t.text = some x) :
      SpellsExponent [sign, t] (-1.0 * x)

inductive SpellsNumber : List Token → Number → Option Token → Prop
  | plain {t : Token} {n : Number} {next : Option Token} (kind : t.kind = .number)
      (value : t.literal? = some n) (alone : ∀ u ∈ next, u.isExponentMark = false) :
      SpellsNumber [t] n next
  | scaled {t mark : Token} {ts : List Token} {n : Number} {x : Float} {next : Option Token}
      (kind : t.kind = .number) (value : t.literal? = some n)
      (marked : mark.isExponentMark = true) (exponent : SpellsExponent ts x) :
      SpellsNumber (t :: mark :: ts) { n with value := scaleByTen n.value x, isInteger := false }
        next

/-- A name of a variable in front of the token that comes next. A name with a parenthesis
behind it is not one of a variable. -/
inductive SpellsName : List Token → String → Option Token → Prop
  | word {t : Token} {next : Option Token} (kind : t.kind = .identifier)
      (alone : ∀ u ∈ next, u.is .brace "(" = false ∧ u.glues t.text = false) :
      SpellsName [t] t.text next
  | numbered {t digits : Token} {next : Option Token} (kind : t.kind = .identifier)
      (glued : digits.glues t.text = true) : SpellsName [t, digits] (t.text ++ digits.text) next

mutual

/-- The tokens spell an expression in front of the token that comes next. -/
inductive Spells : List Token → Expr → Option Token → Prop
  | operand {ts : List Token} {e : Expr} {next : Option Token} :
      SpellsOperand ts e next → Spells ts e next
  | plus {sign : Token} {ts : List Token} {e : Expr} {next : Option Token} :
      sign.is .operator "+" = true → SpellsOperand ts e next → Spells (sign :: ts) e next
  | un {sign : Token} {op : UnaryOp} {ts : List Token} {e : Expr} {next : Option Token} :
      sign.unary? = some op → Spells ts e next → Spells (sign :: ts) (op.apply e) next
  | bin {ts us : List Token} {sign : Token} {op : BinaryOp} {lhs rhs : Expr}
      {next : Option Token} :
      Spells ts lhs (some sign) → sign.binary? = some op → Spells us rhs next →
      Spells (ts ++ sign :: us) (.bin op lhs rhs) next

inductive SpellsOperand : List Token → Expr → Option Token → Prop
  | num {ts : List Token} {n : Number} {next : Option Token} :
      SpellsNumber ts n next → SpellsOperand ts (.num n) next
  | str {t : Token} {next : Option Token} :
      t.kind = .string → SpellsOperand [t] (.str t.text) next
  | var {ts : List Token} {name : String} {next : Option Token} :
      SpellsName ts name next → (∀ u ∈ next, u.is .fieldBrace "[" = false) →
      SpellsOperand ts (.var name none) next
  | element {ts us : List Token} {brace : Token} {name : String} {fields : Slots}
      {next : Option Token} :
      SpellsName ts name (some brace) → brace.is .fieldBrace "[" = true →
      SpellsSlots .field us fields →
      SpellsOperand (ts ++ brace :: us) (.var name (some fields)) next
  | call {t brace : Token} {ts : List Token} {args : Slots} {next : Option Token} :
      t.kind = .identifier → brace.is .brace "(" = true → SpellsSlots .round ts args →
      SpellsOperand (t :: brace :: ts) (.call t.text args) next
  | bracket {opening closing : Token} {ts : List Token} {inner : Expr} {next : Option Token} :
      opening.is .brace "(" = true → Spells ts inner (some closing) →
      closing.is .brace ")" = true →
      SpellsOperand (opening :: (ts ++ [closing])) (.bracket inner) next

/-- The entries of a list with its closing brace. -/
inductive SpellsSlots : Braces → List Token → Slots → Prop
  | nil {b : Braces} {closing : Token} :
      closing.is b.kind b.closing = true → SpellsSlots b [closing] []
  | gap {b : Braces} {comma : Token} {ts : List Token} {slots : Slots} :
      comma.is .separator "," = true → SpellsSlots b ts slots →
      SpellsSlots b (comma :: ts) (none :: slots)
  | entry {b : Braces} {ts us : List Token} {comma : Token} {e : Expr} {slots : Slots} :
      Spells ts e (some comma) → comma.is .separator "," = true → SpellsSlots b us slots →
      SpellsSlots b (ts ++ comma :: us) (some e :: slots)
  | joined {b : Braces} {ts us : List Token} {first : Token} {e : Expr} {slots : Slots} :
      Spells ts e (some first) → first.is .separator "," = false → first.isOperator = false →
      SpellsSlots b (first :: us) slots → SpellsSlots b (ts ++ first :: us) (some e :: slots)

end

theorem SpellsSlots.ne_nil {b : Braces} {ts : List Token} {slots : Slots}
    (h : SpellsSlots b ts slots) : ts ≠ [] := by
  cases h <;> simp

theorem SpellsNumber.head {ts : List Token} {n : Number} {next : Option Token}
    (h : SpellsNumber ts n next) : ∃ t us, ts = t :: us ∧ t.kind = .number := by
  cases h with
  | plain kind => exact ⟨_, _, rfl, kind⟩
  | scaled kind => exact ⟨_, _, rfl, kind⟩

theorem SpellsName.head {ts : List Token} {name : String} {next : Option Token}
    (h : SpellsName ts name next) : ∃ t us, ts = t :: us ∧ t.kind = .identifier := by
  cases h with
  | word kind => exact ⟨_, _, rfl, kind⟩
  | numbered kind => exact ⟨_, _, rfl, kind⟩

namespace Token

variable {t : Token}

theorem is_iff {kind : TokenKind} {text : String} :
    t.is kind text = true ↔ t.kind = kind ∧ t.text = text := by
  simp [Token.is]

theorem literal_eq_some {n : Number} (h : t.literal? = some n) :
    ∃ value mark, t.number? = some value ∧ t.text.toList.head? = some mark ∧
      n = ⟨value, !t.text.toList.contains '.', Radix.ofMark mark⟩ := by
  unfold literal? at h
  split at h
  · rename_i value mark hvalue hmark
    cases h
    exact ⟨value, mark, hvalue, hmark, rfl⟩
  · cases h

theorem isOperator_iff : t.isOperator = true ↔ t.kind = .operator ∧ t.text ≠ "=" := by
  simp [isOperator]

theorem binary_iff {op : BinaryOp} :
    t.binary? = some op ↔ t.isOperator = true ∧ BinaryOp.ofText t.text = some op := by
  simp [binary?]

theorem unary_iff {op : UnaryOp} :
    t.unary? = some op ↔ t.isOperator = true ∧ UnaryOp.ofText t.text = some op := by
  simp [unary?]

end Token

theorem SpellsOperand.head {ts : List Token} {e : Expr} {next : Option Token}
    (h : SpellsOperand ts e next) :
    ∃ t us, ts = t :: us ∧ t.Opens ∧ t.kind ≠ .operator := by
  cases h with
  | num h =>
    obtain ⟨t, us, rfl, hk⟩ := h.head
    exact ⟨t, us, rfl, .inl hk, by simp [hk]⟩
  | str hk => exact ⟨_, _, rfl, .inr (.inr (.inl hk)), by simp [hk]⟩
  | var h =>
    obtain ⟨t, us, rfl, hk⟩ := h.head
    exact ⟨t, us, rfl, .inr (.inl hk), by simp [hk]⟩
  | element h =>
    obtain ⟨t, us, rfl, hk⟩ := h.head
    exact ⟨t, _, rfl, .inr (.inl hk), by simp [hk]⟩
  | call hk => exact ⟨_, _, rfl, .inr (.inl hk), by simp [hk]⟩
  | bracket hopen =>
    have hk := Token.is_iff.mp hopen
    exact ⟨_, _, rfl, .inr (.inr (.inr (.inr hk))), by simp [hk.1]⟩

theorem SpellsOperand.tightness {ts : List Token} {e : Expr} {next : Option Token}
    (h : SpellsOperand ts e next) : e.tightness = 11 := by
  cases h <;> rfl

theorem Spells.head {ts : List Token} {e : Expr} {next : Option Token} (h : Spells ts e next) :
    ∃ t us, ts = t :: us ∧ t.Opens := by
  cases h with
  | operand h =>
    obtain ⟨t, us, rfl, ht, -⟩ := h.head
    exact ⟨t, us, rfl, ht⟩
  | plus hplus => exact ⟨_, _, rfl, .inr (.inr (.inr (.inl (Token.is_iff.mp hplus).1)))⟩
  | un hop =>
    obtain ⟨hop, -⟩ := Token.unary_iff.mp hop
    exact ⟨_, _, rfl, .inr (.inr (.inr (.inl (Token.isOperator_iff.mp hop).1)))⟩
  | bin h =>
    obtain ⟨t, us, rfl, ht⟩ := h.head
    exact ⟨t, _, rfl, ht⟩

end PartProgram
