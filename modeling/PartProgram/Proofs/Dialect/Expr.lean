import PartProgram.Expr.Reader

/-!
# Expressions in a wider dialect

A dialect becomes wider when line comments, arguments of G codes or strings as
instructions are switched on. Each switch gives a form to texts that have none
without it, and takes none away. So the readers of tokens and expressions read in
the wider dialect what they read in the narrower one.
-/

set_option autoImplicit false

namespace PartProgram

namespace Dialect

def switchOn (comments arguments strings : Bool) (d : Dialect) : Dialect :=
  { d with
    lineComments := d.lineComments || comments
    gcodeArguments := d.gcodeArguments || arguments
    stringInstructions := d.stringInstructions || strings }

/-- What is switched on in the one dialect is so in the other, and brace comments are the same
in both. -/
structure Within (d d' : Dialect) : Prop where
  comments : d.lineComments = true → d'.lineComments = true
  braces : d'.braceComments = d.braceComments
  arguments : d.gcodeArguments = true → d'.gcodeArguments = true
  strings : d.stringInstructions = true → d'.stringInstructions = true

theorem within_switchOn (comments arguments strings : Bool) (d : Dialect) :
    d.Within (d.switchOn comments arguments strings) where
  comments h := by simp [switchOn, h]
  braces := rfl
  arguments h := by simp [switchOn, h]
  strings h := by simp [switchOn, h]

end Dialect

namespace Scan

variable {d d' : Dialect}

theorem lexeme_within (h : d.Within d') {c : Char} {cs text rest : List Char} {kind : TokenKind}
    (hl : lexeme d c cs = .found kind text rest) : lexeme d' c cs = .found kind text rest := by
  by_cases hc : c = ';'
  · subst hc
    cases hd : d.lineComments with
    | true => simpa [lexeme, isLineEnd, hd, h.comments hd] using hl
    | false =>
      have hfault : lexeme d ';' cs = .fault (.invalidCharacter ';') (';' :: cs) := by
        simp [lexeme, isLineEnd, hd, isNameChar, isOperatorChar]
      rw [hfault] at hl
      cases hl
  · simpa [lexeme, hc, h.braces] using hl

theorem next_within (h : d.Within d') {line after : Nat} {cs rest : List Char} {t : Token}
    (hn : next d line cs = .token t after rest) : next d' line cs = .token t after rest := by
  unfold next at hn ⊢
  split at hn
  · cases hn
  · split at hn
    · cases hn
    · rename_i hl
      cases hn
      rw [lexeme_within h hl]

theorem next_finished_within {line : Nat} {cs : List Char}
    (hn : next d line cs = .finished) : next d' line cs = .finished := by
  unfold next at hn ⊢
  split at hn
  · rfl
  · split at hn <;> cases hn

end Scan

namespace Reader

variable {α β : Type}

/-- What the one reader reads the other reads as well, up to the same position. -/
structure Extends (p p' : Reader α) : Prop where
  reads : ∀ {c after : Cursor} {a : α}, p c = .ok a after → p' c = .ok a after

theorem Extends.refl (p : Reader α) : Extends p p := ⟨fun h => h⟩

theorem Extends.bind {p p' : Reader α} {q q' : α → Reader β} (hp : Extends p p')
    (hq : ∀ a, Extends (q a) (q' a)) : Extends (p >>= q) (p' >>= q') where
  reads h := by
    obtain ⟨a, mid, ha, hb⟩ := ok_bind h
    rw [run_bind, hp.reads ha]
    exact (hq a).reads hb

theorem Extends.map {p p' : Reader α} (hp : Extends p p') (f : α → β) :
    Extends (f <$> p) (f <$> p') where
  reads h := by
    obtain ⟨a, ha, rfl⟩ := ok_map h
    rw [run_map, hp.reads ha]

theorem extends_get {k k' : Cursor → Reader α} (h : ∀ c, Extends (k c) (k' c)) :
    Extends (get >>= k) (get >>= k') :=
  (Extends.refl _).bind h

theorem Extends.ite {b : Prop} [Decidable b] {p p' q q' : Reader α} (hp : Extends p p')
    (hq : Extends q q') : Extends (if b then p else q) (if b then p' else q') := by
  split
  · exact hp
  · exact hq

section Tokens

variable {d d' : Dialect} (h : d.Within d')
include h

theorem extends_advance : Extends (advance d) (advance d') where
  reads ha := by
    unfold advance at ha ⊢
    split at ha
    · rename_i hn
      cases ha
      rw [Scan.next_finished_within hn]
    · rename_i hn
      cases ha
      rw [Scan.next_within h hn]
    · cases ha

theorem extends_advance_pure (a : α) :
    Extends (do advance d; return a) (do advance d'; return a) :=
  (extends_advance h).bind (fun _ => .refl _)

theorem extends_accept (kind : TokenKind) (text : String) :
    Extends (accept d kind text) (accept d' kind text) :=
  extends_get (fun _ => (extends_advance_pure h true).ite (.refl _))

theorem extends_acceptKeyword (word : String) :
    Extends (acceptKeyword d word) (acceptKeyword d' word) :=
  extends_get (fun _ => (extends_advance_pure h true).ite (.refl _))

theorem extends_expect (kind : TokenKind) (text : String) (cause : String → ReadCause) :
    Extends (expect d kind text cause) (expect d' kind text cause) :=
  extends_get (fun _ => (extends_advance h).ite (.refl _))

theorem extends_integer : Extends (integer d) (integer d') := by
  apply extends_get
  intro c
  cases c.held.bind Token.integer? with
  | none => exact .refl _
  | some n => exact extends_advance_pure h n

theorem extends_natural : Extends (natural d) (natural d') := by
  apply extends_get
  intro c
  cases c.held.bind Token.integer? with
  | none => exact .refl _
  | some n => exact (extends_advance_pure h n.toNat).ite (.refl _)

theorem extends_gluedDigits (name : String) :
    Extends (gluedDigits d name) (gluedDigits d' name) := by
  apply extends_get
  intro c
  cases c.held with
  | none => exact .refl _
  | some t => exact (extends_advance_pure h (name ++ t.text)).ite (.refl _)

end Tokens

section Expressions

variable {d d' : Dialect} (h : d.Within d')
include h

theorem extends_binaryOperator : Extends (binaryOperator d) (binaryOperator d') := by
  apply (Extends.refl heldOperator).bind
  intro text
  cases text with
  | none => exact .refl _
  | some text =>
    dsimp only
    cases BinaryOp.ofText text with
    | none => exact .refl _
    | some op => exact extends_advance_pure h (some op)

theorem extends_unaryOperator : Extends (unaryOperator d) (unaryOperator d') := by
  apply (Extends.refl heldOperator).bind
  intro text
  cases text with
  | none => exact .refl _
  | some text =>
    apply (extends_advance_pure h none).ite
    cases UnaryOp.ofText text with
    | none => exact .refl _
    | some op => exact extends_advance_pure h (some op)

theorem extends_exponent : Extends (exponent d) (exponent d') := by
  have hsign : Extends (exponentSign d) (exponentSign d') := by
    apply (extends_accept h .operator "-").bind
    intro minus
    exact (Extends.refl _).ite ((extends_accept h .operator "+").bind (fun _ => .refl _))
  apply hsign.bind
  intro sign
  apply extends_get
  intro c
  cases (c.held.filter Token.isDecimal).bind (fun t => readReal t.text) with
  | none => exact .refl _
  | some value => exact extends_advance_pure h (sign * value)

theorem extends_number (t : Token) : Extends (number d t) (number d' t) := by
  unfold number
  cases t.number? with
  | none => exact .refl _
  | some value =>
    cases t.text.toList.head? with
    | none => exact .refl _
    | some mark =>
      apply (extends_advance h).bind
      intro _
      apply extends_get
      intro c
      refine Extends.ite ((extends_advance h).bind ?_) (.refl _)
      exact fun _ => (extends_exponent h).bind (fun _ => .refl _)

theorem extends_operations {operand operand' : Reader Expr} (ho : Extends operand operand')
    (ahead : List Char) (pending : Pending) (current : Expr) :
    Extends (operations d operand ahead pending current)
      (operations d' operand' ahead pending current) := by
  induction ahead generalizing pending current with
  | nil => exact .refl _
  | cons _ ahead ih =>
    apply (extends_binaryOperator h).bind
    intro op
    cases op with
    | none => exact .refl _
    | some op => exact ho.bind (fun rhs => ih _ rhs)

theorem extends_expressionOf {operand operand' : Reader Expr} (ho : Extends operand operand')
    (ahead : List Char) :
    Extends (expressionOf d operand ahead) (expressionOf d' operand' ahead) :=
  ho.bind (fun first => extends_operations h ho ahead [] first)

theorem extends_slots (b : Braces) {expression expression' : Reader Expr}
    (he : Extends expression expression') (ahead : List Char) :
    Extends (slots d b expression ahead) (slots d' b expression' ahead) := by
  induction ahead with
  | nil => exact .refl _
  | cons _ ahead ih =>
    apply extends_get
    intro c
    apply (extends_advance_pure h []).ite
    apply (Extends.refl _).ite
    have hrest : ∀ entry : Option Expr,
        Extends (do let _ ← accept d .separator ","; return entry :: (← slots d b expression ahead))
          (do let _ ← accept d' .separator ","; return entry :: (← slots d' b expression' ahead)) :=
      fun _ => (extends_accept h .separator ",").bind (fun _ => ih.bind (fun _ => .refl _))
    exact Extends.ite ((Extends.refl _).bind hrest) ((he.map some).bind hrest)

theorem extends_braced (b : Braces) {expression expression' : Reader Expr}
    (he : Extends expression expression') (ahead : List Char) :
    Extends (braced d b expression ahead) (braced d' b expression' ahead) :=
  (extends_advance h).bind (fun _ => extends_slots h b he ahead)

theorem extends_variableOrCall (name : String) {expression expression' : Reader Expr}
    (he : Extends expression expression') (ahead : List Char) :
    Extends (variableOrCall d name expression ahead)
      (variableOrCall d' name expression' ahead) := by
  apply (extends_advance h).bind
  intro _
  apply extends_get
  intro c
  apply Extends.ite
  · exact (extends_braced h .round he ahead).bind (fun _ => .refl _)
  · apply (extends_gluedDigits h name).bind
    intro name
    apply extends_get
    intro c
    exact Extends.ite ((extends_braced h .field he ahead).bind (fun _ => .refl _)) (.refl _)

theorem extends_bracket {expression expression' : Reader Expr}
    (he : Extends expression expression') :
    Extends (bracket d expression) (bracket d' expression') := by
  apply (extends_advance h).bind
  intro _
  apply he.bind
  intro inner
  exact (extends_expect h .brace ")" _).bind (fun _ => .refl _)

theorem extends_operandOf {expression expression' : Reader Expr}
    (he : Extends expression expression') (ahead : List Char) :
    Extends (operandOf d expression ahead) (operandOf d' expression' ahead) := by
  apply (Extends.refl expectMore).bind
  intro _
  apply extends_get
  intro c
  cases c.held with
  | none => exact .refl _
  | some t =>
    dsimp only
    cases t.kind with
    | number => exact (extends_number h t).map _
    | identifier => exact extends_variableOrCall h t.text he ahead
    | string => exact extends_advance_pure h _
    | brace => exact (extends_bracket h he).ite (.refl _)
    | _ => exact .refl _

theorem extends_operand (ahead : List Char) : Extends (operand d ahead) (operand d' ahead) := by
  induction ahead with
  | nil => exact .refl _
  | cons _ ahead ih =>
    apply (extends_unaryOperator h).bind
    intro op
    cases op with
    | some op => exact ih.bind (fun _ => .refl _)
    | none => exact extends_operandOf h (extends_expressionOf h ih ahead) ahead

theorem extends_expression : Extends (expression d) (expression d') where
  reads {c _ _} he := (extends_expressionOf h (extends_operand h c.ahead) c.ahead).reads he

end Expressions

end Reader

end PartProgram
