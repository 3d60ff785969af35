import PartProgram.Proofs.RoundTrip.Expr

/-!
# Reading written assignments and instructions

A statement that begins with a name is read as an assignment or an instruction, unless the
name is a word of its own. Written statements run into each other: a call brings no blank
behind it.
-/

set_option autoImplicit false

namespace PartProgram

def Cursor.Fresh (c : Cursor) : Prop :=
  ∀ t ∈ c.held, t.kind = .newLine ∨ t.kind = .comment ∨ t.kind = .identifier

/-- No exponent begins here, as its word would have to follow directly. -/
def Cursor.Detached (c : Cursor) : Prop := ∀ t ∈ c.held, t.isKeyword "EX" = true → t.spaced = true

theorem Cursor.Fresh.no_operator {c : Cursor} (h : c.Fresh) :
    ∀ t ∈ c.held, t.kind = .operator → t.text = "=" := by
  intro t ht hop
  rcases h t ht with hk | hk | hk
  all_goals simp [hk] at hop

theorem Cursor.Fresh.endsName {c : Cursor} (h : c.Fresh) : c.EndsName := by
  intro t ht
  rcases h t ht with hk | hk | hk
  all_goals simp [Token.is, hk]

theorem Cursor.Fresh.ends {c : Cursor} (h : c.Fresh) (hd : c.Detached) : c.EndsExpression := by
  refine ⟨?_, h.no_operator⟩
  intro t ht
  obtain ⟨hround, hfield, hnumber⟩ := h.endsName t ht
  exact ⟨hround, hfield, fun hk => hk.elim (hd t ht) hnumber⟩

theorem Cursor.Fresh.not_holds {c : Cursor} (h : c.Fresh) (kind : TokenKind) (text : String)
    (hn : kind ≠ .newLine) (hc : kind ≠ .comment) (hi : kind ≠ .identifier) :
    c.holds kind text = false := by
  rw [holds]
  cases ht : c.held with
  | none => rfl
  | some t =>
    rcases h t ht with hk | hk | hk
    · simp [Token.is, hk, hn.symm]
    · simp [Token.is, hk, hc.symm]
    · simp [Token.is, hk, hi.symm]

/-- The words with which statements of their own begin. -/
def isReserved (word : String) : Bool :=
  sameLetters word "G" || sameLetters word "M" || (JumpDirection.ofText word).isSome ||
    sameLetters word "DEF" || (FlowKeyword.ofText word).isSome

def Free (name : String) : Prop := isReserved (leadingWord name) = false

instance (name : String) : Decidable (Free name) :=
  inferInstanceAs (Decidable (isReserved (leadingWord name) = false))

namespace Reader

variable {c mid after : Cursor} {t : Token} {word : String}

theorem statement_named (h : c.held = some t) (hk : t.kind = .identifier) {s : Statement}
    (hs : namedStatement {} t.text c = .ok s after) : statement {} c = .ok (some s) after := by
  have hl : c.atLineEnd = false := by simp [Cursor.atLineEnd, h, hk]
  simp only [statement, run_get, hl, h, hk, Bool.false_eq_true, if_false, if_true]
  rw [run_map, hs]

theorem namedStatement_free (h : isReserved word = false) :
    namedStatement {} word = assignmentOrInstruction {} := by
  simp only [isReserved, Bool.or_eq_false_iff, Option.isSome_eq_false_iff,
    Option.isNone_iff_eq_none] at h
  obtain ⟨⟨⟨⟨hg, hm⟩, hj⟩, hd⟩, hf⟩ := h
  simp only [namedStatement, hg, hm, hj, hd, hf, Bool.false_eq_true, if_false]

theorem expression_operand {e : Expr} (h : Reads (operand {}) c e after)
    (he : ∀ t ∈ after.held, t.kind = .operator → t.text = "=") : expression {} c = .ok e after := by
  apply expression_of_reads
  obtain ⟨n, hn⟩ := h
  refine ⟨n, ?_⟩
  intro ahead hahead
  rw [nested, expressionOf, run_bind, hn ahead hahead]
  exact operations_end he _ _ _ _

theorem expression_difference {lhs rhs : Expr} {right : Cursor} (hl : Reads (operand {}) c lhs mid)
    (hm : mid.held = some t) (hk : t.kind = .operator) (ht : t.text = "-")
    (ha : advance {} mid = .ok () right) (hr : Reads (operand {}) right rhs after)
    (he : ∀ t ∈ after.held, t.kind = .operator → t.text = "=") :
    expression {} c = .ok (.bin .sub lhs rhs) after := by
  apply expression_of_reads
  obtain ⟨n, hn⟩ := hl
  obtain ⟨m, hm'⟩ := hr
  refine ⟨max n m + 1, ?_⟩
  rintro (_ | ⟨x, ahead⟩) hahead
  · simp at hahead
  · have hop : BinaryOp.ofText t.text = some .sub := by rw [ht]; decide
    rw [nested, expressionOf, run_bind, hn (x :: ahead) (by omega)]
    simp only
    rw [operations_operator hm hk (by rw [ht]; decide) hop ha, run_bind,
      hm' (x :: ahead) (by omega)]
    exact operations_end he _ _ _ _

theorem assignmentOrInstruction_difference {name : String} {n : Number}
    (hname : name.utf8ByteSize = 1)
    (h : expression {} c = .ok (.bin .sub (.var name none) (.num n)) after) :
    assignmentOrInstruction {} c = .ok (.assign name none (.num n.negate)) after := by
  rw [assignmentOrInstruction, run_bind, h]
  simp only [Expr.signedWord?, hname, if_true]
  rfl

theorem assignmentOrInstruction_var {name : String} {fields : Option Slots}
    (h : expression {} c = .ok (.var name fields) mid) :
    assignmentOrInstruction {} c = variableStatement {} name fields mid := by
  rw [assignmentOrInstruction, run_bind, h]

theorem assignmentOrInstruction_call {name : String} {args : Slots}
    (h : expression {} c = .ok (.call name args) after) :
    assignmentOrInstruction {} c = .ok (.instruction name (some args)) after := by
  rw [assignmentOrInstruction, run_bind, h]
  rfl

theorem variableStatement_equals {name : String} {fields : Option Slots} {value : Expr}
    (h : c.holds .operator "=" = true) (ha : advance {} c = .ok () mid)
    (he : expression {} mid = .ok value after) :
    variableStatement {} name fields c = .ok (.assign name fields value) after := by
  rw [variableStatement, run_bind, accept_held h ha]
  simp only [if_true]
  rw [run_bind, he]
  rfl

theorem variableStatement_letter {name : String} {letter : Char} {value : Expr}
    (hname : name.toList = [letter]) (h : c.holds .operator "=" = false)
    (he : expression {} c = .ok value after) :
    variableStatement {} name none c = .ok (.assign name none value) after := by
  rw [variableStatement, run_bind, Lockstep.accept_missing h]
  simp only [hname, Option.isSome_none, Bool.false_eq_true, if_false]
  rw [run_bind, he]
  rfl

theorem variableStatement_number {name : String} {letter digit : Char} {rest : List Char} {n : Int}
    (hname : name.toList = letter :: digit :: rest) (hd : digit.isDigit = true)
    (hn : readInteger 10 (digit :: rest) = some n) (h : c.holds .operator "=" = false) :
    variableStatement {} name none c =
      .ok (.assign (String.ofList [letter]) none (.int n)) c := by
  rw [variableStatement, run_bind, Lockstep.accept_missing h]
  simp only [hname, hd, hn, Option.isSome_none, Bool.false_eq_true, if_false, if_true]
  rfl

theorem variableStatement_instruction {name : String} {letter second : Char} {rest : List Char}
    (hname : name.toList = letter :: second :: rest) (hd : second.isDigit = false)
    (h : c.holds .operator "=" = false) :
    variableStatement {} name none c = .ok (.instruction name none) c := by
  rw [variableStatement, run_bind, Lockstep.accept_missing h]
  simp only [hname, hd, Option.isSome_none, Bool.false_eq_true, if_false]
  rfl

end Reader

namespace Statement

def word : Statement → String
  | assign name _ _ => leadingWord name
  | instruction name _ => leadingWord name
  | declare _ => "DEF"
  | gcode .. => "G"
  | mcode _ => "M"
  | jump direction _ => "GOTO" ++ direction.suffix
  | flow f => f.keyword.word

/-- A letter with a number of more than digits, behind which an exponent could follow. -/
def EndsInNumber : Statement → Prop
  | assign name none (.num n) => name.utf8ByteSize = 1 ∧ ¬ n.IsBare
  | _ => False

end Statement

/-- How a written statement ends: with a blank, without one, or with a number. -/
inductive Ending where
  | blank | closed | number

namespace Ending

def gap : Ending → Bool
  | blank => true
  | closed | number => false

def Allows : Ending → List Char → Cursor → Prop
  | blank, rest, after => Parted rest ∧ after.Detached
  | closed, rest, _ => NumberEnds rest
  | number, rest, after => NumberEnds rest ∧ after.Detached

end Ending

/-- A text is read as a statement. -/
def StatementText (text : List Char) (ending : Ending) (s : Statement) : Prop :=
  ∀ (line : Nat) (spaced : Bool) (rest : List Char) (after : Cursor),
    ending.Allows rest after → Stands line rest after → after.Fresh →
    ∃ c, Stands line (lead spaced ++ (text ++ rest)) c ∧
      c.held = some ⟨.identifier, s.word, spaced, line⟩ ∧
      Reader.statement {} c = .ok (some s) after

/-- The text of a statement is read again. It begins with a name, and it ends in a blank
or without white space. -/
def Writes (written : List Char) (s : Statement) : Prop :=
  ∃ text ending, written = text ++ lead ending.gap ∧ (ending = .number → s.EndsInNumber) ∧
    Solid text ∧ (∃ c cs, text = c :: cs ∧ Scan.isNameChar c = true) ∧ StatementText text ending s

theorem writes_word {word : String} (hw : IsName word) {behind : List Char} (ending : Ending)
    {s : Statement} (he : ending ≠ .number) (hs : Solid (word.toList ++ behind))
    (h : StatementText (word.toList ++ behind) ending s) :
    Writes (word.toList ++ behind ++ lead ending.gap) s := by
  obtain ⟨c, cs, hcs, hc⟩ := hw.head
  refine ⟨_, ending, rfl, fun hn => absurd hn he, hs, ⟨c, cs ++ behind, ?_, hc⟩, h⟩
  rw [hcs, List.cons_append]

theorem IsIdentifier.digitsOnly {name : String} (h : IsIdentifier name) : DigitsOnly name := by
  intro letter digit rest hname hd
  have hcut := h.1.cut
  rw [hname] at hcut
  cases rest <;> simp [Scan.cutName, hd] at hcut

theorem reads_instruction {name : String} (hn : IsIdentifier name)
    (hlen : 2 ≤ name.toList.length) (hfree : Free name) (line : Nat) (spaced : Bool)
    {rest : List Char} {after : Cursor} (hr : Parted rest) (hs : Stands line rest after)
    (he : after.EndsExpression) (hequals : after.holds .operator "=" = false) :
    ∃ c, Stands line (lead spaced ++ (name.toList ++ rest)) c ∧
      c.held = some ⟨.identifier, leadingWord name, spaced, line⟩ ∧
      Reader.statement {} c = .ok (some (.instruction name none)) after := by
  obtain ⟨letter, second, tail, hname⟩ : ∃ letter second tail,
      name.toList = letter :: second :: tail := by
    match hname : name.toList with
    | [] => simp [hname] at hlen
    | [letter] => simp [hname] at hlen
    | letter :: second :: tail => exact ⟨letter, second, tail, rfl⟩
  have hsecond : second.isDigit = false := by
    rw [Bool.eq_false_iff]
    intro hd
    have hcut := hn.1.cut
    rw [hname] at hcut
    cases tail <;> simp [Scan.cutName, hd] at hcut
  obtain ⟨c, hc, hheld, hread⟩ := reads_variable (.inl hn) hn.digitsOnly line spaced
    (Parted.numberEnds hr) (fun _ => hr) hs he.1.endsName
  refine ⟨c, hc, hheld, ?_⟩
  apply Reader.statement_named hheld rfl
  rw [Reader.namedStatement_free hfree,
    Reader.assignmentOrInstruction_var (Reader.expression_operand hread he.2)]
  exact Reader.variableStatement_instruction hname hsecond hequals

theorem statementText_instruction {name : String} (hn : IsIdentifier name)
    (hlen : 2 ≤ name.toList.length) (hfree : Free name) :
    StatementText name.toList .blank (.instruction name none) := by
  rintro line spaced rest after ⟨hr, hd⟩ hs hfresh
  exact reads_instruction hn hlen hfree line spaced hr hs (hfresh.ends hd)
    (hfresh.not_holds .operator "=" (by decide) (by decide) (by decide))

theorem statementText_call {name : String} {args : Slots} (hs : (Expr.call name args).Sound)
    (hfree : Free name) :
    StatementText (Expr.call name args).text.toList .closed
      (.instruction name (some (Expr.plainSlots args))) := by
  intro line spaced rest after hr hstands hfresh
  have hargs : ∀ e, some e ∈ args → ExpressionText e.text.toList e.plain :=
    fun e he => expressionText (hs.args e he)
  obtain ⟨c, hc, hheld, hread⟩ := reads_call hs.self.1 hargs line spaced hstands
  have hword := leadingWord_identifier hs.self.1
  refine ⟨c, hc, by rw [hheld, Statement.word, hword], ?_⟩
  apply Reader.statement_named hheld rfl
  rw [Reader.namedStatement_free (hword ▸ hfree)]
  exact Reader.assignmentOrInstruction_call (Reader.expression_operand hread hfresh.no_operator)

theorem stands_equals (line : Nat) {e : Expr} (hs : e.Sound) (rest : List Char) :
    Stands line ('=' :: (e.text.toList ++ rest))
      ⟨e.text.toList ++ rest, line, some ⟨.operator, "=", false, line⟩⟩ := by
  obtain ⟨c, cs, hcs, hc⟩ := Expr.text_head hs
  have hl : Scan.lexeme {} '=' (e.text.toList ++ rest) =
      .found .operator ['='] (e.text.toList ++ rest) := by
    apply Scan.lexeme_sign (by decide)
    rw [hcs]
    rintro b ⟨⟩
    simp [Scan.joins, hc]
  exact Stands.close (stands_lexeme line false (by decide) hl (by decide))

theorem reads_assignment {name : String} {fields : Option Slots} {value : Expr}
    (hvar : (Expr.var name fields).Sound) (hvalue : value.Sound) (line : Nat) (spaced : Bool)
    {rest : List Char} {after : Cursor} (hr : Parted rest) (hs : Stands line rest after)
    (he : after.EndsExpression) :
    ∃ c, Stands line (lead spaced ++ ((Expr.var name fields).text.toList ++
        '=' :: (value.text.toList ++ rest))) c ∧
      c.held = some ⟨.identifier, leadingWord name, spaced, line⟩ ∧
      Reader.assignmentOrInstruction {} c =
        .ok (.assign name (plainFields fields) value.plain) after := by
  obtain ⟨mid, t, hmid, -, -, hvalueRead⟩ := expressionText hvalue line false rest after hr hs he
  have hequals := stands_equals line hvalue rest
  have hends : (Cursor.mk (value.text.toList ++ rest) line
      (some ⟨.operator, "=", false, line⟩)).EndsExpression := by
    constructor
    · rintro t ⟨⟩
      simp [Token.is, Token.isKeyword]
    · rintro t ⟨⟩
      simp
  have hfields : ∀ slots ∈ fields, ∀ e, some e ∈ slots → ExpressionText e.text.toList e.plain := by
    rintro slots hslots e he
    cases hslots
    exact expressionText (hvar.fields e he)
  obtain ⟨c, hc, hheld, hread⟩ := reads_var hvar.self.1 hvar.self.2.1 hfields line
    spaced (parted_cons (by decide) (by decide) (by decide)) hequals hends.1.endsName
  refine ⟨c, hc, hheld, ?_⟩
  rw [Reader.assignmentOrInstruction_var (Reader.expression_operand hread hends.2)]
  exact Reader.variableStatement_equals rfl (hmid.close.advance _)
    (Reader.expression_of_reads hvalueRead)

theorem statementText_assign {name : String} {fields : Option Slots} {value : Expr}
    (hvar : (Expr.var name fields).Sound) (hvalue : value.Sound) (hfree : Free name) :
    StatementText ((Expr.var name fields).text.toList ++ '=' :: value.text.toList) .blank
      (.assign name (plainFields fields) value.plain) := by
  rintro line spaced rest after ⟨hr, hd⟩ hs hfresh
  obtain ⟨c, hc, hheld, hread⟩ := reads_assignment hvar hvalue line spaced hr hs (hfresh.ends hd)
  refine ⟨c, by simpa using hc, hheld, ?_⟩
  apply Reader.statement_named hheld rfl
  rw [Reader.namedStatement_free hfree]
  exact hread

end PartProgram
