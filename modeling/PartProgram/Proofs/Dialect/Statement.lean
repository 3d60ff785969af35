import PartProgram.Proofs.Dialect.Expr
import PartProgram.Statement.Reader

/-!
# Statements in a wider dialect

Almost every reader of the wider dialect reads what that of the narrower one reads. A G
code is the exception: with a field brace behind it the wider dialect goes on to its
arguments, where the narrower one ends the statement.
-/

set_option autoImplicit false

namespace PartProgram

namespace Reader

variable {α β : Type}

section Statements

variable {d d' : Dialect} (h : d.Within d')
include h

theorem extends_separated {entry entry' : Reader α} (he : Extends entry entry')
    (ahead : List Char) : Extends (separated d entry ahead) (separated d' entry' ahead) := by
  induction ahead with
  | nil => exact he.bind (fun _ => .refl _)
  | cons _ ahead ih =>
    apply he.bind
    intro first
    apply (extends_accept h .separator ",").bind
    intro more
    exact Extends.ite (ih.bind (fun _ => .refl _)) (.refl _)

theorem extends_entries {entry entry' : Reader α} (he : Extends entry entry') :
    Extends (entries d entry) (entries d' entry') where
  reads {c _ _} hl := (extends_separated h he c.ahead).reads hl

theorem extends_fieldEntries {entry entry' : Reader α} (he : Extends entry entry') :
    Extends (fieldEntries d entry) (fieldEntries d' entry') := by
  apply (extends_advance h).bind
  intro _
  apply (extends_entries h he).bind
  intro list
  exact (extends_expect h .fieldBrace "]" _).bind (fun _ => .refl _)

theorem extends_codeNumber : Extends (codeNumber d) (codeNumber d') :=
  (extends_advance h).bind (fun _ => (Extends.refl _).bind (fun _ => extends_natural h))

theorem extends_jump (direction : JumpDirection) :
    Extends (jump d direction) (jump d' direction) := by
  apply (extends_advance h).bind
  intro _
  exact (Extends.refl _).ite ((extends_expression h).bind (fun _ => .refl _))

theorem extends_clause (word : String) {body body' : Reader α} (hb : Extends body body') :
    Extends (clause d word body) (clause d' word body') := by
  apply (extends_acceptKeyword h word).bind
  intro found
  exact (hb.map some).ite (.refl _)

theorem extends_literal : Extends (literal d) (literal d') := by
  apply extends_get
  intro c
  exact (extends_expression h).bind (fun _ => .refl _)

theorem extends_variableType : Extends (variableType d) (variableType d') := by
  apply extends_get
  intro c
  cases (c.held.filter (·.kind == .identifier)).bind (VariableType.ofText ·.text) with
  | none => exact .refl _
  | some type => exact extends_advance_pure h type

theorem extends_stringLength (type : VariableType) :
    Extends (stringLength d type) (stringLength d' type) := by
  apply extends_get
  intro c
  refine Extends.ite ((extends_advance h).bind (fun _ => ?_)) (.refl _)
  apply (extends_natural h).bind
  intro length
  exact (extends_expect h .fieldBrace "]" _).bind (fun _ => .refl _)

theorem extends_declaredVariable : Extends (declaredVariable d) (declaredVariable d') := by
  have hdimensions : Extends (dimensions d) (dimensions d') :=
    extends_get (fun _ => ((extends_fieldEntries h (extends_natural h)).map some).ite (.refl _))
  have hinitial : Extends (initialValue d) (initialValue d') :=
    (extends_accept h .operator "=").bind
      (fun _ => ((extends_expression h).map some).ite (.refl _))
  apply extends_get
  intro c
  cases c.held.filter (·.kind == .identifier) with
  | none => exact .refl _
  | some t =>
    apply (extends_advance h).bind
    intro _
    apply (extends_gluedDigits h t.text).bind
    intro name
    apply hdimensions.bind
    intro dimensions
    exact hinitial.bind (fun _ => .refl _)

theorem extends_declaration : Extends (declaration d) (declaration d') := by
  apply (extends_advance h).bind
  intro _
  apply (Extends.refl expectMore).bind
  intro _
  apply (extends_variableType h).bind
  intro type
  apply (extends_stringLength h type).bind
  intro length
  apply (extends_clause h "PHU" (extends_integer h)).bind
  intro unit
  apply (extends_clause h "LLI" (extends_literal h)).bind
  intro lower
  apply (extends_clause h "ULI" (extends_literal h)).bind
  intro upper
  exact (extends_entries h (extends_declaredVariable h)).bind (fun _ => .refl _)

theorem extends_variableStatement (name : String) (fields : Option Slots) :
    Extends (variableStatement d name fields) (variableStatement d' name fields) := by
  have hvalue : ∀ name fields,
      Extends (do return Statement.assign name fields (← expression d))
        (do return Statement.assign name fields (← expression d')) :=
    fun _ _ => (extends_expression h).bind (fun _ => .refl _)
  apply (extends_accept h .operator "=").bind
  intro found
  apply (hvalue name fields).ite
  apply (Extends.refl _).ite
  match name.toList with
  | [] => exact .refl _
  | [_] => exact hvalue name none
  | letter :: digit :: rest => exact .refl _

theorem extends_assignmentOrInstruction :
    Extends (assignmentOrInstruction d) (assignmentOrInstruction d') := by
  apply (extends_expression h).bind
  intro e
  cases e with
  | var name fields => exact extends_variableStatement h name fields
  | str text =>
    refine ⟨fun {c after s} hs => ?_⟩
    cases hd : d.stringInstructions with
    | true => simpa [hd, h.strings hd] using hs
    | false =>
      simp only [hd, Bool.false_eq_true, if_false] at hs
      cases hs
  | _ => exact .refl _

theorem extends_flow (keyword : FlowKeyword) : Extends (flow d keyword) (flow d' keyword) := by
  have hfor : Extends (forLoop d) (forLoop d') := by
    apply (extends_assignmentOrInstruction h).bind
    intro s
    cases s with
    | assign name fields initial =>
      apply (extends_acceptKeyword h "TO").bind
      intro found
      exact Extends.ite ((extends_expression h).bind (fun _ => .refl _)) (.refl _)
    | _ => exact .refl _
  apply (extends_advance h).bind
  intro _
  cases keyword with
  | ifThen | whileDo | untilTrue => exact (extends_expression h).map _
  | forTo => exact hfor
  | _ => exact .refl _

end Statements

/-- A field brace is held where a statement could begin. -/
def Stuck (c : Cursor) : Prop := c.holds .fieldBrace "[" = true

theorem Stuck.held {c : Cursor} (h : Stuck c) : ∃ t, c.held = some t ∧ t.kind = .fieldBrace := by
  unfold Stuck Cursor.holds at h
  cases hc : c.held with
  | none => simp [hc] at h
  | some t => exact ⟨t, rfl, by simp_all [Token.is]⟩

theorem Stuck.not_holds {c : Cursor} (h : Stuck c) {kind : TokenKind} (hk : kind ≠ .fieldBrace)
    (text : String) : c.holds kind text = false := by
  obtain ⟨t, ht, htk⟩ := h.held
  simp [Cursor.holds, ht, Token.is, htk, hk.symm]

theorem Stuck.not_atLineEnd {c : Cursor} (h : Stuck c) : c.atLineEnd = false := by
  obtain ⟨t, ht, htk⟩ := h.held
  simp [Cursor.atLineEnd, ht, htk]

/-- The other reader reads what the one reads, unless that stops at a field brace. -/
structure ExtendsFree (p p' : Reader α) : Prop where
  same : ∀ {c after : Cursor} {a : α}, p c = .ok a after → p' c = .ok a after ∨ Stuck after

/-- Besides, the one reader does not get past a field brace at which it stands. -/
structure Follows (p p' : Reader α) : Prop extends ExtendsFree p p' where
  stuck : ∀ {c after : Cursor} {a : α}, Stuck c → p c = .ok a after → Stuck after

theorem Extends.free {p p' : Reader α} (h : Extends p p') : ExtendsFree p p' :=
  ⟨fun ha => .inl (h.reads ha)⟩

theorem extendsFree_get {k k' : Cursor → Reader α} (h : ∀ c, ExtendsFree (k c) (k' c)) :
    ExtendsFree ((get : Reader Cursor) >>= k) ((get : Reader Cursor) >>= k') :=
  ⟨fun {c _ _} ha => (h c).same (c := c) ha⟩

theorem ExtendsFree.ite {b : Prop} [Decidable b] {p p' q q' : Reader α} (hp : ExtendsFree p p')
    (hq : ExtendsFree q q') : ExtendsFree (if b then p else q) (if b then p' else q') := by
  split
  · exact hp
  · exact hq

theorem ExtendsFree.map {p p' : Reader α} (hp : ExtendsFree p p') (f : α → β) :
    ExtendsFree (f <$> p) (f <$> p') where
  same h := by
    obtain ⟨a, ha, rfl⟩ := ok_map h
    rw [run_map]
    rcases hp.same ha with ha' | hstuck
    · exact .inl (by rw [ha'])
    · exact .inr hstuck

theorem Extends.follows {p p' : Reader α} (h : Extends p p')
    (hs : ∀ {c after : Cursor} {a : α}, Stuck c → p c = .ok a after → after = c) :
    Follows p p' :=
  ⟨h.free, fun hc ha => hs hc ha ▸ hc⟩

theorem follows_pure (a : α) : Follows (pure a) (pure a) := by
  apply (Extends.refl _).follows
  intro c after b _ hb
  cases hb
  rfl

theorem Follows.bind {p p' : Reader α} {q q' : α → Reader β} (hp : Follows p p')
    (hq : ∀ a, Follows (q a) (q' a)) : Follows (p >>= q) (p' >>= q') where
  same hb := by
    obtain ⟨a, mid, ha, hb⟩ := ok_bind hb
    rcases hp.same ha with ha' | hmid
    · rw [run_bind, ha']
      exact (hq a).same hb
    · exact .inr ((hq a).stuck hmid hb)
  stuck hc hb := by
    obtain ⟨a, mid, ha, hb⟩ := ok_bind hb
    exact (hq a).stuck (hp.stuck hc ha) hb

theorem Follows.ite {b : Prop} [Decidable b] {p p' q q' : Reader α} (hp : Follows p p')
    (hq : Follows q q') : Follows (if b then p else q) (if b then p' else q') := by
  split
  · exact hp
  · exact hq

section Blocks

variable {d d' : Dialect} (h : d.Within d')
include h

theorem gcode_extendsFree : ExtendsFree (gcode d) (gcode d') where
  same {c after s} hs := by
    obtain ⟨id, mid, hid, hs⟩ := ok_bind hs
    have hid' := (extends_codeNumber h).reads hid
    rw [gcode, run_bind, hid']
    simp only [run_get] at hs ⊢
    cases hb : mid.holds .fieldBrace "[" with
    | false =>
      simp only [hb, Bool.and_false, Bool.false_eq_true, if_false] at hs ⊢
      exact .inl hs
    | true =>
      cases hd : d.gcodeArguments with
      | true =>
        simp only [hb, hd, h.arguments hd, Bool.and_true, if_true] at hs ⊢
        have harguments := (extends_fieldEntries h (extends_expression h)).bind
          (fun list => .refl (pure (Statement.gcode id (some list))))
        exact .inl (harguments.reads hs)
      | false =>
        simp only [hd, Bool.false_and, Bool.false_eq_true, if_false] at hs
        cases hs
        exact .inr hb

theorem namedStatement_extendsFree (name : String) :
    ExtendsFree (namedStatement d name) (namedStatement d' name) := by
  apply (gcode_extendsFree h).ite
  apply Extends.free
  apply ((extends_codeNumber h).map _).ite
  cases JumpDirection.ofText name with
  | some direction => exact extends_jump h direction
  | none =>
    apply ((extends_declaration h).map _).ite
    cases FlowKeyword.ofText name with
    | some keyword => exact (extends_flow h keyword).map _
    | none => exact extends_assignmentOrInstruction h

omit h in
theorem operand_stuck {c after : Cursor} {e : Expr} (hc : Stuck c) (ahead : List Char) :
    operand d ahead c ≠ .ok e after := by
  obtain ⟨t, ht, hk⟩ := hc.held
  cases ahead with
  | nil => simp [operand, fail, failWith]
  | cons _ ahead =>
    have hheld : heldOperator c = .ok none c := by
      simp only [heldOperator, run_get, run_pure]
      simp [ht, hk, Option.filter]
    have hprefix : unaryOperator d c = .ok none c := by
      rw [unaryOperator, run_bind, hheld]
      rfl
    have hmore : expectMore c = .ok () c := by
      simp only [expectMore, run_get, hc.not_atLineEnd, Bool.false_eq_true, if_false]
      rfl
    rw [operand, run_bind, hprefix]
    simp only [operandOf, run_bind expectMore, hmore, run_get, ht, hk]
    simp [fail, failWith]

omit h in
theorem expression_stuck {c after : Cursor} {e : Expr} (hc : Stuck c) :
    expression d c ≠ .ok e after := by
  intro he
  obtain ⟨first, mid, hfirst, -⟩ := ok_bind he
  exact operand_stuck hc c.ahead hfirst

omit h in
theorem statement_stuck {c after : Cursor} {s : Option Statement} (hc : Stuck c) :
    statement d c ≠ .ok s after := by
  intro hs
  obtain ⟨t, ht, hk⟩ := hc.held
  simp only [statement, run_get, hc.not_atLineEnd, ht, hk, Bool.false_eq_true, if_false,
    reduceCtorEq] at hs
  obtain ⟨found, hfound, -⟩ := ok_map hs
  obtain ⟨e, mid, he, -⟩ := ok_bind hfound
  exact expression_stuck hc he

theorem statement_follows : Follows (statement d) (statement d') where
  toExtendsFree := by
    apply extendsFree_get
    intro c
    apply (Extends.refl (pure none)).free.ite
    cases c.held with
    | none => exact (Extends.refl _).free
    | some t =>
      exact ((namedStatement_extendsFree h t.text).map some).ite
        ((extends_assignmentOrInstruction h).map some).free
  stuck hc hs := absurd hs (statement_stuck hc)

end Blocks

end Reader

end PartProgram
