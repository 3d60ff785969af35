import PartProgram.Proofs.RoundTrip.Letter

/-!
# Reading written statements

The text of a statement runs into the next one: codes, calls and letters with a
number bring no blank behind them. A written statement is read again wherever another one
begins or the line ends, unless the word `EX` directly follows a number.
-/

set_option autoImplicit false

namespace PartProgram

theorem integerText?_digits {whole : List Char} (hne : whole ≠ [])
    (h : ∀ c ∈ whole, c.isDigit = true) : integerText? whole = readInteger 10 whole := by
  obtain ⟨c, cs, rfl⟩ := List.exists_cons_of_ne_nil hne
  simp only [integerText?, radix_of_isDigit (h c List.mem_cons_self)]

namespace Reader

variable {c after : Cursor} {line : Nat} {spaced : Bool} {whole : List Char}

theorem natural_held {n : Nat} (h : c.held = some ⟨.number, String.ofList whole, spaced, line⟩)
    (hread : integerText? whole = some (n : Int)) (hn : n < 2 ^ 32)
    (ha : advance {} c = .ok () after) : natural {} c = .ok n after := by
  have hint : c.held.bind Token.integer? = some (n : Int) := by
    rw [h]
    simp [Token.integer?, hread]
  have hrange : (decide (0 ≤ (n : Int)) && decide ((n : Int) < (twoTo 32 : Nat))) = true := by
    have hlimit : (twoTo 32 : Nat) = 2 ^ 32 := rfl
    rw [hlimit]
    simp
    omega
  simp only [natural, run_get, hint, hrange, if_true]
  rw [run_bind, ha]
  rfl

theorem integer_held {n : Int} (h : c.held = some ⟨.number, String.ofList whole, spaced, line⟩)
    (hread : integerText? whole = some n) (ha : advance {} c = .ok () after) :
    integer {} c = .ok n after := by
  have hint : c.held.bind Token.integer? = some n := by
    rw [h]
    simp [Token.integer?, hread]
  simp only [integer, run_get, hint]
  rw [run_bind, ha]
  rfl

end Reader

theorem reads_code {letter : Char} (hletter : Scan.isNameChar letter = true) {id : Nat}
    (hid : id < 2 ^ 32) (line : Nat) (spaced : Bool) {rest : List Char} {after : Cursor}
    (hr : NumberEnds rest) (hs : Stands line rest after) :
    ∃ c, Stands line (lead spaced ++ (letter :: padded 2 (digits 10 id) ++ rest)) c ∧
      c.held = some ⟨.identifier, String.ofList [letter], spaced, line⟩ ∧
      Reader.codeNumber {} c = .ok id after := by
  have hne : padded 2 (digits 10 id) ≠ [] := by
    intro hnil
    exact digits_ne_nil 10 id (List.append_eq_nil_iff.mp hnil).2
  have hdigits : ∀ c ∈ padded 2 (digits 10 id), c.isDigit = true :=
    fun c hc => isDigit_mem_padded hc
  have hspell := Spelling.digits hne hdigits
  have hlimit : id < wordLimit := by
    show id < 2 ^ 63
    omega
  have hread : integerText? (padded 2 (digits 10 id)) = some (id : Int) := by
    rw [integerText?_digits hne hdigits, readInteger_padded 2 hlimit]
  refine ⟨_, stands_letter_number hletter hspell line spaced rest, rfl, ?_⟩
  rw [Reader.codeNumber, Reader.run_bind, (hspell.stands line false hr).close.advance]
  simp only
  rw [Reader.run_bind]
  exact Reader.natural_held rfl hread hid (hs.advance _)

theorem statementText_gcode {id : Nat} (hid : id < 2 ^ 32) :
    StatementText (codeText "G" id).toList .closed (.gcode id none) := by
  intro line spaced rest after hr hs hfresh
  obtain ⟨c, hc, hheld, hread⟩ := reads_code (by decide : Scan.isNameChar 'G' = true) hid line
    spaced hr hs
  refine ⟨c, by simpa [codeText] using hc, hheld, ?_⟩
  apply Reader.statement_named hheld rfl
  have hname : Reader.namedStatement {} (String.ofList ['G']) = Reader.gcode {} := by
    simp [Reader.namedStatement, sameLetters]
  rw [hname, Reader.gcode, Reader.run_bind, hread]
  rfl

theorem statementText_mcode {id : Nat} (hid : id < 2 ^ 32) :
    StatementText (codeText "M" id).toList .closed (.mcode id) := by
  intro line spaced rest after hr hs hfresh
  obtain ⟨c, hc, hheld, hread⟩ := reads_code (by decide : Scan.isNameChar 'M' = true) hid line
    spaced hr hs
  refine ⟨c, by simpa [codeText] using hc, hheld, ?_⟩
  apply Reader.statement_named hheld rfl
  have hname : Reader.namedStatement {} (String.ofList ['M']) =
      (Statement.mcode <$> Reader.codeNumber {}) := by
    simp [Reader.namedStatement, sameLetters]
  rw [hname, Reader.run_map, hread]

theorem statementText_keyword {s : Statement} (hw : IsIdentifier s.word) {p : Reader Statement}
    (hn : Reader.namedStatement {} s.word = p)
    (hp : ∀ c after, Reader.advance {} c = .ok () after → p c = .ok s after) :
    StatementText s.word.toList .blank s := by
  rintro line spaced rest after ⟨hr, -⟩ hs hfresh
  refine ⟨_, stands_identifier hw line spaced hr, rfl, ?_⟩
  apply Reader.statement_named rfl rfl
  rw [hn]
  exact hp _ _ (hs.advance _)

theorem statementText_keyword_expression {s : Statement} (hw : IsIdentifier s.word) {e : Expr}
    (he : e.Sound) {p : Reader Statement} (hn : Reader.namedStatement {} s.word = p)
    (hp : ∀ c mid after, Reader.advance {} c = .ok () mid →
      Reader.expression {} mid = .ok e.plain after → p c = .ok s after) :
    StatementText (s.word.toList ++ ' ' :: e.text.toList) .blank s := by
  rintro line spaced rest after ⟨hr, hd⟩ hs hfresh
  obtain ⟨mid, -, hmid, -, -, hread⟩ :=
    expressionText he line true rest after hr hs (hfresh.ends hd)
  have hc := stands_identifier hw line spaced (parted_blank (e.text.toList ++ rest))
  refine ⟨_, by simpa [lead] using hc, rfl, ?_⟩
  apply Reader.statement_named rfl rfl
  rw [hn]
  exact hp _ _ _ (hmid.advance _) (Reader.expression_of_reads hread)

theorem jump_word (direction : JumpDirection) :
    IsIdentifier ("GOTO" ++ direction.suffix) ∧
      Reader.namedStatement {} ("GOTO" ++ direction.suffix) = Reader.jump {} direction := by
  cases direction with
  | _ => exact ⟨by decide, rfl⟩

theorem statementText_return :
    StatementText ("GOTO" ++ JumpDirection.start.suffix).toList .blank (.jump .start none) := by
  obtain ⟨hw, hn⟩ := jump_word .start
  apply statementText_keyword (s := .jump .start none) hw hn
  intro c after ha
  rw [Reader.jump, Reader.run_bind, ha]
  rfl

theorem statementText_jump {direction : JumpDirection} (hd : direction ≠ .start) {target : Expr}
    (he : target.Sound) :
    StatementText (("GOTO" ++ direction.suffix).toList ++ ' ' :: target.text.toList) .blank
      (.jump direction (some target.plain)) := by
  obtain ⟨hw, hn⟩ := jump_word direction
  apply statementText_keyword_expression (s := .jump direction (some target.plain)) hw he hn
  intro c mid after ha hread
  rw [Reader.jump, Reader.run_bind, ha]
  simp only [hd, if_false]
  rw [Reader.run_bind, hread]
  rfl

theorem flow_word (keyword : FlowKeyword) :
    IsIdentifier keyword.word ∧
      Reader.namedStatement {} keyword.word = (Statement.flow <$> Reader.flow {} keyword) := by
  cases keyword with
  | _ => exact ⟨by decide, rfl⟩

namespace Flow

def plain : Flow → Flow
  | ifThen condition => ifThen condition.plain
  | whileDo condition => whileDo condition.plain
  | untilTrue condition => untilTrue condition.plain
  | forTo counter initial last => forTo counter.plain initial.plain last.plain
  | f => f

def parts : Flow → List Expr
  | ifThen condition | whileDo condition | untilTrue condition => [condition]
  | forTo counter initial last => [counter, initial, last]
  | _ => []

def Formed : Flow → Prop
  | forTo counter _ _ => ∃ name fields, counter = .var name fields
  | _ => True

end Flow

theorem statementText_for {name : String} {fields : Option Slots} {initial last : Expr}
    (hvar : (Expr.var name fields).Sound) (hinitial : initial.Sound) (hlast : last.Sound) :
    StatementText ("FOR".toList ++ ' ' :: ((Expr.var name fields).text.toList ++
        '=' :: (initial.text.toList ++ ' ' :: ("TO".toList ++ ' ' :: last.text.toList)))) .blank
      (.flow (.forTo (.var name (plainFields fields)) initial.plain last.plain)) := by
  rintro line spaced rest after ⟨hr, hd⟩ hs hfresh
  obtain ⟨hw, hn⟩ := flow_word .forTo
  have hto : IsIdentifier "TO" := by decide
  obtain ⟨bound, -, hbound, -, -, hlastRead⟩ := expressionText hlast line true rest after hr hs
    (hfresh.ends hd)
  have htoStands := stands_identifier hto line true (parted_blank (last.text.toList ++ rest))
  have hends : (Cursor.mk (lead true ++ (last.text.toList ++ rest)) line
      (some ⟨.identifier, "TO", true, line⟩)).EndsExpression := by
    constructor
    · rintro t ⟨⟩
      simp [Token.is]
    · rintro t ⟨⟩
      simp
  obtain ⟨counter, hcounter, -, hassign⟩ := reads_assignment hvar hinitial line true
    (parted_blank _) htoStands hends
  have hc := stands_identifier hw line spaced (parted_blank ((Expr.var name fields).text.toList ++
    '=' :: (initial.text.toList ++ (lead true ++ ("TO".toList ++ (lead true ++
      (last.text.toList ++ rest)))))))
  have hholds : (Cursor.mk (lead true ++ (last.text.toList ++ rest)) line
      (some ⟨.identifier, "TO", true, line⟩)).holdsKeyword "TO" = true := by
    simp [Cursor.holdsKeyword, Token.isKeyword, sameLetters]
  have htext : "FOR".toList ++ ' ' :: ((Expr.var name fields).text.toList ++
      '=' :: (initial.text.toList ++ ' ' :: ("TO".toList ++ ' ' :: last.text.toList))) ++ rest =
      "FOR".toList ++ (lead true ++ ((Expr.var name fields).text.toList ++
        '=' :: (initial.text.toList ++ (lead true ++ ("TO".toList ++ (lead true ++
          (last.text.toList ++ rest))))))) := by
    simp [lead]
  rw [htext]
  refine ⟨_, hc, rfl, ?_⟩
  apply Reader.statement_named rfl rfl
  rw [hn, Reader.run_map, Reader.flow, Reader.run_bind, hcounter.advance]
  simp only [Reader.forLoop]
  rw [Reader.run_bind, hassign]
  simp only
  rw [Reader.run_bind, Reader.acceptKeyword_held hholds (hbound.advance _)]
  simp only [if_true]
  rw [Reader.run_bind, Reader.expression_of_reads hlastRead]
  rfl

theorem writes_flow {f : Flow} (hf : f.Formed) (hs : ∀ e ∈ f.parts, e.Sound) :
    Writes f.text.toList (.flow f.plain) := by
  have hbare : ∀ flow : Flow,
      (Reader.flow {} flow.keyword = do Reader.advance {}; return flow) →
      Writes (flow.keyword.word.toList ++ [] ++ lead true) (.flow flow) := by
    intro flow h
    obtain ⟨hw, hn⟩ := flow_word flow.keyword
    apply writes_word (.inl hw) .blank (by simp)
    · rw [List.append_nil]
      exact hw.solid
    · rw [List.append_nil]
      apply statementText_keyword (s := .flow flow) hw hn
      intro c after ha
      rw [Reader.run_map, h, Reader.run_bind, ha]
      rfl
  have hcondition : ∀ (keyword : FlowKeyword) (flow : Expr → Flow) (e : Expr), e.Sound →
      (flow e.plain).keyword = keyword →
      (Reader.flow {} keyword = do Reader.advance {}; flow <$> Reader.expression {}) →
      Writes (keyword.word.toList ++ ' ' :: e.text.toList ++ lead true) (.flow (flow e.plain)) := by
    rintro keyword flow e he rfl h
    obtain ⟨hw, hn⟩ := flow_word (flow e.plain).keyword
    apply writes_word (.inl hw) .blank (by simp) (((Expr.text_solid he).cons ' ').append _)
    apply statementText_keyword_expression (s := .flow (flow e.plain)) hw he hn
    intro c mid after ha hread
    rw [Reader.run_map, h, Reader.run_bind, ha]
    simp only
    rw [Reader.run_map, hread]
  cases f with
  | ifThen e =>
    have hw := hcondition .ifThen .ifThen e (hs e (by simp [Flow.parts])) rfl rfl
    simpa [Flow.text, Flow.keyword, Flow.plain, lead] using hw
  | whileDo e =>
    have hw := hcondition .whileDo .whileDo e (hs e (by simp [Flow.parts])) rfl rfl
    simpa [Flow.text, Flow.keyword, Flow.plain, lead] using hw
  | untilTrue e =>
    have hw := hcondition .untilTrue .untilTrue e (hs e (by simp [Flow.parts])) rfl rfl
    simpa [Flow.text, Flow.keyword, Flow.plain, lead] using hw
  | forTo counter initial last =>
    obtain ⟨name, fields, rfl⟩ := hf
    have hlast := hs last (by simp [Flow.parts])
    have hfor := statementText_for (hs (.var name fields) (by simp [Flow.parts]))
      (hs initial (by simp [Flow.parts])) hlast
    have hsolid := (((((((Expr.text_solid hlast).cons ' ').append "TO".toList).cons ' ').append
      initial.text.toList).cons '=').append (Expr.var name fields).text.toList).cons ' '
    have hw := writes_word (.inl (flow_word .forTo).1) .blank (by simp) (hsolid.append _) hfor
    rw [Flow.plain, plain_var]
    simpa [Flow.text, lead, Ending.gap, FlowKeyword.word] using hw
  | otherwise => simpa [Flow.text, Flow.keyword, Flow.plain, lead] using hbare .otherwise rfl
  | endIf => simpa [Flow.text, Flow.keyword, Flow.plain, lead] using hbare .endIf rfl
  | endWhile => simpa [Flow.text, Flow.keyword, Flow.plain, lead] using hbare .endWhile rfl
  | repeatDo => simpa [Flow.text, Flow.keyword, Flow.plain, lead] using hbare .repeatDo rfl
  | loop => simpa [Flow.text, Flow.keyword, Flow.plain, lead] using hbare .loop rfl
  | endLoop => simpa [Flow.text, Flow.keyword, Flow.plain, lead] using hbare .endLoop rfl
  | endFor => simpa [Flow.text, Flow.keyword, Flow.plain, lead] using hbare .endFor rfl

end PartProgram
