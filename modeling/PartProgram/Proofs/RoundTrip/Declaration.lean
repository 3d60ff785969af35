import PartProgram.Proofs.RoundTrip.Clause

/-!
# Reading written declarations

The clauses of a declaration stand in a fixed order, and each of them may be missing.
A missing clause is not mistaken for what follows: the words of the later clauses are
different, and the first name is none of the words that reading would have taken for
a clause.
-/

set_option autoImplicit false

namespace PartProgram

open DeclaredVariable (dimensionsText initialText)

namespace Declaration

def plain (decl : Declaration) : Declaration :=
  { decl with declared := decl.declared.map DeclaredVariable.plain }

def parts (decl : Declaration) : List Expr := decl.declared.flatMap DeclaredVariable.parts

/-- The first name is none of the words that would have been read as a clause. -/
structure Unambiguous (decl : Declaration) (first : String) : Prop where
  upper : decl.upper = none → sameLetters first "ULI" = false
  lower : decl.upper = none → decl.lower = none → sameLetters first "LLI" = false
  unit : decl.upper = none → decl.lower = none → decl.unit = none →
    sameLetters first "PHU" = false

structure Formed (decl : Declaration) : Prop where
  length : ∀ n ∈ decl.length, decl.type = .string ∧ n < 2 ^ 32
  unit : ∀ u ∈ decl.unit, u < 2 ^ 63
  declared : ∃ v vs, decl.declared = v :: vs ∧ decl.Unambiguous (leadingWord v.name)
  lengths : ∀ v ∈ decl.declared, v.Formed

/-- Limits are finite, and units are not negative. -/
def Legible (decl : Declaration) : Prop :=
  (∀ u ∈ decl.unit, 0 ≤ u) ∧ (∀ x ∈ decl.lower, x.isFinite = true) ∧
    ∀ x ∈ decl.upper, x.isFinite = true

def lengthText (length : Option Nat) : List Char :=
  match length with
  | some n => '[' :: (digits 10 n ++ [']'])
  | none => []

def clausesText (decl : Declaration) (names : List Char) : List Char :=
  clauseChars "PHU" (decl.unit.map (fun u => (toString u).toList)) ++
    (clauseChars "LLI" (decl.lower.map (fun x => (realText x).toList)) ++
      (clauseChars "ULI" (decl.upper.map (fun x => (realText x).toList)) ++ (lead true ++ names)))

theorem text_toList (decl : Declaration) :
    decl.text.toList = "DEF".toList ++ (lead true ++ (decl.type.word.toList ++
      (lengthText decl.length ++ decl.clausesText
        (List.intercalate [',', ' '] (decl.declared.map (·.text.toList)))))) ++ [' '] := by
  have hlength : (match decl.length with
      | some n => "[" ++ toString n ++ "]"
      | none => "").toList = lengthText decl.length := by
    cases decl.length <;> simp [lengthText, digits]
  have hclauses : ∀ names : List Char, lead true ++
      ((clauseText "PHU" (decl.unit.map toString)).toList ++
        ((clauseText "LLI" (decl.lower.map realText)).toList ++
          ((clauseText "ULI" (decl.upper.map realText)).toList ++ names))) =
      decl.clausesText names := by
    intro names
    rw [clauseText_toList, clauseText_toList, clauseText_toList, Option.map_map, Option.map_map,
      Option.map_map]
    rfl
  rw [← hlength, ← hclauses]
  simp only [text, String.toList_append, String.toList_intercalate, List.map_map]
  cases decl.length <;> simp [lead, Function.comp_def]

end Declaration

theorem reads_length {type : VariableType} {length : Option Nat}
    (h : ∀ n ∈ length, type = .string ∧ n < 2 ^ 32) (line : Nat) {rest : List Char} {after : Cursor}
    {word : String} (hr : Parted rest) (hs : Stands line rest after) (ha : after.AtWord line word) :
    ∃ c, Stands line (Declaration.lengthText length ++ rest) c ∧
      Parted (Declaration.lengthText length ++ rest) ∧
      Reader.stringLength {} type c = .ok length after := by
  cases length with
  | none =>
    refine ⟨after, hs, hr, ?_⟩
    simp only [Reader.stringLength, Reader.run_get, ha.ends.1.endsName.not_field, Bool.and_false,
      Bool.false_eq_true, if_false]
    rfl
  | some n =>
    obtain ⟨rfl, hn⟩ := h n rfl
    have hclose : Stands line (lead false ++ ']' :: rest)
        ⟨rest, line, some ⟨.fieldBrace, "]", false, line⟩⟩ :=
      stands_lexeme line false (by decide) rfl (by decide)
    obtain ⟨mid, -, hmid, -, -, hread⟩ := entryText_natural hn line false _ _
      (parted_cons (by decide) (by decide) (by decide)) hclose.close
      ⟨by rintro t ⟨⟩; simp [Token.is, Token.isKeyword], by rintro t ⟨⟩; simp⟩ rfl
    have hopen : Stands line (lead false ++ '[' :: (digits 10 n ++ ']' :: rest))
        ⟨digits 10 n ++ ']' :: rest, line, some ⟨.fieldBrace, "[", false, line⟩⟩ :=
      stands_lexeme line false (by decide) rfl (by decide)
    have htext : Declaration.lengthText (some n) ++ rest = '[' :: (digits 10 n ++ ']' :: rest) := by
      simp [Declaration.lengthText]
    have hholds : Cursor.holds .fieldBrace "["
        ⟨digits 10 n ++ ']' :: rest, line, some ⟨.fieldBrace, "[", false, line⟩⟩ = true := rfl
    rw [htext]
    refine ⟨_, hopen.close, parted_cons (by decide) (by decide) (by decide), ?_⟩
    simp only [Reader.stringLength, Reader.run_get, hholds, decide_true, Bool.and_self, if_true]
    rw [Reader.run_bind, hmid.close.advance]
    simp only
    rw [Reader.run_bind, hread]
    simp only
    rw [Reader.run_bind, Reader.expect_held _ rfl (hs.advance _)]
    rfl

theorem type_word (type : VariableType) :
    IsIdentifier type.word ∧ VariableType.ofText type.word = some type := by
  cases type with
  | _ => exact ⟨by decide, by decide⟩

theorem reads_clauses {decl : Declaration} (hf : decl.Formed) (hl : decl.Legible) {first : String}
    (hwords : decl.Unambiguous first) {line : Nat} {names : List Char} {after : Cursor}
    (hs : Stands line (lead true ++ names) after) (hafter : after.AtWord line first) :
    ∃ c lower upper behind word,
      decl.clausesText names = lead true ++ behind ∧ Stands line (lead true ++ behind) c ∧
      c.AtWord line word ∧
      Reader.clause {} "PHU" (Reader.integer {}) c = .ok decl.unit lower ∧
      Reader.clause {} "LLI" (Reader.literal {}) lower = .ok decl.lower upper ∧
      Reader.clause {} "ULI" (Reader.literal {}) upper = .ok decl.upper after := by
  obtain ⟨hunit, hlower, hupper⟩ := hl
  -- From the last clause to the first: each one stands in front of those behind it.
  obtain ⟨uli, behind, htext, huli, hatUli, hreadUli⟩ := reads_clause
    (by decide : IsIdentifier "ULI")
    (Reader.literal {}) decl.upper (fun x => (realText x).toList) hs hafter hwords.upper
    (fun x hx => reads_limit (hupper x hx) line hs hafter.ends)
  obtain ⟨lli, behind', htext', hlli, hatLli, hreadLli⟩ := reads_clause
    (by decide : IsIdentifier "LLI")
    (Reader.literal {}) decl.lower (fun x => (realText x).toList) huli hatUli
    (by
      intro h
      cases hu : decl.upper with
      | none => exact hwords.lower hu h
      | some x => simp [sameLetters])
    (fun x hx => reads_limit (hlower x hx) line huli hatUli.ends)
  obtain ⟨phu, behind'', htext'', hphu, hatPhu, hreadPhu⟩ := reads_clause
    (by decide : IsIdentifier "PHU")
    (Reader.integer {}) decl.unit (fun u => (toString u).toList) hlli hatLli
    (by
      intro h
      cases hl : decl.lower with
      | none =>
        cases hu : decl.upper with
        | none => exact hwords.unit hu hl h
        | some x => simp [sameLetters]
      | some x => simp [sameLetters])
    (fun u hu => reads_unit (hunit u hu) (hf.unit u hu) line hlli)
  refine ⟨phu, lli, uli, behind'', _, ?_, hphu, hatPhu, hreadPhu, hreadLli, hreadUli⟩
  rw [← htext'', ← htext', ← htext, Declaration.clausesText]

theorem Reader.declaration_parts {type : VariableType} {length : Option Nat} {unit : Option Int}
    {lower upper : Option Float} {declared : List DeclaredVariable} {word : String} {line : Nat}
    {c c₁ c₂ c₃ c₄ c₅ c₆ after : Cursor} (hkeyword : advance {} c = .ok () c₁)
    (hheld : c₁.held = some ⟨.identifier, word, true, line⟩)
    (hword : VariableType.ofText word = some type) (htype : advance {} c₁ = .ok () c₂)
    (hlength : stringLength {} type c₂ = .ok length c₃)
    (hunit : clause {} "PHU" (integer {}) c₃ = .ok unit c₄)
    (hlower : clause {} "LLI" (literal {}) c₄ = .ok lower c₅)
    (hupper : clause {} "ULI" (literal {}) c₅ = .ok upper c₆)
    (hnames : entries {} (declaredVariable {}) c₆ = .ok declared after) :
    declaration {} c = .ok ⟨type, length, unit, lower, upper, declared⟩ after := by
  have hmore : expectMore c₁ = .ok () c₁ := by
    have hl : c₁.atLineEnd = false := by
      rw [Cursor.atLineEnd, hheld]
      rfl
    simp only [expectMore, run_get, hl, Bool.false_eq_true, if_false]
    rfl
  have hvariable : variableType {} c₁ = .ok type c₂ := by
    have hfilter : c₁.held.filter (fun t => t.kind == .identifier) =
        some ⟨.identifier, word, true, line⟩ := by
      rw [hheld]
      rfl
    simp only [variableType, run_get, hfilter, Option.bind_some, hword]
    rw [run_bind, htype]
    rfl
  rw [declaration, run_bind, hkeyword]
  simp only
  rw [run_bind, hmore]
  simp only
  rw [run_bind, hvariable]
  simp only
  rw [run_bind, hlength]
  simp only
  rw [run_bind, hunit]
  simp only
  rw [run_bind, hlower]
  simp only
  rw [run_bind, hupper]
  simp only
  rw [run_bind, hnames]
  rfl

/-- A written declaration is read again. -/
theorem statementText_declare {decl : Declaration} (hf : decl.Formed) (hl : decl.Legible)
    (hp : ∀ e ∈ decl.parts, e.Sound) :
    StatementText ("DEF".toList ++ (lead true ++ (decl.type.word.toList ++
      (Declaration.lengthText decl.length ++ decl.clausesText
        (List.intercalate [',', ' '] (decl.declared.map (·.text.toList))))))) .blank
      (.declare decl.plain) := by
  obtain ⟨first, others, hdeclared, hwords⟩ := hf.declared
  rintro line spaced rest after ⟨hr, hd⟩ hs hfresh
  -- The declared variables.
  have hentry : ∀ v ∈ first :: others, EntryText (Reader.declaredVariable {}) v.text.toList v.plain
      (fun spaced line t => t = ⟨.identifier, leadingWord v.name, spaced, line⟩) := by
    intro v hv
    rw [← hdeclared] at hv
    apply entryText_declared (hf.lengths v hv)
    intro e he
    exact hp e (List.mem_flatMap.mpr ⟨v, hv, he⟩)
  obtain ⟨names, t, hnames, hheld, ht, hreads⟩ := reads_separated (fun v => v.text.toList)
    DeclaredVariable.plain
    (fun v spaced line t => t = ⟨.identifier, leadingWord v.name, spaced, line⟩)
    true hentry line true hr hs (hfresh.ends hd)
    (hfresh.not_holds .operator "=" (by decide) (by decide) (by decide))
    (hfresh.not_holds .separator "," (by decide) (by decide) (by decide))
  subst ht
  have hreadNames := Reader.entries_of_reads declared_takes hreads
  -- The clauses in front of them.
  obtain ⟨phu, lli, uli, behind, word, hbehind, hphu, hatPhu, hreadPhu, hreadLli, hreadUli⟩ :=
    reads_clauses hf hl hwords hnames hheld
  -- The type with its length, and the keyword.
  obtain ⟨brace, hbrace, hparted, hreadLength⟩ :=
    reads_length hf.length line (parted_blank behind) hphu hatPhu
  obtain ⟨hword, hof⟩ := type_word decl.type
  have htype := stands_identifier hword line true hparted
  have hdef : IsIdentifier "DEF" := by decide
  have hc := stands_identifier hdef line spaced (parted_blank (decl.type.word.toList ++
    (Declaration.lengthText decl.length ++ (lead true ++ behind))))
  have hclauses : decl.clausesText (List.intercalate [',', ' ']
      (decl.declared.map (·.text.toList))) ++ rest = lead true ++ behind := by
    rw [← hbehind, hdeclared]
    simp only [Declaration.clausesText, List.append_assoc]
    rfl
  have hwhole : "DEF".toList ++ (lead true ++ (decl.type.word.toList ++
      (Declaration.lengthText decl.length ++ decl.clausesText
        (List.intercalate [',', ' '] (decl.declared.map (·.text.toList)))))) ++ rest =
      "DEF".toList ++ (lead true ++ (decl.type.word.toList ++
        (Declaration.lengthText decl.length ++ (lead true ++ behind)))) := by
    rw [← hclauses]
    simp only [List.append_assoc]
  rw [hwhole]
  refine ⟨_, hc, rfl, ?_⟩
  apply Reader.statement_named rfl rfl
  have hname : Reader.namedStatement {} "DEF" = (Statement.declare <$> Reader.declaration {}) := rfl
  rw [hname, Reader.run_map, Reader.declaration_parts (htype.advance _) rfl hof (hbrace.advance _)
    hreadLength hreadPhu hreadLli hreadUli hreadNames, ← hdeclared]
  rfl

theorem DeclaredVariable.text_solid {v : DeclaredVariable} (hp : ∀ e ∈ v.parts, e.Sound) :
    Solid v.text.toList := by
  have hname := (hp (.var v.name none) List.mem_cons_self).self
  rw [text_toList]
  cases hi : v.initial with
  | none =>
    cases hd : v.dimensions with
    | none => simpa [dimensionsText, initialText] using IsName.solid hname.1 hname.2.1
    | some lengths =>
      have hsolid := (((solid_char (by decide : isWhiteSpace ']' = false)).append
        (List.intercalate [','] (lengths.map (digits 10)))).cons '[').append v.name.toList
      simpa [dimensionsText, initialText] using hsolid
  | some e =>
    have he : e.Sound := hp e (by simp [parts, hi])
    exact (((Expr.text_solid he).cons '=').append _).append _

theorem solid_intercalate {separator : List Char} {texts : List (List Char)} (hne : texts ≠ [])
    (h : ∀ text ∈ texts, Solid text) : Solid (List.intercalate separator texts) := by
  induction texts with
  | nil => exact absurd rfl hne
  | cons first texts ih =>
    cases texts with
    | nil => simpa using h first List.mem_cons_self
    | cons second texts =>
      have hrest := ih (by simp) (fun text ht => h text (List.mem_cons_of_mem _ ht))
      rw [List.intercalate_cons_cons]
      exact hrest.append _

theorem writes_declare {decl : Declaration} (hf : decl.Formed) (hl : decl.Legible)
    (hp : ∀ e ∈ decl.parts, e.Sound) : Writes decl.text.toList (.declare decl.plain) := by
  have hdef : IsIdentifier "DEF" := by decide
  obtain ⟨first, others, hdeclared, -⟩ := hf.declared
  have hsolid : Solid (List.intercalate [',', ' '] (decl.declared.map (·.text.toList))) := by
    apply solid_intercalate (by simp [hdeclared])
    rw [List.forall_mem_map]
    intro v hv
    apply DeclaredVariable.text_solid
    intro e he
    exact hp e (List.mem_flatMap.mpr ⟨v, hv, he⟩)
  rw [decl.text_toList]
  apply writes_word (.inl hdef) .blank (by simp) _ (statementText_declare hf hl hp)
  exact (((((((hsolid.append _).append _).append _).append _).append _).append _).append _).append _

end PartProgram
