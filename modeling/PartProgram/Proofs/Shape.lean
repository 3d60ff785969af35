import PartProgram.Proofs.RoundTrip

/-!
# The form of a program that is read

Writing and running rely on the form of a program without checking it. Whatever the text and
the dialect, reading gives this form: jumps have the targets that they need, loops count with
a variable, lists that stand for something are not empty, a minus sign belongs to its number,
and a name is of one of few kinds. One kind is not meant to be there: a number constant in
quotes directly behind a letter becomes a part of the name.
-/

set_option autoImplicit false

namespace PartProgram

def IsLetter (name : String) : Prop :=
  ∃ letter, name.toList = [letter] ∧ Scan.isNameChar letter = true

def IsNumberedLetter (name : String) : Prop :=
  ∃ letter digit rest, name.toList = letter :: digit :: rest ∧ Scan.isNameChar letter = true ∧
    digit.isDigit = true ∧ ∀ c ∈ rest, c.isDigit = true

def IsLongName (name : String) : Prop :=
  ∃ first second rest, name.toList = first :: second :: rest ∧ Scan.isNameChar first = true ∧
    Scan.isNameChar second = true ∧ ∀ c ∈ rest, (Scan.isNameChar c || c.isDigit) = true

/-- One letter followed by the content of a number constant that the text has in quotes. -/
def IsLetterWithConstant (source : List Char) (name : String) : Prop :=
  ∃ letter digit rest, name.toList = letter :: digit :: rest ∧ Scan.isNameChar letter = true ∧
    digit.isDigit = true ∧ QuotedIn source (digit :: rest)

/-- What reading a text gives as the name of a variable with a value. -/
def IsAssigned (source : List Char) (name : String) : Prop :=
  IsLetter name ∨ IsNumberedLetter name ∨ IsLongName name ∨ IsLetterWithConstant source name

theorem IsLabel.isLongName {name : String} (h : IsLabel name) : IsLongName name := by
  obtain ⟨first, second, rest, hname, hsecond⟩ := h.characters
  have hword := h.1.1
  rw [hname] at hword
  refine ⟨first, second, rest, hname, hword.first first rfl, ?_, ?_⟩
  · simpa [hsecond] using hword.chars second (by simp)
  · intro c hc
    exact hword.chars c (by simp [hc])

theorem IsIdentifier.isLetter_or_isLongName {name : String} (h : IsIdentifier name) :
    IsLetter name ∨ IsLongName name := by
  by_cases hlength : 2 ≤ name.toList.length
  · exact .inr (IsLabel.isLongName ⟨h, hlength⟩)
  · match hname : name.toList with
    | [] => exact absurd hname h.1.ne_nil
    | [letter] => exact .inl ⟨letter, hname, h.1.first letter (by simp [hname])⟩
    | _ :: _ :: _ => simp [hname] at hlength

theorem isAssigned_of_name {source : List Char} {name : String} (h : IsName name)
    (hn : NumberedIn source name) : IsAssigned source name := by
  rcases h with h | ⟨letter, digit, rest, hname, hletter, hdigit⟩
  · rcases h.isLetter_or_isLongName with h | h
    · exact .inl h
    · exact .inr (.inr (.inl h))
  · rcases hn with hdigits | ⟨first, content, hfirst, hquoted⟩
    · exact .inr (.inl
        ⟨letter, digit, rest, hname, hletter, hdigit, hdigits letter digit rest hname hdigit⟩)
    · rw [hname] at hfirst
      cases hfirst
      exact .inr (.inr (.inr ⟨letter, digit, rest, hname, hletter, hdigit, hquoted⟩))

theorem Expr.Shaped.isAssigned {source : List Char} {name : String} {fields : Option Slots}
    (h : (Expr.var name fields).Shaped source) : IsAssigned source name :=
  isAssigned_of_name h.name.1 h.name.2

theorem Expr.Shaped.minus {source : List Char} {e : Expr} (h : e.Shaped source) (n : Number) :
    Expr.un .negate (.num n) ∉ e.nodes := by
  intro hmem
  have hformed := (h _ hmem).formed
  exact hformed.2 rfl n rfl

namespace Block

/-- What reading a text in a dialect guarantees of a block. -/
structure WellRead (d : Dialect) (source : List Char) (b : Block) : Prop where
  /-- A block number is not left among the statements. -/
  first : b.number = none → b.labels = [] → ∀ name fields value,
    b.statements.head? = some (.assign name fields value) → sameLetters name "N" = false
  jump : ∀ direction target, .jump direction target ∈ b.statements →
    (target.isSome = true ↔ direction ≠ .start)
  counter : ∀ counter initial last, .flow (.forTo counter initial last) ∈ b.statements →
    ∃ name fields, counter = .var name fields ∧ IsAssigned source name
  arguments : ∀ id args, .gcode id (some args) ∈ b.statements →
    d.gcodeArguments = true ∧ args ≠ []
  declaration : ∀ decl, .declare decl ∈ b.statements → decl.declared ≠ [] ∧
    (decl.length.isSome = true → decl.type = .string) ∧
    ∀ v ∈ decl.declared, v.dimensions ≠ some []
  minus : ∀ s ∈ b.statements, ∀ e ∈ s.parts, ∀ n, .un .negate (.num n) ∉ e.nodes
  label : ∀ name ∈ b.labels, IsLongName name ∨ d.stringInstructions = true ∧ IsQuoted name
  instruction : ∀ name, .instruction name none ∈ b.statements →
    IsLongName name ∨ d.stringInstructions = true ∧ IsQuoted name
  assigned : ∀ name fields value, .assign name fields value ∈ b.statements →
    IsAssigned source name

end Block

theorem Dialect.IsBareWord.cases {d : Dialect} {name : String} (h : d.IsBareWord name) :
    IsLongName name ∨ d.stringInstructions = true ∧ IsQuoted name :=
  h.imp_left IsLabel.isLongName

namespace Statement

variable {d : Dialect} {source : List Char}

theorem Shaped.jump {direction : JumpDirection} {target : Option Expr}
    (h : (Statement.jump direction target).Shaped d source) :
    target.isSome = true ↔ direction ≠ .start := by
  have hformed : target = none ↔ direction = .start := h.1
  rw [Option.isSome_iff_ne_none]
  exact not_congr hformed

theorem Shaped.counter {counter initial last : Expr}
    (h : (Statement.flow (.forTo counter initial last)).Shaped d source) :
    ∃ name fields, counter = .var name fields ∧ IsAssigned source name := by
  obtain ⟨name, fields, rfl⟩ : ∃ name fields, counter = .var name fields := h.1
  have hvar := h.2 (.var name fields) (by simp [expressions, Statement.parts, Flow.parts])
  exact ⟨name, fields, rfl, hvar.isAssigned⟩

theorem Shaped.declaration {decl : Declaration}
    (h : (Statement.declare decl).Shaped d source) :
    decl.declared ≠ [] ∧ (decl.length.isSome = true → decl.type = .string) ∧
      ∀ v ∈ decl.declared, v.dimensions ≠ some [] := by
  have hformed : decl.Formed := h.1
  obtain ⟨v, vs, hdeclared, -⟩ := hformed.declared
  refine ⟨by simp [hdeclared], ?_, ?_⟩
  · intro hsome
    obtain ⟨n, hn⟩ := Option.isSome_iff_exists.mp hsome
    exact (hformed.length n hn).1
  · intro v hv hempty
    exact (hformed.lengths v hv [] hempty).1 rfl

theorem Shaped.minus {s : Statement} (h : s.Shaped d source) :
    ∀ e ∈ s.parts, ∀ n, Expr.un .negate (.num n) ∉ e.nodes := by
  intro e he n
  cases s with
  | instruction name args =>
    cases args with
    | none =>
      rw [Statement.parts, List.mem_singleton] at he
      simp [he, Expr.nodes]
    | some slots => exact (h.2 e he).minus n
  | _ => exact (h.2 e he).minus n

end Statement

theorem Block.Shaped.wellRead {d : Dialect} {source : List Char} {b : Block}
    (h : b.Shaped d source) : b.WellRead d source where
  first hnumber hlabels name fields value hhead :=
    Bool.eq_false_iff.mpr (h.first hnumber hlabels _ hhead)
  jump direction target hmem := (h.statements _ hmem).jump
  counter counter initial last hmem := (h.statements _ hmem).counter
  arguments id args hmem := (h.statements _ hmem).1.2 args rfl
  declaration decl hmem := (h.statements _ hmem).declaration
  minus s hmem := (h.statements s hmem).minus
  label name hmem := (h.labels name hmem).cases
  instruction name hmem := Dialect.IsBareWord.cases (h.statements _ hmem).1
  assigned name fields value hmem :=
    ((h.statements _ hmem).2 (.var name fields)
      (by simp [Statement.expressions, Statement.parts])).isAssigned

namespace Program

/-- Every block of a program that is read is well read. -/
theorem parse_wellRead {d : Dialect} {text : String} {p : Program} (h : parse d text = .ok p) :
    ∀ b ∈ p.blocks, b.WellRead d text.toList :=
  fun b hb => (parse_shaped h b hb).wellRead

theorem parse_wellRead_strings :
    ∃ p : Program, parse { gcodeArguments := true, stringInstructions := true }
        "\x22A\x22: G5[1,2] \x22B\x22 R1=2" = .ok p ∧
      p.blocks.map (·.labels) = [["\x22A\x22"]] ∧
      ∀ b ∈ p.blocks, b.WellRead { gcodeArguments := true, stringInstructions := true }
        "\x22A\x22: G5[1,2] \x22B\x22 R1=2".toList := by
  have hread : (parse { gcodeArguments := true, stringInstructions := true }
      "\x22A\x22: G5[1,2] \x22B\x22 R1=2").toOption.map (fun p => p.blocks.map (·.labels)) =
        some [["\x22A\x22"]] := by decide +kernel
  cases hp : parse { gcodeArguments := true, stringInstructions := true }
      "\x22A\x22: G5[1,2] \x22B\x22 R1=2" with
  | error e =>
    rw [hp] at hread
    cases hread
  | ok p =>
    rw [hp] at hread
    exact ⟨p, rfl, Option.some.inj hread, parse_wellRead hp⟩

/-- The quoted constant behind the letter is glued to it, and the name is none of the kinds
that are meant. -/
theorem name_with_quoted_constant :
    parse {} "R'1e5'=Q" =
        .ok ⟨[{ line := 1, statements := [.assign "R1e5" none (.var "Q" none)] }]⟩ ∧
      ¬ IsLetter "R1e5" ∧ ¬ IsNumberedLetter "R1e5" ∧ ¬ IsLongName "R1e5" ∧ ¬ IsQuoted "R1e5" := by
  have hc : Stands 1 "R'1e5'=Q".toList
      ⟨['\x27', '1', 'e', '5', '\x27', '=', 'Q'], 1, some ⟨.identifier, "R", false, 1⟩⟩ := rfl
  have hs : Reader.statement {}
      ⟨['\x27', '1', 'e', '5', '\x27', '=', 'Q'], 1, some ⟨.identifier, "R", false, 1⟩⟩ =
        .ok (some (.assign "R1e5" none (.var "Q" none))) ⟨[], 1, none⟩ := rfl
  have hn : ¬ (Statement.assign "R1e5" none (.var "Q" none)).IsNumber := by
    simp [Statement.IsNumber, sameLetters]
  refine ⟨parse_single hc hs hn, ?_, ?_, ?_, ?_⟩
  · simp [IsLetter]
  · simp [IsNumberedLetter]
  · simp [IsLongName, Scan.isNameChar]
  · rintro ⟨text, htext, -⟩
    have hhead := congrArg (fun s => s.toList.head?) htext
    simp at hhead

end Program

end PartProgram
