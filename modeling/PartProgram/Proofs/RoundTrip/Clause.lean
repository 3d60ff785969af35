import PartProgram.Proofs.RoundTrip.Statement

/-!
# Reading the parts of written declarations

Lists of dimensions and names stand between commas. A clause may be missing, and then it is
not mistaken for what follows, as the words of the clauses are different.
-/

set_option autoImplicit false

namespace PartProgram

/-- A text is read as an entry of a list; its first token satisfies a condition. -/
def EntryText {β : Type} (entry : Reader β) (text : List Char) (value : β)
    (opens : Bool → Nat → Token → Prop) : Prop :=
  ∀ (line : Nat) (spaced : Bool) (rest : List Char) (after : Cursor), Parted rest →
    Stands line rest after → after.EndsExpression → after.holds .operator "=" = false →
    ∃ c t, Stands line (lead spaced ++ (text ++ rest)) c ∧ c.held = some t ∧ opens spaced line t ∧
      entry c = .ok value after

namespace Reader

variable {β : Type} {entry : Reader β} {c mid next after : Cursor} {value : β} {values : List β}

theorem separated_last (h : entry c = .ok value after) (hc : after.holds .separator "," = false)
    (x : Char) (ahead : List Char) : separated {} entry (x :: ahead) c = .ok [value] after := by
  rw [separated, run_bind, h]
  simp only
  rw [run_bind, Lockstep.accept_missing hc]
  rfl

theorem separated_more (h : entry c = .ok value mid) (hc : mid.holds .separator "," = true)
    (ha : advance {} mid = .ok () next) (x : Char) {ahead : List Char}
    (hs : separated {} entry ahead next = .ok values after) :
    separated {} entry (x :: ahead) c = .ok (value :: values) after := by
  rw [separated, run_bind, h]
  simp only
  rw [run_bind, accept_held hc ha]
  simp only [if_true]
  rw [run_bind, hs]
  rfl

theorem entries_of_reads (he : ∀ F F' : Nat, Takes 0 (Cursor.Below 0) F F' entry entry)
    (h : Reads (separated {} entry) c values after) : entries {} entry c = .ok values after := by
  obtain ⟨n, hn⟩ := h
  obtain ⟨long, hlong⟩ : ∃ long : List Char, long.length = max n c.size :=
    ⟨List.replicate (max n c.size) ' ', by simp⟩
  have hahead := hn long (by omega)
  have hlength := c.ahead_length
  have hsame : Same 0 (Cursor.Below 0) c.size c.size (entries {} entry c)
      (separated {} entry long c) :=
    (lockstep_below {} 0).separated (he c.size c.size) c.ahead long c.below_zero.symm (by omega)
      (by omega) (by omega) (by omega) (by omega) (by omega)
  rw [hahead] at hsame
  exact eq_of_same hsame

end Reader

theorem reads_separated {α β : Type} {entry : Reader β} (text : α → List Char) (value : α → β)
    (opens : α → Bool → Nat → Token → Prop) (blank : Bool) {item : α} {items : List α}
    (h : ∀ i ∈ item :: items, EntryText entry (text i) (value i) (opens i)) (line : Nat)
    (spaced : Bool) {rest : List Char} {after : Cursor} (hr : Parted rest)
    (hs : Stands line rest after) (he : after.EndsExpression)
    (hequals : after.holds .operator "=" = false) (hcomma : after.holds .separator "," = false) :
    ∃ c t, Stands line (lead spaced ++
        (List.intercalate (',' :: lead blank) ((item :: items).map text) ++ rest)) c ∧
      c.held = some t ∧ opens item spaced line t ∧
      Reads (Reader.separated {} entry) c ((item :: items).map value) after := by
  induction items generalizing item spaced with
  | nil =>
    obtain ⟨c, t, hc, hheld, hopens, hread⟩ :=
      h item List.mem_cons_self line spaced rest after hr hs he hequals
    refine ⟨c, t, by simpa using hc, hheld, hopens, 1, ?_⟩
    rintro (_ | ⟨x, ahead⟩) hahead
    · simp at hahead
    · exact Reader.separated_last hread hcomma x ahead
  | cons second items ih =>
    obtain ⟨next, -, hnext, -, -, n, hn⟩ := ih (fun i hi => h i (List.mem_cons_of_mem _ hi)) blank
    obtain ⟨comma, hstands, hsep, hend, hu, hl⟩ := stands_comma line (lead blank ++
      (List.intercalate (',' :: lead blank) ((second :: items).map text) ++ rest))
    have hnot : comma.holds .operator "=" = false :=
      Cursor.not_holds_other hsep (by decide) "="
    obtain ⟨c, t, hc, hheld, hopens, hread⟩ := h item List.mem_cons_self line spaced _ comma
      (parted_cons (by decide) (by decide) (by decide)) hstands hend hnot
    refine ⟨c, t, ?_, hheld, hopens, n + 1, ?_⟩
    · simpa [List.intercalate_cons_cons] using hc
    · rintro (_ | ⟨x, ahead⟩) hahead
      · simp at hahead
      · exact Reader.separated_more hread hsep (hnext.next hu hl) x
          (hn ahead (by simpa using hahead))

theorem entryText_natural {n : Nat} (hn : n < 2 ^ 32) :
    EntryText (Reader.natural {}) (digits 10 n) n
      (fun spaced line t => t = ⟨.number, String.ofList (digits 10 n), spaced, line⟩) := by
  intro line spaced rest after hr hs _ _
  have hdigits : ∀ c ∈ digits 10 n, c.isDigit = true := fun c hc => isDigit_mem_digits hc
  have hspell := Spelling.digits (digits_ne_nil 10 n) hdigits
  have hlimit : n < wordLimit := by
    show n < 2 ^ 63
    omega
  have hread : integerText? (digits 10 n) = some (n : Int) := by
    rw [integerText?_digits (digits_ne_nil 10 n) hdigits,
      readInteger_digits (by decide) (by decide) hlimit]
  exact ⟨_, _, hspell.stands line spaced hr.numberEnds, rfl, rfl,
    Reader.natural_held rfl hread hn (hs.advance _)⟩

theorem natural_takes (F F' : Nat) :
    Takes 0 (Cursor.Below 0) F F' (Reader.natural {}) (Reader.natural {}) := by
  intro n m c c' h _ _ hn hm
  exact (lockstep_below {} 0).natural h hn hm

namespace DeclaredVariable

def dimensionsText (dimensions : Option (List Nat)) : List Char :=
  match dimensions with
  | some lengths => '[' :: (List.intercalate [','] (lengths.map (digits 10)) ++ [']'])
  | none => []

def initialText (initial : Option Expr) : List Char :=
  match initial with
  | some e => '=' :: e.text.toList
  | none => []

theorem text_toList (v : DeclaredVariable) :
    v.text.toList = v.name.toList ++ (dimensionsText v.dimensions ++ initialText v.initial) := by
  obtain ⟨name, dimensions, initial⟩ := v
  cases dimensions with
  | none => cases initial <;> simp [text, dimensionsText, initialText]
  | some lengths =>
    have hdigits : digits 10 = fun n => Nat.toDigits 10 n := rfl
    cases initial <;>
      simp [text, dimensionsText, initialText, inBraces, Function.comp_def, hdigits]

def plain (v : DeclaredVariable) : DeclaredVariable :=
  { v with initial := v.initial.map Expr.plain }

def Formed (v : DeclaredVariable) : Prop :=
  ∀ lengths ∈ v.dimensions, lengths ≠ [] ∧ ∀ n ∈ lengths, n < 2 ^ 32

def parts (v : DeclaredVariable) : List Expr := .var v.name none :: v.initial.toList

end DeclaredVariable

open DeclaredVariable (dimensionsText initialText)

theorem reads_initial {initial : Option Expr} (hi : ∀ e ∈ initial, e.Sound) (line : Nat)
    {rest : List Char} {after : Cursor} (hr : Parted rest) (hs : Stands line rest after)
    (he : after.EndsExpression) (hequals : after.holds .operator "=" = false) :
    ∃ c, Stands line (initialText initial ++ rest) c ∧ c.EndsExpression ∧
      Parted (initialText initial ++ rest) ∧
      Reader.initialValue {} c = .ok (initial.map Expr.plain) after := by
  cases initial with
  | none =>
    refine ⟨after, hs, he, hr, ?_⟩
    rw [Reader.initialValue, Reader.run_bind, Lockstep.accept_missing hequals]
    rfl
  | some e =>
    obtain ⟨mid, -, hmid, -, -, hread⟩ := expressionText (hi e rfl) line false rest after hr hs he
    refine ⟨_, stands_equals line (hi e rfl) rest, ⟨?_, ?_⟩,
      parted_cons (by decide) (by decide) (by decide), ?_⟩
    · rintro t ⟨⟩
      simp [Token.is, Token.isKeyword]
    · rintro t ⟨⟩
      simp
    · rw [Reader.initialValue, Reader.run_bind,
        Reader.accept_held rfl (hmid.close.advance (some ⟨.operator, "=", false, line⟩))]
      simp only [if_true]
      rw [Reader.run_map, Reader.expression_of_reads hread]
      rfl

theorem reads_dimensions {dimensions : Option (List Nat)}
    (hd : ∀ lengths ∈ dimensions, lengths ≠ [] ∧ ∀ n ∈ lengths, n < 2 ^ 32) (line : Nat)
    {rest : List Char} {after : Cursor} (hr : Parted rest) (hs : Stands line rest after)
    (he : after.EndsExpression) :
    ∃ c, Stands line (dimensionsText dimensions ++ rest) c ∧
      (∀ t ∈ c.held, t.kind = .number → t.spaced = true) ∧
      Parted (dimensionsText dimensions ++ rest) ∧
      Reader.dimensions {} c = .ok dimensions after := by
  cases dimensions with
  | none =>
    refine ⟨after, hs, fun t ht => (he.1.endsName t ht).2.2, hr, ?_⟩
    simp only [Reader.dimensions, Reader.run_get, he.1.endsName.not_field, Bool.false_eq_true,
      if_false]
    rfl
  | some lengths =>
    obtain ⟨hne, hlt⟩ := hd lengths rfl
    obtain ⟨first, lengths, rfl⟩ := List.exists_cons_of_ne_nil hne
    obtain ⟨close, hclose, hholds, hcomma, hends, hparted, hu, hl⟩ :=
      stands_closing .field line rest
    have hfield : close.holds .fieldBrace "]" = true := hholds
    have hnot : close.holds .operator "=" = false :=
      Cursor.not_holds_other hfield (by decide) "="
    obtain ⟨mid, -, hmid, -, -, hread⟩ := reads_separated (digits 10) id
      (fun n spaced line t => t = ⟨.number, String.ofList (digits 10 n), spaced, line⟩) false
      (fun n hn => entryText_natural (hlt n hn)) line false hparted hclose hends hnot hcomma
    have hopen : Stands line (lead false ++ '[' ::
        (List.intercalate [','] ((first :: lengths).map (digits 10)) ++ (']' :: rest)))
        ⟨List.intercalate [','] ((first :: lengths).map (digits 10)) ++ (']' :: rest), line,
          some ⟨.fieldBrace, "[", false, line⟩⟩ :=
      stands_lexeme line false (by decide) rfl (by decide)
    have htext : dimensionsText (some (first :: lengths)) ++ rest =
        '[' :: (List.intercalate [','] ((first :: lengths).map (digits 10)) ++ (']' :: rest)) := by
      simp [dimensionsText]
    rw [htext]
    refine ⟨_, hopen.close, ?_, parted_cons (by decide) (by decide) (by decide), ?_⟩
    · rintro t ⟨⟩ hk
      cases hk
    have hentries := Reader.entries_of_reads natural_takes hread
    have hbrace : Cursor.holds .fieldBrace "["
        ⟨List.intercalate [','] ((first :: lengths).map (digits 10)) ++ (']' :: rest), line,
          some ⟨.fieldBrace, "[", false, line⟩⟩ = true := rfl
    have hstep : Reader.advance {}
        ⟨List.intercalate [','] ((first :: lengths).map (digits 10)) ++ (']' :: rest), line,
          some ⟨.fieldBrace, "[", false, line⟩⟩ = .ok () mid := hmid.close.advance _
    simp only [Reader.dimensions, Reader.run_get, hbrace, if_true]
    rw [Reader.run_map, Reader.fieldEntries, Reader.run_bind, hstep]
    simp only
    rw [Reader.run_bind, hentries]
    simp only
    rw [Reader.run_bind, Reader.expect_held _ hfield (hs.next hu hl)]
    simp [Reader.run_pure]

theorem entryText_declared {v : DeclaredVariable} (hv : v.Formed) (hp : ∀ e ∈ v.parts, e.Sound) :
    EntryText (Reader.declaredVariable {}) v.text.toList v.plain
      (fun spaced line t => t = ⟨.identifier, leadingWord v.name, spaced, line⟩) := by
  intro line spaced rest after hr hs he hequals
  have hname := (hp (.var v.name none) List.mem_cons_self).self
  have hinitial : ∀ e ∈ v.initial, e.Sound := by
    intro e he
    apply hp e
    rw [DeclaredVariable.parts, Option.mem_def.mp he]
    simp
  obtain ⟨value, hvalue, hends, hparted, hreadValue⟩ := reads_initial hinitial line hr hs he hequals
  obtain ⟨dims, hdims, hnumber, hparted', hreadDims⟩ :=
    reads_dimensions hv line hparted hvalue hends
  obtain ⟨c, mid, hc, hheld, hadv, -, hglue⟩ := stands_name hname.1 hname.2.1 line spaced
    hparted'.numberEnds (fun _ => hparted') hdims hnumber
  refine ⟨c, _, ?_, hheld, rfl, ?_⟩
  · simpa [DeclaredVariable.text_toList] using hc
  · have hfilter : c.held.filter (fun t => t.kind == .identifier) =
        some ⟨.identifier, leadingWord v.name, spaced, line⟩ := by
      rw [hheld]
      rfl
    simp only [Reader.declaredVariable, Reader.run_get, hfilter]
    rw [Reader.run_bind, hadv]
    simp only
    rw [Reader.run_bind, hglue]
    simp only
    rw [Reader.run_bind, hreadDims]
    simp only
    rw [Reader.run_bind, hreadValue]
    rfl

theorem declared_takes (F F' : Nat) :
    Takes 0 (Cursor.Below 0) F F' (Reader.declaredVariable {}) (Reader.declaredVariable {}) :=
  (lockstep_below {} 0).declaredVariable F F'

def clauseChars (word : String) (value : Option (List Char)) : List Char :=
  match value with
  | some text => lead true ++ (word.toList ++ (lead true ++ text))
  | none => []

theorem clauseText_toList (word : String) (value : Option String) (rest : List Char) :
    lead true ++ ((Declaration.clauseText word value).toList ++ rest) =
      clauseChars word (value.map String.toList) ++ (lead true ++ rest) := by
  cases value <;> simp [Declaration.clauseText, clauseChars, lead]

def Cursor.AtWord (line : Nat) (word : String) (c : Cursor) : Prop :=
  c.held = some ⟨.identifier, word, true, line⟩

theorem Cursor.AtWord.ends {line : Nat} {word : String} {c : Cursor} (h : c.AtWord line word) :
    c.EndsExpression := by
  constructor
  · rw [EndsOperand, h]
    rintro t ⟨⟩
    simp [Token.is]
  · rw [h]
    rintro t ⟨⟩
    simp

/-- A clause is read if it is there, and is not mistaken for what follows if not. -/
theorem reads_clause {α : Type} {word next : String} (hw : IsIdentifier word) (body : Reader α)
    (value : Option α) (text : α → List Char) {line : Nat} {rest : List Char} {after : Cursor}
    (hs : Stands line (lead true ++ rest) after) (hafter : after.AtWord line next)
    (hnone : value = none → sameLetters next word = false)
    (hsome : ∀ a ∈ value, ∃ mid,
      Stands line (lead true ++ (text a ++ (lead true ++ rest))) mid ∧ body mid = .ok a after) :
    ∃ c behind, clauseChars word (value.map text) ++ (lead true ++ rest) = lead true ++ behind ∧
      Stands line (lead true ++ behind) c ∧ c.AtWord line (if value.isSome then word else next) ∧
      Reader.clause {} word body c = .ok value after := by
  cases value with
  | none =>
    refine ⟨after, rest, rfl, hs, hafter, ?_⟩
    have hholds : after.holdsKeyword word = false := by
      rw [Cursor.holdsKeyword, hafter]
      simp [Token.isKeyword, hnone rfl]
    rw [Reader.clause, Reader.run_bind, Reader.acceptKeyword_missing hholds]
    rfl
  | some a =>
    obtain ⟨mid, hmid, hbody⟩ := hsome a rfl
    have hc := stands_identifier hw line true (parted_blank (text a ++ (lead true ++ rest)))
    refine ⟨_, _, by simp [clauseChars], hc, rfl, ?_⟩
    have hholds : Cursor.holdsKeyword word ⟨lead true ++ (text a ++ (lead true ++ rest)), line,
        some ⟨.identifier, word, true, line⟩⟩ = true := by
      simp [Cursor.holdsKeyword, Token.isKeyword, sameLetters]
    rw [Reader.clause, Reader.run_bind, Reader.acceptKeyword_held hholds (hmid.advance _)]
    simp only [if_true]
    rw [Reader.run_map, hbody]

theorem reads_limit {x : Float} (hx : x.isFinite = true) (line : Nat) {rest : List Char}
    {after : Cursor} (hs : Stands line (lead true ++ rest) after) (he : after.EndsExpression) :
    ∃ mid, Stands line (lead true ++ ((realText x).toList ++ (lead true ++ rest))) mid ∧
      Reader.literal {} mid = .ok x after := by
  obtain ⟨n, hn, hvalue⟩ := denotes_realText hx
  obtain ⟨mid, -, hmid, -, -, hread⟩ := reads_denotes hn line true (parted_blank rest).numberEnds hs
    he.1
  refine ⟨mid, hmid, ?_⟩
  simp only [Reader.literal, Reader.run_get]
  rw [Reader.run_bind, Reader.expression_operand hread he.2]
  simp only [hvalue]
  rfl

theorem reads_unit {u : Int} (hu : 0 ≤ u) (hlt : u < 2 ^ 63) (line : Nat) {rest : List Char}
    {after : Cursor} (hs : Stands line (lead true ++ rest) after) :
    ∃ mid, Stands line (lead true ++ ((toString u).toList ++ (lead true ++ rest))) mid ∧
      Reader.integer {} mid = .ok u after := by
  have hdigits : ∀ c ∈ digits 10 u.natAbs, c.isDigit = true := fun c hc => isDigit_mem_digits hc
  have hspell := Spelling.digits (digits_ne_nil 10 u.natAbs) hdigits
  have hlimit : u.natAbs < wordLimit := by
    show u.natAbs < 2 ^ 63
    omega
  have hread : integerText? (digits 10 u.natAbs) = some u := by
    rw [integerText?_digits (digits_ne_nil 10 _) hdigits,
      readInteger_digits (by decide) (by decide) hlimit, Int.natAbs_of_nonneg hu]
  rw [toString_int, if_neg (by omega), List.nil_append]
  exact ⟨_, hspell.stands line true (parted_blank rest).numberEnds,
    Reader.integer_held rfl hread (hs.advance _)⟩

end PartProgram
