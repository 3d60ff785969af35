import Mathlib.Data.List.TakeWhile
import Mathlib.Tactic.ByContra
import PartProgram.Proofs.Lines.Scan

/-!
# How tokens are written

The spellings of each kind of token, and the lines that end in them.
-/

set_option autoImplicit false

namespace PartProgram

def lineEnds : List Char → Nat
  | '\r' :: '\n' :: cs => lineEnds cs + 1
  | c :: cs => if isLineEnd c then lineEnds cs + 1 else lineEnds cs
  | [] => 0

def isBare (c : Char) : Bool := !isBlank c && !isLineEnd c && c != '\x27' && c != '\x22'

def Inside (delimiter : Char) (text : List Char) : Prop :=
  ∀ c ∈ text, isLineEnd c = false ∧ c ≠ delimiter

/-- How a token with a text is written. -/
inductive TokenSpelling (d : Dialect) : TokenKind → List Char → List Char → Prop
  | lineEnd {text : List Char} (h : text = ['\n'] ∨ text = ['\r'] ∨ text = ['\r', '\n']) :
      TokenSpelling d .newLine text text
  | bare {kind : TokenKind} {text : List Char}
      (hkind : kind ≠ .newLine ∧ kind ≠ .string ∧ kind ≠ .comment) (hne : text ≠ [])
      (h : ∀ c ∈ text, isBare c = true) : TokenSpelling d kind text text
  | constant {text : List Char} (h : Inside '\x27' text) :
      TokenSpelling d .number text ('\x27' :: (text ++ ['\x27']))
  | string {text : List Char} (h : Inside '\x22' text) :
      TokenSpelling d .string text ('\x22' :: (text ++ ['\x22']))
  | lineComment {text : List Char} (hd : d.lineComments = true) (h : Unbroken text) :
      TokenSpelling d .comment text (';' :: text)
  /-- A comment in parentheses that the line end closes. -/
  | openComment {text : List Char} (hd : d.braceComments = true) (h : Inside ')' text) :
      TokenSpelling d .comment text ('(' :: text)
  /-- A comment in parentheses, with the blanks behind it. -/
  | braceComment {text blanks : List Char} (hd : d.braceComments = true) (h : Inside ')' text)
      (hb : ∀ c ∈ blanks, isBlank c = true) :
      TokenSpelling d .comment text ('(' :: (text ++ ')' :: blanks))

/-- A token as it stands in a text, with the blanks in front of it. -/
structure Piece (d : Dialect) where
  token : Token
  blanks : List Char
  spelling : List Char
  spells : TokenSpelling d token.kind token.text.toList spelling
  blank : ∀ c ∈ blanks, isBlank c = true
  /-- The blanks in front of a token are all of them. -/
  first : ∃ c cs, spelling = c :: cs ∧ isBlank c = false
  spaced : token.spaced = true ↔ blanks ≠ []

def Piece.chars {d : Dialect} (piece : Piece d) : List Char := piece.blanks ++ piece.spelling

/-- What was scanned in a text, piece by piece, with the blanks at the end and what is left. -/
structure Covers (d : Dialect) (line : Nat) (cs : List Char) (s : Scanned)
    (pieces : List (Piece d)) (blanks rest : List Char) : Prop where
  tokens : s.tokens = pieces.map Piece.token
  text : cs = pieces.flatMap Piece.chars ++ (blanks ++ rest)
  blank : ∀ c ∈ blanks, isBlank c = true
  lines : ∀ before piece after, pieces = before ++ piece :: after →
    piece.token.line = line + lineEnds (before.flatMap Piece.chars ++ piece.blanks)
  /-- Scanning goes on to the end of the text. -/
  ends : s.fault = none → rest = []
  /-- Where scanning fails there is no token. -/
  fails : ∀ e, s.fault = some e →
    e.line = line + lineEnds (pieces.flatMap Piece.chars ++ blanks) ∧
    ∃ c cs beyond, rest = c :: cs ∧ isBlank c = false ∧ Scan.lexeme d c cs = .fault e.cause beyond

section LineEnds

theorem lineEnds_cons {c : Char} (h : isLineEnd c = false) (cs : List Char) :
    lineEnds (c :: cs) = lineEnds cs := by
  have hc : c ≠ '\r' := by
    rintro rfl
    cases h
  rw [lineEnds]
  · simp [h]
  · intro cs hcr
    exact absurd hcr hc

theorem lineEnds_unbroken {u : List Char} (h : Unbroken u) (cs : List Char) :
    lineEnds (u ++ cs) = lineEnds cs := by
  induction u with
  | nil => rfl
  | cons c u ih =>
    rw [List.cons_append, lineEnds_cons (h c List.mem_cons_self)]
    exact ih (fun c' hc' => h c' (List.mem_cons_of_mem c hc'))

theorem lineEnds_lineEnd {e r cs : List Char} (h : Scan.IsLineEnd e r) (hcs : cs <+: r) :
    lineEnds (e ++ cs) = lineEnds cs + 1 := by
  rcases h with rfl | rfl | ⟨rfl, hr⟩
  · rfl
  · rfl
  · rw [List.singleton_append, lineEnds]
    · rfl
    · rintro cs' - rfl
      obtain ⟨behind, rfl⟩ := hcs
      exact hr rfl

end LineEnds

theorem unbroken_blanks {blanks : List Char} (h : ∀ c ∈ blanks, isBlank c = true) :
    Unbroken blanks := by
  intro c hc
  by_contra hl
  have hblank := Scan.stops_blank c (by simpa using hl)
  rw [h c hc] at hblank
  cases hblank

theorem unbroken_cons {c : Char} {cs : List Char} (hc : isLineEnd c = false) (h : Unbroken cs) :
    Unbroken (c :: cs) :=
  List.forall_mem_cons.mpr ⟨hc, h⟩

theorem unbroken_append {u v : List Char} (hu : Unbroken u) (hv : Unbroken v) :
    Unbroken (u ++ v) :=
  List.forall_mem_append.mpr ⟨hu, hv⟩

theorem Inside.unbroken {delimiter : Char} {text : List Char} (h : Inside delimiter text) :
    Unbroken text :=
  fun c hc => (h c hc).1

theorem inside_takeWhile (delimiter : Char) (cs : List Char) :
    Inside delimiter (cs.takeWhile (fun c => !isLineEnd c && c != delimiter)) := by
  intro c hc
  have h := List.mem_takeWhile_imp hc
  simpa using h

theorem TokenSpelling.unbroken {d : Dialect} {kind : TokenKind} {text spelling : List Char}
    (h : TokenSpelling d kind text spelling) (hkind : kind ≠ .newLine) : Unbroken spelling := by
  have hnil : Unbroken [] := List.forall_mem_nil _
  cases h with
  | lineEnd => exact absurd rfl hkind
  | bare _ _ h =>
    intro c hc
    have hbare := h c hc
    simp only [isBare, Bool.and_eq_true, Bool.not_eq_true'] at hbare
    exact hbare.1.1.2
  | constant h => exact unbroken_cons rfl (unbroken_append h.unbroken (unbroken_cons rfl hnil))
  | string h => exact unbroken_cons rfl (unbroken_append h.unbroken (unbroken_cons rfl hnil))
  | lineComment _ h => exact unbroken_cons rfl h
  | openComment _ h => exact unbroken_cons rfl h.unbroken
  | braceComment _ h hb =>
    exact unbroken_cons rfl (unbroken_append h.unbroken (unbroken_cons rfl (unbroken_blanks hb)))

theorem TokenSpelling.ne_nil {d : Dialect} {kind : TokenKind} {text spelling : List Char}
    (h : TokenSpelling d kind text spelling) : spelling ≠ [] := by
  cases h with
  | lineEnd h =>
    rintro rfl
    simp at h
  | bare _ hne _ => exact hne
  | _ => exact List.cons_ne_nil _ _

def Lexeme.Spells (d : Dialect) (cs : List Char) : Lexeme → Prop
  | found kind text rest => ∃ spelling, TokenSpelling d kind text spelling ∧ cs = spelling ++ rest
  | fault _ _ => True

theorem isBare_of (p : Char → Bool) {c : Char} (h : p c = true)
    (hp : [' ', '\t', '\x0c', '\r', '\n', '\x27', '\x22'].all (fun c => !p c) = true) :
    isBare c = true := by
  have hne := Scan.ne_of_outside hp h
  simp only [List.forall_mem_cons] at hne
  simp [isBare, isBlank, isLineEnd, hne]

end PartProgram
