import PartProgram.Proofs.LetterCase.Letter
import PartProgram.Proofs.Lines.Scan

/-!
# Texts in upper case

A text in upper case has the letters of its strings and comments as they are and
all other letters as capitals. What a stretch of characters is taken by does not change.
-/

set_option autoImplicit false

namespace PartProgram

/-- What a character of a text belongs to. -/
inductive Part where
  | code
  /-- A string, a quoted number or a comment, which goes on to a character or the line end. -/
  | within (closing : Char)

def closes (closing : Char) (cs : List Char) : Bool :=
  (cs.dropWhile (fun c => !isLineEnd c && c != closing)).head? == some closing

namespace Part

/-- Letters in strings and comments are left as they are. -/
def letter : Part → Char → Char
  | code, c => c.toUpper
  | within closing, c => if closing = '\x27' then c.toUpper else c

/-- What a character of the code begins. A quotation mark that is not closed begins no string. -/
def begun (d : Dialect) (c : Char) (behind : List Char) : Part :=
  if c == '\x22' && closes c behind then within c
  else if c == '\x27' then within c
  else if c == ';' && d.lineComments then within '\n'
  else if c == '(' && d.braceComments then within ')'
  else code

def next (d : Dialect) : Part → Char → List Char → Part
  | code, c, behind => begun d c behind
  | within closing, c, _ => if isLineEnd c || c == closing then code else within closing

end Part

/-- A text with its letters in upper case, but for those in strings and comments. -/
def foldCase (d : Dialect) : Part → List Char → List Char
  | _, [] => []
  | part, c :: cs => part.letter c :: foldCase d (part.next d c cs) cs

section Stretches

variable {d : Dialect} {p : Char → Bool}

theorem letter_cases (part : Part) (c : Char) : part.letter c = c.toUpper ∨ part.letter c = c := by
  cases part with
  | code => exact .inl rfl
  | within closing =>
    by_cases h : closing = '\x27'
    · exact .inl (if_pos h)
    · exact .inr (if_neg h)

theorem letter_congr (hp : ∀ c : Char, p c.toUpper = p c) (part : Part) (c : Char) :
    p (part.letter c) = p c := by
  rcases letter_cases part c with h | h
  · rw [h, hp]
  · rw [h]

theorem map_toUpper_foldCase (d : Dialect) (part : Part) (cs : List Char) :
    (foldCase d part cs).map Char.toUpper = cs.map Char.toUpper := by
  induction cs generalizing part with
  | nil => rfl
  | cons c cs ih =>
    have hc : (part.letter c).toUpper = c.toUpper := by
      rcases letter_cases part c with h | h
      · rw [h, toUpper_toUpper]
      · rw [h]
    rw [foldCase, List.map_cons, List.map_cons, hc, ih]

theorem length_foldCase (d : Dialect) (part : Part) (cs : List Char) :
    (foldCase d part cs).length = cs.length := by
  simpa using congrArg List.length (map_toUpper_foldCase d part cs)

theorem takeWhile_foldCase (part : Part) (hp : ∀ c : Char, p c.toUpper = p c)
    (hpart : ∀ c behind, p c = true → part.next d c behind = part) (cs : List Char) :
    (foldCase d part cs).takeWhile p = (cs.takeWhile p).map part.letter := by
  induction cs with
  | nil => rfl
  | cons c cs ih =>
    by_cases hc : p c = true
    · simp [foldCase, letter_congr hp, hc, hpart c cs hc, ih]
    · simp [foldCase, letter_congr hp, hc]

theorem dropWhile_foldCase (part : Part) (hp : ∀ c : Char, p c.toUpper = p c)
    (hpart : ∀ c behind, p c = true → part.next d c behind = part) (cs : List Char) :
    (foldCase d part cs).dropWhile p = foldCase d part (cs.dropWhile p) := by
  induction cs with
  | nil => rfl
  | cons c cs ih =>
    by_cases hc : p c = true
    · simp [foldCase, letter_congr hp, hc, hpart c cs hc, ih]
    · simp [foldCase, letter_congr hp, hc]

def Coded (p : Char → Bool) : Prop :=
  ['\x22', '\x27', ';', '('].all (fun c => !p c) = true

theorem begun_of_coded (hp : Coded p) (d : Dialect) (c : Char) (behind : List Char)
    (h : p c = true) : Part.begun d c behind = .code := by
  have hne := Scan.ne_of_outside hp h
  simp only [List.forall_mem_cons] at hne
  simp [Part.begun, hne]

theorem takeWhile_code (hp : ∀ c : Char, p c.toUpper = p c) (hcoded : Coded p) (cs : List Char) :
    (foldCase d .code cs).takeWhile p = (cs.takeWhile p).map Char.toUpper :=
  takeWhile_foldCase .code hp (begun_of_coded hcoded d) cs

theorem dropWhile_code (hp : ∀ c : Char, p c.toUpper = p c) (hcoded : Coded p) (cs : List Char) :
    (foldCase d .code cs).dropWhile p = foldCase d .code (cs.dropWhile p) :=
  dropWhile_foldCase .code hp (begun_of_coded hcoded d) cs

theorem foldCase_coded (hp : Coded p) {c : Char} (h : p c = true) (cs : List Char) :
    foldCase d .code (c :: cs) = c.toUpper :: foldCase d .code cs := by
  rw [foldCase, Part.letter, Part.next, begun_of_coded hp d c cs h]

theorem drop_foldCase (hp : Coded p) {cs : List Char} (n : Nat)
    (h : ∀ c ∈ cs.take n, p c = true) :
    (foldCase d .code cs).drop n = foldCase d .code (cs.drop n) := by
  induction n generalizing cs with
  | zero => rfl
  | succ n ih =>
    cases cs with
    | nil => rfl
    | cons c cs =>
      rw [List.take_succ_cons, List.forall_mem_cons] at h
      rw [foldCase_coded hp h.1, List.drop_succ_cons, List.drop_succ_cons, ih h.2]

end Stretches

section Within

variable {closing : Char} (hclosing : closing.isAlpha = false)
include hclosing

theorem inside_toUpper (c : Char) :
    (!isLineEnd c.toUpper && c.toUpper != closing) = (!isLineEnd c && c != closing) := by
  rw [isLineEnd_toUpper, bne, beq_toUpper c hclosing, bne]

theorem closes_foldCase (d : Dialect) (part : Part) (cs : List Char) :
    closes closing (foldCase d part cs) = closes closing cs := by
  have hupper : ∀ cs : List Char, closes closing (cs.map Char.toUpper) = closes closing cs := by
    intro cs
    rw [closes, dropWhile_toUpper (inside_toUpper hclosing), closes, List.head?_map]
    cases (cs.dropWhile (fun c => !isLineEnd c && c != closing)).head? with
    | none => rfl
    | some c =>
      rw [Option.map_some, Bool.eq_iff_iff]
      simp [toUpper_eq_iff hclosing]
  rw [← hupper, map_toUpper_foldCase, hupper]

theorem takeWhile_within (d : Dialect) (cs : List Char) :
    (foldCase d (.within closing) cs).takeWhile (fun c => !isLineEnd c && c != closing) =
      (cs.takeWhile (fun c => !isLineEnd c && c != closing)).map (Part.within closing).letter := by
  apply takeWhile_foldCase _ (inside_toUpper hclosing)
  intro c behind hc
  simp only [Bool.and_eq_true, Bool.not_eq_true', bne_iff_ne, ne_eq] at hc
  simp [Part.next, hc.1, hc.2]

theorem dropWhile_within (d : Dialect) (cs : List Char) :
    (foldCase d (.within closing) cs).dropWhile (fun c => !isLineEnd c && c != closing) =
      foldCase d (.within closing) (cs.dropWhile (fun c => !isLineEnd c && c != closing)) := by
  apply dropWhile_foldCase _ (inside_toUpper hclosing)
  intro c behind hc
  simp only [Bool.and_eq_true, Bool.not_eq_true', bne_iff_ne, ne_eq] at hc
  simp [Part.next, hc.1, hc.2]

theorem foldCase_closing (d : Dialect) (cs : List Char) :
    foldCase d (.within closing) (closing :: cs) = closing :: foldCase d .code cs := by
  have hletter : (Part.within closing).letter closing = closing := by
    rcases letter_cases (.within closing) closing with h | h
    · rw [h, (toUpper_eq_iff hclosing).mpr rfl]
    · exact h
  rw [foldCase, hletter, Part.next]
  simp

end Within

end PartProgram
