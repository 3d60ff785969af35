import PartProgram.Proofs.LetterCase.Scan
import PartProgram.Proofs.Lossless

/-!
# Scanning with other blanks

Where blanks stand between two tokens, no token reaches into them or over them. Two
lines that differ in such blanks only are therefore scanned to the same tokens. A
comment in parentheses takes the blanks behind it, and then nothing is left that differs.
-/

set_option autoImplicit false

namespace PartProgram

namespace Part

def step (d : Dialect) : Part → Char → Part
  | code, c =>
    if c == '\x22' || c == '\x27' then within c
    else if c == ';' && d.lineComments then within '\n'
    else if c == '(' && d.braceComments then within ')'
    else code
  | within closing, c => if isLineEnd c || c == closing then code else within closing

def behind (d : Dialect) (front : List Char) : Part := front.foldl (step d) code

def isComment : Part → Bool
  | code => false
  | within closing => closing == '\n' || closing == ')'

variable {d : Dialect}

theorem step_lineEnd {c : Char} (h : isLineEnd c = true) (part : Part) : part.step d c = code := by
  cases part with
  | code => rcases isLineEnd_iff.mp h with rfl | rfl <;> rfl
  | within closing => simp [step, h]

theorem step_coded {p : Char → Bool} (hp : Coded p) {c : Char} (h : p c = true) :
    code.step d c = code := by
  have hne := Scan.ne_of_outside hp h
  simp only [List.forall_mem_cons] at hne
  simp [step, hne]

theorem behind_cons {c : Char} (h : code.step d c = code) (cs : List Char) :
    behind d (c :: cs) = behind d cs := by
  rw [behind, List.foldl_cons, h, behind]

theorem behind_coded {p : Char → Bool} (hp : Coded p) {front : List Char}
    (h : ∀ c ∈ front, p c = true) (cs : List Char) :
    behind d (front ++ cs) = behind d cs := by
  induction front with
  | nil => rfl
  | cons c front ih =>
    rw [List.forall_mem_cons] at h
    rw [List.cons_append, behind_cons (step_coded hp h.1), ih h.2]

theorem foldl_inside {closing : Char} {text : List Char} (h : Inside closing text) :
    text.foldl (step d) (within closing) = within closing := by
  induction text with
  | nil => rfl
  | cons c text ih =>
    have hc := h c List.mem_cons_self
    rw [List.foldl_cons, step, hc.1, beq_eq_false_iff_ne.mpr hc.2]
    exact ih (fun c hc => h c (List.mem_cons_of_mem _ hc))

theorem behind_closed {opening closing : Char} (h : code.step d opening = within closing)
    {text : List Char} (ht : Inside closing text) (cs : List Char) :
    behind d (opening :: (text ++ closing :: cs)) = behind d cs := by
  rw [behind, List.foldl_cons, h, List.foldl_append, foldl_inside ht, List.foldl_cons, step,
    beq_self_eq_true, Bool.or_true, if_pos rfl, behind]

theorem behind_open {opening closing : Char} (h : code.step d opening = within closing)
    {text : List Char} (ht : Inside closing text) :
    behind d (opening :: text) = within closing := by
  rw [behind, List.foldl_cons, h, foldl_inside ht]

end Part

theorem inside_cases (delimiter : Char) {cs : List Char} (h : Unbroken cs) :
    Inside delimiter cs ∨
      ∃ text rest, cs = text ++ delimiter :: rest ∧ Inside delimiter text := by
  induction cs with
  | nil => exact .inl (by simp [Inside])
  | cons c cs ih =>
    rw [Unbroken, List.forall_mem_cons] at h
    by_cases hc : c = delimiter
    · subst hc
      exact .inr ⟨[], cs, rfl, by simp [Inside]⟩
    · rcases ih h.2 with hi | ⟨text, rest, rfl, hi⟩
      · exact .inl (List.forall_mem_cons.mpr ⟨⟨h.1, hc⟩, hi⟩)
      · exact .inr ⟨c :: text, rest, rfl, List.forall_mem_cons.mpr ⟨⟨h.1, hc⟩, hi⟩⟩

theorem inside_blanks {delimiter : Char} (hd : isBlank delimiter = false) {blanks : List Char}
    (h : ∀ c ∈ blanks, isBlank c = true) : Inside delimiter blanks := by
  refine fun c hc => ⟨unbroken_blanks h c hc, ?_⟩
  rintro rfl
  rw [h c hc] at hd
  cases hd

/-- Two ends of a line that are the same but for the blanks they begin with. -/
structure Gapped (x y : List Char) : Prop where
  left : ∀ c ∈ x.head?, isBlank c = true
  right : ∀ c ∈ y.head?, isBlank c = true
  same : x.dropWhile isBlank = y.dropWhile isBlank
  unbroken : Unbroken x ∧ Unbroken y

/-- The ends begin behind a front of the line: between two of its tokens, or where nothing but
blanks follows and no comment would take them. -/
def Clear (d : Dialect) (x y front : List Char) : Prop :=
  Part.behind d front = .code ∨
    (Part.behind d front).isComment = false ∧
      (∀ c ∈ x, isBlank c = true) ∧ ∀ c ∈ y, isBlank c = true

theorem Clear.of_behind {d : Dialect} {x y front front' : List Char} (h : Clear d x y front)
    (hb : Part.behind d front' = Part.behind d front) : Clear d x y front' := by
  rw [Clear, hb]
  exact h

/-- What is still to be read of two lines: the ends are ahead, or have been passed. -/
inductive Unread (d : Dialect) (x y : List Char) : List Char → List Char → Prop
  | ahead {front : List Char} (hu : Unbroken front) (h : Clear d x y front) :
      Unread d x y (front ++ x) (front ++ y)
  | passed {cs : List Char} (hu : Unbroken cs) : Unread d x y cs cs

namespace Lexeme

inductive Alike (d : Dialect) (x y : List Char) : Lexeme → Lexeme → Prop
  | found {rest rest' : List Char} (kind : TokenKind) (text : List Char)
      (h : Unread d x y rest rest') : Alike d x y (found kind text rest) (found kind text rest')
  | fault {rest rest' : List Char} (cause : ReadCause) (h : Unread d x y rest rest') :
      Alike d x y (fault cause rest) (fault cause rest')

variable {d : Dialect} {x y : List Char}

theorem Alike.extend {l : Lexeme} (hu : Unbroken l.rest) (h : Clear d x y l.rest) :
    Alike d x y (l.extend x) (l.extend y) := by
  cases l with
  | found kind text rest => exact .found kind text (.ahead hu h)
  | fault cause rest => exact .fault cause (.ahead hu h)

theorem Alike.ite {b : Prop} [Decidable b] {l m l' m' : Lexeme} (ht : b → l.Alike d x y l')
    (hf : ¬b → m.Alike d x y m') : (if b then l else m).Alike d x y (if b then l' else m') := by
  by_cases hb : b
  · rw [if_pos hb, if_pos hb]
    exact ht hb
  · rw [if_neg hb, if_neg hb]
    exact hf hb

end Lexeme

namespace Scan

variable {d : Dialect} {x y : List Char}

theorem behind_name (c : Char) (cs : List Char) :
    Part.behind d (name (c :: cs)).rest = Part.behind d (c :: cs) := by
  have h := Part.behind_coded (d := d) coded_word (name_taken (c :: cs))
    ((c :: cs).drop (cutName ((c :: cs).takeWhile (fun c => isNameChar c || c.isDigit))).length)
  rw [List.take_append_drop] at h
  exact h.symm

theorem behind_digits (cs : List Char) :
    Part.behind d (cs.dropWhile Char.isDigit) = Part.behind d cs := by
  have h := Part.behind_coded (d := d) coded_digit
    (fun _ hc => List.mem_takeWhile_imp hc : ∀ c ∈ cs.takeWhile Char.isDigit, c.isDigit = true)
    (cs.dropWhile Char.isDigit)
  rw [List.takeWhile_append_dropWhile] at h
  exact h.symm

theorem behind_number (cs : List Char) :
    Part.behind d (number cs).rest = Part.behind d cs := by
  have hpoint : ∀ rest, Part.behind d ('.' :: rest) = Part.behind d rest := Part.behind_cons rfl
  rw [← behind_digits cs]
  simp only [number]
  split
  · rename_i rest hrest
    rw [hrest, hpoint, ← behind_digits rest]
    split
    · rename_i hbeyond
      rw [hbeyond]
      rfl
    · rfl
  · rfl

theorem behind_operator {c : Char} (hc : Part.code.step d c = .code) (cs : List Char) :
    Part.behind d (operator c cs).rest = Part.behind d (c :: cs) := by
  rw [Part.behind_cons hc]
  cases cs with
  | nil => rfl
  | cons next rest =>
    simp only [operator]
    split
    · rename_i h
      exact (Part.behind_cons (Part.step_coded (p := joins c) (by simp [Coded, joins]) h) rest).symm
    · rfl

/-- A string or a quoted number in front of the ends. -/
theorem delimited_alike (kind : TokenKind) {q : Char}
    (hq : Part.code.step d q = .within q) (hblank : isBlank q = false) (cause : ReadCause)
    {cs : List Char} (hu : Unbroken cs) (hp : Clear d x y (q :: cs)) :
    (delimited kind q cause (cs ++ x)).Alike d x y (delimited kind q cause (cs ++ y)) := by
  rcases inside_cases q hu with hin | ⟨text, rest, rfl, hin⟩
  · -- Only blanks follow, so the delimiter is missing in both lines.
    have hopen : ∀ {z : List Char}, (∀ c ∈ z, isBlank c = true) →
        delimited kind q cause (cs ++ z) = .fault cause [] := by
      intro z hz
      have hall : ∀ c ∈ cs ++ z, (!isLineEnd c && c != q) = true := by
        intro c hc
        have h := List.forall_mem_append.mpr ⟨hin, inside_blanks hblank hz⟩ c hc
        simp [h]
      simp only [delimited, List.dropWhile_eq_nil_iff.mpr hall]
    rw [Clear, Part.behind_open hq hin] at hp
    rcases hp with hp | ⟨-, hx, hy⟩
    · cases hp
    · rw [hopen hx, hopen hy]
      exact .fault cause (.passed (by simp [Unbroken]))
  · simp only [List.append_assoc, List.cons_append, delimited_content kind cause hin]
    refine .found kind text (.ahead ?_ (Clear.of_behind hp (Part.behind_closed hq hin rest).symm))
    exact hu.of_suffix ((List.suffix_cons q rest).trans (List.suffix_append text _))

theorem braceComment_alike (hg : Gapped x y) (hd : d.braceComments = true) {cs : List Char}
    (hu : Unbroken cs) (hp : Clear d x y ('(' :: cs)) :
    (braceComment (cs ++ x)).Alike d x y (braceComment (cs ++ y)) := by
  have hstep : Part.code.step d '(' = .within ')' := by simp [Part.step, hd]
  rcases inside_cases ')' hu with hin | ⟨text, rest, rfl, hin⟩
  · rw [Clear, Part.behind_open hstep hin] at hp
    rcases hp with hp | ⟨hp, -⟩ <;> cases hp
  · replace hp := Clear.of_behind hp (Part.behind_closed hstep hin rest).symm
    have hrest : Unbroken rest :=
      hu.of_suffix ((List.suffix_cons ')' rest).trans (List.suffix_append text _))
    have hclosed : ∀ z : List Char, braceComment (text ++ ')' :: rest ++ z) =
        if atLineEnd ((rest ++ z).dropWhile isBlank) then
          .found .comment text ((rest ++ z).dropWhile isBlank)
        else .fault .textAfterComment ((rest ++ z).dropWhile isBlank) := by
      intro z
      have hall : ∀ c ∈ text, (!isLineEnd c && c != ')') = true := by
        intro c hc
        simp [hin c hc]
      simp [braceComment, List.takeWhile_append_of_pos hall, List.dropWhile_append_of_pos hall]
    rw [hclosed, hclosed, List.dropWhile_append, List.dropWhile_append]
    cases hr : rest.dropWhile isBlank with
    | nil =>
      simp only [List.isEmpty_nil, if_true, hg.same]
      have hend := hg.unbroken.2.of_suffix (dropWhile_rest isBlank y)
      exact .ite (fun _ => .found _ _ (.passed hend)) (fun _ => .fault _ (.passed hend))
    | cons e beyond =>
      have hs := hr ▸ dropWhile_rest isBlank rest
      have hbeyond : Unbroken (e :: beyond) := hrest.of_suffix hs
      have hnot : ∀ z : List Char, atLineEnd (e :: beyond ++ z) = false :=
        fun _ => hbeyond e List.mem_cons_self
      simp only [List.isEmpty_cons, Bool.false_eq_true, if_false, hnot]
      refine .fault _ (.ahead hbeyond (Clear.of_behind hp ?_))
      have hb := Part.behind_coded (d := d) coded_blank
        (fun _ hc => List.mem_takeWhile_imp hc : ∀ c ∈ rest.takeWhile isBlank, isBlank c = true)
        (rest.dropWhile isBlank)
      rw [List.takeWhile_append_dropWhile, hr] at hb
      exact hb.symm

theorem blank_apart {c : Char} (h : isBlank c = true) :
    (isNameChar c || c.isDigit) = false ∧ (c.isDigit = false ∧ c ≠ '.') ∧
      ∀ a, joins a c = false := by
  simp only [isBlank, Bool.or_eq_true, beq_iff_eq] at h
  rcases h with (rfl | rfl) | rfl
  all_goals exact ⟨by decide, by decide, by simp [joins]⟩

theorem lexeme_alike (hg : Gapped x y) {c : Char} {cs : List Char} (hu : Unbroken (c :: cs))
    (hp : Clear d x y (c :: cs)) :
    (lexeme d c (cs ++ x)).Alike d x y (lexeme d c (cs ++ y)) := by
  obtain ⟨hc, hcs⟩ : isLineEnd c = false ∧ Unbroken cs := List.forall_mem_cons.mp hu
  have hx := fun c hc => blank_apart (hg.left c hc)
  have hy := fun c hc => blank_apart (hg.right c hc)
  have hextend : ∀ l : Lexeme, l.rest <:+ cs → Part.behind d l.rest = Part.behind d (c :: cs) →
      (l.extend x).Alike d x y (l.extend y) :=
    fun l hs hb => .extend (hcs.of_suffix hs) (hp.of_behind hb)
  simp only [lexeme, hc, Bool.false_eq_true, if_false]
  apply Lexeme.Alike.ite
  · intro h
    simp only [Bool.and_eq_true, beq_iff_eq] at h
    obtain ⟨rfl, hd⟩ := h
    -- A comment up to the line end would take the ends.
    have hin : Inside '\n' cs := fun c hc => ⟨hcs c hc, by rintro rfl; cases hcs _ hc⟩
    have hstep : Part.code.step d ';' = .within '\n' := by simp [Part.step, hd]
    rw [Clear, Part.behind_open hstep hin] at hp
    rcases hp with hp | ⟨hp, -⟩ <;> cases hp
  intro hline
  apply Lexeme.Alike.ite
  · intro h
    simp only [Bool.and_eq_true, beq_iff_eq] at h
    obtain ⟨rfl, hd⟩ := h
    exact braceComment_alike hg hd hcs hp
  intro hbrace
  apply Lexeme.Alike.ite
  · intro h
    rw [← List.cons_append, ← List.cons_append, name_stop (fun c hc => (hx c hc).1),
      name_stop (fun c hc => (hy c hc).1)]
    exact hextend _ (name_rest cs h) (behind_name c cs)
  intro _
  apply Lexeme.Alike.ite
  · intro h
    obtain rfl := beq_iff_eq.mp h
    exact delimited_alike .number rfl rfl _ hcs hp
  intro hconstant
  apply Lexeme.Alike.ite
  · intro h
    rw [← List.cons_append, ← List.cons_append, number_stop (fun c hc => (hx c hc).2.1),
      number_stop (fun c hc => (hy c hc).2.1)]
    exact hextend _ (number_rest cs h) (behind_number (c :: cs))
  intro _
  apply Lexeme.Alike.ite
  · intro h
    obtain rfl := beq_iff_eq.mp h
    exact delimited_alike .string rfl rfl _ hcs hp
  intro hstring
  have hstep : Part.code.step d c = .code := by
    simp [Part.step, hline, hbrace, hconstant, hstring]
  have hsingle : ∀ kind : TokenKind,
      (Lexeme.found kind [c] (cs ++ x)).Alike d x y (.found kind [c] (cs ++ y)) :=
    fun kind => hextend (.found kind [c] cs) List.suffix_rfl (Part.behind_cons hstep cs).symm
  apply Lexeme.Alike.ite
  · exact fun _ => hsingle _
  intro _
  apply Lexeme.Alike.ite
  · exact fun _ => hsingle _
  intro _
  apply Lexeme.Alike.ite
  · exact fun _ => hsingle _
  intro _
  apply Lexeme.Alike.ite
  · exact fun _ => hsingle _
  intro _
  apply Lexeme.Alike.ite
  · intro _
    rw [operator_stop (fun e he => (hx e he).2.2 c), operator_stop (fun e he => (hy e he).2.2 c)]
    exact hextend _ (operator_rest c cs) (behind_operator hstep cs)
  · exact fun _ => .fault _ (.ahead hu hp)

end Scan

inductive Scan.Alike (d : Dialect) (x y : List Char) (line : Nat) : Scan → Scan → Prop
  | finished : Alike d x y line .finished .finished
  | token {rest rest' : List Char} (t : Token) (h : Unread d x y rest rest') :
      Alike d x y line (.token t line rest) (.token t line rest')
  | fault {rest rest' : List Char} (cause : ReadCause) (h : Unread d x y rest rest') :
      Alike d x y line (.fault cause rest) (.fault cause rest')

namespace Scan

variable {d : Dialect} {x y : List Char}

theorem next_passed (line : Nat) {cs : List Char} (hu : Unbroken cs) :
    (next d line cs).Alike d x y line (next d line cs) := by
  cases hn : next d line cs with
  | finished => exact .finished
  | token t after rest =>
    have hend : atLineEnd [] = true := rfl
    obtain ⟨-, -, -, rfl, hr⟩ := next_token_line hend hu hn
    exact .token t (.passed hr)
  | fault cause rest => exact .fault cause (.passed (hu.of_suffix (next_fault_rest hn)))

theorem next_blanks (d : Dialect) (hg : Gapped x y) (line : Nat) {blanks : List Char}
    (h : ∀ c ∈ blanks, isBlank c = true) :
    next d line (blanks ++ x) = next d line (blanks ++ y) := by
  simp only [next, List.dropWhile_append_of_pos h, hg.same]
  cases hy : y.dropWhile isBlank with
  | nil => rfl
  | cons c rest =>
    -- Blanks stand in front of the token in both lines.
    have hspaced : ∀ z : List Char, (∀ e ∈ z.head?, isBlank e = true) →
        z.dropWhile isBlank = c :: rest → isBlank ((blanks ++ z).headD c) = true := by
      intro z hz hd
      cases blanks with
      | cons e blanks => exact h e List.mem_cons_self
      | nil =>
        cases z with
        | nil => cases hd
        | cons e z => exact hz e rfl
    simp only [hspaced x hg.left (hg.same.trans hy), hspaced y hg.right hy]

/-- A step of scanning does not depend on how many blanks there are. -/
theorem next_alike (hg : Gapped x y) (line : Nat) {cs cs' : List Char}
    (h : Unread d x y cs cs') : (next d line cs).Alike d x y line (next d line cs') := by
  cases h with
  | passed hu => exact next_passed line hu
  | @ahead front hu hp =>
    have hsplit := List.takeWhile_append_dropWhile (p := isBlank) (l := front)
    have hblank : ∀ c ∈ front.takeWhile isBlank, isBlank c = true :=
      fun c hc => List.mem_takeWhile_imp hc
    cases hf : front.dropWhile isBlank with
    | nil =>
      rw [next_blanks d hg line (List.dropWhile_eq_nil_iff.mp hf)]
      exact next_passed line (unbroken_append hu hg.unbroken.2)
    | cons c behind =>
      have hs : c :: behind <:+ front := hf ▸ dropWhile_rest isBlank front
      have hl := lexeme_alike hg (hu.of_suffix hs) (hp.of_behind (by
        rw [← hsplit, Part.behind_coded coded_blank hblank, hf]))
      have hhead : ∀ z : List Char, (front ++ z).headD c = front.headD c := by
        intro z
        cases front with
        | nil => cases hf
        | cons e front => rfl
      simp only [next, List.dropWhile_append, hf, List.isEmpty_cons, Bool.false_eq_true, if_false,
        List.cons_append, hhead]
      have hkind : ∀ kind text rest, lexeme d c (behind ++ x) = .found kind text rest →
          kind ≠ .newLine :=
        fun _ _ _ => lexeme_kind (hu.of_suffix hs c List.mem_cons_self)
      generalize lexeme d c (behind ++ x) = l at hl hkind
      generalize lexeme d c (behind ++ y) = l' at hl
      cases hl with
      | found kind text hr =>
        simp only [hkind kind text _ rfl, if_false]
        exact .token _ hr
      | fault cause hr => exact .fault cause hr

end Scan

end PartProgram
