import PartProgram.Token.Progress

/-!
# Scanning within a line

A line end belongs to no token but its own, and no token reaches over it. The
tokens of a line are therefore the same whatever follows the line.
-/

set_option autoImplicit false

namespace PartProgram

def Unbroken (cs : List Char) : Prop := ∀ c ∈ cs, isLineEnd c = false

theorem Unbroken.of_suffix {cs rest : List Char} (h : Unbroken cs) (hs : rest <:+ cs) :
    Unbroken rest :=
  fun c hc => h c (hs.mem hc)

theorem isLineEnd_iff {c : Char} : isLineEnd c = true ↔ c = '\r' ∨ c = '\n' := by
  simp [isLineEnd]

/-- The same lexeme with more text behind it. -/
def Lexeme.extend (more : List Char) : Lexeme → Lexeme
  | found kind text rest => .found kind text (rest ++ more)
  | fault cause rest => .fault cause (rest ++ more)

theorem Lexeme.extend_found (more : List Char) (kind : TokenKind) (text rest : List Char) :
    (found kind text rest).extend more = found kind text (rest ++ more) := rfl

theorem Lexeme.extend_fault (more : List Char) (cause : ReadCause) (rest : List Char) :
    (fault cause rest).extend more = fault cause (rest ++ more) := rfl

namespace Scan

variable {p : Char → Bool} {more : List Char}

theorem ne_of_outside {chars : List Char} (hp : chars.all (fun c => !p c) = true) {c : Char}
    (h : p c = true) : ∀ e ∈ chars, c ≠ e := by
  rintro e he rfl
  have hout := List.all_eq_true.mp hp c he
  rw [h] at hout
  cases hout

def StopsAtLineEnd (p : Char → Bool) : Prop := ∀ c, isLineEnd c = true → p c = false

theorem takeWhile_stop (h : ∀ c ∈ more.head?, p c = false) (cs : List Char) :
    (cs ++ more).takeWhile p = cs.takeWhile p := by
  induction cs with
  | nil =>
    cases more with
    | nil => rfl
    | cons c more => simp [h c rfl]
  | cons c cs ih =>
    simp only [List.cons_append, List.takeWhile_cons, ih]

theorem dropWhile_stop (h : ∀ c ∈ more.head?, p c = false) (cs : List Char) :
    (cs ++ more).dropWhile p = cs.dropWhile p ++ more := by
  induction cs with
  | nil =>
    cases more with
    | nil => rfl
    | cons c more => simp [h c rfl]
  | cons c cs ih =>
    simp only [List.cons_append, List.dropWhile_cons, ih]
    split <;> rfl

theorem StopsAtLineEnd.head (hp : StopsAtLineEnd p) (hm : atLineEnd more = true) :
    ∀ c ∈ more.head?, p c = false := by
  intro c hc
  cases more with
  | nil => cases hc
  | cons c more =>
    cases hc
    exact hp c hm

theorem takeWhile_line (hp : StopsAtLineEnd p) (hm : atLineEnd more = true) (cs : List Char) :
    (cs ++ more).takeWhile p = cs.takeWhile p :=
  takeWhile_stop (hp.head hm) cs

theorem dropWhile_line (hp : StopsAtLineEnd p) (hm : atLineEnd more = true) (cs : List Char) :
    (cs ++ more).dropWhile p = cs.dropWhile p ++ more :=
  dropWhile_stop (hp.head hm) cs

theorem cutName_begins (cs : List Char) : cutName cs <+: cs := by
  fun_cases cutName cs <;> simp

theorem stops_name : StopsAtLineEnd (fun c => isNameChar c || c.isDigit) := by
  intro c hc
  rcases isLineEnd_iff.mp hc with rfl | rfl <;> decide

theorem stops_blank : StopsAtLineEnd isBlank := by
  intro c hc
  rcases isLineEnd_iff.mp hc with rfl | rfl <;> decide

theorem stops_inside (delimiter : Char) :
    StopsAtLineEnd (fun c => !isLineEnd c && c != delimiter) := by
  intro c hc
  simp [hc]

theorem name_stop (h : ∀ c ∈ more.head?, (isNameChar c || c.isDigit) = false) (cs : List Char) :
    name (cs ++ more) = (name cs).extend more := by
  have hl := ((cutName_begins (cs.takeWhile (fun c => isNameChar c || c.isDigit))).trans
    (List.takeWhile_prefix _)).length_le
  simp only [name, takeWhile_stop h, Lexeme.extend, List.drop_append_of_le_length hl]

theorem name_line (hm : atLineEnd more = true) (cs : List Char) :
    name (cs ++ more) = (name cs).extend more :=
  name_stop (stops_name.head hm) cs

theorem number_stop (h : ∀ c ∈ more.head?, c.isDigit = false ∧ c ≠ '.') (cs : List Char) :
    number (cs ++ more) = (number cs).extend more := by
  have hd : ∀ c ∈ more.head?, c.isDigit = false := fun c hc => (h c hc).1
  simp only [number, takeWhile_stop hd, dropWhile_stop hd]
  cases cs.dropWhile Char.isDigit with
  | nil =>
    cases more with
    | nil => rfl
    | cons c more => simp [(h c rfl).2, Lexeme.extend]
  | cons c rest =>
    by_cases hc : c = '.'
    · subst hc
      simp only [List.cons_append, takeWhile_stop hd, dropWhile_stop hd]
      cases rest.dropWhile Char.isDigit with
      | nil =>
        cases more with
        | nil => rfl
        | cons e more => simp [(h e rfl).2, Lexeme.extend]
      | cons e beyond => by_cases he : e = '.' <;> simp [he, Lexeme.extend]
    · simp [hc, Lexeme.extend]

theorem stops_number : StopsAtLineEnd (fun c => c.isDigit || c == '.') := by
  intro c hc
  rcases isLineEnd_iff.mp hc with rfl | rfl <;> decide

theorem number_line (hm : atLineEnd more = true) (cs : List Char) :
    number (cs ++ more) = (number cs).extend more :=
  number_stop (fun c hc => by simpa using stops_number.head hm c hc) cs

theorem delimited_line (hm : atLineEnd more = true) (kind : TokenKind) {delimiter : Char}
    (hd : isLineEnd delimiter = false) (cause : ReadCause) (cs : List Char) :
    delimited kind delimiter cause (cs ++ more) =
      (delimited kind delimiter cause cs).extend more := by
  simp only [delimited, takeWhile_line (stops_inside delimiter) hm,
    dropWhile_line (stops_inside delimiter) hm]
  cases cs.dropWhile (fun c => !isLineEnd c && c != delimiter) with
  | nil =>
    cases more with
    | nil => rfl
    | cons c more =>
      have hc : c ≠ delimiter := by rintro rfl; simp [atLineEnd, hd] at hm
      simp [hc, Lexeme.extend]
  | cons c rest => by_cases hc : c = delimiter <;> simp [hc, Lexeme.extend]

theorem atLineEnd_line (hm : atLineEnd more = true) {cs : List Char} :
    atLineEnd (cs ++ more) = atLineEnd cs := by
  cases cs with
  | nil => simpa [atLineEnd] using hm
  | cons c cs => rfl

theorem braceComment_line (hm : atLineEnd more = true) (cs : List Char) :
    braceComment (cs ++ more) = (braceComment cs).extend more := by
  simp only [braceComment, takeWhile_line (stops_inside ')') hm,
    dropWhile_line (stops_inside ')') hm]
  cases cs.dropWhile (fun c => !isLineEnd c && c != ')') with
  | nil =>
    cases more with
    | nil => rfl
    | cons c more =>
      have hc : c ≠ ')' := by rintro rfl; cases hm
      simp [hc, Lexeme.extend]
  | cons c rest =>
    by_cases hc : c = ')'
    · subst hc
      simp only [List.cons_append, dropWhile_line stops_blank hm, atLineEnd_line hm]
      split <;> rfl
    · simp [hc, Lexeme.extend]

theorem lineComment_line (hm : atLineEnd more = true) (cs : List Char) :
    lineComment (cs ++ more) = (lineComment cs).extend more := by
  have hs : StopsAtLineEnd (fun c => !isLineEnd c) := by
    intro c hc
    simp [hc]
  simp only [lineComment, takeWhile_line hs hm, dropWhile_line hs hm, Lexeme.extend]

theorem operator_stop {c : Char} (h : ∀ e ∈ more.head?, joins c e = false) (cs : List Char) :
    operator c (cs ++ more) = (operator c cs).extend more := by
  cases cs with
  | nil =>
    cases more with
    | nil => rfl
    | cons e more => simp [operator, h e rfl, Lexeme.extend]
  | cons e rest =>
    simp only [operator, List.cons_append]
    split <;> rfl

theorem stops_joins (c : Char) : StopsAtLineEnd (joins c) := by
  intro e he
  rcases isLineEnd_iff.mp he with rfl | rfl <;> simp [joins]

theorem operator_line (hm : atLineEnd more = true) (c : Char) (cs : List Char) :
    operator c (cs ++ more) = (operator c cs).extend more :=
  operator_stop ((stops_joins c).head hm) cs

/-- A lexeme that begins within a line does not depend on what follows the line. -/
theorem lexeme_line (d : Dialect) (hm : atLineEnd more = true) {c : Char}
    (hc : isLineEnd c = false) (cs : List Char) :
    lexeme d c (cs ++ more) = (lexeme d c cs).extend more := by
  simp only [lexeme, hc, Bool.false_eq_true, if_false, lineComment_line hm, braceComment_line hm,
    ← List.cons_append, name_line hm, number_line hm, delimited_line hm _ hc, operator_line hm,
    apply_ite (Lexeme.extend more), Lexeme.extend_found, Lexeme.extend_fault]

/-- A line end: a line feed, a carriage return, or the two together. What follows a
carriage return alone is no line feed. -/
def IsLineEnd (e r : List Char) : Prop :=
  e = ['\n'] ∨ e = ['\r', '\n'] ∨ e = ['\r'] ∧ r.head? ≠ some '\n'

theorem IsLineEnd.atLineEnd {e r : List Char} (h : IsLineEnd e r) :
    Scan.atLineEnd (e ++ r) = true := by
  rcases h with rfl | rfl | ⟨rfl, -⟩ <;> rfl

theorem number_kind {cs text rest : List Char} {kind : TokenKind}
    (h : number cs = .found kind text rest) : kind = .number := by
  simp only [number] at h
  split at h
  · split at h <;> cases h
    rfl
  · cases h
    rfl

theorem delimited_kind {k kind : TokenKind} {delimiter : Char} {cause : ReadCause}
    {cs text rest : List Char} (h : delimited k delimiter cause cs = .found kind text rest) :
    kind = k := by
  simp only [delimited] at h
  split at h
  · split at h <;> cases h
    rfl
  · cases h

theorem braceComment_kind {cs text rest : List Char} {kind : TokenKind}
    (h : braceComment cs = .found kind text rest) : kind = .comment := by
  simp only [braceComment] at h
  split at h
  · split at h <;> cases h
    rfl
  · cases h
    rfl

theorem operator_kind {c : Char} {cs text rest : List Char} {kind : TokenKind}
    (h : operator c cs = .found kind text rest) : kind = .operator := by
  cases cs with
  | nil =>
    cases h
    rfl
  | cons e cs =>
    simp only [operator] at h
    split at h <;> cases h <;> rfl

theorem name_kind {cs text rest : List Char} {kind : TokenKind}
    (h : name cs = .found kind text rest) : kind = .operator ∨ kind = .identifier := by
  cases h
  split
  · exact .inl rfl
  · exact .inr rfl

theorem lexeme_kind {d : Dialect} {c : Char} {cs text rest : List Char} {kind : TokenKind}
    (hc : isLineEnd c = false) (h : lexeme d c cs = .found kind text rest) :
    kind ≠ .newLine := by
  revert h
  fun_cases lexeme d c cs <;> intro h
  case case1 hl => simp [hc] at hl
  case case2 => cases h; decide
  case case3 => simp [braceComment_kind h]
  case case4 => rcases name_kind h with rfl | rfl <;> decide
  case case5 => simp [delimited_kind h]
  case case6 => simp [number_kind h]
  case case7 => simp [delimited_kind h]
  case case12 => simp [operator_kind h]
  case case13 => cases h
  all_goals cases h; decide

theorem next_lineEnd (d : Dialect) (line : Nat) {u e r : List Char} (h : IsLineEnd e r)
    (hu : next d line u = .finished) :
    ∃ spaced, next d line (u ++ (e ++ r)) =
      .token ⟨.newLine, String.ofList e, spaced, line⟩ (line + 1) r := by
  have hb : u.dropWhile isBlank = [] := by
    simp only [next] at hu
    split at hu
    · assumption
    · split at hu <;> cases hu
  have hl : ∃ c cs, e ++ r = c :: cs ∧ lexeme d c cs = .found .newLine e r := by
    rcases h with rfl | rfl | ⟨rfl, hr⟩
    · refine ⟨'\n', r, rfl, ?_⟩
      cases r <;> rfl
    · exact ⟨'\r', '\n' :: r, rfl, rfl⟩
    · refine ⟨'\r', r, rfl, ?_⟩
      cases r with
      | nil => rfl
      | cons c r =>
        have hc : c ≠ '\n' := by simpa using hr
        simp [lexeme, isLineEnd, lineEnd, hc]
  obtain ⟨c, cs, hcs, hx⟩ := hl
  have hd : (u ++ (e ++ r)).dropWhile isBlank = c :: cs := by
    rw [dropWhile_line stops_blank h.atLineEnd, hb, hcs, List.nil_append]
  simp only [next, hd, hx, if_true]
  exact ⟨_, rfl⟩

theorem next_token_line {d : Dialect} {line after : Nat} {u more rest : List Char} {t : Token}
    (hm : atLineEnd more = true) (hu : Unbroken u) (h : next d line u = .token t after rest) :
    next d line (u ++ more) = .token t line (rest ++ more) ∧ t.kind ≠ .newLine ∧
      t.line = line ∧ after = line ∧ Unbroken rest := by
  have hr := hu.of_suffix (next_token_rest h).2
  simp only [next] at h ⊢
  rw [dropWhile_line stops_blank hm]
  cases hb : u.dropWhile isBlank with
  | nil => simp [hb] at h
  | cons c cs =>
    have hc : isLineEnd c = false :=
      hu.of_suffix (dropWhile_rest _ _) c (by rw [hb]; exact List.mem_cons_self ..)
    have hh : (u ++ more).headD c = u.headD c := by
      cases u with
      | nil => simp at hb
      | cons x u => rfl
    simp only [hb, List.cons_append, lexeme_line d hm hc, hh] at h ⊢
    cases hx : lexeme d c cs with
    | fault cause beyond => simp [hx] at h
    | found kind text beyond =>
      have hk := lexeme_kind hc hx
      simp only [hx, hk, if_false, token.injEq] at h
      obtain ⟨rfl, rfl, rfl⟩ := h
      simp only [Lexeme.extend, hk, if_false]
      exact ⟨trivial, hk, trivial, trivial, hr⟩

theorem next_fault_line {d : Dialect} {line : Nat} {u more rest : List Char} {cause : ReadCause}
    (hm : atLineEnd more = true) (hu : Unbroken u) (h : next d line u = .fault cause rest) :
    next d line (u ++ more) = .fault cause (rest ++ more) ∧ Unbroken rest := by
  have hr := hu.of_suffix (next_fault_rest h)
  simp only [next] at h ⊢
  rw [dropWhile_line stops_blank hm]
  cases hb : u.dropWhile isBlank with
  | nil => simp [hb] at h
  | cons c cs =>
    have hc : isLineEnd c = false :=
      hu.of_suffix (dropWhile_rest _ _) c (by rw [hb]; exact List.mem_cons_self ..)
    simp only [hb, List.cons_append, lexeme_line d hm hc] at h ⊢
    cases hx : lexeme d c cs with
    | found kind text beyond => simp [hx] at h
    | fault cause beyond =>
      simp only [hx, fault.injEq] at h
      obtain ⟨rfl, rfl⟩ := h
      exact ⟨rfl, hr⟩

end Scan

end PartProgram
