import PartProgram.Proofs.Lines

/-!
# Blanks in front of a line

Whether blanks stand in front of a token is asked of a number behind a name and of the
word `EX` behind a number. No reader asks it of the token at which it begins, so the
blanks in front of the first token of a line do not matter.
-/

set_option autoImplicit false

namespace PartProgram

def Cursor.respaced (spaced : Bool) (c : Cursor) : Cursor :=
  { c with held := c.held.map (fun t => { t with spaced }) }

def Scan.respaced (spaced : Bool) : Scan → Scan
  | token t line rest => token { t with spaced } line rest
  | finished => finished
  | fault cause rest => fault cause rest

namespace Cursor

variable (spaced : Bool) (c : Cursor)

variable {c} in
theorem respaced_none (h : c.held = none) : c.respaced spaced = c := by
  cases c
  cases h
  rfl

variable {c} in
theorem held_respaced {t : Token} (h : c.held = some t) :
    (c.respaced spaced).held = some { t with spaced } := by
  rw [respaced, h, Option.map_some]

@[simp]
theorem atLineEnd_respaced : (c.respaced spaced).atLineEnd = c.atLineEnd := by
  cases h : c.held <;> simp [atLineEnd, respaced, h]

@[simp]
theorem errorLine_respaced : (c.respaced spaced).errorLine = c.errorLine := by
  cases h : c.held <;> simp [errorLine, respaced, h]

@[simp]
theorem ahead_respaced : (c.respaced spaced).ahead = c.ahead := by
  cases h : c.held <;> simp [ahead, respaced, h]

theorem select_respaced {β : Type} (p : Token → Bool) (f : Token → β)
    (hp : ∀ t : Token, p { t with spaced } = p t) (hf : ∀ t : Token, f { t with spaced } = f t) :
    ((c.respaced spaced).held.filter p).map f = (c.held.filter p).map f := by
  cases h : c.held with
  | none => simp [respaced, h]
  | some t => cases ht : p t <;> simp [respaced, h, Option.filter, hp, ht, hf]

end Cursor

namespace Reader

variable {α β : Type}

/-- What a reader yields: a value and the position behind it, or an error. -/
def answer : EStateM.Result ReadError Cursor α → Except ReadError (α × Cursor)
  | .ok a after => .ok (a, after)
  | .error e _ => .error e

theorem answer_bind {p : Reader α} {c c' : Cursor} (h : answer (p c') = answer (p c))
    (q : α → Reader β) : answer ((p >>= q) c') = answer ((p >>= q) c) := by
  rw [run_bind, run_bind]
  cases hp : p c <;> cases hp' : p c' <;> rw [hp, hp'] at h <;> cases h <;> rfl

theorem answer_map {p : Reader α} {c c' : Cursor} (h : answer (p c') = answer (p c)) (f : α → β) :
    answer ((f <$> p) c') = answer ((f <$> p) c) := by
  rw [run_map, run_map]
  cases hp : p c <;> cases hp' : p c' <;> rw [hp, hp'] at h <;> cases h <;> rfl

/-- What is read does not depend on the blanks in front of the token held. -/
structure Unspaced (p : Reader α) : Prop where
  answers : ∀ (spaced : Bool) (c : Cursor), answer (p (c.respaced spaced)) = answer (p c)

theorem Unspaced.bind {p : Reader α} (h : Unspaced p) (q : α → Reader β) : Unspaced (p >>= q) where
  answers spaced c := answer_bind (h.answers spaced c) q

theorem Unspaced.map {p : Reader α} (h : Unspaced p) (f : α → β) : Unspaced (f <$> p) where
  answers spaced c := answer_map (h.answers spaced c) f

theorem Unspaced.ite {b : Prop} [Decidable b] {p q : Reader α} (hp : Unspaced p)
    (hq : Unspaced q) : Unspaced (if b then p else q) := by
  split
  · exact hp
  · exact hq

variable (d : Dialect)

theorem unspaced_advance : Unspaced (advance d) where
  answers spaced c := by
    simp only [advance, Cursor.respaced]
    split <;> rfl

theorem unspaced_fail (cause : ReadCause) : Unspaced (fail cause : Reader α) where
  answers spaced c := by
    simp only [fail, failWith, answer, Cursor.errorLine_respaced]

theorem unspaced_get {f : Cursor → Reader α}
    (h : ∀ (spaced : Bool) (c : Cursor), f (c.respaced spaced) = f c)
    (hf : ∀ c, Unspaced (f c)) : Unspaced (get >>= f) where
  answers spaced c := by rw [run_get, run_get, h, (hf c).answers]

theorem unspaced_expectMore {q : Unit → Reader α} (hq : Unspaced (q ())) :
    Unspaced (expectMore >>= q) := by
  rw [expectMore, bind_assoc]
  apply unspaced_get
  · intro spaced c
    rw [Cursor.atLineEnd_respaced]
  · intro c
    split
    · exact (unspaced_fail _).bind q
    · rw [pure_bind]
      exact hq

section Operands

theorem unspaced_number (t : Token) : Unspaced (number d t) := by
  unfold number
  split
  · exact (unspaced_advance d).bind _
  · exact unspaced_fail _

theorem unspaced_variableOrCall (name : String) (expression : Reader Expr) (ahead : List Char) :
    Unspaced (variableOrCall d name expression ahead) :=
  (unspaced_advance d).bind _

theorem unspaced_bracket (expression : Reader Expr) : Unspaced (bracket d expression) :=
  (unspaced_advance d).bind _

theorem unspaced_operandOf (expression : Reader Expr) (ahead : List Char) :
    Unspaced (operandOf d expression ahead) := by
  apply unspaced_expectMore
  apply unspaced_get
  · intro spaced c
    cases h : c.held with
    | none => rw [Cursor.respaced_none spaced h, h]
    | some t =>
      simp only [Cursor.held_respaced spaced h]
      rfl
  · intro c
    split
    · exact unspaced_fail _
    · split
      · exact (unspaced_number d _).map _
      · exact unspaced_variableOrCall d _ expression ahead
      · exact (unspaced_advance d).bind _
      · exact .ite (unspaced_bracket d expression) (unspaced_fail _)
      · exact unspaced_fail _

theorem unspaced_operand (ahead : List Char) : Unspaced (operand d ahead) := by
  cases ahead with
  | nil => exact unspaced_fail _
  | cons _ ahead =>
    unfold operand unaryOperator heldOperator
    simp only [bind_assoc, pure_bind]
    apply unspaced_get
    · intro spaced c
      rw [c.select_respaced spaced _ _ (fun _ => rfl) (fun _ => rfl)]
    · intro c
      split
      · rw [pure_bind]
        exact unspaced_operandOf d _ ahead
      · refine Unspaced.bind (.ite ((unspaced_advance d).bind _) ?_) _
        split
        · exact (unspaced_advance d).bind _
        · exact unspaced_fail _

theorem unspaced_expression : Unspaced (expression d) where
  answers spaced c := by
    simp only [expression, Cursor.ahead_respaced]
    exact answer_bind ((unspaced_operand d c.ahead).answers spaced c) _

end Operands

section Statements

theorem unspaced_assignmentOrInstruction : Unspaced (assignmentOrInstruction d) :=
  (unspaced_expression d).bind _

theorem unspaced_codeNumber : Unspaced (codeNumber d) :=
  (unspaced_advance d).bind _

theorem unspaced_namedStatement (name : String) : Unspaced (namedStatement d name) := by
  unfold namedStatement
  refine .ite ((unspaced_codeNumber d).bind _) (.ite ((unspaced_codeNumber d).map _) ?_)
  split
  · exact (unspaced_advance d).bind _
  · refine .ite (((unspaced_advance d).bind _).map _) ?_
    split
    · exact ((unspaced_advance d).bind _).map _
    · exact unspaced_assignmentOrInstruction d

variable {d}

theorem statement_respaced {c : Cursor} (h : c.atLineEnd = false) (spaced : Bool) :
    answer (statement d (c.respaced spaced)) = answer (statement d c) := by
  cases hc : c.held with
  | none => rw [Cursor.respaced_none spaced hc]
  | some t =>
    simp only [statement, run_get, Cursor.atLineEnd_respaced, h, hc,
      Cursor.held_respaced spaced hc, Bool.false_eq_true, if_false]
    split
    · exact answer_map ((unspaced_namedStatement d t.text).answers spaced c) some
    · exact answer_map ((unspaced_assignmentOrInstruction d).answers spaced c) some

theorem comment_respaced {c : Cursor} {t : Token} (hc : c.held = some t) (ht : t.kind = .comment)
    (spaced : Bool) : answer (comment d (c.respaced spaced)) = answer (comment d c) := by
  have hkind : (t.kind == .comment) = true := beq_iff_eq.mpr ht
  simp only [comment, run_get, hc, Cursor.held_respaced spaced hc, Option.filter, hkind, if_true]
  exact answer_bind ((unspaced_advance d).answers spaced c) _

theorem blockContent_respaced {c : Cursor} {t : Token} (hc : c.held = some t)
    (ht : t.kind ≠ .newLine) (line : Nat) (spaced : Bool) :
    answer (blockContent d line (c.respaced spaced)) = answer (blockContent d line c) := by
  cases hl : c.atLineEnd with
  | false =>
    simp only [blockContent, run_get, Cursor.ahead_respaced]
    exact answer_bind (statement_respaced hl spaced) _
  | true =>
    have hcomment : t.kind = .comment := by simpa [Cursor.atLineEnd, hc, ht] using hl
    rw [Lockstep.blockContent_none line hl,
      Lockstep.blockContent_none line ((Cursor.atLineEnd_respaced spaced c).trans hl)]
    exact answer_bind (comment_respaced hc hcomment spaced) _

theorem unspaced_heldBlock (d : Dialect) : Unspaced (heldBlock d) where
  answers spaced c := by
    cases hc : c.held with
    | none => rw [Cursor.respaced_none spaced hc]
    | some t =>
      simp only [heldBlock, run_get, hc, Cursor.held_respaced spaced hc]
      split
      · exact answer_bind ((unspaced_advance d).answers spaced c) _
      · rename_i ht
        exact answer_map (answer_bind (blockContent_respaced hc ht t.line spaced) _) _

end Statements

end Reader

/-- Blanks in front of a text are told by its first token only. -/
theorem Scan.next_leading (d : Dialect) (line : Nat) {blanks : List Char}
    (h : ∀ c ∈ blanks, isBlank c = true) (cs : List Char) :
    ∃ spaced, Scan.next d line (blanks ++ cs) = (Scan.next d line cs).respaced spaced := by
  simp only [Scan.next, List.dropWhile_append_of_pos h]
  cases cs.dropWhile isBlank with
  | nil => exact ⟨true, rfl⟩
  | cons c rest =>
    refine ⟨isBlank ((blanks ++ cs).headD c), ?_⟩
    dsimp only
    cases lexeme d c rest <;> rfl

theorem Reader.nextBlock_leading (d : Dialect) (line : Nat) {blanks : List Char}
    (h : ∀ c ∈ blanks, isBlank c = true) (cs : List Char) :
    answer (nextBlock d ⟨blanks ++ cs, line, none⟩) = answer (nextBlock d ⟨cs, line, none⟩) := by
  obtain ⟨spaced, hn⟩ := Scan.next_leading d line h cs
  rw [nextBlock_start d rfl, nextBlock_start d rfl, run_bind, run_bind]
  simp only [advance, hn]
  cases Scan.next d line cs with
  | finished => rfl
  | token t after rest => exact (unspaced_heldBlock d).answers spaced ⟨rest, after, some t⟩
  | fault cause rest => rfl

end PartProgram
