import PartProgram.Proofs.Precedence.Grammar

/-!
# Steps over the tokens of a line

From one position of a line to another lead the tokens between them, and a reader that
accepts a token has stepped over it.
-/

set_option autoImplicit false

namespace PartProgram

namespace Cursor

/-- Stepping over the tokens, all of one line, leads from one position to the other. -/
def Steps : Cursor → List Token → Cursor → Prop
  | c, [], after => after = c
  | c, t :: ts, after =>
    c.held = some t ∧ c.atLineEnd = false ∧ ∃ mid, Reader.advance {} c = .ok () mid ∧
      mid.Steps ts after

theorem Steps.append {c mid after : Cursor} {ts us : List Token} (h : c.Steps ts mid)
    (h' : mid.Steps us after) : c.Steps (ts ++ us) after := by
  induction ts generalizing c with
  | nil =>
    cases h
    exact h'
  | cons t ts ih =>
    obtain ⟨hheld, hline, next, hnext, hsteps⟩ := h
    exact ⟨hheld, hline, next, hnext, ih hsteps⟩

theorem Steps.split {c after : Cursor} {ts us : List Token} (h : c.Steps (ts ++ us) after) :
    ∃ mid, c.Steps ts mid ∧ mid.Steps us after := by
  induction ts generalizing c with
  | nil => exact ⟨c, rfl, h⟩
  | cons t ts ih =>
    obtain ⟨hheld, hline, next, hnext, hsteps⟩ := h
    obtain ⟨mid, hmid, hrest⟩ := ih hsteps
    exact ⟨mid, ⟨hheld, hline, next, hnext, hmid⟩, hrest⟩

theorem Steps.size {c after : Cursor} {ts : List Token} (h : c.Steps ts after) :
    after.size + ts.length ≤ c.size := by
  induction ts generalizing c with
  | nil =>
    cases h
    simp
  | cons t ts ih =>
    obtain ⟨hheld, -, next, hnext, hsteps⟩ := h
    have hless := Reader.advance_size (by simp [hheld]) hnext
    have hrest := ih hsteps
    simp only [List.length_cons]
    omega

theorem held_of_holds {c : Cursor} {kind : TokenKind} {text : String}
    (h : c.holds kind text = true) : ∃ t, c.held = some t ∧ t.is kind text = true := by
  cases hc : c.held with
  | none => simp [holds, hc] at h
  | some t => exact ⟨t, rfl, by simpa [holds, hc] using h⟩

theorem not_of_holds {c : Cursor} {kind : TokenKind} {text : String}
    (h : c.holds kind text = false) : ∀ t ∈ c.held, t.is kind text = false := by
  intro t ht
  simpa [holds, Option.mem_def.mp ht] using h

end Cursor

namespace Reader

variable {c after : Cursor} {t : Token}

theorem steps_advance (h : c.held = some t) (hn : t.kind ≠ .newLine) (hc : t.kind ≠ .comment)
    (ha : advance {} c = .ok () after) : c.Steps [t] after :=
  ⟨h, by simp [Cursor.atLineEnd, h, hn, hc], after, ha, rfl⟩

theorem steps_holds {kind : TokenKind} {text : String} (h : c.holds kind text = true)
    (hn : kind ≠ .newLine) (hc : kind ≠ .comment) (ha : advance {} c = .ok () after) :
    ∃ t, c.Steps [t] after ∧ t.is kind text = true := by
  obtain ⟨t, ht, his⟩ := Cursor.held_of_holds h
  have hkind : t.kind = kind := by
    simp only [Token.is, Bool.and_eq_true, beq_iff_eq] at his
    exact his.1
  exact ⟨t, steps_advance ht (by rw [hkind]; exact hn) (by rw [hkind]; exact hc) ha, his⟩

theorem accept_ok {kind : TokenKind} {text : String} {found : Bool}
    (h : accept {} kind text c = .ok found after) :
    (found = true ∧ c.holds kind text = true ∧ advance {} c = .ok () after) ∨
      found = false ∧ c.holds kind text = false ∧ after = c := by
  simp only [accept, run_get] at h
  split at h
  · rename_i hh
    obtain ⟨_, mid, ha, hp⟩ := ok_bind h
    cases hp
    exact .inl ⟨rfl, hh, ha⟩
  · rename_i hh
    cases h
    exact .inr ⟨rfl, by simpa using hh, rfl⟩

theorem heldOperator_ok {found : Option String} (h : heldOperator c = .ok found after) :
    after = c ∧ ((found = none ∧ ∀ t ∈ c.held, t.isOperator = false) ∨
      ∃ t, found = some t.text ∧ c.held = some t ∧ t.isOperator = true) := by
  simp only [heldOperator, run_get] at h
  cases h
  refine ⟨rfl, ?_⟩
  cases hf : c.held.filter (fun t => t.kind == .operator && t.text != "=") with
  | none =>
    refine .inl ⟨rfl, ?_⟩
    simpa [Option.filter_eq_none_iff, Token.isOperator] using hf
  | some t =>
    obtain ⟨ht, hop⟩ := Option.filter_eq_some_iff.mp hf
    exact .inr ⟨t, rfl, ht, hop⟩

theorem steps_operator (h : c.held = some t) (hop : t.isOperator = true)
    (ha : advance {} c = .ok () after) : c.Steps [t] after := by
  simp only [Token.isOperator, Bool.and_eq_true, beq_iff_eq] at hop
  exact steps_advance h (by simp [hop.1]) (by simp [hop.1]) ha

theorem binaryOperator_ok {found : Option BinaryOp} (h : binaryOperator {} c = .ok found after) :
    (found = none ∧ after = c ∧ ∀ t ∈ c.held, t.isOperator = false) ∨
      ∃ t op, found = some op ∧ t.binary? = some op ∧ c.Steps [t] after := by
  obtain ⟨held, mid, hheld, h⟩ := ok_bind h
  obtain ⟨rfl, ⟨rfl, hnone⟩ | ⟨t, rfl, ht, hop⟩⟩ := heldOperator_ok hheld
  · cases h
    exact .inl ⟨rfl, rfl, hnone⟩
  · cases hof : BinaryOp.ofText t.text with
    | none =>
      simp only [hof] at h
      cases h
    | some op =>
      simp only [hof] at h
      obtain ⟨_, _, ha, hp⟩ := ok_bind h
      cases hp
      exact .inr ⟨t, op, rfl, by simp [Token.binary?, hop, hof], steps_operator ht hop ha⟩

theorem unaryOperator_ok {found : Option UnaryOp} (h : unaryOperator {} c = .ok found after) :
    (found = none ∧ after = c) ∨
      (found = none ∧ ∃ t, t.is .operator "+" = true ∧ c.Steps [t] after) ∨
      ∃ t op, found = some op ∧ t.unary? = some op ∧ c.Steps [t] after := by
  obtain ⟨held, mid, hheld, h⟩ := ok_bind h
  obtain ⟨rfl, ⟨rfl, -⟩ | ⟨t, rfl, ht, hop⟩⟩ := heldOperator_ok hheld
  · cases h
    exact .inl ⟨rfl, rfl⟩
  · right
    simp only at h
    split at h
    · rename_i hplus
      obtain ⟨_, _, ha, hp⟩ := ok_bind h
      cases hp
      refine .inl ⟨rfl, t, ?_, steps_operator ht hop ha⟩
      simp only [Token.isOperator, Bool.and_eq_true, beq_iff_eq] at hop
      simp [Token.is, hop.1, hplus]
    · cases hof : UnaryOp.ofText t.text with
      | none =>
        simp only [hof] at h
        cases h
      | some op =>
        simp only [hof] at h
        obtain ⟨_, _, ha, hp⟩ := ok_bind h
        cases hp
        exact .inr ⟨t, op, rfl, by simp [Token.unary?, hop, hof], steps_operator ht hop ha⟩

end Reader

end PartProgram
