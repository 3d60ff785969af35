import PartProgram.Expr.Reader
import PartProgram.Proofs.Lockstep

/-!
# Tokens in lockstep

The readers of single tokens agree at related positions.
-/

set_option autoImplicit false

namespace PartProgram

namespace Lockstep

variable {d : Dialect} {k : Nat} {R : Cursor → Cursor → Prop} {n m : Nat} {c c' : Cursor}
variable (L : Lockstep d k R)
include L

theorem advance_yield {α : Type} (a : α) (h : R c c') (ht : c.inLine.isSome = true)
    (hn : c.size ≤ n + 1) (hm : c'.size ≤ m + 1) :
    Same k R n m ((do Reader.advance d; return a : Reader α) c)
      ((do Reader.advance d; return a : Reader α) c') :=
  (L.advance h ht hn hm).bind (fun _ _ _ hR h1 h2 => Same.pure a hR h1 h2)

theorem advance_held_yield {α : Type} {t : Token} (a : α) (h : R c c') (ht : c.held = some t)
    (hk : t.kind ≠ .newLine) (hn : c.size ≤ n + 1) (hm : c'.size ≤ m + 1) :
    Same k R n m ((do Reader.advance d; return a : Reader α) c)
      ((do Reader.advance d; return a : Reader α) c') :=
  L.advance_yield a h (by simp [Cursor.inLine, ht, Option.filter, hk]) hn hm

theorem accept (h : R c c') {kind : TokenKind} (hk : kind ≠ .newLine) (text : String)
    (hn : c.size ≤ n) (hm : c'.size ≤ m) :
    Same k R n m (Reader.accept d kind text c) (Reader.accept d kind text c') := by
  simp only [Reader.accept, Reader.run_get, L.holds h _ hk]
  refine Same.ite (fun ht => ?_) (fun _ => Same.pure false h hn hm)
  exact L.advance_yield true h (Cursor.inLine_of_holds hk ht) (by omega) (by omega)

omit L in
theorem accept_missing {kind : TokenKind} {text : String} (h : c.holds kind text = false) :
    Reader.accept d kind text c = .ok false c := by
  simp only [Reader.accept, Reader.run_get, h, Bool.false_eq_true, if_false]
  rfl

omit L in
theorem accept_ended (h : c.inLine = none) {kind : TokenKind} (hk : kind ≠ .newLine)
    (text : String) : Reader.accept d kind text c = .ok false c := by
  refine accept_missing ?_
  rw [Cursor.holds_inLine _ _ hk, h]
  rfl

theorem accept_held (h : R c c') {kind : TokenKind} (hk : kind ≠ .newLine) {text : String}
    (ht : c.holds kind text = true) (hn : c.size ≤ n + 1) (hm : c'.size ≤ m + 1) :
    Same k R n m (Reader.accept d kind text c) (Reader.accept d kind text c') := by
  simp only [Reader.accept, Reader.run_get, L.holds h _ hk, ht, if_true]
  exact L.advance_yield true h (Cursor.inLine_of_holds hk ht) hn hm

theorem acceptKeyword (h : R c c') (word : String) (hn : c.size ≤ n) (hm : c'.size ≤ m) :
    Same k R n m (Reader.acceptKeyword d word c) (Reader.acceptKeyword d word c') := by
  simp only [Reader.acceptKeyword, Reader.run_get, L.holdsKeyword h]
  refine Same.ite (fun ht => ?_) (fun _ => Same.pure false h hn hm)
  exact L.advance_yield true h (Cursor.inLine_of_holdsKeyword ht) (by omega) (by omega)

theorem expect (h : R c c') {kind : TokenKind} (hk : kind ≠ .newLine) (text : String)
    (cause : String → ReadCause) (hn : c.size ≤ n) (hm : c'.size ≤ m) :
    Same k R n m (Reader.expect d kind text cause c) (Reader.expect d kind text cause c') := by
  simp only [Reader.expect, Reader.run_get, L.holds h _ hk]
  refine Same.ite (fun ht => ?_) (fun _ => L.failWith h cause)
  exact L.advance h (Cursor.inLine_of_holds hk ht) (by omega) (by omega)

theorem expectMore (h : R c c') (hn : c.size ≤ n) (hm : c'.size ≤ m) :
    Same k R n m (Reader.expectMore c) (Reader.expectMore c') := by
  simp only [Reader.expectMore, Reader.run_get, L.atLineEnd h]
  exact Same.ite (fun _ => L.fail h _) (fun _ => Same.pure () h hn hm)

theorem integer (h : R c c') (hn : c.size ≤ n + 1) (hm : c'.size ≤ m + 1) :
    Same k R n m (Reader.integer d c) (Reader.integer d c') := by
  have hk : ∀ t : Token, t.kind = .newLine → t.integer? = none := by
    intro t ht
    simp [Token.integer?, ht]
  simp only [Reader.integer, Reader.run_get, L.ask h _ hk (fun _ => rfl)]
  cases hx : c.held.bind Token.integer? with
  | none => exact L.failWith h _
  | some x => exact L.advance_yield x h (Cursor.inLine_of_bind hk hx) hn hm

theorem natural (h : R c c') (hn : c.size ≤ n + 1) (hm : c'.size ≤ m + 1) :
    Same k R n m (Reader.natural d c) (Reader.natural d c') := by
  have hk : ∀ t : Token, t.kind = .newLine → t.integer? = none := by
    intro t ht
    simp [Token.integer?, ht]
  simp only [Reader.natural, Reader.run_get, L.ask h _ hk (fun _ => rfl)]
  cases hx : c.held.bind Token.integer? with
  | none => exact L.failWith h _
  | some x =>
    refine Same.ite (fun _ => ?_) (fun _ => L.failWith h _)
    exact L.advance_yield _ h (Cursor.inLine_of_bind hk hx) hn hm

omit L in
theorem gluedDigits_ended (name : String) (h : c.inLine = none) :
    Reader.gluedDigits d name c = .ok name c := by
  rcases Cursor.ended_cases h with hh | ⟨t, hh, ht⟩
  · simp only [Reader.gluedDigits, Reader.run_get, hh, Reader.run_pure]
  · simp [Reader.gluedDigits, Reader.run_get, hh, Token.isDecimal, ht, Reader.run_pure]

theorem gluedDigits (name : String) (h : R c c') (hn : c.size ≤ n) (hm : c'.size ≤ m) :
    Same k R n m (Reader.gluedDigits d name c) (Reader.gluedDigits d name c') := by
  rcases L.cases h with ⟨t, ht, hc, hc'⟩ | ⟨hc, hc'⟩
  · simp only [Reader.gluedDigits, Reader.run_get, hc, hc', Token.spaced_below,
      Token.isDecimal_below, Token.text_below]
    refine Same.ite (fun _ => ?_) (fun _ => Same.pure name h hn hm)
    exact L.advance_held_yield _ h hc ht (by omega) (by omega)
  · rw [gluedDigits_ended name hc, gluedDigits_ended name hc']
    exact Same.pure name h hn hm

theorem operator (h : R c c') :
    (c'.held.filter (fun t => t.kind == .operator && t.text != "=")).map Token.text =
      (c.held.filter (fun t => t.kind == .operator && t.text != "=")).map Token.text := by
  rw [L.select h _ (by intro t ht; simp [ht]) (fun _ => rfl), Option.map_map]
  rfl

omit L in
theorem inLine_of_operator {text : String}
    (h : (c.held.filter (fun t => t.kind == .operator && t.text != "=")).map Token.text =
      some text) : c.inLine.isSome = true := by
  obtain ⟨t, ht, -⟩ := Option.map_eq_some_iff.mp h
  obtain ⟨hc, hop⟩ := Option.filter_eq_some_iff.mp ht
  have hk : t.kind ≠ .newLine := by
    intro hk
    simp [hk] at hop
  simp [Cursor.inLine, hc, Option.filter, hk]

theorem binaryOperator (h : R c c') (hn : c.size ≤ n + 1) (hm : c'.size ≤ m + 1) :
    (Reader.binaryOperator d c = .ok none c ∧ Reader.binaryOperator d c' = .ok none c') ∨
      Same k R n m (Reader.binaryOperator d c) (Reader.binaryOperator d c') := by
  simp only [Reader.binaryOperator, Reader.heldOperator, Reader.run_get, bind_assoc, pure_bind,
    L.operator h]
  cases hop : (c.held.filter (fun t => t.kind == .operator && t.text != "=")).map Token.text with
  | none => exact .inl ⟨rfl, rfl⟩
  | some text =>
    right
    dsimp only
    cases BinaryOp.ofText text with
    | none => exact L.fail h _
    | some op => exact L.advance_yield _ h (inLine_of_operator hop) hn hm

theorem unaryOperator (h : R c c') (hn : c.size ≤ n + 1) (hm : c'.size ≤ m + 1) :
    (Reader.unaryOperator d c = .ok none c ∧ Reader.unaryOperator d c' = .ok none c') ∨
      Same k R n m (Reader.unaryOperator d c) (Reader.unaryOperator d c') := by
  simp only [Reader.unaryOperator, Reader.heldOperator, Reader.run_get, bind_assoc, pure_bind,
    L.operator h]
  cases hop : (c.held.filter (fun t => t.kind == .operator && t.text != "=")).map Token.text with
  | none => exact .inl ⟨rfl, rfl⟩
  | some text =>
    refine .inr (Same.ite (fun _ => ?_) (fun _ => ?_))
    · exact L.advance_yield _ h (inLine_of_operator hop) hn hm
    · cases UnaryOp.ofText text with
      | none => exact L.fail h _
      | some op => exact L.advance_yield _ h (inLine_of_operator hop) hn hm

theorem exponentSign (h : R c c') (hn : c.size ≤ n) (hm : c'.size ≤ m) :
    Same k R n m (Reader.exponentSign d c) (Reader.exponentSign d c') := by
  refine (L.accept h (by decide) "-" hn hm).bind (fun minus c c' h hn hm => ?_)
  refine Same.ite (fun _ => Same.pure _ h hn hm) (fun _ => ?_)
  exact (L.accept h (by decide) "+" hn hm).bind (fun _ _ _ h hn hm => Same.pure _ h hn hm)

theorem exponent (h : R c c') (hn : c.size ≤ n) (hm : c'.size ≤ m) :
    Same k R n m (Reader.exponent d c) (Reader.exponent d c') := by
  refine (L.exponentSign h hn hm).bind (fun sign c c' h hn hm => ?_)
  have hf : ∀ t : Token, t.kind = .newLine → t.isDecimal = false := by
    intro t ht
    simp [Token.isDecimal, ht]
  have hs := L.select h Token.isDecimal hf (fun _ => rfl)
  simp only [Reader.run_get, hs]
  cases hd : c.held.filter Token.isDecimal with
  | none => exact L.failWith h _
  | some t =>
    obtain ⟨hc, ht⟩ := Option.filter_eq_some_iff.mp hd
    have hk : t.kind ≠ .newLine := fun hk => by simp [hf t hk] at ht
    simp only [Option.map_some, Option.bind_some, Token.text_below]
    cases readReal t.text with
    | none => exact L.failWith h _
    | some value => exact L.advance_held_yield _ h hc hk (by omega) (by omega)

theorem glued_ex (h : R c c') :
    c'.held.any (fun next => next.isKeyword "EX" && !next.spaced) =
      c.held.any (fun next => next.isKeyword "EX" && !next.spaced) := by
  rcases L.cases h with ⟨t, -, hc, hc'⟩ | ⟨hc, hc'⟩
  · rw [hc, hc']
    rfl
  · have ended : ∀ c : Cursor, c.inLine = none →
        c.held.any (fun next => next.isKeyword "EX" && !next.spaced) = false := by
      intro c hc
      rcases Cursor.ended_cases hc with hh | ⟨t, hh, ht⟩
      · rw [hh]
        rfl
      · simp [hh, Token.isKeyword, ht]
    rw [ended c hc, ended c' hc']

theorem number {t : Token} (h : R c c') (hc : c.held = some t) (hk : t.kind ≠ .newLine)
    (hn : c.size ≤ n + 1) (hm : c'.size ≤ m + 1) :
    Same k R n m (Reader.number d t c) (Reader.number d (t.below k) c') := by
  simp only [Reader.number, Token.number?_below, Token.text_below]
  cases t.number? with
  | none => exact L.fail h _
  | some value =>
    cases t.text.toList.head? with
    | none => exact L.fail h _
    | some mark =>
      refine (L.advance_held h hc hk hn hm).bind (fun _ c c' h hn hm => ?_)
      simp only [Reader.run_get, L.glued_ex h]
      refine Same.ite (fun hx => ?_) (fun _ => Same.pure _ h hn hm)
      have hx : c.holdsKeyword "EX" = true := by
        cases hh : c.held with
        | none => simp [hh] at hx
        | some t => simp_all [Cursor.holdsKeyword]
      refine (L.advance_within h (Cursor.inLine_of_holdsKeyword hx) hn hm).bind
        (fun _ c c' h hn hm => ?_)
      exact (L.exponent h hn hm).bind (fun _ _ _ h hn hm => Same.pure _ h hn hm)

end Lockstep

end PartProgram
