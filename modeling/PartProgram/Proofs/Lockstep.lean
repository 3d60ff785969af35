import PartProgram.Token.Progress

/-!
# Two readings in lockstep

Two readers run side by side on two positions. The positions stand at the same
token of their lines, a number of lines apart; the texts around the two lines
are free. What a reader may look at within a line is collected here, with the
rules by which agreement passes from the parts of a reader to the whole. Each
reader also has a bound on what it leaves to read, since readers that repeat
recurse on the characters ahead.
-/

set_option autoImplicit false

namespace PartProgram

def Token.below (k : Nat) (t : Token) : Token := { t with line := t.line + k }

def ReadError.below (k : Nat) (e : ReadError) : ReadError := { e with line := e.line + k }

@[simp]
theorem Token.kind_below (k : Nat) (t : Token) : (t.below k).kind = t.kind := rfl

@[simp]
theorem Token.text_below (k : Nat) (t : Token) : (t.below k).text = t.text := rfl

@[simp]
theorem Token.spaced_below (k : Nat) (t : Token) : (t.below k).spaced = t.spaced := rfl

@[simp]
theorem Token.is_below (k : Nat) (kind : TokenKind) (text : String) (t : Token) :
    (t.below k).is kind text = t.is kind text := rfl

@[simp]
theorem Token.isKeyword_below (k : Nat) (word : String) (t : Token) :
    (t.below k).isKeyword word = t.isKeyword word := rfl

@[simp]
theorem Token.isDecimal_below (k : Nat) (t : Token) : (t.below k).isDecimal = t.isDecimal := rfl

@[simp]
theorem Token.integer?_below (k : Nat) (t : Token) : (t.below k).integer? = t.integer? := rfl

@[simp]
theorem Token.number?_below (k : Nat) (t : Token) : (t.below k).number? = t.number? := rfl

@[simp]
theorem Token.below_zero (t : Token) : t.below 0 = t := rfl

namespace Cursor

def inLine (c : Cursor) : Option Token := c.held.filter (fun t => t.kind != .newLine)

theorem held_of_inLine {c : Cursor} {t : Token} (h : c.inLine = some t) :
    c.held = some t ∧ t.kind ≠ .newLine := by
  rw [inLine, Option.filter_eq_some_iff] at h
  exact ⟨h.1, by simpa using h.2⟩

theorem ended_cases {c : Cursor} (h : c.inLine = none) :
    c.held = none ∨ ∃ t, c.held = some t ∧ t.kind = .newLine := by
  cases hh : c.held with
  | none => exact .inl rfl
  | some t =>
    refine .inr ⟨t, rfl, ?_⟩
    simpa [inLine, hh, Option.filter_eq_none_iff] using h

theorem inLine_of_size_zero {c : Cursor} (h : c.size = 0) : c.inLine = none := by
  cases hh : c.held with
  | none => simp [inLine, hh]
  | some t => simp [size, hh] at h

theorem holds_inLine (c : Cursor) {kind : TokenKind} (text : String) (hk : kind ≠ .newLine) :
    c.holds kind text = c.inLine.any (Token.is kind text) := by
  cases hh : c.held with
  | none => simp [holds, inLine, hh]
  | some t =>
    by_cases ht : t.kind = .newLine
    · simp [holds, inLine, hh, ht, Token.is, Option.filter, hk.symm]
    · simp [holds, inLine, hh, ht, Option.filter]

theorem holdsKeyword_inLine (c : Cursor) (word : String) :
    c.holdsKeyword word = c.inLine.any (Token.isKeyword word) := by
  cases hh : c.held with
  | none => simp [holdsKeyword, inLine, hh]
  | some t =>
    by_cases ht : t.kind = .newLine
    · simp [holdsKeyword, inLine, hh, ht, Token.isKeyword, Option.filter]
    · simp [holdsKeyword, inLine, hh, ht, Option.filter]

theorem atLineEnd_inLine (c : Cursor) :
    c.atLineEnd = c.inLine.all (fun t => t.kind == .comment) := by
  cases hh : c.held with
  | none => simp [atLineEnd, inLine, hh]
  | some t => by_cases ht : t.kind = .newLine <;> simp [atLineEnd, inLine, hh, ht, Option.filter]

theorem found_inLine (c : Cursor) : c.found = (c.inLine.map Token.text).getD "" := by
  cases hh : c.held with
  | none => simp [found, inLine, hh]
  | some t => by_cases ht : t.kind = .newLine <;> simp [found, inLine, hh, ht, Option.filter]

theorem inLine_of_holds {c : Cursor} {kind : TokenKind} {text : String} (hk : kind ≠ .newLine)
    (h : c.holds kind text = true) : c.inLine.isSome = true := by
  rw [holds_inLine _ _ hk] at h
  cases hc : c.inLine with
  | none => simp [hc] at h
  | some t => rfl

theorem inLine_of_holdsKeyword {c : Cursor} {word : String} (h : c.holdsKeyword word = true) :
    c.inLine.isSome = true := by
  rw [holdsKeyword_inLine] at h
  cases hc : c.inLine with
  | none => simp [hc] at h
  | some t => rfl

theorem inLine_of_bind {β : Type} {c : Cursor} {f : Token → Option β} {b : β}
    (hf : ∀ t : Token, t.kind = .newLine → f t = none) (h : c.held.bind f = some b) :
    c.inLine.isSome = true := by
  obtain ⟨t, ht, hb⟩ := Option.bind_eq_some_iff.mp h
  have hk : t.kind ≠ .newLine := by
    intro hk
    simp [hf t hk] at hb
  simp [inLine, ht, Option.filter, hk]

theorem bind_inLine {β : Type} (c : Cursor) (f : Token → Option β)
    (hf : ∀ t : Token, t.kind = .newLine → f t = none) : c.held.bind f = c.inLine.bind f := by
  cases hh : c.held with
  | none => simp [inLine, hh]
  | some t => by_cases ht : t.kind = .newLine <;> simp [inLine, hh, ht, Option.filter, hf]

theorem filter_inLine (c : Cursor) (p : Token → Bool)
    (hp : ∀ t : Token, t.kind = .newLine → p t = false) : c.held.filter p = c.inLine.filter p := by
  cases hh : c.held with
  | none => simp [inLine, hh]
  | some t => by_cases ht : t.kind = .newLine <;> simp [inLine, hh, ht, Option.filter, hp]

end Cursor

/-- Two results agree: values related by `S`, positions by `R` and errors by `E`.
A value leaves at most `n` and `m` to read. -/
def Agree {α β : Type} (E : ReadError → ReadError → Prop) (R : Cursor → Cursor → Prop)
    (S : α → β → Prop) (n m : Nat) :
    EStateM.Result ReadError Cursor α → EStateM.Result ReadError Cursor β → Prop
  | .ok a c, .ok a' c' => S a a' ∧ R c c' ∧ c.size ≤ n ∧ c'.size ≤ m
  | .error e c, .error e' c' => E e e' ∧ R c c'
  | _, _ => False

namespace Agree

variable {α β γ δ : Type} {E : ReadError → ReadError → Prop} {R : Cursor → Cursor → Prop}
  {S : α → β → Prop} {T : γ → δ → Prop} {n m i j : Nat} {c c' : Cursor}

theorem pure {a : α} {a' : β} (hS : S a a') (hR : R c c') (hn : c.size ≤ n) (hm : c'.size ≤ m) :
    Agree E R S n m ((Pure.pure a : Reader α) c) ((Pure.pure a' : Reader β) c') :=
  ⟨hS, hR, hn, hm⟩

theorem mono {r : EStateM.Result ReadError Cursor α} {r' : EStateM.Result ReadError Cursor β}
    (h : Agree E R S i j r r') (hi : i ≤ n) (hj : j ≤ m) : Agree E R S n m r r' := by
  cases r <;> cases r'
  · exact ⟨h.1, h.2.1, Nat.le_trans h.2.2.1 hi, Nat.le_trans h.2.2.2 hj⟩
  · exact h
  · exact h
  · exact h

theorem bind {p : Reader α} {p' : Reader β} {q : α → Reader γ} {q' : β → Reader δ}
    (h : Agree E R S i j (p c) (p' c'))
    (hq : ∀ (a : α) (a' : β) (c c' : Cursor), S a a' → R c c' → c.size ≤ i → c'.size ≤ j →
      Agree E R T n m (q a c) (q' a' c')) :
    Agree E R T n m ((p >>= q) c) ((p' >>= q') c') := by
  simp only [Bind.bind, EStateM.bind]
  cases hp : p c <;> cases hp' : p' c' <;> rw [hp, hp'] at h
  · exact hq _ _ _ _ h.1 h.2.1 h.2.2.1 h.2.2.2
  · exact h.elim
  · exact h.elim
  · exact h

theorem map {p : Reader α} {p' : Reader β} {f : α → γ} {f' : β → δ}
    (h : Agree E R S n m (p c) (p' c')) (hf : ∀ a a', S a a' → T (f a) (f' a')) :
    Agree E R T n m ((f <$> p) c) ((f' <$> p') c') := by
  simp only [Functor.map, EStateM.map]
  cases hp : p c <;> cases hp' : p' c' <;> rw [hp, hp'] at h
  · exact ⟨hf _ _ h.1, h.2⟩
  · exact h.elim
  · exact h.elim
  · exact h

end Agree

/-- A relation of positions that reading within a line keeps: the same tokens,
`k` lines apart. -/
structure Lockstep (d : Dialect) (k : Nat) (R : Cursor → Cursor → Prop) : Prop where
  inLine : ∀ {c c' : Cursor}, R c c' → c'.inLine = c.inLine.map (Token.below k)
  errorLine : ∀ {c c' : Cursor}, R c c' → c'.errorLine = c.errorLine + k
  /-- Stepping over a token of the line keeps the relation, also if it fails. -/
  step : ∀ {c c' : Cursor}, R c c' → c.inLine.isSome = true →
    match Reader.advance d c, Reader.advance d c' with
    | .ok _ c, .ok _ c' => R c c'
    | .error e c, .error e' c' => e' = e.below k ∧ R c c'
    | _, _ => False

/-- The same error `k` lines apart. It names the line of a position on the way. -/
def Apart (k : Nat) (R : Cursor → Cursor → Prop) (e e' : ReadError) : Prop :=
  e' = e.below k ∧ ∃ c c', R c c' ∧ (e.line = c.line ∨ e.line = c.errorLine)

/-- Two results with the same value, or the same error `k` lines apart. -/
def Same {α : Type} (k : Nat) (R : Cursor → Cursor → Prop) (n m : Nat)
    (r r' : EStateM.Result ReadError Cursor α) : Prop :=
  Agree (Apart k R) R (fun a a' => a' = a) n m r r'

/-- Two readers that agree on all positions with at most `F` and `F'` to read, and that
take a token at least. -/
def Takes {α : Type} (k : Nat) (R : Cursor → Cursor → Prop) (F F' : Nat) (p p' : Reader α) : Prop :=
  ∀ (n m : Nat) (c c' : Cursor), R c c' → c.size ≤ F → c'.size ≤ F' → c.size ≤ n + 1 →
    c'.size ≤ m + 1 → Same k R n m (p c) (p' c')

namespace Same

variable {α β : Type} {k : Nat} {R : Cursor → Cursor → Prop} {n m i j : Nat} {c c' : Cursor}

theorem pure (a : α) (hR : R c c') (hn : c.size ≤ n) (hm : c'.size ≤ m) :
    Same k R n m ((Pure.pure a : Reader α) c) ((Pure.pure a : Reader α) c') :=
  Agree.pure rfl hR hn hm

theorem mono {r r' : EStateM.Result ReadError Cursor α} (h : Same k R i j r r') (hi : i ≤ n)
    (hj : j ≤ m) : Same k R n m r r' :=
  Agree.mono h hi hj

theorem andThen {T : β → β → Prop} {p p' : Reader α} {q q' : α → Reader β}
    (h : Same k R i j (p c) (p' c'))
    (hq : ∀ (a : α) (c c' : Cursor), R c c' → c.size ≤ i → c'.size ≤ j →
      Agree (Apart k R) R T n m (q a c) (q' a c')) :
    Agree (Apart k R) R T n m ((p >>= q) c) ((p' >>= q') c') := by
  refine Agree.bind h ?_
  rintro a a' c c' rfl hR hn hm
  exact hq a' c c' hR hn hm

theorem bind {p p' : Reader α} {q q' : α → Reader β} (h : Same k R i j (p c) (p' c'))
    (hq : ∀ (a : α) (c c' : Cursor), R c c' → c.size ≤ i → c'.size ≤ j →
      Same k R n m (q a c) (q' a c')) :
    Same k R n m ((p >>= q) c) ((p' >>= q') c') :=
  h.andThen hq

theorem map {p p' : Reader α} (f : α → β) (h : Same k R n m (p c) (p' c')) :
    Same k R n m ((f <$> p) c) ((f <$> p') c') :=
  Agree.map h (fun _ _ ha => congrArg f ha)

theorem ite {b : Prop} [Decidable b] {p q p' q' : Reader α}
    (ht : b → Same k R n m (p c) (p' c')) (hf : ¬b → Same k R n m (q c) (q' c')) :
    Same k R n m ((if b then p else q) c) ((if b then p' else q') c') := by
  by_cases hb : b
  · simpa only [if_pos hb] using ht hb
  · simpa only [if_neg hb] using hf hb

end Same

theorem Takes.keeps {α : Type} {k : Nat} {R : Cursor → Cursor → Prop} {F F' n m : Nat}
    {p p' : Reader α} (h : Takes k R F F' p p') {c c' : Cursor} (hR : R c c') (hF : c.size ≤ F)
    (hF' : c'.size ≤ F') (hn : c.size ≤ n) (hm : c'.size ≤ m) : Same k R n m (p c) (p' c') :=
  (h (n - 1) (m - 1) c c' hR hF hF' (by omega) (by omega)).mono (by omega) (by omega)

namespace Lockstep

variable {d : Dialect} {k : Nat} {R : Cursor → Cursor → Prop} {n m : Nat} {c c' : Cursor}
variable (L : Lockstep d k R)
include L

theorem cases (h : R c c') :
    (∃ t, t.kind ≠ .newLine ∧ c.held = some t ∧ c'.held = some (t.below k)) ∨
      c.inLine = none ∧ c'.inLine = none := by
  have hi := L.inLine h
  cases hc : c.inLine with
  | none => exact .inr ⟨rfl, by simpa [hc] using hi⟩
  | some t =>
    rw [hc, Option.map_some] at hi
    have ht := Cursor.held_of_inLine hc
    exact .inl ⟨t, ht.2, ht.1, (Cursor.held_of_inLine hi).1⟩

theorem ended (h : R c c') : c'.inLine = none ↔ c.inLine = none := by
  rw [L.inLine h, Option.map_eq_none_iff]

theorem found (h : R c c') : c'.found = c.found := by
  rw [Cursor.found_inLine, Cursor.found_inLine, L.inLine h]
  cases c.inLine <;> rfl

theorem atLineEnd (h : R c c') : c'.atLineEnd = c.atLineEnd := by
  rw [Cursor.atLineEnd_inLine, Cursor.atLineEnd_inLine, L.inLine h]
  cases c.inLine <;> rfl

theorem holds (h : R c c') (kind : TokenKind) (hk : kind ≠ .newLine) (text : String) :
    c'.holds kind text = c.holds kind text := by
  rw [Cursor.holds_inLine _ _ hk, Cursor.holds_inLine _ _ hk, L.inLine h]
  cases c.inLine <;> rfl

theorem holdsKeyword (h : R c c') (word : String) :
    c'.holdsKeyword word = c.holdsKeyword word := by
  rw [Cursor.holdsKeyword_inLine, Cursor.holdsKeyword_inLine, L.inLine h]
  cases c.inLine <;> rfl

theorem ask {β : Type} (h : R c c') (f : Token → Option β)
    (hf : ∀ t : Token, t.kind = .newLine → f t = none) (hb : ∀ t : Token, f (t.below k) = f t) :
    c'.held.bind f = c.held.bind f := by
  rw [Cursor.bind_inLine _ _ hf, Cursor.bind_inLine _ _ hf, L.inLine h]
  cases c.inLine with
  | none => rfl
  | some t => exact hb t

theorem select (h : R c c') (p : Token → Bool)
    (hp : ∀ t : Token, t.kind = .newLine → p t = false) (hb : ∀ t : Token, p (t.below k) = p t) :
    c'.held.filter p = (c.held.filter p).map (Token.below k) := by
  rw [Cursor.filter_inLine _ _ hp, Cursor.filter_inLine _ _ hp, L.inLine h]
  cases c.inLine with
  | none => rfl
  | some t => by_cases ht : p t = true <;> simp [Option.filter, hb, ht]

theorem failWith {α : Type} (h : R c c') (cause : String → ReadCause) :
    Same k R n m ((Reader.failWith cause : Reader α) c) (Reader.failWith cause c') := by
  refine ⟨⟨?_, c, c', h, .inr rfl⟩, h⟩
  rw [L.errorLine h, L.found h]
  rfl

theorem fail {α : Type} (h : R c c') (cause : ReadCause) :
    Same k R n m ((Reader.fail cause : Reader α) c) (Reader.fail cause c') :=
  L.failWith h (fun _ => cause)

theorem advance (h : R c c') (ht : c.inLine.isSome = true) (hn : c.size ≤ n + 1)
    (hm : c'.size ≤ m + 1) : Same k R n m (Reader.advance d c) (Reader.advance d c') := by
  have hs := L.step h ht
  have held : ∀ c : Cursor, c.inLine.isSome = true → c.held.isSome = true := by
    intro c hc
    obtain ⟨t, ht⟩ := Option.isSome_iff_exists.mp hc
    simp [(Cursor.held_of_inLine ht).1]
  have ht' : c'.inLine.isSome = true := by simpa [L.inLine h] using ht
  cases ha : Reader.advance d c <;> cases ha' : Reader.advance d c' <;> rw [ha, ha'] at hs
  · have h1 := Reader.advance_size (held c ht) ha
    have h2 := Reader.advance_size (held c' ht') ha'
    exact ⟨rfl, hs, by omega, by omega⟩
  · exact hs
  · exact hs
  · exact ⟨⟨hs.1, c, c', h, .inl (Reader.advance_error ha)⟩, hs.2⟩

theorem advance_within (h : R c c') (ht : c.inLine.isSome = true) (hn : c.size ≤ n)
    (hm : c'.size ≤ m) : Same k R n m (Reader.advance d c) (Reader.advance d c') :=
  L.advance h ht (by omega) (by omega)

theorem advance_held {t : Token} (h : R c c') (ht : c.held = some t) (hk : t.kind ≠ .newLine)
    (hn : c.size ≤ n + 1) (hm : c'.size ≤ m + 1) :
    Same k R n m (Reader.advance d c) (Reader.advance d c') :=
  L.advance h (by simp [Cursor.inLine, ht, Option.filter, hk]) hn hm

end Lockstep

end PartProgram
