import PartProgram.Proofs.LetterCase.Scan

/-!
# Reading in upper case

A reader is run at a position of a text and at the same position of the text in
upper case. It yields related values and stops at the same position there, or it
fails in the same line for a cause of the same kind. The rules here pass this on
from the parts of a reader to the whole; the readers of single tokens follow.
-/

set_option autoImplicit false

namespace PartProgram

/-- The cause of an error without the text that was found. -/
def ReadCause.kind : ReadCause → ReadCause
  | expectedOperand _ => expectedOperand ""
  | invalidNumber _ => invalidNumber ""
  | expectedNumber _ => expectedNumber ""
  | expectedInteger _ => expectedInteger ""
  | expectedBinaryOperator _ => expectedBinaryOperator ""
  | expectedClosingBracket _ => expectedClosingBracket ""
  | expectedClosingFieldBrace _ => expectedClosingFieldBrace ""
  | expectedLineEnd _ => expectedLineEnd ""
  | expectedVariableType _ => expectedVariableType ""
  | expectedVariableName _ => expectedVariableName ""
  | cause => cause

def ReadError.kind (e : ReadError) : ReadError := { e with cause := e.cause.kind }

namespace Token

variable (t : Token)

theorem upper_text_fold : upper t.fold.text = upper t.text := by
  have hfold : (foldText t.kind t.text.toList).map Char.toUpper =
      t.text.toList.map Char.toUpper := by
    unfold foldText
    split
    · rfl
    · rfl
    · rw [List.map_map]
      exact List.map_congr_left (fun c _ => toUpper_toUpper c)
  rw [upper, Token.fold, String.toList_ofList, hfold, upper]

theorem text_fold {kind : TokenKind} (h : t.kind = kind) (hkind : foldText kind = List.map Char.toUpper) :
    t.fold.text = upper t.text := by
  rw [Token.fold, h, hkind, upper]

theorem toList_fold {kind : TokenKind} (h : t.kind = kind)
    (hkind : foldText kind = List.map Char.toUpper) :
    t.fold.text.toList = t.text.toList.map Char.toUpper := by
  rw [text_fold t h hkind, upper_toList]

end Token

theorem eq_iff_of_upper {a b : String} (h : upper a = upper b) {text : String}
    (htext : text.toList.all (fun c => !c.isAlpha) = true) : a = text ↔ b = text := by
  have hsame : ∀ s : String, upper s = text ↔ s = text := by
    intro s
    rw [← String.toList_inj, ← String.toList_inj, upper_toList]
    generalize s.toList = cs
    generalize text.toList = ts at htext
    induction cs generalizing ts with
    | nil => rfl
    | cons c cs ih =>
      cases ts with
      | nil => simp
      | cons e ts =>
        rw [List.all_cons, Bool.and_eq_true, Bool.not_eq_true'] at htext
        rw [List.map_cons, List.cons.injEq, List.cons.injEq, toUpper_eq_iff htext.1,
          ih ts htext.2]
  rw [← hsame a, h, hsame b]

namespace Token

variable (t : Token)

theorem is_fold (kind : TokenKind) {text : String}
    (htext : text.toList.all (fun c => !c.isAlpha) = true) :
    t.fold.is kind text = t.is kind text := by
  have hiff := eq_iff_of_upper t.upper_text_fold htext
  rw [Bool.eq_iff_iff]
  simp only [Token.is, Bool.and_eq_true, beq_iff_eq, hiff]
  rfl

theorem isKeyword_fold (word : String) : t.fold.isKeyword word = t.isKeyword word := by
  rw [Token.isKeyword, sameLetters_congr t.upper_text_fold]
  rfl

theorem kind_of_isDecimal {t : Token} (h : t.isDecimal = true) : t.kind = .number := by
  simp only [Token.isDecimal, Bool.and_eq_true, beq_iff_eq] at h
  exact h.1

theorem isDecimal_fold : t.fold.isDecimal = t.isDecimal := by
  by_cases h : t.kind = .number
  · have hdigit : Char.isDigit ∘ Char.toUpper = Char.isDigit := funext isDigit_toUpper
    rw [Token.isDecimal, toList_fold t h rfl, List.head?_map, Option.map_map, hdigit]
    rfl
  · have hkind : (t.kind == .number) = false := by simpa using h
    simp [Token.isDecimal, Token.fold, hkind]

theorem integer?_fold : t.fold.integer? = t.integer? := by
  by_cases h : t.kind = .number
  · rw [Token.integer?, toList_fold t h rfl, integerText?_toUpper]
    rfl
  · simp [Token.integer?, Token.fold, h]

theorem number?_fold : t.fold.number? = t.number? := by
  by_cases h : t.kind = .number
  · have hkind : t.fold.kind = .number := h
    rw [Token.number?, Token.number?, if_pos hkind, if_pos h, integer?_fold,
      toList_fold t h rfl, text_fold t h rfl, readReal_toUpper]
    cases t.text.toList with
    | nil => rfl
    | cons c cs => simp only [List.map_cons, ofMark_toUpper]
  · simp [Token.number?, Token.fold, h]

end Token

namespace Cursor

def fold (d : Dialect) (c : Cursor) : Cursor :=
  ⟨foldCase d .code c.unread, c.line, c.held.map Token.fold⟩

variable (d : Dialect) (c : Cursor)

theorem ahead_fold : (c.fold d).ahead.length = c.ahead.length := by
  rw [ahead_length, ahead_length, size, size, fold, length_foldCase, Option.isSome_map]

theorem errorLine_fold : (c.fold d).errorLine = c.errorLine := by
  cases h : c.held <;> simp [errorLine, fold, h, Token.fold]

theorem atLineEnd_fold : (c.fold d).atLineEnd = c.atLineEnd := by
  cases h : c.held <;> simp [atLineEnd, fold, h, Token.fold]

theorem holds_fold (kind : TokenKind) {text : String}
    (htext : text.toList.all (fun c => !c.isAlpha) = true) :
    (c.fold d).holds kind text = c.holds kind text := by
  cases h : c.held with
  | none => simp [holds, fold, h]
  | some t => simp [holds, fold, h, t.is_fold kind htext]

theorem integer?_fold : (c.fold d).held.bind Token.integer? = c.held.bind Token.integer? := by
  cases h : c.held with
  | none => simp [fold, h]
  | some t => simp [fold, h, t.integer?_fold]

theorem holdsKeyword_fold (word : String) : (c.fold d).holdsKeyword word = c.holdsKeyword word := by
  cases h : c.held with
  | none => simp [holdsKeyword, fold, h]
  | some t => simp [holdsKeyword, fold, h, t.isKeyword_fold word]

end Cursor

/-- Results at the same position of a text and of the text in upper case. -/
def Folded {α β : Type} (d : Dialect) (S : α → β → Prop) :
    EStateM.Result ReadError Cursor α → EStateM.Result ReadError Cursor β → Prop
  | .ok a c, .ok b c' => S a b ∧ c' = c.fold d
  | .error e _, .error e' _ => e'.kind = e.kind
  | _, _ => False

namespace Reader

/-- A reader, and the reader that reads the text in upper case. -/
def Folds {α β : Type} (d : Dialect) (S : α → β → Prop) (p : Reader α) (q : Reader β) : Prop :=
  ∀ c : Cursor, Folded d S (p c) (q (c.fold d))

def FoldsBy {α β : Type} (d : Dialect) (g : α → β) (p : Reader α) (q : Reader β) : Prop :=
  Folds d (fun a b => b = g a) p q

section Rules

variable {α β γ δ : Type} {d : Dialect} {S : α → β → Prop} {T : γ → δ → Prop}

theorem Folds.pure {a : α} {b : β} (h : S a b) : Folds d S (Pure.pure a) (Pure.pure b) :=
  fun _ => ⟨h, rfl⟩

theorem Folds.bind {p : Reader α} {q : Reader β} {k : α → Reader γ} {k' : β → Reader δ}
    (h : Folds d S p q) (hk : ∀ a b, S a b → Folds d T (k a) (k' b)) :
    Folds d T (p >>= k) (q >>= k') := by
  intro c
  have hc := h c
  rw [run_bind, run_bind]
  cases hp : p c with
  | ok a after =>
    cases hq : q (c.fold d) with
    | ok b after' =>
      rw [hp, hq] at hc
      obtain ⟨hab, rfl⟩ := hc
      exact hk a b hab after
    | error e after' =>
      rw [hp, hq] at hc
      exact hc.elim
  | error e after =>
    cases hq : q (c.fold d) with
    | ok b after' =>
      rw [hp, hq] at hc
      exact hc.elim
    | error e' after' =>
      rw [hp, hq] at hc
      exact hc

theorem Folds.mono {S' : α → β → Prop} {p : Reader α} {q : Reader β} (h : Folds d S p q)
    (hS : ∀ a b, S a b → S' a b) : Folds d S' p q := by
  rw [← bind_pure p, ← bind_pure q]
  exact h.bind (fun a b hab => .pure (hS a b hab))

theorem FoldsBy.bind {g : α → β} {p : Reader α} {q : Reader β} {k : α → Reader γ}
    {k' : β → Reader δ} (h : FoldsBy d g p q) (hk : ∀ a, Folds d T (k a) (k' (g a))) :
    Folds d T (p >>= k) (q >>= k') := by
  refine Folds.bind h ?_
  rintro a _ rfl
  exact hk a

theorem Folds.map {p : Reader α} {q : Reader β} {f : α → γ} {f' : β → δ} (h : Folds d S p q)
    (hf : ∀ a b, S a b → T (f a) (f' b)) : Folds d T (f <$> p) (f' <$> q) := by
  rw [map_eq_pure_bind, map_eq_pure_bind]
  exact h.bind (fun a b hab => .pure (hf a b hab))

theorem FoldsBy.map {g : α → β} {p : Reader α} {q : Reader β} {f : α → γ} {f' : β → δ}
    (h : FoldsBy d g p q) (hf : ∀ a, T (f a) (f' (g a))) : Folds d T (f <$> p) (f' <$> q) := by
  refine Folds.map h ?_
  rintro a _ rfl
  exact hf a

theorem Folds.get {k : Cursor → Reader α} {k' : Cursor → Reader β}
    (h : ∀ c, Folds d S (k c) (k' (c.fold d))) :
    Folds d S ((MonadState.get : Reader Cursor) >>= k) ((MonadState.get : Reader Cursor) >>= k') :=
  fun c => h c c

theorem Folds.ite {b b' : Prop} [Decidable b] [Decidable b'] {p p' : Reader α} {q q' : Reader β}
    (hb : b' ↔ b) (ht : Folds d S p q) (hf : Folds d S p' q') :
    Folds d S (if b then p else p') (if b' then q else q') := by
  by_cases h : b
  · rw [if_pos h, if_pos (hb.mpr h)]
    exact ht
  · rw [if_neg h, if_neg (fun h' => h (hb.mp h'))]
    exact hf

theorem folds_failWith {cause cause' : String → ReadCause}
    (h : ∀ a b, (cause' a).kind = (cause b).kind) : Folds d S (failWith cause) (failWith cause') := by
  intro c
  rw [failWith, failWith, Folded, ReadError.kind, ReadError.kind, Cursor.errorLine_fold]
  simp [h (c.fold d).found c.found]

theorem folds_fail {cause cause' : ReadCause} (h : cause'.kind = cause.kind) :
    Folds d S (fail cause) (fail cause') :=
  folds_failWith (fun _ _ => h)

end Rules

variable (d : Dialect)

theorem folds_advance : FoldsBy d id (advance d) (advance d) := by
  intro c
  have hnext := Scan.next_fold d c.line c.unread
  have hline : (c.fold d).line = c.line := rfl
  have hunread : (c.fold d).unread = foldCase d .code c.unread := rfl
  unfold advance
  rw [hline, hunread]
  cases hscan : Scan.next d c.line c.unread with
  | finished =>
    rw [hscan] at hnext
    rw [hnext]
    exact ⟨rfl, rfl⟩
  | token t line rest =>
    rw [hscan] at hnext
    dsimp only at hnext
    rw [hnext]
    exact ⟨rfl, rfl⟩
  | fault cause rest =>
    rw [hscan] at hnext
    obtain ⟨rest', hfault⟩ := hnext
    rw [hfault]
    exact rfl

theorem folds_advance_pure {α β : Type} {S : α → β → Prop} {a : α} {b : β} (h : S a b) :
    Folds d S (do advance d; return a) (do advance d; return b) :=
  (folds_advance d).bind (fun _ => .pure h)

variable {text : String}

theorem folds_accept (kind : TokenKind) (htext : text.toList.all (fun c => !c.isAlpha) = true) :
    FoldsBy d id (accept d kind text) (accept d kind text) := by
  apply Folds.get
  intro c
  apply Folds.ite (by rw [c.holds_fold d kind htext])
  · exact folds_advance_pure d rfl
  · exact .pure rfl

theorem folds_acceptKeyword (word : String) :
    FoldsBy d id (acceptKeyword d word) (acceptKeyword d word) := by
  apply Folds.get
  intro c
  apply Folds.ite (by rw [c.holdsKeyword_fold d word])
  · exact folds_advance_pure d rfl
  · exact .pure rfl

theorem folds_expect (kind : TokenKind) (htext : text.toList.all (fun c => !c.isAlpha) = true)
    {cause : String → ReadCause} (hcause : ∀ a b, (cause a).kind = (cause b).kind) :
    FoldsBy d id (expect d kind text cause) (expect d kind text cause) := by
  apply Folds.get
  intro c
  apply Folds.ite (by rw [c.holds_fold d kind htext])
  · exact folds_advance d
  · exact folds_failWith hcause

theorem folds_expectMore : FoldsBy d id expectMore expectMore := by
  apply Folds.get
  intro c
  apply Folds.ite (by rw [c.atLineEnd_fold d])
  · exact folds_fail rfl
  · exact .pure rfl

theorem folds_integer : FoldsBy d id (integer d) (integer d) := by
  apply Folds.get
  intro c
  rw [c.integer?_fold]
  cases c.held.bind Token.integer? with
  | none => exact folds_failWith (fun _ _ => rfl)
  | some n => exact folds_advance_pure d rfl

theorem folds_natural : FoldsBy d id (natural d) (natural d) := by
  apply Folds.get
  intro c
  rw [c.integer?_fold]
  cases c.held.bind Token.integer? with
  | none => exact folds_failWith (fun _ _ => rfl)
  | some n =>
    apply Folds.ite Iff.rfl
    · exact folds_advance_pure d rfl
    · exact folds_failWith (fun _ _ => rfl)

theorem folds_gluedDigits (name : String) :
    FoldsBy d upper (gluedDigits d name) (gluedDigits d (upper name)) := by
  apply Folds.get
  intro c
  cases h : c.held with
  | none =>
    simp only [Cursor.fold, h, Option.map_none]
    exact .pure rfl
  | some t =>
    simp only [Cursor.fold, h, Option.map_some, utf8ByteSize_upper, t.isDecimal_fold]
    by_cases hdecimal : t.isDecimal = true
    · have hkind := Token.kind_of_isDecimal hdecimal
      apply Folds.ite
      · rw [t.toList_fold hkind rfl, contains_toUpper _ rfl]
        rfl
      · apply folds_advance_pure
        rw [t.text_fold hkind rfl, upper_append]
      · exact .pure rfl
    · have hno : t.isDecimal = false := Bool.eq_false_iff.mpr hdecimal
      simp only [hno, Bool.and_false, Bool.false_and, Bool.false_eq_true, if_false]
      exact .pure rfl

end Reader

end PartProgram
