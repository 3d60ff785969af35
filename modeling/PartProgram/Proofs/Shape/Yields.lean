import PartProgram.Proofs.RoundTrip.Line
import PartProgram.Proofs.Shape.Token

/-!
# What reading yields

A reader yields a property if whatever it reads has it, wherever reading stands in the text.
The combinators hand this on from their parts.
-/

set_option autoImplicit false

namespace PartProgram

namespace Reader

variable {d : Dialect} {source : List Char}

theorem advance_proper {c after : Cursor} (hc : c.unread <:+ source)
    (h : advance d c = .ok () after) : after.Proper source := by
  simp only [advance] at h
  split at h
  · cases h
    exact ⟨List.nil_suffix, by rintro t ⟨⟩⟩
  · rename_i t line rest hnext
    cases h
    refine ⟨(Scan.next_token_rest hnext).2.trans hc, ?_⟩
    rintro t ⟨⟩
    simp only [Scan.next] at hnext
    split at hnext
    · cases hnext
    · rename_i first behind hdrop
      have hfirst : first :: behind <:+ source :=
        hdrop ▸ (List.dropWhile_suffix isBlank).trans hc
      have hproper := Scan.lexeme_proper d hfirst
      split at hnext
      · cases hnext
      · rename_i hl
        cases hnext
        rw [hl] at hproper
        exact hproper _ _
  · cases h

variable {α β : Type} {p : Reader α} {f : α → Reader β} {P : α → Prop} {Q : β → Prop} {c : Cursor}

/-- A value read at the position has the property, and reading stands properly in the text
behind it. -/
def YieldsAt (source : List Char) (c : Cursor) (p : Reader α) (P : α → Prop) : Prop :=
  ∀ a after, p c = .ok a after → P a ∧ after.Proper source

def Yields (source : List Char) (p : Reader α) (P : α → Prop) : Prop :=
  ∀ c, c.Proper source → YieldsAt source c p P

theorem YieldsAt.bind (hp : YieldsAt source c p P) (hf : ∀ a, P a → Yields source (f a) Q) :
    YieldsAt source c (p >>= f) Q := by
  intro b after h
  obtain ⟨a, mid, ha, hb⟩ := ok_bind h
  obtain ⟨hP, hmid⟩ := hp a mid ha
  exact hf a hP mid hmid b after hb

theorem Yields.bind (hp : Yields source p P) (hf : ∀ a, P a → Yields source (f a) Q) :
    Yields source (p >>= f) Q :=
  fun c hc => (hp c hc).bind hf

theorem Yields.map {g : α → β} (hp : Yields source p P) (hg : ∀ a, P a → Q (g a)) :
    Yields source (g <$> p) Q := by
  intro c hc b after h
  obtain ⟨a, ha, rfl⟩ := ok_map h
  obtain ⟨hP, hafter⟩ := hp c hc a after ha
  exact ⟨hg a hP, hafter⟩

theorem yields_pure {a : α} (h : P a) : Yields source (pure a) P := by
  rintro c hc _ _ ⟨⟩
  exact ⟨h, hc⟩

theorem yields_get {f : Cursor → Reader β} (h : ∀ c, c.Proper source → YieldsAt source c (f c) Q) :
    Yields source (get >>= f) Q := h

theorem yields_failWith (cause : String → ReadCause) : Yields source (failWith cause) P := by
  rintro c hc _ _ ⟨⟩

theorem yields_fail (cause : ReadCause) : Yields source (fail cause) P := yields_failWith _

theorem yields_advance : Yields source (advance d) (fun _ => True) :=
  fun _ hc _ _ h => ⟨trivial, advance_proper hc.unread h⟩

theorem yields_accept (kind : TokenKind) (text : String) :
    Yields source (accept d kind text) (fun _ => True) := by
  apply yields_get
  intro c hc
  split
  · exact yields_advance.bind (fun _ _ => yields_pure trivial) c hc
  · exact yields_pure trivial c hc

theorem yields_acceptKeyword (word : String) :
    Yields source (acceptKeyword d word) (fun _ => True) := by
  apply yields_get
  intro c hc
  split
  · exact yields_advance.bind (fun _ _ => yields_pure trivial) c hc
  · exact yields_pure trivial c hc

theorem yields_expect (kind : TokenKind) (text : String) (cause : String → ReadCause) :
    Yields source (expect d kind text cause) (fun _ => True) := by
  apply yields_get
  intro c hc
  split
  · exact yields_advance c hc
  · exact yields_failWith _ c hc

theorem yields_expectMore : Yields source expectMore (fun _ => True) := by
  apply yields_get
  intro c hc
  split
  · exact yields_fail _ c hc
  · exact yields_pure trivial c hc

theorem yields_heldOperator : Yields source heldOperator (fun _ => True) :=
  yields_get (fun c hc => yields_pure trivial c hc)

theorem yields_binaryOperator : Yields source (binaryOperator d) (fun _ => True) := by
  apply yields_heldOperator.bind
  intro text _
  split
  · exact yields_pure trivial
  · split
    · exact yields_advance.bind (fun _ _ => yields_pure trivial)
    · exact yields_fail _

theorem yields_unaryOperator : Yields source (unaryOperator d) (fun _ => True) := by
  apply yields_heldOperator.bind
  intro text _
  split
  · exact yields_pure trivial
  · split
    · exact yields_advance.bind (fun _ _ => yields_pure trivial)
    · split
      · exact yields_advance.bind (fun _ _ => yields_pure trivial)
      · exact yields_fail _

theorem yields_exponent : Yields source (exponent d) (fun _ => True) := by
  have hsign : Yields source (exponentSign d) (fun _ => True) := by
    apply (yields_accept _ _).bind
    intro found _
    split
    · exact yields_pure trivial
    · exact (yields_accept _ _).bind (fun _ _ => yields_pure trivial)
  apply hsign.bind
  intro sign _
  apply yields_get
  intro c hc
  split
  · exact yields_advance.bind (fun _ _ => yields_pure trivial) c hc
  · exact yields_failWith _ c hc

theorem yields_number (t : Token) : Yields source (number d t) (fun _ => True) := by
  unfold number
  split
  · apply yields_advance.bind
    intro _ _
    apply yields_get
    intro c hc
    split
    · exact yields_advance.bind
        (fun _ _ => yields_exponent.bind (fun _ _ => yields_pure trivial)) c hc
    · exact yields_pure trivial c hc
  · exact yields_fail _

end Reader

/-- What follows the letter of a numbered variable are digits, or it was a number constant in
quotes. -/
def NumberedIn (source : List Char) (name : String) : Prop :=
  DigitsOnly name ∨ ∃ letter content, name.toList = letter :: content ∧ QuotedIn source content

theorem Token.Proper.numberedIn {source : List Char} {t : Token} (ht : t.Proper source)
    (hdecimal : t.isDecimal = true) (hpoint : t.text.toList.contains '.' = false) (letter : Char) :
    NumberedIn source (String.ofList [letter] ++ t.text) := by
  have hname : (String.ofList [letter] ++ t.text).toList = letter :: t.text.toList := by simp
  have hkind : t.kind = .number := by
    simp only [Token.isDecimal, Bool.and_eq_true, beq_iff_eq] at hdecimal
    exact hdecimal.1
  rcases ht.number hkind with hdigits | hquoted
  · left
    intro first digit rest hfirst _ c hc
    rw [hname] at hfirst
    obtain ⟨-, htext⟩ := List.cons.inj hfirst
    have hmem : c ∈ t.text.toList := htext ▸ List.mem_cons_of_mem digit hc
    rcases hdigits c hmem with h | rfl
    · exact h
    · simp [hmem] at hpoint
  · exact .inr ⟨letter, t.text.toList, hname, hquoted⟩

namespace Reader

variable {d : Dialect} {source : List Char}

theorem yields_gluedDigits {name : String} (hn : IsIdentifier name) :
    Yields source (gluedDigits d name) (fun glued => IsName glued ∧ NumberedIn source glued) := by
  apply yields_get
  intro c hc
  split
  · rename_i t ht
    split
    · rename_i hglued
      simp only [Bool.and_eq_true, decide_eq_true_eq, Bool.not_eq_true'] at hglued
      obtain ⟨⟨⟨hsize, -⟩, hdecimal⟩, hpoint⟩ := hglued
      refine yields_advance.bind (fun _ _ => yields_pure ?_) c hc
      obtain ⟨letter, rfl, hletter⟩ := letter_of_utf8ByteSize (.inl hn) hsize
      obtain ⟨digit, rest, htext, hdigit⟩ := Token.isDecimal_head hdecimal
      exact ⟨.inr ⟨letter, digit, rest, by simp [htext], hletter, hdigit⟩,
        (hc.held t ht).numberedIn hdecimal hpoint letter⟩
    · exact yields_pure ⟨.inl hn, .inl hn.digitsOnly⟩ c hc
  · exact yields_pure ⟨.inl hn, .inl hn.digitsOnly⟩ c hc

end Reader

end PartProgram
