import PartProgram.Proofs.RoundTrip.Tree

/-!
# The form of what is read: tokens

Whatever text is scanned and in whatever dialect, the tokens hold names, strings, numbers and
comments of a known form.
-/

set_option autoImplicit false

namespace PartProgram

def QuotedIn (source content : List Char) : Prop := '\x27' :: (content ++ ['\x27']) <:+: source

structure Token.Proper (source : List Char) (t : Token) : Prop where
  name : t.kind = .identifier → IsIdentifier t.text
  string : t.kind = .string → ∀ c ∈ t.text.toList, isLineEnd c = false ∧ c ≠ '\x22'
  comment : t.kind = .comment → ∀ c ∈ t.text.toList, isLineEnd c = false
  number : t.kind = .number →
    (∀ c ∈ t.text.toList, c.isDigit = true ∨ c = '.') ∨ QuotedIn source t.text.toList

/-- Reading stands in the text, and the token that is held was scanned there. -/
structure Cursor.Proper (source : List Char) (c : Cursor) : Prop where
  unread : c.unread <:+ source
  held : ∀ t ∈ c.held, t.Proper source

theorem Cursor.proper_ofText (text : String) : (Cursor.ofText text).Proper text.toList :=
  ⟨List.suffix_rfl, by rintro t ⟨⟩⟩

namespace Scan

theorem cutName_front (c : Char) (cs : List Char) :
    cutName (cutName (c :: cs)) = cutName (c :: cs) ∧
      ∃ front, cutName (c :: cs) = c :: front ∧ front <+: cs := by
  match cs with
  | [] => exact ⟨rfl, [], rfl, List.prefix_refl _⟩
  | [b] => by_cases h : b.isDigit = true <;> simp [cutName, h]
  | b :: e :: rest =>
    by_cases hb : b.isDigit = true
    · simp [cutName, hb]
    · by_cases he : (isEx c b && e.isDigit) = true
      · simp [cutName, hb, he]
      · simp [cutName, hb, he]

theorem isWord_cutName {c : Char} (h : isNameChar c = true) (cs : List Char) :
    IsWord (cutName ((c :: cs).takeWhile (fun c => isNameChar c || c.isDigit))) := by
  have hrun : (c :: cs).takeWhile (fun c => isNameChar c || c.isDigit) =
      c :: cs.takeWhile (fun c => isNameChar c || c.isDigit) := by
    simp [h]
  rw [hrun]
  obtain ⟨hcut, front, hfront, hpre⟩ :=
    cutName_front c (cs.takeWhile (fun c => isNameChar c || c.isDigit))
  constructor
  · simp [hfront]
  · rw [hfront]
    intro d hd
    rcases List.mem_cons.mp hd with rfl | hd
    · simp [h]
    · have hrunning := List.mem_takeWhile_imp (hpre.subset hd)
      exact hrunning
  · rw [hfront]
    rintro d ⟨⟩
    exact h
  · exact hcut

end Scan

def Lexeme.Proper (source : List Char) : Lexeme → Prop
  | found kind text _ =>
    ∀ spaced line, (Token.mk kind (String.ofList text) spaced line).Proper source
  | fault _ _ => True

namespace Scan

variable {source : List Char}

theorem name_proper {c : Char} (h : isNameChar c = true) (cs : List Char) :
    (name (c :: cs)).Proper source := by
  intro spaced line
  have hword := isWord_cutName h cs
  constructor
  · intro hk
    rw [IsIdentifier, String.toList_ofList]
    refine ⟨hword, ?_⟩
    simp only at hk
    rw [Scan.isOperatorName, Bool.eq_false_iff]
    intro hoperator
    rw [if_pos hoperator] at hk
    cases hk
  all_goals
    intro hk
    simp only at hk
    split at hk <;> cases hk

theorem quotedIn_takeWhile {cs rest : List Char} (h : '\x27' :: cs <:+ source)
    (hrest : cs.dropWhile (fun c => !isLineEnd c && c != '\x27') = '\x27' :: rest) :
    QuotedIn source (cs.takeWhile (fun c => !isLineEnd c && c != '\x27')) := by
  obtain ⟨front, hfront⟩ := h
  have hcs := List.takeWhile_append_dropWhile (p := fun c => !isLineEnd c && c != '\x27') (l := cs)
  rw [hrest] at hcs
  refine ⟨front, rest, ?_⟩
  rw [← hfront]
  conv => rhs; rw [← hcs]
  simp

theorem constant_proper {cs : List Char} (h : '\x27' :: cs <:+ source) :
    (delimited .number '\x27' .unterminatedConstant cs).Proper source := by
  unfold delimited
  simp only
  split
  · rename_i first rest hrest
    split
    · rename_i hfirst
      rw [beq_iff_eq] at hfirst
      subst hfirst
      intro spaced line
      constructor
      · rintro ⟨⟩
      · rintro ⟨⟩
      · rintro ⟨⟩
      · intro _
        rw [String.toList_ofList]
        exact .inr (quotedIn_takeWhile h hrest)
    · trivial
  · trivial

theorem string_proper (cs : List Char) :
    (delimited .string '\x22' .unterminatedString cs).Proper source := by
  unfold delimited
  simp only
  split
  · split
    · intro spaced line
      constructor
      · rintro ⟨⟩
      · intro _ c hc
        rw [String.toList_ofList] at hc
        simpa using List.mem_takeWhile_imp hc
      · rintro ⟨⟩
      · rintro ⟨⟩
    · trivial
  · trivial

theorem number_proper (cs : List Char) : (number cs).Proper source := by
  have hdigits {text : List Char} (h : ∀ c ∈ text, c.isDigit = true ∨ c = '.') (rest : List Char) :
      (Lexeme.found .number text rest).Proper source := by
    intro spaced line
    constructor
    · rintro ⟨⟩
    · rintro ⟨⟩
    · rintro ⟨⟩
    · intro _
      rw [String.toList_ofList]
      exact .inl h
  unfold number
  simp only
  split
  · split
    · trivial
    · apply hdigits
      intro c hc
      rw [List.mem_append, List.mem_cons] at hc
      rcases hc with hc | rfl | hc
      · exact .inl (List.mem_takeWhile_imp hc)
      · exact .inr rfl
      · exact .inl (List.mem_takeWhile_imp hc)
  · exact hdigits (fun c hc => .inl (List.mem_takeWhile_imp hc)) _

theorem comment_proper {text : List Char} (h : ∀ c ∈ text, isLineEnd c = false)
    (rest : List Char) : (Lexeme.found .comment text rest).Proper source := by
  intro spaced line
  constructor
  · rintro ⟨⟩
  · rintro ⟨⟩
  · intro _ c hc
    rw [String.toList_ofList] at hc
    exact h c hc
  · rintro ⟨⟩

theorem lineComment_proper (cs : List Char) : (lineComment cs).Proper source := by
  apply comment_proper
  intro c hc
  simpa using List.mem_takeWhile_imp hc

theorem braceComment_proper (cs : List Char) : (braceComment cs).Proper source := by
  have hinside : ∀ c ∈ cs.takeWhile (fun c => !isLineEnd c && c != ')'), isLineEnd c = false := by
    intro c hc
    have h : isLineEnd c = false ∧ c ≠ ')' := by simpa using List.mem_takeWhile_imp hc
    exact h.1
  unfold braceComment
  simp only
  split
  · split
    · exact comment_proper hinside _
    · trivial
  · exact comment_proper hinside _

theorem sign_proper {kind : TokenKind} (text rest : List Char) (hi : kind ≠ .identifier)
    (hs : kind ≠ .string) (hc : kind ≠ .comment) (hn : kind ≠ .number) :
    (Lexeme.found kind text rest).Proper source := by
  intro spaced line
  exact ⟨fun hk => absurd hk hi, fun hk => absurd hk hs, fun hk => absurd hk hc,
    fun hk => absurd hk hn⟩

theorem operator_proper (c : Char) (cs : List Char) : (operator c cs).Proper source := by
  have hsign (text rest : List Char) : (Lexeme.found .operator text rest).Proper source :=
    sign_proper text rest (by decide) (by decide) (by decide) (by decide)
  unfold operator
  split
  · split <;> exact hsign _ _
  · exact hsign _ _

theorem lineEnd_proper (c : Char) (cs : List Char) : (lineEnd c cs).Proper source := by
  have hsign (text rest : List Char) : (Lexeme.found .newLine text rest).Proper source :=
    sign_proper text rest (by decide) (by decide) (by decide) (by decide)
  unfold lineEnd
  split
  · split <;> exact hsign _ _
  · exact hsign _ _

theorem ite_proper {p : Prop} [Decidable p] {a b : Lexeme} (ha : p → a.Proper source)
    (hb : b.Proper source) : (if p then a else b).Proper source := by
  by_cases h : p
  · rw [if_pos h]
    exact ha h
  · rw [if_neg h]
    exact hb

theorem lexeme_proper (d : Dialect) {c : Char} {cs : List Char} (h : c :: cs <:+ source) :
    (lexeme d c cs).Proper source := by
  have hsign {kind : TokenKind} (hi : kind ≠ .identifier) (hs : kind ≠ .string)
      (hc : kind ≠ .comment) (hn : kind ≠ .number) : (Lexeme.found kind [c] cs).Proper source :=
    sign_proper [c] cs hi hs hc hn
  apply ite_proper (fun _ => lineEnd_proper c cs)
  apply ite_proper (fun _ => lineComment_proper cs)
  apply ite_proper (fun _ => braceComment_proper cs)
  apply ite_proper (fun h => name_proper h cs)
  apply ite_proper (fun hc => ?_)
  apply ite_proper (fun _ => number_proper _)
  apply ite_proper (fun hc => ?_)
  apply ite_proper (fun _ => hsign (by decide) (by decide) (by decide) (by decide))
  apply ite_proper (fun _ => hsign (by decide) (by decide) (by decide) (by decide))
  apply ite_proper (fun _ => hsign (by decide) (by decide) (by decide) (by decide))
  apply ite_proper (fun _ => hsign (by decide) (by decide) (by decide) (by decide))
  · exact ite_proper (fun _ => operator_proper c cs) trivial
  · rw [beq_iff_eq] at hc
    subst hc
    exact string_proper cs
  · rw [beq_iff_eq] at hc
    subst hc
    exact constant_proper h

end Scan

theorem Token.isDecimal_head {t : Token} (h : t.isDecimal = true) :
    ∃ digit rest, t.text.toList = digit :: rest ∧ digit.isDigit = true := by
  cases htext : t.text.toList with
  | nil => simp [isDecimal, htext] at h
  | cons digit rest => exact ⟨digit, rest, rfl, (by simpa [isDecimal, htext] using h : _ ∧ _).2⟩

end PartProgram
