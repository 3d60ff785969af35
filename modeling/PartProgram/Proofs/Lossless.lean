import PartProgram.Proofs.Lossless.Spelling
import PartProgram.Proofs.Shape.Token

/-!
# Nothing is lost in scanning

A text is the blanks and the spellings of its tokens, one behind the other, up to
its end or to the first character of what is no token. The token tells whether
there are blanks in front of it and how many lines have ended before it.
-/

set_option autoImplicit false

namespace PartProgram

namespace Scan

variable (d : Dialect)

theorem name_spells {c : Char} (h : isNameChar c = true) (cs : List Char) :
    (name (c :: cs)).Spells d (c :: cs) := by
  have hword := isWord_cutName h cs
  have hfront : cutName ((c :: cs).takeWhile (fun c => isNameChar c || c.isDigit)) <+: c :: cs :=
    (cutName_begins _).trans (List.takeWhile_prefix _)
  refine ⟨_, .bare ?_ hword.ne_nil ?_, (List.prefix_append_drop hfront)⟩
  · split <;> decide
  · exact fun e he => isBare_of (fun c => isNameChar c || c.isDigit) (hword.chars e he) (by decide)

theorem number_spells {c : Char} (h : (c.isDigit || c == '.') = true) (cs : List Char) :
    (number (c :: cs)).Spells d (c :: cs) := by
  have hdigits : ∀ cs : List Char, ∀ e ∈ cs.takeWhile Char.isDigit, isBare e = true :=
    fun cs e he => isBare_of Char.isDigit (List.mem_takeWhile_imp he) (by decide)
  have hkind : TokenKind.number ≠ .newLine ∧ TokenKind.number ≠ .string ∧
    TokenKind.number ≠ .comment := by decide
  have hsplit := List.takeWhile_append_dropWhile (p := Char.isDigit) (l := c :: cs)
  simp only [number]
  split
  · rename_i rest hrest
    split
    · trivial
    · refine ⟨_, .bare hkind (by simp) ?_, ?_⟩
      · simp only [List.forall_mem_append, List.forall_mem_cons]
        exact ⟨hdigits _, by decide, hdigits _⟩
      · rw [List.append_assoc, List.cons_append, List.takeWhile_append_dropWhile, ← hrest, hsplit]
  · rename_i hnot
    refine ⟨_, .bare hkind ?_ (hdigits _), hsplit.symm⟩
    intro hnil
    rw [hnil, List.nil_append] at hsplit
    have hc : c.isDigit = false := by
      by_contra hc
      rw [List.takeWhile_cons_of_pos (by simpa using hc)] at hnil
      cases hnil
    rw [hc, Bool.false_or, beq_iff_eq] at h
    subst h
    exact hnot cs hsplit

theorem delimited_spells {kind : TokenKind} {delimiter : Char} (cause : ReadCause)
    (cs : List Char) (hspelling : ∀ text, Inside delimiter text →
      TokenSpelling d kind text (delimiter :: (text ++ [delimiter]))) :
    (delimited kind delimiter cause cs).Spells d (delimiter :: cs) := by
  have hsplit := List.takeWhile_append_dropWhile
    (p := fun c => !isLineEnd c && c != delimiter) (l := cs)
  simp only [delimited]
  split
  · rename_i c rest hrest
    split
    · rename_i hc
      refine ⟨_, hspelling _ (inside_takeWhile delimiter cs), ?_⟩
      rw [beq_iff_eq.mp hc] at hrest
      rw [List.cons_append, List.append_assoc, List.singleton_append, ← hrest, hsplit]
    · trivial
  · trivial

theorem braceComment_spells (hd : d.braceComments = true) (cs : List Char) :
    (braceComment cs).Spells d ('(' :: cs) := by
  have hinside := inside_takeWhile ')' cs
  have hsplit := List.takeWhile_append_dropWhile (p := fun c => !isLineEnd c && c != ')') (l := cs)
  simp only [braceComment]
  split
  · rename_i rest hrest
    split
    · have hblanks : ∀ c ∈ rest.takeWhile isBlank, isBlank c = true :=
        fun c hc => List.mem_takeWhile_imp hc
      refine ⟨_, .braceComment hd hinside hblanks, ?_⟩
      rw [List.cons_append, List.append_assoc, List.cons_append,
        List.takeWhile_append_dropWhile (p := isBlank), ← hrest, hsplit]
    · trivial
  · exact ⟨_, .openComment hd hinside, by rw [List.cons_append, hsplit]⟩

theorem lineComment_spells (hd : d.lineComments = true) (cs : List Char) :
    (lineComment cs).Spells d (';' :: cs) := by
  refine ⟨_, .lineComment hd ?_, ?_⟩
  · intro c hc
    simpa using List.mem_takeWhile_imp hc
  · rw [List.cons_append, List.takeWhile_append_dropWhile]

theorem operator_spells {c : Char} (h : isOperatorChar c = true) (cs : List Char) :
    (operator c cs).Spells d (c :: cs) := by
  have hkind : TokenKind.operator ≠ .newLine ∧ TokenKind.operator ≠ .string ∧
    TokenKind.operator ≠ .comment := by decide
  have hc : isBare c = true := isBare_of isOperatorChar h (by decide)
  cases cs with
  | nil => exact ⟨[c], .bare hkind (by simp) (by simpa using hc), rfl⟩
  | cons next rest =>
    simp only [operator]
    split
    · rename_i hjoins
      have hnext : isBare next = true := by
        simp only [joins, List.contains_eq_mem, List.mem_cons, Prod.mk.injEq, List.not_mem_nil,
          or_false, decide_eq_true_eq] at hjoins
        rcases hjoins with ⟨-, rfl⟩ | ⟨-, rfl⟩ | ⟨-, rfl⟩ | ⟨-, rfl⟩ | ⟨-, rfl⟩ <;> decide
      exact ⟨[c, next], .bare hkind (by simp) (by simp [hc, hnext]), rfl⟩
    · exact ⟨[c], .bare hkind (by simp) (by simpa using hc), rfl⟩

theorem lineEnd_found {c : Char} (h : isLineEnd c = true) (cs : List Char) :
    ∃ e r, lineEnd c cs = .found .newLine e r ∧ IsLineEnd e r ∧ c :: cs = e ++ r := by
  cases cs with
  | nil =>
    refine ⟨[c], [], rfl, ?_, rfl⟩
    rcases isLineEnd_iff.mp h with rfl | rfl
    · exact .inr (.inr ⟨rfl, by simp⟩)
    · exact .inl rfl
  | cons next rest =>
    simp only [lineEnd]
    split
    · rename_i hpair
      simp only [Bool.and_eq_true, beq_iff_eq] at hpair
      obtain ⟨rfl, rfl⟩ := hpair
      exact ⟨_, rest, rfl, .inr (.inl rfl), rfl⟩
    · rename_i hpair
      refine ⟨[c], next :: rest, rfl, ?_, rfl⟩
      rcases isLineEnd_iff.mp h with rfl | rfl
      · exact .inr (.inr ⟨rfl, by simpa using hpair⟩)
      · exact .inl rfl

theorem lineEnd_spells {c : Char} (h : isLineEnd c = true) (cs : List Char) :
    (lineEnd c cs).Spells d (c :: cs) := by
  obtain ⟨e, r, hfound, he, hcs⟩ := lineEnd_found h cs
  rw [hfound]
  refine ⟨e, .lineEnd ?_, hcs⟩
  rcases he with rfl | rfl | ⟨rfl, -⟩
  · exact .inl rfl
  · exact .inr (.inr rfl)
  · exact .inr (.inl rfl)

theorem lexeme_spells (c : Char) (cs : List Char) : (lexeme d c cs).Spells d (c :: cs) := by
  have hsingle : ∀ {kind : TokenKind}, (kind ≠ .newLine ∧ kind ≠ .string ∧ kind ≠ .comment) →
      isBare c = true → (Lexeme.found kind [c] cs).Spells d (c :: cs) :=
    fun hkind hc => ⟨[c], .bare hkind (by simp) (by simpa using hc), rfl⟩
  fun_cases lexeme d c cs
  case case1 h => exact lineEnd_spells d h cs
  case case2 h =>
    simp only [Bool.and_eq_true, beq_iff_eq] at h
    rw [h.1]
    exact lineComment_spells d h.2 cs
  case case3 h =>
    simp only [Bool.and_eq_true, beq_iff_eq] at h
    rw [h.1]
    exact braceComment_spells d h.2 cs
  case case4 h => exact name_spells d h cs
  case case5 h =>
    rw [beq_iff_eq.mp h]
    exact delimited_spells d _ cs (fun _ => .constant)
  case case6 h => exact number_spells d h cs
  case case7 h =>
    rw [beq_iff_eq.mp h]
    exact delimited_spells d _ cs (fun _ => .string)
  case case8 h => exact hsingle (by decide) (isBare_of (· == ',') h (by decide))
  case case9 h => exact hsingle (by decide) (isBare_of (· == ':') h (by decide))
  case case10 h =>
    exact hsingle (by decide) (isBare_of (fun c => c == '(' || c == ')') h (by decide))
  case case11 h =>
    exact hsingle (by decide) (isBare_of (fun c => c == '[' || c == ']') h (by decide))
  case case12 h => exact operator_spells d h cs
  case case13 => trivial

/-- The line behind a lexeme: a line end counts as one, whatever part of the text behind it is
looked at, and no other token has a line end in it. -/
theorem lexeme_lines {c : Char} {cs text rest spelling : List Char} {kind : TokenKind}
    (h : lexeme d c cs = .found kind text rest) (hs : TokenSpelling d kind text spelling)
    (line : Nat) {more : List Char} (hmore : more <+: rest) :
    line + lineEnds (spelling ++ more) =
      (if kind = .newLine then line + 1 else line) + lineEnds more := by
  by_cases hkind : kind = .newLine
  · have hc : isLineEnd c = true := by
      by_contra hc
      exact lexeme_kind (Bool.eq_false_iff.mpr hc) h hkind
    obtain ⟨e, r, hfound, he, -⟩ := lineEnd_found hc cs
    rw [lexeme, if_pos hc, hfound] at h
    cases h
    cases hs with
    | lineEnd =>
      rw [if_pos rfl, lineEnds_lineEnd he hmore]
      omega
    | bare hbare => exact absurd rfl hbare.1
  · rw [if_neg hkind, lineEnds_unbroken (hs.unbroken hkind)]

end Scan

theorem Scan.spaced_iff {cs behind : List Char} {c : Char}
    (h : cs.dropWhile isBlank = c :: behind) :
    isBlank (cs.headD c) = true ↔ cs.takeWhile isBlank ≠ [] := by
  cases cs with
  | nil => cases h
  | cons x cs => by_cases hx : isBlank x = true <;> simp [hx]

theorem Scan.next_piece {d : Dialect} {line after : Nat} {cs rest : List Char} {t : Token}
    (h : Scan.next d line cs = .token t after rest) :
    ∃ piece : Piece d, piece.token = t ∧ cs = piece.chars ++ rest ∧ t.line = line ∧
      ∀ more, more <+: rest → line + lineEnds (piece.chars ++ more) = after + lineEnds more := by
  have hsplit := List.takeWhile_append_dropWhile (p := isBlank) (l := cs)
  have hblank : ∀ c ∈ cs.takeWhile isBlank, isBlank c = true :=
    fun c hc => List.mem_takeWhile_imp hc
  have hfirst := List.head?_dropWhile_not isBlank cs
  simp only [Scan.next] at h
  split at h
  · cases h
  · rename_i c behind hdrop
    rw [hdrop] at hsplit hfirst
    split at h
    · cases h
    · rename_i kind text beyond hl
      cases h
      have hspells := lexeme_spells d c behind
      rw [hl] at hspells
      obtain ⟨spelling, hspelling, hcs⟩ := hspells
      have hspelled : TokenSpelling d kind (String.ofList text).toList spelling := by
        rw [String.toList_ofList]
        exact hspelling
      have hhead : ∃ e es, spelling = e :: es ∧ isBlank e = false := by
        cases spelling with
        | nil => exact absurd rfl hspelling.ne_nil
        | cons e es =>
          obtain ⟨rfl, -⟩ := List.cons.inj hcs
          exact ⟨c, es, rfl, hfirst⟩
      refine ⟨⟨_, cs.takeWhile isBlank, spelling, hspelled, hblank, hhead, spaced_iff hdrop⟩, rfl,
        ?_, rfl, ?_⟩
      · rw [Piece.chars, List.append_assoc, ← hcs, hsplit]
      · intro more hmore
        rw [Piece.chars, List.append_assoc, lineEnds_unbroken (unbroken_blanks hblank)]
        exact lexeme_lines d hl hspelling line hmore

theorem Scan.next_finished {d : Dialect} {line : Nat} {cs : List Char}
    (h : Scan.next d line cs = .finished) : ∀ c ∈ cs, isBlank c = true := by
  simp only [Scan.next] at h
  split at h
  · rename_i hdrop
    exact List.dropWhile_eq_nil_iff.mp hdrop
  · split at h <;> cases h

theorem Scan.next_fault {d : Dialect} {line : Nat} {cs rest : List Char} {cause : ReadCause}
    (h : Scan.next d line cs = .fault cause rest) :
    ∃ blanks c behind, cs = blanks ++ c :: behind ∧ (∀ c ∈ blanks, isBlank c = true) ∧
      isBlank c = false ∧ Scan.lexeme d c behind = .fault cause rest := by
  have hsplit := List.takeWhile_append_dropWhile (p := isBlank) (l := cs)
  have hfirst := List.head?_dropWhile_not isBlank cs
  simp only [Scan.next] at h
  split at h
  · cases h
  · rename_i c behind hdrop
    rw [hdrop] at hsplit hfirst
    split at h
    · rename_i hl
      cases h
      exact ⟨_, c, behind, hsplit.symm, fun c hc => List.mem_takeWhile_imp hc, hfirst, hl⟩
    · cases h

theorem Covers.cons {d : Dialect} {line after : Nat} {cs : List Char} {s : Scanned}
    {pieces : List (Piece d)} {blanks rest : List Char} (h : Covers d after cs s pieces blanks rest)
    (piece : Piece d) (hline : piece.token.line = line)
    (hlines : ∀ more, more <+: cs → line + lineEnds (piece.chars ++ more) = after + lineEnds more) :
    Covers d line (piece.chars ++ cs) ⟨piece.token :: s.tokens, s.fault, s.line⟩
      (piece :: pieces) blanks rest where
  tokens := by rw [h.tokens, List.map_cons]
  text := by rw [List.flatMap_cons, List.append_assoc, ← h.text]
  blank := h.blank
  lines := by
    intro before piece' behind hsplit
    cases before with
    | nil =>
      obtain ⟨rfl, rfl⟩ := List.cons.inj hsplit
      rw [hline, List.flatMap_nil, List.nil_append, ← List.append_nil piece.blanks,
        lineEnds_unbroken (unbroken_blanks piece.blank), lineEnds, Nat.add_zero]
    | cons first before =>
      obtain ⟨rfl, rfl⟩ := List.cons.inj hsplit
      have hfront : before.flatMap Piece.chars ++ piece'.blanks <+: cs := by
        refine ⟨piece'.spelling ++ (behind.flatMap Piece.chars ++ (blanks ++ rest)), ?_⟩
        rw [h.text]
        simp [Piece.chars]
      rw [h.lines before piece' behind rfl, List.flatMap_cons, List.append_assoc,
        hlines _ hfront]
  ends := h.ends
  fails := by
    intro e he
    obtain ⟨hat, hrest⟩ := h.fails e he
    refine ⟨?_, hrest⟩
    have hfront : pieces.flatMap Piece.chars ++ blanks <+: cs :=
      ⟨rest, by rw [h.text, List.append_assoc]⟩
    rw [hat, List.flatMap_cons, List.append_assoc, hlines _ hfront]

theorem Scanned.upTo_covers (d : Dialect) (bound line : Nat) (cs : List Char)
    (h : cs.length ≤ bound) :
    ∃ pieces blanks rest, Covers d line cs (upTo d bound line cs) pieces blanks rest := by
  induction bound generalizing line cs with
  | zero =>
    rw [List.eq_nil_of_length_eq_zero (Nat.le_zero.mp h)]
    exact ⟨[], [], [], rfl, rfl, List.forall_mem_nil _, by simp, fun _ => rfl, by simp [upTo]⟩
  | succ bound ih =>
    simp only [upTo]
    cases hnext : Scan.next d line cs with
    | finished =>
      exact ⟨[], cs, [], rfl, by simp, Scan.next_finished hnext, by simp, fun _ => rfl, by simp⟩
    | fault cause beyond =>
      obtain ⟨blanks, c, behind, rfl, hblank, hc, hl⟩ := Scan.next_fault hnext
      refine ⟨[], blanks, c :: behind, rfl, by simp, hblank, by simp, by simp, ?_⟩
      rintro e ⟨⟩
      refine ⟨?_, c, behind, beyond, rfl, hc, hl⟩
      rw [List.flatMap_nil, List.nil_append, ← List.append_nil blanks,
        lineEnds_unbroken (unbroken_blanks hblank), lineEnds, Nat.add_zero]
    | token t after rest =>
      have hshort := (Scan.next_token_rest hnext).1
      obtain ⟨piece, rfl, rfl, hline, hlines⟩ := Scan.next_piece hnext
      obtain ⟨pieces, blanks, left, hcovers⟩ := ih after rest (by omega)
      exact ⟨piece :: pieces, blanks, left, hcovers.cons piece hline hlines⟩

/-- A text is the pieces that were scanned in it, and blanks: all of it if scanning comes to the
end, and else the part in front of the character where the first fault begins. -/
theorem tokenize_lossless (d : Dialect) (text : String) :
    ∃ pieces blanks rest, Covers d 1 text.toList (tokenize d text) pieces blanks rest :=
  Scanned.upTo_covers d _ 1 text.toList (Nat.le_refl _)

end PartProgram
