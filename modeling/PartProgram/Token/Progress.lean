import PartProgram.Cursor

/-!
# Scanning moves forward

What a scan leaves is an end of the text it was given, and a token takes one
character at least. A reader that steps over a token therefore has less to
read than before.
-/

set_option autoImplicit false

namespace PartProgram

def Lexeme.rest : Lexeme → List Char
  | found _ _ rest => rest
  | fault _ rest => rest

namespace Scan

theorem dropWhile_rest (p : Char → Bool) (cs : List Char) : cs.dropWhile p <:+ cs :=
  List.dropWhile_suffix p

theorem cutName_length (c : Char) (cs : List Char) :
    ∃ n, (cutName (c :: cs)).length = n + 1 := by
  match cs with
  | [] => exact ⟨0, rfl⟩
  | [b] => by_cases h : b.isDigit = true <;> simp [cutName, h]
  | b :: e :: rest =>
    simp only [cutName]
    split
    · exact ⟨0, rfl⟩
    · split
      · exact ⟨1, rfl⟩
      · exact ⟨rest.length + 2, rfl⟩

theorem name_rest {c : Char} (cs : List Char) (h : isNameChar c = true) :
    (name (c :: cs)).rest <:+ cs := by
  obtain ⟨n, hn⟩ := cutName_length c (cs.takeWhile (fun c => isNameChar c || c.isDigit))
  simp only [name, Lexeme.rest, List.takeWhile_cons, h, Bool.true_or, if_true, hn,
    List.drop_succ_cons]
  exact List.drop_suffix n cs

theorem number_rest {c : Char} (cs : List Char) (h : (c.isDigit || c == '.') = true) :
    (number (c :: cs)).rest <:+ cs := by
  have fraction : ∀ rest : List Char, '.' :: rest <:+ c :: cs →
      (number (c :: cs)).rest = rest.dropWhile Char.isDigit → (number (c :: cs)).rest <:+ cs := by
    intro rest hrest heq
    rw [heq]
    have htail : rest <:+ cs := by
      rcases List.suffix_cons_iff.mp hrest with h | h
      · cases h; exact List.suffix_rfl
      · exact (List.suffix_cons _ _).trans h
    exact (dropWhile_rest _ rest).trans htail
  cases hd : (c :: cs).dropWhile Char.isDigit with
  | nil => simp [number, hd, Lexeme.rest]
  | cons e rest =>
    have hs : e :: rest <:+ c :: cs := hd ▸ dropWhile_rest _ _
    by_cases he : e = '.'
    · subst he
      refine fraction rest hs ?_
      simp only [number, hd]
      split <;> simp_all [Lexeme.rest]
    · have hdig : c.isDigit = true := by
        by_cases hc : c.isDigit = true
        · exact hc
        · rw [List.dropWhile_cons, if_neg hc] at hd
          have hdot : c = '.' := by simpa [hc] using h
          exact absurd ((List.cons.inj hd).1.symm.trans hdot) he
      simp only [number, hd]
      split
      · simp_all
      · simp only [Lexeme.rest]
        rw [← hd, List.dropWhile_cons, if_pos hdig]
        exact dropWhile_rest _ cs

theorem delimited_rest (kind : TokenKind) (delimiter : Char) (cause : ReadCause)
    (cs : List Char) : (delimited kind delimiter cause cs).rest <:+ cs := by
  have h := dropWhile_rest (fun c => !isLineEnd c && c != delimiter) cs
  simp only [delimited]
  split
  · rename_i c rest heq
    rw [heq] at h
    split
    · exact (List.suffix_cons c rest).trans h
    · exact h
  · exact List.nil_suffix

theorem braceComment_rest (cs : List Char) : (braceComment cs).rest <:+ cs := by
  have h := dropWhile_rest (fun c => !isLineEnd c && c != ')') cs
  simp only [braceComment]
  split
  · rename_i rest heq
    rw [heq] at h
    have hb := (dropWhile_rest isBlank rest).trans ((List.suffix_cons _ _).trans h)
    split <;> exact hb
  · exact h

theorem operator_rest (c : Char) (cs : List Char) : (operator c cs).rest <:+ cs := by
  cases cs with
  | nil => exact List.suffix_rfl
  | cons next rest =>
    simp only [operator]
    split
    · exact List.suffix_cons next rest
    · exact List.suffix_rfl

theorem lineEnd_rest (c : Char) (cs : List Char) : (lineEnd c cs).rest <:+ cs := by
  cases cs with
  | nil => exact List.suffix_rfl
  | cons next rest =>
    simp only [lineEnd]
    split
    · exact List.suffix_cons next rest
    · exact List.suffix_rfl

/-- A lexeme takes the character it begins with; only a character that begins
none is left in place. -/
theorem lexeme_rest (d : Dialect) (c : Char) (cs : List Char) :
    (lexeme d c cs).rest <:+ cs ∨ lexeme d c cs = .fault (.invalidCharacter c) (c :: cs) := by
  fun_cases lexeme d c cs
  case case1 => exact .inl (lineEnd_rest c cs)
  case case2 => exact .inl (dropWhile_rest _ cs)
  case case3 => exact .inl (braceComment_rest cs)
  case case4 h => exact .inl (name_rest cs h)
  case case5 => exact .inl (delimited_rest ..)
  case case6 h => exact .inl (number_rest cs h)
  case case7 => exact .inl (delimited_rest ..)
  case case12 => exact .inl (operator_rest c cs)
  case case13 => exact .inr rfl
  all_goals exact .inl List.suffix_rfl

theorem next_token_rest {d : Dialect} {line : Nat} {cs : List Char} {t : Token} {after : Nat}
    {rest : List Char} (h : next d line cs = .token t after rest) :
    rest.length < cs.length ∧ rest <:+ cs := by
  have hs := dropWhile_rest isBlank cs
  simp only [next] at h
  split at h
  · cases h
  · rename_i c behind heq
    rw [heq] at hs
    split at h
    · cases h
    · rename_i kind text beyond hl
      cases h
      rcases lexeme_rest d c behind with hr | hr
      · rw [hl] at hr
        have hlen := hr.length_le
        have := hs.length_le
        simp only [Lexeme.rest, List.length_cons] at *
        exact ⟨by omega, (hr.trans (List.suffix_cons c behind)).trans hs⟩
      · rw [hl] at hr
        cases hr

theorem next_fault_rest {d : Dialect} {line : Nat} {cs : List Char} {cause : ReadCause}
    {rest : List Char} (h : next d line cs = .fault cause rest) : rest <:+ cs := by
  have hs := dropWhile_rest isBlank cs
  simp only [next] at h
  split at h
  · cases h
  · rename_i c behind heq
    rw [heq] at hs
    split at h
    · rename_i hl
      cases h
      rcases lexeme_rest d c behind with hr | hr
      · rw [hl] at hr
        exact (hr.trans (List.suffix_cons c behind)).trans hs
      · rw [hl] at hr
        cases hr
        exact hs
    · cases h

end Scan

namespace Reader

theorem advance_size {d : Dialect} {c after : Cursor} (held : c.held.isSome = true)
    (h : advance d c = .ok () after) : after.size < c.size := by
  simp only [advance] at h
  split at h
  · cases h
    simp [Cursor.size, held]
  · rename_i t line rest heq
    cases h
    have := (Scan.next_token_rest heq).1
    simp only [Cursor.size, held, if_true, Option.isSome_some]
    omega
  · cases h

theorem advance_error {d : Dialect} {c after : Cursor} {e : ReadError}
    (h : advance d c = .error e after) : e.line = c.line := by
  simp only [advance] at h
  split at h
  · cases h
  · cases h
  · cases h
    rfl

end Reader

end PartProgram
