import PartProgram.Proofs.RoundTrip.Call

/-!
# The ends of a written expression

A written expression begins with a character that no sign in front of it is joined with, and
it ends in a character that is no white space.
-/

set_option autoImplicit false

namespace PartProgram

theorem Denotes.head {text : List Char} {n : Number} (h : Denotes text n) :
    ∃ c cs, text = c :: cs ∧ c ≠ '=' := by
  have hspell : ∀ {spelling text : List Char}, Spelling spelling text →
      ∃ c cs, spelling = c :: cs ∧ c ≠ '=' := by
    intro spelling text hs
    have hdigit : ∀ {whole : List Char}, whole ≠ [] → (∀ c ∈ whole, c.isDigit = true) →
        ∃ c cs, whole = c :: cs ∧ c ≠ '=' := by
      intro whole hne hw
      obtain ⟨c, cs, rfl⟩ := List.exists_cons_of_ne_nil hne
      refine ⟨c, cs, rfl, ?_⟩
      rintro rfl
      exact absurd (hw _ List.mem_cons_self) (by decide)
    cases hs with
    | digits hne hw => exact hdigit hne hw
    | point hne hw hf =>
      obtain ⟨c, cs, rfl, hc⟩ := hdigit hne hw
      exact ⟨c, _, rfl, hc⟩
    | constant hw => exact ⟨_, _, rfl, by decide⟩
  cases h with
  | plain hs hl => exact hspell hs
  | negative hs hl => exact ⟨_, _, rfl, by decide⟩

theorem IsName.head {name : String} (h : IsName name) :
    ∃ c cs, name.toList = c :: cs ∧ Scan.isNameChar c = true := by
  rcases h with h | ⟨letter, digit, rest, hname, hletter, -⟩
  · obtain ⟨c, cs, hcs⟩ := List.exists_cons_of_ne_nil h.1.ne_nil
    exact ⟨c, cs, hcs, h.1.first c (by rw [hcs]; rfl)⟩
  · exact ⟨letter, digit :: rest, hname, hletter⟩

theorem Expr.text_head {e : Expr} (hs : e.Sound) :
    ∃ c cs, e.text.toList = c :: cs ∧ c ≠ '=' := by
  have hname : ∀ {name : String} (rest : List Char), IsName name →
      ∃ c cs, name.toList ++ rest = c :: cs ∧ c ≠ '=' := by
    intro name rest hn
    obtain ⟨c, cs, hcs, hc⟩ := hn.head
    refine ⟨c, cs ++ rest, by rw [hcs, List.cons_append], ?_⟩
    rintro rfl
    exact absurd hc (by decide)
  induction e using Expr.induction with
  | num n => exact (Number.denotes_text hs.self.2).head
  | str s => exact ⟨'\x22', s.toList ++ ['\x22'], by simp [Expr.text], by decide⟩
  | var name fields =>
    rw [text_var]
    exact hname _ hs.self.1
  | call name args =>
    rw [text_call]
    exact hname _ (.inl hs.self.1)
  | bin op lhs rhs ih _ =>
    obtain ⟨c, cs, hcs, hc⟩ := ih hs.lhs
    rw [Expr.text, binaryText]
    split
    · exact ⟨c, _, by simp only [String.toList_append, hcs, List.cons_append]; rfl, hc⟩
    · split
      · exact ⟨c, _, by simp only [String.toList_append, hcs, List.cons_append]; rfl, hc⟩
      · exact ⟨c, _, by simp only [String.toList_append, hcs, List.cons_append]; rfl, hc⟩
  | un op arg =>
    cases op with
    | not => exact ⟨'N', _, by simp [Expr.text, unaryText]; rfl, by decide⟩
    | bitNot => exact ⟨'B', _, by simp [Expr.text, unaryText]; rfl, by decide⟩
    | negate => exact ⟨'-', _, by simp [Expr.text, unaryText]; rfl, by decide⟩
    | toText => exact ⟨'<', _, by simp [Expr.text, unaryText]; rfl, by decide⟩
  | bracket inner => exact ⟨'(', inner.text.toList ++ [')'], by simp [Expr.text], by decide⟩

theorem binaryText_eq (op : BinaryOp) (lhs rhs : String) :
    ∃ before behind, (binaryText op lhs rhs).toList =
        lhs.toList ++ (lead before ++ (op.symbol.toList ++ (lead behind ++ rhs.toList))) ∧
      (op.isNamed = true → before = true ∧ behind = true) ∧
      (behind = false → collide op.symbol rhs = false) := by
  unfold binaryText
  by_cases hn : op.isNamed = true
  · rw [if_pos hn]
    exact ⟨true, true, by simp [lead], fun _ => ⟨rfl, rfl⟩, by simp⟩
  · rw [if_neg hn]
    by_cases hc : collide op.symbol rhs = true
    · rw [if_pos hc]
      exact ⟨false, true, by simp [lead], fun h => absurd h hn, by simp⟩
    · rw [if_neg hc]
      exact ⟨false, false, by simp [lead], fun h => absurd h hn, fun _ => Bool.eq_false_iff.mpr hc⟩

def Solid (text : List Char) : Prop := ∃ front c, text = front ++ [c] ∧ isWhiteSpace c = false

theorem Solid.append {text : List Char} (h : Solid text) (front : List Char) :
    Solid (front ++ text) := by
  obtain ⟨mid, c, rfl, hc⟩ := h
  exact ⟨front ++ mid, c, (List.append_assoc ..).symm, hc⟩

theorem Solid.cons {text : List Char} (h : Solid text) (c : Char) : Solid (c :: text) :=
  h.append [c]

theorem solid_char {c : Char} (h : isWhiteSpace c = false) : Solid [c] := ⟨[], c, rfl, h⟩

theorem solid_of_forall {text : List Char} (hne : text ≠ [])
    (h : ∀ c ∈ text, isWhiteSpace c = false) : Solid text :=
  ⟨text.dropLast, text.getLast hne, (List.dropLast_append_getLast hne).symm,
    h _ (List.getLast_mem hne)⟩

theorem not_white_of_toNat {c : Char} (hl : 36 ≤ c.toNat) (hu : c.toNat ≤ 122) :
    isWhiteSpace c = false := by
  rw [Bool.eq_false_iff, isWhiteSpace]
  simp only [whiteSpaceRanges, List.any_cons, List.any_nil, Bool.or_false, ne_eq, Bool.or_eq_true,
    Bool.and_eq_true, decide_eq_true_eq, not_or, not_and]
  omega

theorem not_white_of_digit {c : Char} (h : c.isDigit = true) : isWhiteSpace c = false := by
  obtain ⟨hl, hu⟩ := Char.isDigit_iff_toNat.mp h
  have h0 : '0'.toNat = 48 := rfl
  have h9 : '9'.toNat = 57 := rfl
  exact not_white_of_toNat (by omega) (by omega)

theorem not_white_of_nameChar {c : Char} (h : Scan.isNameChar c = true) :
    isWhiteSpace c = false :=
  not_white_of_toNat (Scan.toNat_nameChar h).1 (Scan.toNat_nameChar h).2

theorem Spelling.solid {spelling text : List Char} (h : Spelling spelling text) :
    Solid spelling := by
  cases h with
  | digits hne hw => exact solid_of_forall hne (fun c hc => not_white_of_digit (hw c hc))
  | @point whole fraction hne hw hf =>
    apply Solid.append
    cases fraction with
    | nil => exact solid_char (by decide)
    | cons digit fraction =>
      apply Solid.cons
      exact solid_of_forall (List.cons_ne_nil _ _) (fun c hc => not_white_of_digit (hf c hc))
  | constant hw hmark => exact ((solid_char (by decide)).append _).cons _

theorem Denotes.solid {text : List Char} {n : Number} (h : Denotes text n) : Solid text := by
  cases h with
  | plain hs hl => exact hs.solid
  | negative hs hl => exact hs.solid.cons '-'

theorem IsIdentifier.solid {name : String} (h : IsIdentifier name) : Solid name.toList := by
  apply solid_of_forall h.1.ne_nil
  intro c hc
  rcases Bool.or_eq_true_iff.mp (h.1.chars c hc) with hn | hd
  · exact not_white_of_nameChar hn
  · exact not_white_of_digit hd

theorem IsName.solid {name : String} (h : IsName name) (hd : DigitsOnly name) :
    Solid name.toList := by
  rcases h with h | ⟨letter, digit, rest, hname, -, hdigit⟩
  · exact h.solid
  · rw [hname]
    apply Solid.cons
    apply solid_of_forall (List.cons_ne_nil _ _)
    rintro c (_ | ⟨_, hc⟩)
    · exact not_white_of_digit hdigit
    · exact not_white_of_digit (hd letter digit rest hname hdigit c hc)

theorem Expr.text_solid {e : Expr} (hs : e.Sound) : Solid e.text.toList := by
  induction e using Expr.induction with
  | num n => exact (Number.denotes_text hs.self.2).solid
  | str s =>
    rw [Expr.text, String.toList_append, String.toList_append]
    exact (solid_char (by decide)).append _
  | var name fields =>
    rw [text_var]
    cases fields with
    | none => simpa [Expr.fieldsText] using IsName.solid hs.self.1 hs.self.2.1
    | some slots =>
      rw [fieldsText_some]
      exact (((solid_char (by decide)).append _).cons _).append _
  | call name args =>
    rw [text_call]
    exact (((solid_char (by decide)).append _).cons _).append _
  | bin op lhs rhs _ ih =>
    obtain ⟨before, behind, htext, -, -⟩ := binaryText_eq op lhs.text rhs.text
    rw [Expr.text, htext]
    exact ((((ih hs.rhs).append _).append _).append _).append _
  | un op arg ih =>
    obtain ⟨blank, htext, -⟩ := unaryText_eq op arg.text
    rw [Expr.text, htext]
    exact ((ih hs.arg).append _).append _
  | bracket inner =>
    rw [Expr.text, String.toList_append, String.toList_append]
    exact (solid_char (by decide)).append _

end PartProgram
