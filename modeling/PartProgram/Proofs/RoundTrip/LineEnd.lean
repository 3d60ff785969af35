import Mathlib.Data.List.DropRight
import PartProgram.Proofs.RoundTrip.Line

/-!
# The end of a written line

White space at the end of a line is cut, which takes the blank behind the last statement and
nothing else. A comment stands behind the statements.
-/

set_option autoImplicit false

namespace PartProgram

section Trim

variable {s text : String} {front body : List Char} {c : Char}

theorem trimEnd_toList (s : String) : (trimEnd s).toList = s.toList.rdropWhile isWhiteSpace :=
  String.toList_ofList

theorem trimEnd_trimEnd (s : String) : trimEnd (trimEnd s) = trimEnd s := by
  rw [← String.toList_inj, trimEnd_toList (trimEnd s), trimEnd_toList, List.rdropWhile_idempotent]

theorem trimEnd_eq_self (h : ∀ c ∈ s.toList.getLast?, isWhiteSpace c = false) : trimEnd s = s := by
  rw [← String.toList_inj, trimEnd_toList, List.rdropWhile_eq_self_iff]
  intro hne
  rw [h _ (List.getLast?_eq_some_getLast hne)]
  exact Bool.false_ne_true

theorem mem_of_mem_trimEnd (h : c ∈ (trimEnd s).toList) : c ∈ s.toList := by
  rw [trimEnd_toList] at h
  exact (List.rdropWhile_prefix _ _).mem h

theorem trimEnd_solid {gap : Bool} (h : s.toList = body ++ lead gap) (hb : Solid body ∨ body = []) :
    (trimEnd s).toList = body := by
  have hbody : body.rdropWhile isWhiteSpace = body := by
    rcases hb with ⟨front, c, rfl, hc⟩ | rfl
    · exact List.rdropWhile_concat_neg _ _ _ (by rw [hc]; exact Bool.false_ne_true)
    · exact List.rdropWhile_nil _
  rw [trimEnd_toList, h]
  cases gap with
  | false => rw [show lead false = [] from rfl, List.append_nil, hbody]
  | true => rw [show lead true = [' '] from rfl, List.rdropWhile_concat_pos _ _ ' ' rfl, hbody]

theorem trimEnd_behind (h : s.toList = front ++ c :: text.toList) (hc : isWhiteSpace c = false) :
    (trimEnd s).toList = front ++ c :: (trimEnd text).toList := by
  rw [trimEnd_toList, trimEnd_toList, h]
  generalize text.toList = tail
  induction tail using List.reverseRecOn with
  | nil => exact List.rdropWhile_concat_neg _ _ _ (by rw [hc]; exact Bool.false_ne_true)
  | append_singleton tail d ih =>
    rw [← List.cons_append, ← List.append_assoc, List.rdropWhile_concat, List.rdropWhile_concat, ih]
    split
    · rfl
    · simp

end Trim

/-- The position at a line end. -/
def Cursor.atBreak (line : Nat) (rest : List Char) : Cursor :=
  ⟨rest, line + 1, some ⟨.newLine, "\n", false, line⟩⟩

theorem stands_break (line : Nat) (rest : List Char) :
    Stands line ('\n' :: rest) (Cursor.atBreak line rest) := by
  cases rest with
  | nil => rfl
  | cons c rest => rfl

inductive LineRest (line : Nat) : List Char → Cursor → Prop where
  | broken (rest : List Char) : LineRest line ('\n' :: rest) (Cursor.atBreak line rest)
  | ended : LineRest line [] ⟨[], line, none⟩

namespace LineRest

variable {line : Nat} {rest : List Char} {stop : Cursor}

theorem stands (h : LineRest line rest stop) : Stands line rest stop := by
  cases h with
  | broken rest => exact stands_break line rest
  | ended => rfl

theorem parted (h : LineRest line rest stop) : Parted rest := by
  cases h with
  | broken rest => exact parted_cons (by decide) (by decide) (by decide)
  | ended => exact parted_nil

theorem stops (h : LineRest line rest stop) : stop.Stops := by
  cases h with
  | broken rest =>
    refine ⟨rfl, ?_, ?_⟩
    · rintro t ⟨⟩
      exact .inl rfl
    · rintro t ⟨⟩ hex
      simp [Token.isKeyword] at hex
  | ended =>
    refine ⟨rfl, ?_, ?_⟩
    all_goals rintro t ⟨⟩

theorem head (h : LineRest line rest stop) : ∀ c ∈ rest.head?, isLineEnd c = true := by
  cases h with
  | broken rest =>
    rintro c ⟨⟩
    rfl
  | ended =>
    rintro c ⟨⟩

theorem comment_none (h : LineRest line rest stop) : Reader.comment {} stop = .ok none stop := by
  cases h <;> rfl

end LineRest

/-- The comment of a block, with the blank that stands in front of it. -/
def tailText (gap : Bool) (comment : Option String) : List Char :=
  match comment with
  | some text => lead gap ++ ';' :: text.toList
  | none => []

theorem reads_tail (gap : Bool) {comment : Option String}
    (h : ∀ text ∈ comment, ∀ c ∈ text.toList, isLineEnd c = false) {line : Nat} {rest : List Char}
    {last : Cursor} (hr : LineRest line rest last) :
    ∃ stop, Stands line (tailText gap comment ++ rest) stop ∧ stop.Stops ∧
      Parted (tailText gap comment ++ rest) ∧ Reader.comment {} stop = .ok comment last := by
  cases comment with
  | none => exact ⟨last, hr.stands, hr.stops, hr.parted, hr.comment_none⟩
  | some text =>
    have hl := Scan.lexeme_comment (h text rfl) hr.head
    have hs := stands_lexeme line gap (by decide : isBlank ';' = false) hl (by decide)
    rw [String.ofList_toList] at hs
    have htext : tailText gap (some text) ++ rest = lead gap ++ ';' :: (text.toList ++ rest) := by
      simp [tailText]
    rw [htext]
    refine ⟨_, hs, ⟨rfl, ?_, ?_⟩, ?_, ?_⟩
    · rintro t ⟨⟩
      exact .inr (.inl rfl)
    · rintro t ⟨⟩ hex
      simp [Token.isKeyword] at hex
    · cases gap with
      | true => exact parted_blank _
      | false => exact parted_cons (by decide) (by decide) (by decide)
    · have hfilter : (some (Token.mk .comment text gap line)).filter (fun t => t.kind == .comment) =
          some ⟨.comment, text, gap, line⟩ := rfl
      simp only [Reader.comment, Reader.run_get, hfilter]
      rw [Reader.run_bind, hr.stands.advance]
      rfl

end PartProgram
