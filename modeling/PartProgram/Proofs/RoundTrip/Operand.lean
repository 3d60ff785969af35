import PartProgram.Proofs.RoundTrip.Position

/-!
# Reading written operands and lists

Numbers, strings and brackets are read from their text. So is a list in braces, up to the gap
that it may end in.
-/

set_option autoImplicit false

namespace PartProgram

def Token.Opens (t : Token) : Prop :=
  t.kind = .number ∨ t.kind = .identifier ∨ t.kind = .string ∨ t.kind = .operator ∨
    (t.kind = .brace ∧ t.text = "(")

/-- A text is read as an operand, whatever stands in front of it and behind it. -/
def OperandText (text : List Char) (e : Expr) : Prop :=
  ∀ (line : Nat) (spaced : Bool) (rest : List Char) (after : Cursor), Parted rest →
    Stands line rest after → after.EndsOperand →
    ∃ c t, Stands line (lead spaced ++ (text ++ rest)) c ∧ c.held = some t ∧ t.Opens ∧
      Reads (Reader.operand {}) c e after

/-- A text is read as an expression. -/
def ExpressionText (text : List Char) (e : Expr) : Prop :=
  ∀ (line : Nat) (spaced : Bool) (rest : List Char) (after : Cursor), Parted rest →
    Stands line rest after → after.EndsExpression →
    ∃ c t, Stands line (lead spaced ++ (text ++ rest)) c ∧ c.held = some t ∧ t.Opens ∧
      Reads Reader.nested c e after

namespace Reader

theorem number_held {c after : Cursor} {line : Nat} {spaced : Bool} {text : List Char} {n : Number}
    (hl : PartProgram.literal text = some n) (ha : advance {} c = .ok () after)
    (he : after.EndsOperand) :
    number {} ⟨.number, String.ofList text, spaced, line⟩ c = .ok n after := by
  have hex : after.held.any (fun next => next.isKeyword "EX" && !next.spaced) = false := by
    cases ht : after.held with
    | none => rfl
    | some t =>
      by_cases hk : t.isKeyword "EX" = true
      · simp [(he t ht).2.2 (.inl hk)]
      · simp [hk]
  have hnumber : (Token.mk .number (String.ofList text) spaced line).number? =
      (Token.mk .number (String.ofList text) false 0).number? := rfl
  unfold PartProgram.literal at hl
  split at hl
  · rename_i value mark hvalue hmark
    cases hl
    simp only [number, hnumber, hvalue, String.toList_ofList, hmark]
    rw [run_bind, ha]
    simp only [run_get, hex]
    rfl
  · cases hl

theorem operand_number {c after : Cursor} {line : Nat} {spaced : Bool} {text : List Char}
    {n : Number} (h : c.held = some ⟨.number, String.ofList text, spaced, line⟩)
    (hl : PartProgram.literal text = some n) (ha : advance {} c = .ok () after)
    (he : after.EndsOperand) : Reads (operand {}) c (.num n) after := by
  refine ⟨1, ?_⟩
  rintro (_ | ⟨x, ahead⟩) hahead
  · simp at hahead
  · have hop : ∀ t ∈ c.held, t.kind ≠ .operator := by
      rw [h]
      rintro t ⟨⟩
      simp
    rw [operand_plain hop, operandOf_held h (by simp) (by simp)]
    simp only
    rw [run_map, number_held hl ha he]

end Reader

theorem reads_denotes {text : List Char} {n : Number} (h : Denotes text n) (line : Nat)
    (spaced : Bool) {rest : List Char} {after : Cursor} (hr : NumberEnds rest)
    (hs : Stands line rest after) (he : after.EndsOperand) :
    ∃ c t, Stands line (lead spaced ++ (text ++ rest)) c ∧ c.held = some t ∧ t.Opens ∧
      Reads (Reader.operand {}) c (.num n) after := by
  cases h with
  | plain hspell hl =>
    exact ⟨_, _, hspell.stands line spaced hr, rfl, .inl rfl,
      Reader.operand_number rfl hl (hs.advance _) he⟩
  | @negative spelling text n hspell hl =>
    have hnumber := hspell.stands line false hr
    obtain ⟨m, hm⟩ := Reader.operand_number rfl hl (hs.advance _) he
    have hsign : Stands line (lead spaced ++ '-' :: (spelling ++ rest))
        ⟨spelling ++ rest, line, some ⟨.operator, "-", spaced, line⟩⟩ :=
      stands_lexeme line spaced (by decide)
        (Scan.lexeme_sign (by decide) (fun b _ => joins_minus b)) (by decide)
    refine ⟨_, _, hsign, rfl, .inr (.inr (.inr (.inl rfl))), m + 1, ?_⟩
    rintro (_ | ⟨x, ahead⟩) hahead
    · simp at hahead
    · have hof : UnaryOp.ofText "-" = some .negate := by decide
      rw [Reader.operand_prefixed rfl rfl hof (hnumber.close.advance _), Reader.run_map,
        hm ahead (by simpa using hahead)]
      rfl

theorem operandText_num {n : Number} (h : n.value.isFinite = true) :
    OperandText n.text.toList (.num n.plain) := by
  intro line spaced rest after hr hs he
  exact reads_denotes (Number.denotes_text h) line spaced hr.numberEnds hs he

theorem operandText_str {s : String} (h : (Expr.str s).Formed) :
    OperandText (Expr.str s).text.toList (.str s) := by
  intro line spaced rest after hr hs he
  have hl := Scan.lexeme_string h rest
  have hstands := stands_lexeme line spaced (by decide : isBlank '\x22' = false) hl (by decide)
  have htext : (Expr.str s).text.toList ++ rest = '\x22' :: (s.toList ++ '\x22' :: rest) := by
    simp [Expr.text]
  rw [htext]
  refine ⟨_, _, hstands, rfl, .inr (.inr (.inl rfl)), 1, ?_⟩
  rintro (_ | ⟨x, ahead⟩) hahead
  · simp at hahead
  · rw [Reader.operand_plain (by rintro t ⟨⟩; simp), Reader.operandOf_held rfl (by simp) (by simp)]
    simp only
    rw [Reader.run_bind, hs.advance, String.ofList_toList]
    rfl

theorem operandText_bracket {inner : Expr} {text : List Char} (h : ExpressionText text inner) :
    OperandText ('(' :: (text ++ [')'])) (.bracket inner) := by
  intro line spaced rest after hr hs he
  have hclose : Stands line (lead false ++ ')' :: rest)
      ⟨rest, line, some ⟨.brace, ")", false, line⟩⟩ :=
    stands_lexeme line false (by decide) rfl (by decide)
  obtain ⟨mid, t, hmid, -, -, n, hn⟩ := h line false _ _
    (parted_cons (by decide) (by decide) (by decide)) hclose
    ⟨by rintro t ⟨⟩; simp [Token.is, Token.isKeyword], by rintro t ⟨⟩; simp⟩
  have hopen : Stands line (lead spaced ++ '(' :: (text ++ ')' :: rest))
      ⟨text ++ ')' :: rest, line, some ⟨.brace, "(", spaced, line⟩⟩ :=
    stands_lexeme line spaced (by decide) rfl (by decide)
  have htext : '(' :: (text ++ [')']) ++ rest = '(' :: (text ++ ')' :: rest) := by simp
  rw [htext]
  refine ⟨_, _, hopen, rfl, .inr (.inr (.inr (.inr ⟨rfl, rfl⟩))), n + 1, ?_⟩
  rintro (_ | ⟨x, ahead⟩) hahead
  · simp at hahead
  · rw [Reader.operand_plain (by rintro t ⟨⟩; simp), Reader.operandOf_held rfl (by simp) (by simp)]
    simp only [if_true, Reader.bracket]
    rw [Reader.run_bind, hmid.close.advance]
    simp only
    rw [Reader.run_bind, hn ahead (by simpa using hahead)]
    simp only
    rw [Reader.run_bind, Reader.expect_held _ rfl (hs.advance _)]
    rfl

namespace Reader

variable {b : Braces} {c mid after : Cursor} {t : Token} {e : Reader Expr} {entries : Slots}

theorem slots_end (h : c.holds b.kind b.closing = true) (ha : advance {} c = .ok () after)
    (x : Char) (more : List Char) : slots {} b e (x :: more) c = .ok [] after := by
  simp only [slots, run_get, h, if_true]
  rw [run_bind, ha]
  rfl

theorem slots_entry {value : Expr} {comma : Bool} {next : Cursor} (hc : c.held = some t)
    (ht : t.Opens) (he : e c = .ok value mid) (hm : accept {} .separator "," mid = .ok comma next)
    (x : Char) {more : List Char} (hs : slots {} b e more next = .ok entries after) :
    slots {} b e (x :: more) c = .ok (some value :: entries) after := by
  have hclosing : c.holds b.kind b.closing = false := by
    rw [Cursor.holds, hc]
    rcases ht with hk | hk | hk | hk | ⟨hk, htext⟩
    all_goals cases b <;> simp [Token.is, Braces.kind, hk]
    simp [htext, Braces.closing]
  have hend : (c.atLineEnd || c.holds .brace ")" || c.holds .fieldBrace "]") = false := by
    simp only [Cursor.atLineEnd, Cursor.holds, hc, Option.any_some, Token.is]
    rcases ht with hk | hk | hk | hk | ⟨hk, htext⟩
    all_goals simp [hk]
    simp [htext]
  have hcomma : c.holds .separator "," = false := by
    simp only [Cursor.holds, hc, Option.any_some, Token.is]
    rcases ht with hk | hk | hk | hk | ⟨hk, htext⟩
    all_goals simp [hk]
  simp only [slots, run_get, hclosing, hend, hcomma, Bool.false_eq_true, if_false]
  rw [run_bind, run_map, he]
  simp only
  rw [run_bind, hm]
  simp only
  rw [run_bind, hs]
  rfl

theorem slots_gap (h : c.holds .separator "," = true) (ha : advance {} c = .ok () mid)
    (x : Char) {more : List Char} (hs : slots {} b e more mid = .ok entries after) :
    slots {} b e (x :: more) c = .ok (none :: entries) after := by
  obtain ⟨t, hc, hk⟩ : ∃ t, c.held = some t ∧ t.kind = .separator := by
    cases hc : c.held with
    | none => simp [Cursor.holds, hc] at h
    | some t =>
      have ht : t.kind = .separator ∧ t.text = "," := by simpa [Cursor.holds, hc, Token.is] using h
      exact ⟨t, rfl, ht.1⟩
  have hclosing : c.holds b.kind b.closing = false := by
    rw [Cursor.holds, hc]
    cases b <;> simp [Token.is, Braces.kind, hk]
  have hend : (c.atLineEnd || c.holds .brace ")" || c.holds .fieldBrace "]") = false := by
    simp [Cursor.atLineEnd, Cursor.holds, hc, Token.is, hk]
  simp only [slots, run_get, hclosing, hend, h, Bool.false_eq_true, if_false, if_true]
  rw [run_bind, run_pure]
  simp only
  rw [run_bind, accept_held h ha]
  simp only
  rw [run_bind, hs]
  rfl

end Reader

def slotText (slot : Option Expr) : List Char :=
  match slot with
  | some e => e.text.toList
  | none => []

def slotsText (slots : Slots) : List Char := (",".intercalate (Expr.slotTexts slots)).toList

theorem slotsText_singleton (slot : Option Expr) : slotsText [slot] = slotText slot := by
  cases slot <;> simp [slotsText, slotText, Expr.slotTexts]

theorem slotsText_cons (slot next : Option Expr) (slots : Slots) :
    slotsText (slot :: next :: slots) = slotText slot ++ ',' :: slotsText (next :: slots) := by
  cases slot <;> cases next <;>
    simp [slotsText, slotText, Expr.slotTexts, String.intercalate_cons_cons]

/-- The list is read between the text of its entries and its closing brace. -/
def ReadsSlots (b : Braces) (c : Cursor) (slots : Slots) (after : Cursor) : Prop :=
  ∃ n, ∀ ahead more : List Char, n ≤ ahead.length → n ≤ more.length →
    Reader.slots {} b (Reader.nested ahead) more c = .ok slots after

/-- What ends an entry of a list, with the kind of its token. -/
def entryEnds : List (TokenKind × String) :=
  [(.separator, ","), (.brace, ")"), (.fieldBrace, "]")]

theorem mem_entryEnds {kind : TokenKind} {mark : String} :
    (kind, mark) ∈ entryEnds ↔ kind = .separator ∧ mark = "," ∨ kind = .brace ∧ mark = ")" ∨
      kind = .fieldBrace ∧ mark = "]" := by
  simp [entryEnds]

theorem closing_mem (b : Braces) : (b.kind, b.closing) ∈ entryEnds := by
  cases b <;> simp [entryEnds, Braces.kind, Braces.closing]

theorem stands_entryEnd {kind : TokenKind} {mark : String} (h : (kind, mark) ∈ entryEnds)
    (line : Nat) (rest : List Char) :
    ∃ c, Stands line (mark.toList ++ rest) c ∧ c.holds kind mark = true ∧ c.EndsExpression ∧
      Parted (mark.toList ++ rest) ∧ c.unread = rest ∧ c.line = line := by
  refine ⟨⟨rest, line, some ⟨kind, mark, false, line⟩⟩, ?_, by simp [Cursor.holds, Token.is], ?_⟩
  · rcases mem_entryEnds.mp h with ⟨rfl, rfl⟩ | ⟨rfl, rfl⟩ | ⟨rfl, rfl⟩
    all_goals exact (stands_lexeme line false (by decide) rfl (by decide)).close
  · rcases mem_entryEnds.mp h with ⟨rfl, rfl⟩ | ⟨rfl, rfl⟩ | ⟨rfl, rfl⟩
    all_goals
      refine ⟨⟨?_, ?_⟩, parted_cons (by decide) (by decide) (by decide), rfl, rfl⟩
      · rintro t ⟨⟩
        simp [Token.is, Token.isKeyword]
      · rintro t ⟨⟩
        simp

theorem Cursor.not_holds_other {c : Cursor} {kind other : TokenKind} {text : String}
    (h : c.holds kind text = true) (hne : kind ≠ other) (word : String) :
    c.holds other word = false := by
  cases hc : c.held with
  | none => simp [holds, hc]
  | some t =>
    have ht : t.kind = kind ∧ t.text = text := by simpa [holds, hc, Token.is] using h
    simp [holds, hc, Token.is, ht.1, hne]

theorem stands_closing (b : Braces) (line : Nat) (rest : List Char) :
    ∃ c, Stands line (b.closing.toList ++ rest) c ∧ c.holds b.kind b.closing = true ∧
      c.holds .separator "," = false ∧ c.EndsExpression ∧ Parted (b.closing.toList ++ rest) ∧
      c.unread = rest ∧ c.line = line := by
  obtain ⟨c, hc, hholds, hrest⟩ := stands_entryEnd (closing_mem b) line rest
  exact ⟨c, hc, hholds, Cursor.not_holds_other hholds (by cases b <;> decide) ",", hrest⟩

theorem stands_comma (line : Nat) (rest : List Char) :
    ∃ c, Stands line (',' :: rest) c ∧ c.holds .separator "," = true ∧ c.EndsExpression ∧
      c.unread = rest ∧ c.line = line := by
  obtain ⟨c, hc, hholds, hends, -, hrest⟩ :=
    stands_entryEnd (mem_entryEnds.mpr (.inl ⟨rfl, rfl⟩)) line rest
  exact ⟨c, hc, hholds, hends, hrest⟩

theorem Stands.next {line : Nat} {rest : List Char} {c after : Cursor} (h : Stands line rest after)
    (hu : c.unread = rest) (hl : c.line = line) : Reader.advance {} c = .ok () after := by
  subst hu
  subst hl
  exact h.advance c.held

def ListedText (line : Nat) (text : List Char) (e : Expr) : Prop :=
  ∀ (kind : TokenKind) (mark : String) (rest : List Char), (kind, mark) ∈ entryEnds →
    ∃ c t stop, Stands line (text ++ (mark.toList ++ rest)) c ∧ c.held = some t ∧ t.Opens ∧
      Reads Reader.nested c e stop ∧ stop.holds kind mark = true ∧ stop.unread = rest ∧
      stop.line = line

theorem ExpressionText.listedText {text : List Char} {e : Expr} (h : ExpressionText text e)
    (line : Nat) : ListedText line text e := by
  intro kind mark rest hmark
  obtain ⟨stop, hstop, hholds, hends, hparted, hu, hl⟩ := stands_entryEnd hmark line rest
  obtain ⟨c, t, hc, hheld, hopens, hread⟩ := h line false _ stop hparted hstop hends
  exact ⟨c, t, stop, hc.close, hheld, hopens, hread, hholds, hu, hl⟩

/-- A written list is read again, up to a gap at its end. -/
theorem reads_slots (b : Braces) {read : Expr → Expr} {slots : Slots} {line : Nat}
    (h : ∀ e, some e ∈ slots → ListedText line e.text.toList (read e)) {rest : List Char}
    {after : Cursor} (hs : Stands line rest after) :
    ∃ c, Stands line (slotsText slots ++ (b.closing.toList ++ rest)) c ∧
      ReadsSlots b c ((Slots.dropGap slots).map (Option.map read)) after := by
  have hempty : ∃ c, Stands line (b.closing.toList ++ rest) c ∧ ReadsSlots b c [] after := by
    obtain ⟨close, hclose, hholds, -, -, hu, hl⟩ := stands_entryEnd (closing_mem b) line rest
    refine ⟨close, hclose, 1, ?_⟩
    rintro ahead (_ | ⟨x, more⟩) - hmore
    · simp at hmore
    · exact Reader.slots_end hholds (hs.next hu hl) x more
  induction slots with
  | nil => exact hempty
  | cons slot slots ih =>
    cases slots with
    | nil =>
      -- The last entry: the closing brace follows it.
      rw [slotsText_singleton]
      cases slot with
      | none => exact hempty
      | some e =>
        obtain ⟨c, t, stop, hc, hheld, hopens, ⟨n, hn⟩, hholds, hu, hl⟩ :=
          h e List.mem_cons_self b.kind b.closing rest (closing_mem b)
        have hcomma : stop.holds .separator "," = false :=
          Cursor.not_holds_other hholds (by cases b <;> decide) ","
        refine ⟨c, hc, n + 2, ?_⟩
        rintro ahead (_ | ⟨x, _ | ⟨y, more⟩⟩) hahead hmore
        · simp at hmore
        · simp at hmore
        · exact Reader.slots_entry hheld hopens (hn ahead (by omega))
            (Lockstep.accept_missing hcomma) x (Reader.slots_end hholds (hs.next hu hl) y more)
    | cons next slots =>
      obtain ⟨mid, hmid, m, hm⟩ := ih (fun e he => h e (List.mem_cons_of_mem _ he))
      rw [slotsText_cons, List.append_assoc, List.cons_append, Slots.dropGap_cons, List.map_cons]
      cases slot with
      | none =>
        obtain ⟨comma, hstands, hsep, -, hu, hl⟩ :=
          stands_comma line (slotsText (next :: slots) ++ (b.closing.toList ++ rest))
        refine ⟨comma, hstands, m + 1, ?_⟩
        rintro ahead (_ | ⟨x, more⟩) hahead hmore
        · simp at hmore
        · exact Reader.slots_gap hsep (hmid.next hu hl) x
            (hm ahead more (by omega) (by simpa using hmore))
      | some e =>
        obtain ⟨c, t, stop, hc, hheld, hopens, ⟨n, hn⟩, hsep, hu, hl⟩ :=
          h e List.mem_cons_self .separator ","
            (slotsText (next :: slots) ++ (b.closing.toList ++ rest))
            (mem_entryEnds.mpr (.inl ⟨rfl, rfl⟩))
        refine ⟨c, hc, max n m + 1, ?_⟩
        rintro ahead (_ | ⟨x, more⟩) hahead hmore
        · simp at hmore
        · simp only [List.length_cons] at hmore
          exact Reader.slots_entry hheld hopens (hn ahead (by omega))
            (Reader.accept_held hsep (hmid.next hu hl)) x (hm ahead more (by omega) (by omega))

end PartProgram
