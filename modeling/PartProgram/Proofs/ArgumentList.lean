import PartProgram.Proofs.ArgumentList.Words
import PartProgram.Proofs.RoundTrip

/-!
# Lists in braces

An entry of a list is read up to the comma or the closing brace behind it, and these belong to no
token in front of them. Whatever is read back from its own text is therefore read back from a list
too, and commas tell where gaps are. Only a gap at the end of a list is lost, since the closing
brace is looked for first.
-/

set_option autoImplicit false

namespace PartProgram

def Lexeme.Keeps (more : List Char) (l l' : Lexeme) : Prop :=
  ∀ kind text rest, l = .found kind text rest → kind ≠ .newLine → kind ≠ .comment →
    l' = .found kind text (rest ++ more)

namespace Scan

variable {more : List Char}

/-- A text that goes on with nothing that would belong to the token in front of it. -/
def Apart (more : List Char) : Prop := Parted more ∧ ∀ c ∈ more.head?, ∀ a, joins a c = false

theorem apart_entryEnd {kind : TokenKind} {mark : String} (h : (kind, mark) ∈ entryEnds)
    (rest : List Char) : Apart (mark.toList ++ rest) := by
  obtain ⟨-, -, -, -, hparted, -⟩ := stands_entryEnd h 0 rest
  refine ⟨hparted, ?_⟩
  intro c hc a
  rcases mem_entryEnds.mp h with ⟨rfl, rfl⟩ | ⟨rfl, rfl⟩ | ⟨rfl, rfl⟩
  all_goals
    have hmark := hc.symm
    simp at hmark
    simp [hmark, joins]

theorem keeps_extend (l : Lexeme) : l.Keeps more (l.extend more) := by
  rintro kind text rest rfl - -
  rfl

theorem keeps_break {kind : TokenKind} {text rest : List Char}
    (hk : kind = .newLine ∨ kind = .comment) (l : Lexeme) :
    (Lexeme.found kind text rest).Keeps more l := by
  rintro _ _ _ ⟨⟩ hn hc
  rcases hk with rfl | rfl
  · exact absurd rfl hn
  · exact absurd rfl hc

theorem keeps_ite {p : Prop} [Decidable p] {x y x' y' : Lexeme} (hx : p → x.Keeps more x')
    (hy : ¬ p → y.Keeps more y') : (if p then x else y).Keeps more (if p then x' else y') := by
  split
  · exact hx ‹_›
  · exact hy ‹_›

theorem keeps_delimited (kind : TokenKind) (delimiter : Char) (cause : ReadCause) (cs : List Char) :
    (delimited kind delimiter cause cs).Keeps more
      (delimited kind delimiter cause (cs ++ more)) := by
  intro k text rest h _ _
  have hsplit := List.takeWhile_append_dropWhile
    (p := fun c => !isLineEnd c && c != delimiter) (l := cs)
  simp only [delimited] at h
  split at h
  · rename_i c behind hdrop
    split at h
    · rename_i hc
      rw [beq_iff_eq] at hc
      cases h
      subst hc
      rw [hdrop] at hsplit
      have hfound := delimited_content kind cause (inside_takeWhile c cs) (rest ++ more)
      rwa [← List.cons_append, ← List.append_assoc, hsplit] at hfound
    · cases h
  · cases h

theorem keeps_lexeme (hm : Apart more) (c : Char) (cs : List Char) :
    (lexeme {} c cs).Keeps more (lexeme {} c (cs ++ more)) := by
  have hname : ∀ e ∈ more.head?, (isNameChar e || e.isDigit) = false := by
    intro e he
    obtain ⟨hn, hd, -⟩ := hm.1 e he
    simp [hn, hd]
  have hnumber : ∀ e ∈ more.head?, e.isDigit = false ∧ e ≠ '.' := fun e he => (hm.1 e he).2
  have hoperator : ∀ e ∈ more.head?, joins c e = false := fun e he => hm.2 e he c
  -- One case for each kind of token, in the order in which they are tried.
  unfold lexeme
  refine keeps_ite (fun hline => ?_) fun _ => keeps_ite (fun _ => ?_) fun _ =>
    keeps_ite (fun hbrace => ?_) fun _ => keeps_ite (fun _ => ?_) fun _ =>
    keeps_ite (fun _ => keeps_delimited _ _ _ _) fun _ => keeps_ite (fun _ => ?_) fun _ =>
    keeps_ite (fun _ => keeps_delimited _ _ _ _) fun _ =>
    keeps_ite (fun _ => keeps_extend _) fun _ => keeps_ite (fun _ => keeps_extend _) fun _ =>
    keeps_ite (fun _ => keeps_extend _) fun _ => keeps_ite (fun _ => keeps_extend _) fun _ =>
    keeps_ite (fun _ => ?_) fun _ => ?_
  · obtain ⟨e, r, hfound, -⟩ := lineEnd_found hline cs
    rw [hfound]
    exact keeps_break (.inl rfl) _
  · exact keeps_break (.inr rfl) _
  · simp at hbrace
  · rw [← List.cons_append, name_stop hname]
    exact keeps_extend _
  · rw [← List.cons_append, number_stop hnumber]
    exact keeps_extend _
  · rw [operator_stop hoperator]
    exact keeps_extend _
  · rintro _ _ _ ⟨⟩

theorem next_apart {line after : Nat} {cs rest : List Char} {t : Token} (hm : Apart more)
    (h : next {} line cs = .token t after rest) (hn : t.kind ≠ .newLine) (hc : t.kind ≠ .comment) :
    next {} line (cs ++ more) = .token t after (rest ++ more) := by
  simp only [next] at h ⊢
  cases hdrop : cs.dropWhile isBlank with
  | nil => simp [hdrop] at h
  | cons c behind =>
    have hhead : (cs ++ more).headD c = cs.headD c := by
      cases cs with
      | nil => cases hdrop
      | cons x cs => rfl
    rw [List.dropWhile_append, hdrop]
    simp only [hdrop] at h
    simp only [List.isEmpty_cons, Bool.false_eq_true, if_false, List.cons_append, hhead]
    cases hl : lexeme {} c behind with
    | fault cause beyond => simp [hl] at h
    | found kind text beyond =>
      simp only [hl] at h
      cases h
      rw [keeps_lexeme hm c behind kind text _ hl hn hc]

theorem next_entryEnd {kind : TokenKind} {mark : String} (h : (kind, mark) ∈ entryEnds)
    {line : Nat} {cs : List Char} (hcs : next {} line cs = .finished) (rest : List Char) :
    ∃ spaced, next {} line (cs ++ (mark.toList ++ rest)) =
      .token ⟨kind, mark, spaced, line⟩ line rest := by
  have hblank : cs.dropWhile isBlank = [] := List.dropWhile_eq_nil_iff.mpr (next_finished hcs)
  simp only [next, List.dropWhile_append, hblank, List.isEmpty_nil, if_true]
  rcases mem_entryEnds.mp h with ⟨rfl, rfl⟩ | ⟨rfl, rfl⟩ | ⟨rfl, rfl⟩
  all_goals exact ⟨_, rfl⟩

end Scan

/-- The same position with more text behind it. -/
def Cursor.behind (more : List Char) (c : Cursor) : Cursor := { c with unread := c.unread ++ more }

theorem Cursor.Steps.before_entryEnd {kind : TokenKind} {mark : String}
    (hmark : (kind, mark) ∈ entryEnds) (rest : List Char) {c mid after : Cursor} {ts : List Token}
    (ha : Reader.advance {} c = .ok () mid) (hs : mid.Steps ts after) (hn : after.held = none) :
    ∃ mid' spaced, Reader.advance {} (c.behind (mark.toList ++ rest)) = .ok () mid' ∧
      mid'.Steps ts ⟨rest, c.line, some ⟨kind, mark, spaced, c.line⟩⟩ := by
  induction ts generalizing c mid with
  | nil =>
    cases hs
    rcases Reader.advance_cases ha with ⟨hnext, rfl⟩ | ⟨t, line, rest, -, rfl, -⟩
    · obtain ⟨spaced, hmarked⟩ := Scan.next_entryEnd hmark hnext rest
      refine ⟨_, spaced, ?_, rfl⟩
      simp only [Reader.advance, Cursor.behind, hmarked]
    · cases hn
  | cons u us ih =>
    obtain ⟨unread, hnext, rfl, hline, next, hadvance, hsteps⟩ := hs.scanned ha
    have hkind : u.kind ≠ .newLine ∧ u.kind ≠ .comment := by
      simpa [Cursor.atLineEnd] using hline
    have hlonger := Scan.next_apart (Scan.apart_entryEnd hmark rest) hnext hkind.1 hkind.2
    obtain ⟨next', spaced, hadvance', hsteps'⟩ := ih hadvance hsteps
    refine ⟨⟨unread ++ (mark.toList ++ rest), c.line, some u⟩, spaced, ?_, rfl, hline, next',
      hadvance', hsteps'⟩
    simp only [Reader.advance, Cursor.behind, hlonger]

structure Token.Separate (u : Token) : Prop where
  exponent : u.isExponentMark = false
  digits : ∀ name, u.glues name = false
  parenthesis : u.is .brace "(" = false
  brace : u.is .fieldBrace "[" = false
  operator : u.isOperator = false

theorem Token.separate_entryEnd {kind : TokenKind} {mark : String}
    (h : (kind, mark) ∈ entryEnds) (spaced : Bool) (line : Nat) :
    Token.Separate ⟨kind, mark, spaced, line⟩ := by
  rcases mem_entryEnds.mp h with ⟨rfl, rfl⟩ | ⟨rfl, rfl⟩ | ⟨rfl, rfl⟩
  all_goals
    constructor <;>
      simp [isExponentMark, isKeyword, glues, isDecimal, Token.is, isOperator]

theorem SpellsOperand.before {ts : List Token} {e : Expr} {u : Token} (hu : u.Separate)
    (h : SpellsOperand ts e none) : SpellsOperand ts e (some u) := by
  cases h with
  | num h =>
    apply SpellsOperand.num
    cases h with
    | plain hk hvalue => exact .plain hk hvalue (by rintro _ ⟨⟩; exact hu.exponent)
    | scaled hk hvalue hmarked hexponent => exact .scaled hk hvalue hmarked hexponent
  | str hk => exact .str hk
  | var h =>
    refine .var ?_ (by rintro _ ⟨⟩; exact hu.brace)
    cases h with
    | word hk => exact .word hk (by rintro _ ⟨⟩; exact ⟨hu.parenthesis, hu.digits _⟩)
    | numbered hk hglued => exact .numbered hk hglued
  | element h hb hslots => exact .element h hb hslots
  | call hk hb hslots => exact .call hk hb hslots
  | bracket ho h hc => exact .bracket ho h hc

theorem Spells.before {u : Token} (hu : u.Separate) : ∀ {ts : List Token} {e : Expr}
    {next : Option Token}, Spells ts e next → next = none → Spells ts e (some u)
  | _, _, _, .operand h, hn => by
    subst hn
    exact .operand (h.before hu)
  | _, _, _, .plus hplus h, hn => by
    subst hn
    exact .plus hplus (h.before hu)
  | _, _, _, .un hop h, hn => .un hop (h.before hu hn)
  | _, _, _, .bin hl hop h, hn => .bin hl hop (h.before hu hn)

/-- A tree that is read back from its text is read from it as an entry of a list as well. -/
theorem Expr.listedText {e found : Expr} (h : Expr.parse e.text = .ok found)
    (hsame : found.same e = true) {line : Nat} (hline : 1 ≤ line) :
    ListedText line e.text.toList found := by
  intro kind mark rest hmark
  obtain ⟨ts, ⟨start, stop, ha, hs, -, hnone⟩, hspells, hranked⟩ := Expr.read_to_end h hsame
  obtain ⟨c, spaced, hadvance, hsteps⟩ := hs.before_entryEnd hmark rest ha hnone
  have hseparate := Token.separate_entryEnd hmark spaced 1
  have hread : Reader.expression {} c = .ok found ⟨rest, 1, some ⟨kind, mark, spaced, 1⟩⟩ := by
    apply Reader.expression_of_reads
    apply ((hspells.before hseparate rfl).reads hranked hsteps rfl).reads
    rintro _ ⟨⟩
    exact hseparate.operator
  obtain ⟨t, us, rfl, hopens⟩ := hspells.head
  -- The text as it is read from the first line on, moved to the line.
  obtain ⟨k, rfl⟩ : ∃ k, line = 1 + k := ⟨line - 1, by omega⟩
  have hshift := advance_below {} k ((Cursor.ofText e.text).behind (mark.toList ++ rest))
  rw [hadvance] at hshift
  refine ⟨c.below k, t.below k, _, hshift, ?_, hopens,
    Reader.reads_of_expression (Reader.expression_below hread k), ?_, rfl, rfl⟩
  · simp [Cursor.below, hsteps.1]
  · simp [Cursor.holds, Cursor.below, Token.is]

/-- The tree that the text of a tree is read as, if it can be read. -/
def Expr.readBack (e : Expr) : Expr :=
  match Expr.parse e.text with
  | .ok found => found
  | .error _ => e

theorem Expr.readBack_eq {e found : Expr} (h : Expr.parse e.text = .ok found) :
    e.readBack = found := by
  rw [readBack, h]

theorem stands_opening (b : Braces) (line : Nat) (rest : List Char) :
    Stands line (b.opening.toList ++ rest) ⟨rest, line, some ⟨b.kind, b.opening, false, line⟩⟩ := by
  cases b
  all_goals exact (stands_lexeme line false (by decide) rfl (by decide)).close

theorem Reader.braced_of_reads {b : Braces} {c after : Cursor} {slots : Slots} {t : Token}
    (ht : c.held = some t) (hk : t.kind ≠ .newLine)
    (h : Reads (fun ahead => braced {} b (nested ahead) ahead) c slots after) {ahead : List Char}
    (hahead : c.size ≤ ahead.length + 1) :
    braced {} b (nested ahead) ahead c = .ok slots after := by
  obtain ⟨n, hn⟩ := h
  obtain ⟨long, hlong⟩ : ∃ long : List Char, long.length = max n c.size :=
    ⟨List.replicate (max n c.size) ' ', by simp⟩
  have L := lockstep_below {} 0
  have hline : c.inLine.isSome = true := by simp [Cursor.inLine, ht, Option.filter, hk]
  have hnested : Takes 0 (Cursor.Below 0) ahead.length long.length (nested ahead) (nested long) :=
    L.expressionOf (L.operand ahead long) (by omega) (by omega)
  have hsame : Same 0 (Cursor.Below 0) c.size c.size (braced {} b (nested ahead) ahead c)
      (braced {} b (nested long) long c) :=
    L.braced hnested b c.below_zero.symm hline hahead (by omega) (by omega) (by omega) (by omega)
      (by omega)
  rw [eq_of_same hsame]
  exact hn long (by omega)

/-- A list in braces whose entries are read back from their texts is read with the same entries
and gaps, unless it ends in a gap. A gap at its end is lost. -/
theorem Slots.read_in_braces (b : Braces) (slots : Slots)
    (hread : ∀ e, some e ∈ slots → ∃ found, Expr.parse e.text = .ok found ∧ found.same e = true)
    {line : Nat} (hline : 1 ≤ line) {rest : List Char} {c after : Cursor}
    (hc : Stands line ((inBraces b.opening b.closing (Expr.slotTexts slots)).toList ++ rest) c)
    (hafter : Stands line rest after) {ahead : List Char} (hahead : c.size ≤ ahead.length + 1) :
    ∃ found,
      Reader.braced {} b (Reader.expressionOf {} (Reader.operand {} ahead) ahead) ahead c =
        .ok found after ∧
      (Slots.Closed slots → Expr.sameSlots found slots = true) ∧
      ∀ front, slots = front ++ [none] → Expr.sameSlots found front = true := by
  have hentries : ∀ e, some e ∈ slots → ListedText line e.text.toList e.readBack := by
    intro e he
    obtain ⟨found, hparse, hsame⟩ := hread e he
    rw [Expr.readBack_eq hparse]
    exact Expr.listedText hparse hsame hline
  have hsame : ∀ e, some e ∈ slots → e.readBack.same e = true := by
    intro e he
    obtain ⟨found, hparse, hsame⟩ := hread e he
    rwa [Expr.readBack_eq hparse]
  have htext : (inBraces b.opening b.closing (Expr.slotTexts slots)).toList ++ rest =
      b.opening.toList ++ (slotsText slots ++ (b.closing.toList ++ rest)) := by
    simp [inBraces, slotsText]
  rw [htext] at hc
  have hopen := stands_opening b line (slotsText slots ++ (b.closing.toList ++ rest))
  cases hopen.symm.trans hc
  have hk : b.kind ≠ .newLine := by cases b <;> decide
  refine ⟨_, Reader.braced_of_reads rfl hk (reads_braced b hentries hafter rfl rfl) hahead, ?_, ?_⟩
  · intro hclosed
    rw [hclosed.dropGap_eq]
    exact Expr.sameSlots_map hsame
  · rintro front rfl
    rw [Slots.dropGap_gap]
    exact Expr.sameSlots_map (fun e he => hsame e (List.mem_append_left _ he))

def mixedSlots : Slots := [none, some (.str "1;,)"), none, none, some Expr.product]

theorem mixedSlots_read (e : Expr) (h : some e ∈ mixedSlots) :
    ∃ found, Expr.parse e.text = .ok found ∧ found.same e = true := by
  have hcases : e = .str "1;,)" ∨ e = Expr.product := by simpa [mixedSlots] using h
  rcases hcases with rfl | rfl
  · exact ⟨_, rfl, rfl⟩
  · exact ⟨_, Expr.parse_sound Expr.product_sound, Expr.same_plain Expr.product_exact⟩

theorem Slots.read_in_braces_mixed :
    inBraces "(" ")" (Expr.slotTexts mixedSlots) =
        "(,\x221;,)\x22,,,-R1[,-2]*ATAN(\x22a;b\x22,,X))" ∧
      Slots.Closed mixedSlots ∧
      (∀ e, some e ∈ mixedSlots → ∃ found, Expr.parse e.text = .ok found ∧ found.same e = true) ∧
      ∃ c found, Stands 1 (inBraces "(" ")" (Expr.slotTexts mixedSlots)).toList c ∧
        Reader.braced {} .round (Reader.expressionOf {} (Reader.operand {} c.ahead) c.ahead)
          c.ahead c = .ok found ⟨[], 1, none⟩ ∧
        Expr.sameSlots found mixedSlots = true := by
  have hclosed : Slots.Closed mixedSlots := by simp [Slots.Closed, mixedSlots]
  obtain ⟨c, hc⟩ : ∃ c, Stands 1 (inBraces "(" ")" (Expr.slotTexts mixedSlots)).toList c := by
    have hopen := stands_opening .round 1 (slotsText mixedSlots ++ ")".toList)
    exact ⟨_, by simpa [inBraces, slotsText, Braces.opening] using hopen⟩
  have hend : Stands 1 [] ⟨[], 1, none⟩ := rfl
  have hahead : c.size ≤ c.ahead.length + 1 := by
    rw [c.ahead_length]
    omega
  obtain ⟨found, hread, hsame, -⟩ := Slots.read_in_braces .round mixedSlots mixedSlots_read
    (Nat.le_refl 1) ((List.append_nil _).symm ▸ hc) hend hahead
  exact ⟨by decide +kernel, hclosed, mixedSlots_read, c, found, hc, hread, hsame hclosed⟩

/-- A gap at the end of a list is lost: `(A,)` is read as a list of one entry. -/
theorem Slots.last_gap_lost :
    inBraces "(" ")" (Expr.slotTexts [some (.var "A" none), none]) = "(A,)" ∧
      Expr.parse "A" = .ok (.var "A" none) ∧
      Reader.braced {} .round
          (Reader.expressionOf {} (Reader.operand {} "(A,)".toList) "(A,)".toList) "(A,)".toList
          ⟨"A,)".toList, 1, some ⟨.brace, "(", false, 1⟩⟩ =
        .ok [some (.var "A" none)] ⟨[], 1, none⟩ ∧
      Expr.sameSlots [some (.var "A" none)] [some (.var "A" none), none] = false :=
  ⟨by decide, rfl, rfl, rfl⟩

end PartProgram
