import PartProgram.Proofs.Lossless
import PartProgram.Proofs.SignedWord

/-!
# Texts that are read to their end

An expression ends where its line ends or a comment begins. Outside names and strings the text of
a tree has no character that could do so, and the names and strings of the tree that is read are
texts of the tokens read. If the tree read is the one written, all such characters are therefore
used up by its tokens, and the text is read to its end.
-/

set_option autoImplicit false

namespace PartProgram

/-- A character that ends the line or begins a comment, unless it is quoted. -/
def isBreak (c : Char) : Bool := isLineEnd c || c == ';'

def breaks (cs : List Char) : Nat := cs.countP isBreak

@[simp]
theorem breaks_append (as bs : List Char) : breaks (as ++ bs) = breaks as + breaks bs :=
  List.countP_append ..

theorem breaks_cons_of_not {c : Char} (h : isBreak c = false) (cs : List Char) :
    breaks (c :: cs) = breaks cs :=
  List.countP_cons_of_neg (by simp [h])

theorem breaks_of_forall (p : Char → Bool) {cs : List Char} (h : ∀ c ∈ cs, p c = true)
    (hp : ['\r', '\n', ';'].all (fun c => !p c) = true) : breaks cs = 0 := by
  apply List.countP_eq_zero.mpr
  intro c hc
  have hne : ∀ e ∈ ['\r', '\n', ';'], c ≠ e := by
    rintro e he rfl
    simpa [h _ hc] using List.all_eq_true.mp hp _ he
  simp [isBreak, isLineEnd, hne '\r' (by simp), hne '\n' (by simp), hne ';' (by simp)]

namespace Number

theorem breaks_digits {radix : Nat} (hradix : 1 < radix) (hbound : radix ≤ 16) (n : Nat) :
    breaks (digits radix n) = 0 := by
  apply breaks_of_forall (fun c => c.isDigit || c.isAlpha) _ (by decide)
  intro c hc
  have h := isDigitOf_mem_digits hradix hbound hc
  rw [isDigitOf, Bool.and_eq_true] at h
  exact h.1

theorem breaks_layout {whole fraction : List Char} (hw : breaks whole = 0)
    (hf : ∀ c ∈ fraction, c.isDigit = true) : breaks (Decimal.layout whole fraction) = 0 := by
  have hfraction := breaks_of_forall Char.isDigit hf (by decide)
  unfold Decimal.layout
  split
  · exact hw
  · rw [breaks_append, hw, breaks_cons_of_not (by decide), hfraction]

theorem breaks_sign (p : Prop) [Decidable p] : breaks (if p then ['-'] else []) = 0 := by
  split <;> rfl

theorem breaks_signedText (x : Float) {finite : Nat → Int → List Char}
    (h : ∀ m e, breaks (finite m e) = 0) : breaks (signedText x finite).toList = 0 := by
  unfold signedText
  cases magnitude x with
  | finite m e => simp [breaks_sign, h]
  | infinite =>
    simp only [String.toList_ofList, breaks_append, breaks_sign]
    decide
  | undefined =>
    show breaks "NaN".toList = 0
    decide

theorem breaks_constant {mark : Char} (hmark : isBreak mark = false) {radix : Nat}
    (hradix : 1 < radix) (hbound : radix ≤ 16) (n : Int) :
    breaks (constant mark radix n).toList = 0 := by
  have hsign : breaks (if n < 0 then "-" else "").toList = 0 := by split <;> rfl
  have hquote : breaks "'".toList = 0 := rfl
  simp only [constant, String.toList_append, String.toList_ofList, breaks_append, hsign, hquote,
    breaks_cons_of_not hmark, breaks_digits hradix hbound]

theorem breaks_text (n : Number) : breaks n.text.toList = 0 := by
  have hreal : breaks (realText n.value).toList = 0 :=
    breaks_signedText _ (fun m e => breaks_layout (breaks_digits (by decide) (by decide) _)
      (fun c hc => Decimal.isDigit_mem_shortFraction hc))
  have hplaces : breaks (placesText 0 n.value).toList = 0 :=
    breaks_signedText _ (fun m e => breaks_layout (breaks_digits (by decide) (by decide) _)
      (fun c hc => Decimal.isDigit_mem_fraction hc))
  unfold text
  split
  · split
    · rw [String.toList_append, breaks_append, hreal]
      rfl
    · exact hreal
  · split
    · exact hplaces
    · cases n.radix with
      | decimal =>
        simp only
        rw [toString_int, breaks_append, breaks_sign, breaks_digits (by decide) (by decide)]
      | hex => exact breaks_constant (by decide) (by decide) (by decide) _
      | binary => exact breaks_constant (by decide) (by decide) (by decide) _

end Number

namespace Expr

mutual

def words : Expr → List Char
  | num _ => []
  | str s => s.toList
  | var name none => name.toList
  | var name (some fields) => name.toList ++ slotWords fields
  | call name args => name.toList ++ slotWords args
  | bin _ lhs rhs => words lhs ++ words rhs
  | un _ arg => words arg
  | bracket inner => words inner

def slotWords : Slots → List Char
  | [] => []
  | none :: rest => slotWords rest
  | some e :: rest => words e ++ slotWords rest

end

theorem breaks_slotsText {slots : Slots}
    (h : ∀ e, some e ∈ slots → breaks e.text.toList = breaks e.words) :
    breaks (slotsText slots) = breaks (slotWords slots) := by
  have hsingle : ∀ slot ∈ slots, breaks (slotText slot) = breaks (slotWords [slot]) := by
    rintro (_ | e) hslot
    · rfl
    · simpa [slotText, slotWords] using h e hslot
  induction slots with
  | nil => rfl
  | cons slot slots ih =>
    have hfirst := hsingle slot List.mem_cons_self
    have hcons : slotWords (slot :: slots) = slotWords [slot] ++ slotWords slots := by
      cases slot <;> simp [slotWords]
    cases slots with
    | nil => rw [slotsText_singleton, hfirst]
    | cons next slots =>
      have hrest := ih (fun e he => h e (List.mem_cons_of_mem _ he))
        (fun slot hslot => hsingle slot (List.mem_cons_of_mem _ hslot))
      rw [slotsText_cons, breaks_append, hfirst, breaks_cons_of_not (by decide), hrest, hcons,
        breaks_append]

theorem breaks_lead (spaced : Bool) : breaks (lead spaced) = 0 := by
  cases spaced <;> rfl

theorem breaks_text (e : Expr) : breaks e.text.toList = breaks e.words := by
  have hbraces : ∀ (opening closing : Char) (cs : List Char), isBreak opening = false →
      isBreak closing = false → breaks (opening :: (cs ++ [closing])) = breaks cs := by
    intro opening closing cs ho hc
    rw [breaks_cons_of_not ho, breaks_append, breaks_cons_of_not hc]
    rfl
  induction e using Expr.induction with
  | num n => exact n.breaks_text
  | str s =>
    have htext : (str s).text.toList = '\x22' :: (s.toList ++ ['\x22']) := by simp [text]
    rw [htext, hbraces _ _ _ (by decide) (by decide)]
    rfl
  | var name fields ih =>
    rw [text_var, breaks_append]
    cases fields with
    | none => rfl
    | some slots =>
      rw [fieldsText_some, hbraces _ _ _ (by decide) (by decide), breaks_slotsText (ih slots rfl),
        words, breaks_append]
  | call name args ih =>
    rw [text_call, breaks_append, hbraces _ _ _ (by decide) (by decide), breaks_slotsText ih, words,
      breaks_append]
  | bin op lhs rhs ihl ihr =>
    obtain ⟨before, behind, htext, -, -⟩ := binaryText_eq op lhs.text rhs.text
    have hsymbol : breaks op.symbol.toList = 0 := by cases op <;> decide
    simp only [text, htext, words, breaks_append, breaks_lead, hsymbol, ihl, ihr, Nat.zero_add]
  | un op arg ih =>
    obtain ⟨blank, htext, -⟩ := unaryText_eq op arg.text
    have hsymbol : breaks op.symbol.toList = 0 := by cases op <;> decide
    simp only [text, htext, words, breaks_append, breaks_lead, hsymbol, ih, Nat.zero_add]
  | bracket inner ih =>
    have htext : (bracket inner).text.toList = '(' :: (inner.text.toList ++ [')']) := by
      simp [text]
    rw [htext, hbraces _ _ _ (by decide) (by decide), ih]
    rfl

mutual

theorem words_of_same : ∀ {a b : Expr}, a.same b = true → a.words = b.words
  | num _, num _, _ => rfl
  | str a, str b, h => by
    have heq : a = b := by simpa [same] using h
    rw [heq]
  | var a none, var b none, h => by
    have heq : a = b := by simpa [same] using h
    rw [heq]
  | var a (some fs), var b (some gs), h => by
    have heq : a = b ∧ sameSlots fs gs = true := by simpa [same] using h
    rw [words, words, heq.1, slotWords_of_same heq.2]
  | call a xs, call b ys, h => by
    have heq : a = b ∧ sameSlots xs ys = true := by simpa [same] using h
    rw [words, words, heq.1, slotWords_of_same heq.2]
  | bin _ a b, bin _ a' b', h => by
    have heq : a.same a' = true ∧ b.same b' = true := by
      simp only [same, Bool.and_eq_true] at h
      exact ⟨h.1.2, h.2⟩
    rw [words, words, words_of_same heq.1, words_of_same heq.2]
  | un _ a, un _ a', h => by
    have heq : a.same a' = true := by
      simp only [same, Bool.and_eq_true] at h
      exact h.2
    rw [words, words, words_of_same heq]
  | bracket a, bracket b, h => by
    rw [words, words, words_of_same (by simpa [same] using h)]

theorem slotWords_of_same : ∀ {xs ys : Slots}, sameSlots xs ys = true → slotWords xs = slotWords ys
  | [], [], _ => rfl
  | none :: _, none :: _, h => by
    rw [slotWords, slotWords, slotWords_of_same (by simpa [sameSlots] using h)]
  | some x :: xs, some y :: ys, h => by
    have heq : x.same y = true ∧ sameSlots xs ys = true := by simpa [sameSlots] using h
    rw [slotWords, slotWords, words_of_same heq.1, slotWords_of_same heq.2]

end

theorem words_apply (op : UnaryOp) (e : Expr) : (op.apply e).words = e.words := by
  cases op with
  | negate => cases e <;> rfl
  | _ => rfl

end Expr

def tokenTexts (ts : List Token) : List Char := ts.flatMap (fun t => t.text.toList)

@[simp]
theorem tokenTexts_cons (t : Token) (ts : List Token) :
    tokenTexts (t :: ts) = t.text.toList ++ tokenTexts ts := rfl

@[simp]
theorem tokenTexts_append (ts us : List Token) :
    tokenTexts (ts ++ us) = tokenTexts ts ++ tokenTexts us :=
  List.flatMap_append ..

theorem SpellsName.words {ts : List Token} {name : String} {next : Option Token}
    (h : SpellsName ts name next) : name.toList.Sublist (tokenTexts ts) := by
  cases h with
  | word => simp [tokenTexts]
  | numbered => simp [tokenTexts]

mutual

/-- The names and strings of a tree are among the texts of the tokens that spell it. -/
theorem Spells.words : ∀ {ts : List Token} {e : Expr} {next : Option Token}, Spells ts e next →
    e.words.Sublist (tokenTexts ts)
  | _, _, _, .operand h => h.words
  | _, _, _, .plus _ h => List.sublist_append_of_sublist_right h.words
  | _, _, _, .un _ h => by
    rw [Expr.words_apply]
    exact List.sublist_append_of_sublist_right h.words
  | _, _, _, .bin hl _ h => by
    rw [tokenTexts_append]
    exact hl.words.append (List.sublist_append_of_sublist_right h.words)

theorem SpellsOperand.words : ∀ {ts : List Token} {e : Expr} {next : Option Token},
    SpellsOperand ts e next → e.words.Sublist (tokenTexts ts)
  | _, _, _, .num _ => List.nil_sublist _
  | _, _, _, .str _ => List.sublist_append_left _ _
  | _, _, _, .var h _ => h.words
  | _, _, _, .element h _ hslots => by
    rw [tokenTexts_append]
    exact h.words.append (List.sublist_append_of_sublist_right hslots.words)
  | _, _, _, .call _ _ hslots =>
    (List.Sublist.refl _).append (List.sublist_append_of_sublist_right hslots.words)
  | _, _, _, .bracket _ h _ => by
    rw [tokenTexts_cons, tokenTexts_append]
    exact List.sublist_append_of_sublist_right (List.sublist_append_of_sublist_left h.words)

theorem SpellsSlots.words : ∀ {b : Braces} {ts : List Token} {slots : Slots},
    SpellsSlots b ts slots → (Expr.slotWords slots).Sublist (tokenTexts ts)
  | _, _, _, .nil _ => List.nil_sublist _
  | _, _, _, .gap _ h => List.sublist_append_of_sublist_right h.words
  | _, _, _, .entry h _ hslots => by
    rw [tokenTexts_append]
    exact h.words.append (List.sublist_append_of_sublist_right hslots.words)
  | _, _, _, .joined h _ _ hslots => by
    rw [tokenTexts_append]
    exact h.words.append hslots.words

end

namespace TokenSpelling

variable {d : Dialect} {kind : TokenKind} {text spelling : List Char}

theorem sublist (h : TokenSpelling d kind text spelling) : text.Sublist spelling := by
  cases h with
  | lineEnd | bare => exact List.Sublist.refl _
  | constant | string => exact (List.sublist_append_left _ _).cons _
  | lineComment | openComment => exact List.sublist_cons_self _ _
  | braceComment => exact (List.sublist_append_left _ _).cons _

theorem breaks_pos (h : TokenSpelling {} kind text spelling)
    (hkind : kind = .newLine ∨ kind = .comment) : 0 < breaks spelling := by
  cases h with
  | lineEnd h => rcases h with rfl | rfl | rfl <;> decide
  | bare hk => rcases hkind with rfl | rfl <;> simp at hk
  | constant | string => rcases hkind with h | h <;> cases h
  | lineComment => simp [breaks, isBreak]
  | openComment hd | braceComment hd => cases hd

end TokenSpelling

namespace Cursor

variable {c mid after : Cursor} {ts : List Token}

/-- Where the tokens up to a line end or a comment are read, the text breaks off once more than
the texts of these tokens do. -/
theorem Steps.breaks_lt (ha : Reader.advance {} c = .ok () mid) (hs : mid.Steps ts after)
    {t : Token} (ht : after.held = some t) (hk : t.kind = .newLine ∨ t.kind = .comment) :
    breaks (tokenTexts ts) < breaks c.unread := by
  induction ts generalizing c mid with
  | nil =>
    cases hs
    rcases Reader.advance_cases ha with ⟨-, rfl⟩ | ⟨u, line, rest, hnext, rfl, -⟩
    · cases ht
    · cases ht
      obtain ⟨piece, rfl, hcs, -⟩ := Scan.next_piece hnext
      have hpos := piece.spells.breaks_pos hk
      rw [hcs, Piece.chars, breaks_append, breaks_append]
      show 0 < _
      omega
  | cons u us ih =>
    obtain ⟨rest, hnext, rfl, -, behind, hbehind, hsteps⟩ := hs.scanned ha
    have hrest : breaks (tokenTexts us) < breaks rest := ih hbehind hsteps
    obtain ⟨piece, rfl, hcs, -⟩ := Scan.next_piece hnext
    have htoken : breaks piece.token.text.toList ≤ breaks piece.spelling :=
      piece.spells.sublist.countP_le
    rw [hcs, tokenTexts_cons, Piece.chars, breaks_append, breaks_append, breaks_append]
    omega

end Cursor

theorem Expr.read_to_end {e found : Expr} (h : Expr.parse e.text = .ok found)
    (hsame : found.same e = true) :
    ∃ ts, FirstLine e.text ts none ∧ Spells ts found none ∧ found.Ranked := by
  obtain ⟨ts, next, ⟨c, after, ha, hs, hend, rfl⟩, hspells, hranked⟩ := spells_of_parse h
  have hnone : after.held = none := by
    cases hheld : after.held with
    | none => rfl
    | some t =>
      have hkind : t.kind = .newLine ∨ t.kind = .comment := by
        simpa [Cursor.atLineEnd, hheld] using hend
      have hlt : breaks (tokenTexts ts) < breaks e.text.toList := hs.breaks_lt ha hheld hkind
      have hle : breaks found.words ≤ breaks (tokenTexts ts) := hspells.words.countP_le
      rw [breaks_text, ← words_of_same hsame] at hlt
      omega
  rw [hnone] at hspells
  exact ⟨ts, ⟨c, after, ha, hs, hend, hnone⟩, hspells, hranked⟩

end PartProgram
