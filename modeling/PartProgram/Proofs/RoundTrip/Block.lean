import PartProgram.Proofs.Onward
import PartProgram.Proofs.RoundTrip.Body
import PartProgram.Proofs.RoundTrip.LineEnd

/-!
# Reading written blocks

A written block is read up to the end of its line. Its number is read as a statement first.
-/

set_option autoImplicit false

namespace PartProgram

namespace Reader

variable {line : Nat} {number : Option Int} {first second : Option Statement} {b : Block}
variable {c mid next after : Cursor}

theorem blockBody_of_reads (h : Reads (fun ahead => blockBody {} line number ahead first) c b after)
    {ahead : List Char} (ha : c.size ≤ ahead.length) :
    blockBody {} line number ahead first c = .ok b after := by
  obtain ⟨n, hn⟩ := h
  obtain ⟨long, hlong⟩ : ∃ long : List Char, long.length = max n c.size :=
    ⟨List.replicate (max n c.size) ' ', by simp⟩
  have hread : blockBody {} line number long first c = .ok b after := hn long (by omega)
  have hagree := (lockstep_below {} 0).blockBody (n := c.size) (m := c.size) line number ahead long
    first c.below_zero.symm ha (by omega) (Nat.le_refl _) (Nat.le_refl _)
  rw [Nat.add_zero, hread] at hagree
  cases hr : blockBody {} line number ahead first c with
  | error e after' =>
    rw [hr] at hagree
    exact hagree.elim
  | ok b' after' =>
    rw [hr] at hagree
    obtain ⟨hb, hafter, -, -⟩ := hagree
    rw [Cursor.Below, Cursor.below_zero] at hafter
    rw [hafter, hb]
    rfl

theorem blockContent_plain (hs : statement {} c = .ok first mid)
    (hn : blockNumber first mid = .ok none mid)
    (hb : Reads (fun ahead => blockBody {} line none ahead first) mid b after) :
    blockContent {} line c = .ok b after := by
  have hsize := statement_size_le hs
  have hahead := c.ahead_length
  simp only [blockContent, run_get]
  rw [run_bind, hs]
  simp only
  rw [run_bind, hn]
  exact blockBody_of_reads hb (by omega)

theorem blockContent_number {n : Int} (hs : statement {} c = .ok first mid)
    (hn : blockNumber first mid = .ok (some n) mid) (hs' : statement {} mid = .ok second next)
    (hb : Reads (fun ahead => blockBody {} line (some n) ahead second) next b after) :
    blockContent {} line c = .ok b after := by
  have hsize := statement_size_le hs
  have hsize' := statement_size_le hs'
  have hahead := c.ahead_length
  simp only [blockContent, run_get]
  rw [run_bind, hs]
  simp only
  rw [run_bind, hn]
  simp only
  rw [run_bind, hs']
  exact blockBody_of_reads hb (by omega)

theorem blockBody_reads {names : List String} {ss : List Statement} {comment : Option String}
    {stop : Cursor} (h : ReadsBody first mid names ss stop)
    (hc : Reader.comment {} stop = .ok comment after) (line : Nat) (number : Option Int) :
    Reads (fun ahead => blockBody {} line number ahead first) mid
      { line, number, labels := names, statements := ss, comment } after := by
  obtain ⟨found, next, ⟨n, hn⟩, m, hm⟩ := h
  refine ⟨max n m, ?_⟩
  intro ahead hahead
  have hlabels : labels {} ahead first mid = .ok (names, found) next := hn ahead (by omega)
  have hstatements : statements {} ahead found next = .ok ss stop := hm ahead (by omega)
  simp only [blockBody]
  rw [run_bind, hlabels]
  simp only
  rw [run_bind, hstatements]
  simp only
  rw [run_bind, hc]
  rfl

end Reader

theorem number_literal {x : Float} {n : Int} (hx : integral? x = some n) :
    ∃ u : Number, u.value.isFinite = true ∧ u.Fits ∧ u.text = toString n ∧ (0 ≤ n → u.IsBare) ∧
      ∃ y, u.plain = ⟨y, true, .decimal⟩ ∧ integral? y = some n := by
  obtain ⟨m, e, hmag, hvalue, hlt, -⟩ := Double.integral_value hx
  have hint := Double.integral_realOfInt (Double.magnitude_finite hmag).1 hvalue hlt
  have hword := Double.abs_lt_of_integral hx
  have htruncate := Double.truncate_integral hx
  have htext : Number.text ⟨x, true, .decimal⟩ = toString n := by
    rw [Number.text_word (n := ⟨x, true, .decimal⟩) rfl hword, htruncate]
  refine ⟨⟨x, true, .decimal⟩, Double.isFinite_of_magnitude hmag, fun _ _ => hword, htext, ?_, ?_⟩
  · intro hn
    rw [Number.IsBare, htext, toString_int, if_neg (by omega)]
    exact fun c hc => isDigit_mem_digits hc
  · rw [Number.plain_word (n := ⟨x, true, .decimal⟩) rfl hword, htruncate]
    exact ⟨_, rfl, hint⟩

def numberText (number : Option Int) : List Char :=
  match number with
  | some n => 'N' :: (toString n).toList
  | none => []

theorem numberText_solid {x : Float} {n : Int} (hx : integral? x = some n) :
    Solid (numberText (some n)) := by
  obtain ⟨u, hfinite, -, htext, -, -⟩ := number_literal hx
  rw [numberText, ← htext]
  exact (Number.denotes_text hfinite).solid.cons 'N'

theorem reads_blockNumber {x : Float} {n : Int} (hx : integral? x = some n) (line : Nat)
    {rest : List Char} {after : Cursor} (hr : NumberEnds rest) (hs : Stands line rest after)
    (hfresh : after.Fresh) (hd : n < 0 → after.Detached) :
    ∃ c first, Stands line (numberText (some n) ++ rest) c ∧
      Reader.statement {} c = .ok first after ∧
      Reader.blockNumber first after = .ok (some n) after := by
  obtain ⟨u, hfinite, hfits, htext, hbare, y, hplain, hint⟩ := number_literal hx
  have hdetached : ¬ u.IsBare → after.Detached :=
    fun hu => hd (Int.not_le.mp fun hn => hu (hbare hn))
  obtain ⟨c, hc, hheld, hread⟩ :=
    assignsLetter_number (by decide : Scan.isNameChar 'N' = true) hfinite hfits line false hr hs
      hfresh hdetached
  rw [htext] at hc
  rw [hplain] at hread
  refine ⟨c, some (.assign (String.ofList ['N']) none (.num ⟨y, true, .decimal⟩)),
    hc.close, ?_, ?_⟩
  · apply Reader.statement_named hheld rfl
    have hreserved : isReserved (String.ofList ['N']) = false := by decide
    rw [Reader.namedStatement_free hreserved]
    exact hread
  · have hname : sameLetters (String.ofList ['N']) "N" = true := by simp [sameLetters]
    simp only [Reader.blockNumber, hname, if_true, hint]
    rfl

theorem isNumber_plain (s : Statement) : s.plain.IsNumber ↔ s.IsNumber := by
  cases s <;> rfl

namespace Block

def plain (b : Block) : Block :=
  { b with statements := b.statements.map Statement.plain, comment := b.comment.map trimEnd }

def words (b : Block) : List String := b.labels ++ b.statements.map Statement.word

/-- What reading guarantees of a block and what it needs to be read back. -/
structure Sound (b : Block) : Prop where
  number : ∀ n ∈ b.number, ∃ x, integral? x = some n
  labels : ∀ name ∈ b.labels, IsLabel name ∧ Free name
  first : b.number = none → b.labels = [] → ∀ s ∈ b.statements.head?, ¬ s.IsNumber
  statements : ∀ s ∈ b.statements, s.Sound
  apart : b.statements.IsChain Statement.Apart
  detached : ∀ n ∈ b.number, n < 0 → ∀ word ∈ b.words.head?, sameLetters word "EX" = false
  unbroken : ∀ text ∈ b.comment, ∀ c ∈ text.toList, isLineEnd c = false

variable {b : Block}

theorem Sound.head_plain (h : b.Sound) (hn : b.number = none) :
    b.labels ≠ [] ∨ ∀ s ∈ (b.statements.map Statement.plain).head?, ¬ s.IsNumber := by
  by_cases hl : b.labels = []
  · right
    rw [List.head?_map]
    intro s hs
    obtain ⟨s', hs', rfl⟩ := Option.map_eq_some_iff.mp hs
    rw [isNumber_plain]
    exact h.first hn hl s' hs'
  · exact .inl hl

theorem text_trimmed {texts : List String} (h : b.statements.mapM Statement.text = .ok texts) :
    ∃ line, b.text = .ok (trimEnd line) ∧
      line.toList = numberText b.number ++ ((String.join (b.labels.map (· ++ ":"))).toList ++
        (String.join texts).toList ++ tailText false b.comment) := by
  rw [text, h]
  refine ⟨_, rfl, ?_⟩
  cases b.number <;> cases b.comment <;> simp [numberText, tailText, lead]

theorem text_parts (h : b.Sound) :
    ∃ text body gap, b.text = .ok text ∧
      text.toList = numberText b.number ++ (body ++ tailText gap (b.comment.map trimEnd)) ∧
      BodyText body b.labels (b.statements.map Statement.plain) := by
  obtain ⟨texts, body, gap, htexts, hjoin, hsolid, hbody⟩ := bodyText h.labels h.statements h.apart
  obtain ⟨line, hline, hchars⟩ := text_trimmed htexts
  rw [hjoin] at hchars
  refine ⟨_, body, gap, hline, ?_, hbody⟩
  cases hcomment : b.comment with
  | some comment =>
    have hend : line.toList =
        (numberText b.number ++ (body ++ lead gap)) ++ ';' :: comment.toList := by
      simp [hchars, hcomment, tailText, lead]
    rw [trimEnd_behind hend (by decide)]
    simp [tailText]
  | none =>
    have hend : line.toList = (numberText b.number ++ body) ++ lead gap := by
      simp [hchars, hcomment, tailText]
    rw [Option.map_none, tailText, List.append_nil]
    apply trimEnd_solid hend
    rcases hsolid with hsolid | ⟨rfl, rfl⟩
    · exact .inl (hsolid.append _)
    · cases hn : b.number with
      | none => exact .inr rfl
      | some n =>
        obtain ⟨x, hx⟩ := h.number n hn
        rw [List.append_nil]
        exact .inl (numberText_solid hx)

/-- A written block is read again up to the end of its line. -/
theorem reads_content (h : b.Sound) :
    ∃ text, b.text = .ok text ∧ ∀ rest last, LineRest b.line rest last →
      ∃ c, Stands b.line (text.toList ++ rest) c ∧
        Reader.blockContent {} b.line c = .ok b.plain last := by
  obtain ⟨text, body, gap, htext, hchars, hbody⟩ := text_parts h
  refine ⟨text, htext, ?_⟩
  intro rest last hrest
  have hunbroken : ∀ text ∈ b.comment.map trimEnd, ∀ c ∈ text.toList, isLineEnd c = false := by
    intro trimmed htrimmed c hc
    obtain ⟨comment, hcomment, rfl⟩ := Option.map_eq_some_iff.mp htrimmed
    exact h.unbroken comment hcomment c (mem_of_mem_trimEnd hc)
  obtain ⟨stop, hstop, hends, hparted, hcomment⟩ := reads_tail gap hunbroken hrest
  obtain ⟨c, first, mid, hc, hfresh, hdetached, hnumberEnds, hfirst, hread, hreads⟩ :=
    hbody b.line _ stop hparted hstop hends
  have htail : text.toList ++ rest =
      numberText b.number ++ (body ++ (tailText gap (b.comment.map trimEnd) ++ rest)) := by
    simp [hchars]
  rw [htail]
  have hblock := Reader.blockBody_reads hreads hcomment b.line b.number
  cases hn : b.number with
  | none =>
    rw [hn] at hblock
    refine ⟨c, hc, ?_⟩
    have hnone := blockNumber_none (hfirst (h.head_plain hn)) mid
    rw [Reader.blockContent_plain hread hnone hblock, plain, hn]
  | some n =>
    obtain ⟨x, hx⟩ := h.number n hn
    rw [hn] at hblock
    have hwords : (b.statements.map Statement.plain).map Statement.word =
        b.statements.map Statement.word := by
      simp [Function.comp_def, Statement.word_plain]
    rw [hwords] at hdetached
    obtain ⟨front, number, hfront, hreadNumber, hnumber⟩ :=
      reads_blockNumber hx b.line hnumberEnds hc hfresh
        (fun hneg => hdetached (h.detached n hn hneg))
    refine ⟨front, hfront, ?_⟩
    rw [Reader.blockContent_number hreadNumber hnumber hread hblock, plain, hn]

end Block

namespace Reader

theorem blockContent_blank {c : Cursor} (line : Nat) (h : ∀ t ∈ c.held, t.kind = .newLine) :
    blockContent {} line c = .ok { line } c := by
  have hend : c.atLineEnd = true := by
    unfold Cursor.atLineEnd
    cases hheld : c.held with
    | none => rfl
    | some t => simp [h t hheld]
  have hcomment : comment {} c = .ok none c := by
    have hnone : c.held.filter (fun t => t.kind == .comment) = none := by
      rw [Option.filter_eq_none_iff]
      intro t ht
      simp [h t ht]
    simp only [comment, run_get, hnone]
    rfl
  simp only [blockContent, run_get]
  rw [run_bind, Lockstep.statement_none hend]
  have hlabels : labels {} c.ahead none c = .ok ([], none) c := by cases c.ahead <;> rfl
  have hstatements : statements {} c.ahead none c = .ok [] c := by cases c.ahead <;> rfl
  show blockBody {} line none c.ahead none c = _
  simp only [blockBody]
  rw [run_bind, hlabels]
  simp only
  rw [run_bind, hstatements]
  simp only
  rw [run_bind, hcomment]
  rfl

theorem nextBlock_content {line : Nat} {text rest : List Char} {c : Cursor} {b : Block}
    (hc : Stands line text c)
    (hb : blockContent {} line c = .ok b (Cursor.atBreak line rest)) :
    nextBlock {} ⟨text, line, none⟩ =
      (do advance {}; return some b : Reader (Option Block)) (Cursor.atBreak line rest) := by
  have hstart : nextBlock {} ⟨text, line, none⟩ = heldBlock {} c := by
    simp only [nextBlock, run_get, Option.isNone_none, if_true]
    rw [run_bind, hc]
  rw [hstart]
  by_cases hblank : ∀ t ∈ c.held, t.kind = .newLine
  · rw [blockContent_blank line hblank] at hb
    cases hb
    simp [heldBlock, run_get, Cursor.atBreak]
  · simp only [not_forall] at hblank
    obtain ⟨t, hheld, hk⟩ := hblank
    have hend : lineEnd {} (Cursor.atBreak line rest) = advance {} (Cursor.atBreak line rest) := rfl
    simp only [heldBlock, run_get, Option.mem_def.mp hheld, hk, if_false, blockFrom, hc.line hheld]
    rw [run_map, run_bind, hb]
    simp only [run_bind, hend]
    cases advance {} (Cursor.atBreak line rest) <;> rfl

theorem nextBlock_final {line : Nat} {text : List Char} {c : Cursor} {b : Block}
    (hc : Stands line text c) (hb : blockContent {} line c = .ok b ⟨[], line, none⟩)
    (hne : b ≠ { line }) : nextBlock {} ⟨text, line, none⟩ = .ok (some b) ⟨[], line, none⟩ := by
  have hstart : nextBlock {} ⟨text, line, none⟩ = heldBlock {} c := by
    simp only [nextBlock, run_get, Option.isNone_none, if_true]
    rw [run_bind, hc]
  have hheld : ∃ t, c.held = some t ∧ t.kind ≠ .newLine := by
    by_contra hblank
    rw [blockContent_blank line (fun t ht => not_not.mp fun hk => hblank ⟨t, ht, hk⟩)] at hb
    cases hb
    exact hne rfl
  obtain ⟨t, hheld, hk⟩ := hheld
  rw [hstart]
  simp only [heldBlock, run_get, hheld, hk, if_false, blockFrom, hc.line hheld]
  rw [run_map, run_bind, hb]
  rfl

end Reader

end PartProgram
