import PartProgram.Proofs.RoundTrip.Line

/-!
# Reading labels

Labels are read as variables first, until the colon behind them tells what they are. Behind
the labels stand the statements.
-/

set_option autoImplicit false

namespace PartProgram

namespace Reader

variable {c mid after next : Cursor} {first found : Option Statement} {names : List String}

theorem labels_none (h : c.holds .colon ":" = false) :
    Reads (fun ahead => labels {} ahead first) c ([], first) c := by
  refine ⟨0, ?_⟩
  intro ahead _
  simp only
  unfold labels
  split
  · rw [run_bind, Lockstep.accept_missing h]
    rfl
  · rfl

theorem labels_more {name : String} (h : c.holds .colon ":" = true)
    (ha : advance {} c = .ok () next) (hs : statement {} next = .ok first mid)
    (hl : Reads (fun ahead => labels {} ahead first) mid (names, found) after) :
    Reads (fun ahead => labels {} ahead (some (.instruction name none))) c (name :: names, found)
      after := by
  obtain ⟨n, hn⟩ := hl
  refine ⟨n + 1, ?_⟩
  rintro (_ | ⟨x, ahead⟩) hahead
  · simp at hahead
  · have hrest := hn ahead (by simpa using hahead)
    simp only at hrest ⊢
    rw [labels, run_bind, accept_held h ha]
    simp only [if_true]
    rw [run_bind, hs]
    simp only
    rw [run_bind, hrest]
    rfl

end Reader

def IsLabel (name : String) : Prop := IsIdentifier name ∧ 2 ≤ name.toList.length

instance (name : String) : Decidable (IsLabel name) :=
  inferInstanceAs (Decidable (IsIdentifier name ∧ 2 ≤ name.toList.length))

theorem IsLabel.characters {name : String} (h : IsLabel name) :
    ∃ first second rest, name.toList = first :: second :: rest ∧ second.isDigit = false := by
  obtain ⟨⟨hword, -⟩, hlength⟩ := h
  match hname : name.toList with
  | [] => simp [hname] at hlength
  | [c] => simp [hname] at hlength
  | first :: second :: rest =>
    refine ⟨first, second, rest, rfl, Bool.eq_false_iff.mpr fun hdigit => ?_⟩
    have hcut := hword.cut
    rw [hname] at hcut
    cases rest <;> simp [Scan.cutName, hdigit] at hcut

def Statement.IsNumber : Statement → Prop
  | assign name _ _ => sameLetters name "N" = true
  | _ => False

theorem blockNumber_none {first : Option Statement} (h : ∀ s ∈ first, ¬ s.IsNumber) (c : Cursor) :
    Reader.blockNumber first c = .ok none c := by
  cases first with
  | none => rfl
  | some s =>
    have hs := h s rfl
    cases s with
    | assign name fields value =>
      have hn : sameLetters name "N" = false := Bool.eq_false_iff.mpr hs
      simp only [Reader.blockNumber, hn, Bool.false_eq_true, if_false]
      rfl
    | _ => rfl

def ReadsBody (first : Option Statement) (mid : Cursor) (names : List String)
    (ss : List Statement) (stop : Cursor) : Prop :=
  ∃ found next, Reads (fun ahead => Reader.labels {} ahead first) mid (names, found) next ∧
    Reads (fun ahead => Reader.statements {} ahead found) next ss stop

/-- A text is read as labels and statements up to the end of the line. -/
def BodyText (text : List Char) (names : List String) (ss : List Statement) : Prop :=
  ∀ (line : Nat) (rest : List Char) (stop : Cursor), Parted rest → Stands line rest stop →
    stop.Stops →
    ∃ c first mid, Stands line (text ++ rest) c ∧ c.Fresh ∧
      ((∀ word ∈ (names ++ ss.map Statement.word).head?, sameLetters word "EX" = false) →
        c.Detached) ∧
      NumberEnds (text ++ rest) ∧
      (names ≠ [] ∨ (∀ s ∈ ss.head?, ¬ s.IsNumber) → ∀ s ∈ first, ¬ s.IsNumber) ∧
      Reader.statement {} c = .ok first mid ∧ ReadsBody first mid names ss stop

theorem bodyText_nil : BodyText [] [] [] := by
  intro line rest stop hr hs hstop
  refine ⟨stop, none, stop, hs, hstop.fresh, fun _ => hstop.detached, hr.numberEnds,
    fun _ => by simp, Lockstep.statement_none hstop.atLineEnd, none, stop, ?_, 0, ?_⟩
  · exact Reader.labels_none (hstop.fresh.not_holds .colon ":" (by decide) (by decide) (by decide))
  · intro ahead _
    cases ahead <;> rfl

theorem bodyText_line {text : List Char} {s : Statement} {ss : List Statement}
    (hhead : ∃ c cs, text = c :: cs ∧ Scan.isNameChar c = true) (h : LineText text s ss) :
    BodyText text [] (s :: ss) := by
  intro line rest stop hr hs hstop
  obtain ⟨c, mid, hc, hheld, hfresh, hread, hremaining⟩ := h line false rest stop hr hs hstop
  obtain ⟨first, cs, rfl, hname⟩ := hhead
  refine ⟨c, some s, mid, hc.close, Cursor.fresh_word hheld, ?_, numberEnds_name hname _, ?_, hread,
    some s, mid, ?_, Reader.statements_more hremaining⟩
  · intro hex
    exact Cursor.detached_word hheld (fun _ => hex s.word rfl)
  · rintro (hn | hn) s' ⟨⟩
    · exact absurd rfl hn
    · exact hn _ rfl
  · exact Reader.labels_none (hfresh.not_holds .colon ":" (by decide) (by decide) (by decide))

theorem bodyText_label {name : String} (hn : IsLabel name) (hfree : Free name) {text : List Char}
    {names : List String} {ss : List Statement} (h : BodyText text names ss) :
    BodyText (name.toList ++ ':' :: text) (name :: names) ss := by
  intro line rest stop hr hs hstop
  obtain ⟨next, first, mid, hnext, -, -, -, -, hfirst, found, after, hlabels, hstatements⟩ :=
    h line rest stop hr hs hstop
  have hcolon : Stands line (lead false ++ ':' :: (text ++ rest))
      ⟨text ++ rest, line, some ⟨.colon, ":", false, line⟩⟩ :=
    stands_lexeme line false (by decide) rfl (by decide)
  have hholds : Cursor.holds .colon ":"
      ⟨text ++ rest, line, some ⟨.colon, ":", false, line⟩⟩ = true := rfl
  obtain ⟨c, hc, hheld, hread⟩ := reads_instruction hn.1 hn.2 hfree line false
    (parted_cons (by decide) (by decide) (by decide)) hcolon.close
    ⟨by rintro t ⟨⟩; simp [Token.is, Token.isKeyword], by rintro t ⟨⟩; simp⟩ rfl
  obtain ⟨d, ds, hd, hname⟩ := (IsName.head (.inl hn.1) : ∃ c cs, name.toList = c :: cs ∧ _)
  refine ⟨c, _, _, by simpa using hc.close, Cursor.fresh_word hheld, ?_, ?_, ?_, hread, found,
    after, ?_, hstatements⟩
  · intro hex
    rw [leadingWord_identifier hn.1] at hheld
    exact Cursor.detached_word hheld (fun _ => hex name rfl)
  · rw [hd]
    exact numberEnds_name hname _
  · rintro - s ⟨⟩
    exact id
  · exact Reader.labels_more hholds (hnext.advance _) hfirst hlabels

theorem bodyText {names : List String} {ss : List Statement}
    (hnames : ∀ name ∈ names, IsLabel name ∧ Free name) (hss : ∀ s ∈ ss, s.Sound)
    (hapart : ss.IsChain Statement.Apart) :
    ∃ texts text gap, ss.mapM Statement.text = .ok texts ∧
      (String.join (names.map (· ++ ":"))).toList ++ (String.join texts).toList = text ++ lead gap ∧
      (Solid text ∨ text = [] ∧ gap = false) ∧
      BodyText text names (ss.map Statement.plain) := by
  induction names with
  | nil =>
    cases ss with
    | nil => exact ⟨[], [], false, rfl, by simp [lead], .inr ⟨rfl, rfl⟩, bodyText_nil⟩
    | cons s ss =>
      obtain ⟨texts, text, gap, htexts, hjoin, hsolid, hhead, hline⟩ := lineText hss hapart
      exact ⟨texts, text, gap, htexts, by simpa using hjoin, .inl hsolid,
        bodyText_line hhead hline⟩
  | cons name names ih =>
    obtain ⟨hn, hfree⟩ := hnames name List.mem_cons_self
    obtain ⟨texts, text, gap, htexts, hjoin, hsolid, hbody⟩ :=
      ih (fun x hx => hnames x (List.mem_cons_of_mem _ hx))
    refine ⟨texts, name.toList ++ ':' :: text, gap, htexts, ?_, .inl ?_,
      bodyText_label hn hfree hbody⟩
    · rw [List.map_cons, String.join_cons, String.toList_append, String.toList_append,
        List.append_assoc, hjoin]
      simp
    · rcases hsolid with hsolid | ⟨rfl, -⟩
      · exact (hsolid.cons ':').append _
      · exact (solid_char (by decide)).append _

end PartProgram
