import PartProgram.Proofs.RoundTrip.Declaration

/-!
# Reading the statements of a line

The texts of the statements of a block stand one behind the other, and each statement ends
where the next one begins, unless that goes on as an exponent of its number.
-/

set_option autoImplicit false

namespace PartProgram

theorem letter_of_utf8ByteSize {name : String} (hn : IsName name) (h : name.utf8ByteSize = 1) :
    ∃ letter, name = String.ofList [letter] ∧ Scan.isNameChar letter = true := by
  obtain ⟨c, cs, hcs, hc⟩ := hn.head
  have hname : name = String.ofList [c] ++ String.ofList cs := by
    rw [← String.toList_inj, hcs]
    simp
  have hsize := h
  rw [hname, String.utf8ByteSize_append, letter_utf8ByteSize hc] at hsize
  have hempty : String.ofList cs = "" := String.utf8ByteSize_eq_zero_iff.mp (by omega)
  refine ⟨c, ?_, hc⟩
  rw [hname, hempty]
  simp

namespace Statement

def plain : Statement → Statement
  | assign name fields value => assign name (plainFields fields) value.plain
  | declare decl => declare decl.plain
  | jump direction target => jump direction (target.map Expr.plain)
  | instruction name args => instruction name (plainFields args)
  | flow f => flow f.plain
  | s => s

/-- The expressions of a statement. The name that it begins with counts as the variable
or the call that it is read as. -/
def parts : Statement → List Expr
  | assign name fields value => [.var name fields, value]
  | declare decl => decl.parts
  | gcode _ args => args.getD []
  | mcode _ => []
  | jump _ target => target.toList
  | instruction name none => [.var name none]
  | instruction name (some args) => [.call name args]
  | flow f => f.parts

def Formed : Statement → Prop
  | declare decl => decl.Formed
  | gcode id args => id < 2 ^ 32 ∧ args = none
  | mcode id => id < 2 ^ 32
  | jump direction target => target = none ↔ direction = .start
  | instruction name none => IsIdentifier name ∧ 2 ≤ name.toList.length
  | flow f => f.Formed
  | _ => True

/-- The number that follows a letter, if there is one, is short enough. -/
def Fits : Statement → Prop
  | assign name none (.num n) => name.utf8ByteSize = 1 → n.Fits
  | _ => True

def Legible : Statement → Prop
  | assign name fields value => Free name ∧ (assign name fields value).Fits
  | declare decl => decl.Legible
  | instruction name _ => Free name
  | _ => True

structure Sound (s : Statement) : Prop where
  formed : s.Formed
  legible : s.Legible
  parts : ∀ e ∈ s.parts, e.Sound

theorem writes_assign {name : String} {fields : Option Slots} {value : Expr}
    (hvar : (Expr.var name fields).Sound) (hvalue : value.Sound) (hfree : Free name)
    (hfits : (assign name fields value).Fits) :
    Writes (assignText name fields value).toList
      (.assign name (plainFields fields) value.plain) := by
  have hexplicit : Writes (name ++ Expr.fieldsText fields ++ "=" ++ value.text ++ " ").toList
      (.assign name (plainFields fields) value.plain) := by
    have hsolid := (((Expr.text_solid hvalue).cons '=').append
      (Expr.fieldsText fields).toList).append name.toList
    have htext := statementText_assign hvar hvalue hfree
    rw [text_var, List.append_assoc] at htext
    have hw := writes_word hvar.self.1 .blank (by simp) hsolid htext
    simpa [lead, Ending.gap] using hw
  unfold assignText
  cases value with
  | num n =>
    simp only
    split
    · rename_i hinline
      obtain ⟨hbytes, hfields⟩ := Bool.and_eq_true_iff.mp hinline
      have hsize := of_decide_eq_true hbytes
      obtain ⟨letter, rfl, hletter⟩ := letter_of_utf8ByteSize hvar.self.1 hsize
      rw [Option.isNone_iff_eq_none] at hfields
      subst hfields
      have hsolid := (Number.denotes_text hvalue.self.2).solid.cons letter
      have hn := hvalue.self.2
      by_cases hbare : n.IsBare
      · have htext := statementText_letter hletter hn (hfits hsize) hfree .closed
          (fun _ _ hr => ⟨hr, absurd hbare⟩)
        refine ⟨_, .closed, ?_, by simp, hsolid, ⟨letter, _, rfl, hletter⟩, htext⟩
        simp [lead, Ending.gap]
      · have htext := statementText_letter hletter hn (hfits hsize) hfree .number
          (fun _ _ hr => ⟨hr.1, fun _ => hr.2⟩)
        have hplain : ¬ n.plain.IsBare := by
          rw [Number.IsBare, Number.text_plain hn]
          exact hbare
        refine ⟨_, .number, ?_, fun _ => ⟨hsize, hplain⟩, hsolid, ⟨letter, _, rfl, hletter⟩, htext⟩
        simp [lead, Ending.gap]
    · exact hexplicit
  | _ => exact hexplicit

end Statement

theorem writes_code {letter : Char} (hletter : Scan.isNameChar letter = true) {id : Nat}
    {s : Statement} (h : StatementText (codeText (String.ofList [letter]) id).toList .closed s) :
    Writes (codeText (String.ofList [letter]) id).toList s := by
  have htext : (codeText (String.ofList [letter]) id).toList =
      letter :: padded 2 (digits 10 id) := by
    simp [codeText]
  have hsolid : Solid (padded 2 (digits 10 id)) := by
    apply solid_of_forall
    · intro hnil
      exact digits_ne_nil 10 id (List.append_eq_nil_iff.mp hnil).2
    · exact fun c hc => not_white_of_digit (isDigit_mem_padded hc)
  refine ⟨_, .closed, (List.append_nil _).symm, by simp, ?_, ⟨letter, _, htext, hletter⟩, h⟩
  rw [htext]
  exact hsolid.cons letter

theorem writes_jump {direction : JumpDirection} {target : Option Expr}
    (hf : target = none ↔ direction = .start) (hp : ∀ e ∈ target, e.Sound) :
    ∃ text, (Statement.jump direction target).text = .ok text ∧
      Writes text.toList (.jump direction (target.map Expr.plain)) := by
  obtain ⟨hw, -⟩ := jump_word direction
  cases target with
  | none =>
    obtain rfl := hf.mp rfl
    have hword := writes_word (.inl hw) .blank (by simp) (by rw [List.append_nil]; exact hw.solid)
      (by rw [List.append_nil]; exact statementText_return)
    exact ⟨_, rfl, by simpa [lead, Ending.gap] using hword⟩
  | some e =>
    have hd : direction ≠ .start := by
      intro hstart
      cases hf.mpr hstart
    have hword := writes_word (.inl hw) .blank (by simp)
      (((Expr.text_solid (hp e rfl)).cons ' ').append _) (statementText_jump hd (hp e rfl))
    exact ⟨_, rfl, by simpa [lead, Ending.gap] using hword⟩

theorem writes_statement {s : Statement} (h : s.Sound) :
    ∃ text, s.text = .ok text ∧ Writes text.toList s.plain := by
  obtain ⟨hf, hl, hp⟩ := h
  cases s with
  | assign name fields value =>
    exact ⟨_, rfl, Statement.writes_assign (hp (.var name fields) (by simp [Statement.parts]))
      (hp value (by simp [Statement.parts])) hl.1 hl.2⟩
  | declare decl => exact ⟨_, rfl, writes_declare hf hl hp⟩
  | gcode id args =>
    obtain ⟨hid, rfl⟩ := hf
    exact ⟨_, rfl, writes_code (by decide : Scan.isNameChar 'G' = true) (statementText_gcode hid)⟩
  | mcode id =>
    exact ⟨_, rfl, writes_code (by decide : Scan.isNameChar 'M' = true) (statementText_mcode hf)⟩
  | jump direction target =>
    exact writes_jump hf (fun e he => hp e (by simp [Statement.parts, Option.mem_def.mp he]))
  | instruction name args =>
    cases args with
    | none =>
      have hword := writes_word (.inl hf.1) .blank (by simp)
        (by rw [List.append_nil]; exact hf.1.solid)
        (by rw [List.append_nil]; exact statementText_instruction hf.1 hf.2 hl)
      exact ⟨_, rfl, by simpa [lead, Ending.gap, Statement.plain, plainFields] using hword⟩
    | some args =>
      have hcall := hp (.call name args) (by simp [Statement.parts])
      have hsolid := Expr.text_solid hcall
      have htext := statementText_call hcall hl
      rw [text_call] at hsolid htext
      have hword := writes_word (.inl hcall.self.1) .closed (by simp) hsolid htext
      refine ⟨_, rfl, ?_⟩
      simpa [lead, Ending.gap, Statement.plain, plainFields, inBraces, slotsText] using hword
  | flow f => exact ⟨_, rfl, writes_flow hf hp⟩

structure Cursor.Stops (c : Cursor) : Prop where
  atLineEnd : c.atLineEnd = true
  fresh : c.Fresh
  detached : c.Detached

namespace Reader

variable {c mid after : Cursor} {s : Statement} {ss : List Statement}

def remaining (ahead : List Char) : Reader (List Statement) := do
  statements {} ahead (← statement {})

theorem remaining_stop (h : c.Stops) : Reads remaining c [] c := by
  refine ⟨0, ?_⟩
  intro ahead _
  rw [remaining, run_bind, Lockstep.statement_none h.atLineEnd]
  cases ahead <;> rfl

theorem statements_more (h : Reads remaining mid ss after) :
    Reads (fun ahead => statements {} ahead (some s)) mid (s :: ss) after := by
  obtain ⟨n, hn⟩ := h
  refine ⟨n + 1, ?_⟩
  rintro (_ | ⟨x, ahead⟩) hahead
  · simp at hahead
  · have hsplit : statements {} (x :: ahead) (some s) =
        (remaining ahead >>= fun rest => pure (s :: rest)) := by
      simp only [statements, remaining, bind_assoc]
    simp only [hsplit]
    rw [run_bind, hn ahead (by simpa using hahead)]
    rfl

theorem remaining_more (h : statement {} c = .ok (some s) mid) (hr : Reads remaining mid ss after) :
    Reads remaining c (s :: ss) after := by
  obtain ⟨n, hn⟩ := statements_more (s := s) hr
  refine ⟨n, ?_⟩
  intro ahead hahead
  rw [remaining, run_bind, h]
  exact hn ahead hahead

end Reader

/-- A text is read as statements up to the end of the line. -/
def LineText (text : List Char) (s : Statement) (ss : List Statement) : Prop :=
  ∀ (line : Nat) (spaced : Bool) (rest : List Char) (stop : Cursor), Parted rest →
    Stands line rest stop → stop.Stops →
    ∃ c mid, Stands line (lead spaced ++ (text ++ rest)) c ∧
      c.held = some ⟨.identifier, s.word, spaced, line⟩ ∧ mid.Fresh ∧
      Reader.statement {} c = .ok (some s) mid ∧ Reads Reader.remaining mid ss stop

theorem numberEnds_name {c : Char} (hc : Scan.isNameChar c = true) (cs : List Char) :
    NumberEnds (c :: cs) := by
  rintro d ⟨⟩
  constructor
  · rw [Bool.eq_false_iff]
    intro hd
    rw [(Scan.ne_of_isDigit hd).2.2.2.2.1] at hc
    cases hc
  · rintro rfl
    exact absurd hc (by decide)

theorem Cursor.fresh_word {c : Cursor} {word : String} {spaced : Bool} {line : Nat}
    (h : c.held = some ⟨.identifier, word, spaced, line⟩) : c.Fresh := by
  rw [Fresh, h]
  rintro t ⟨⟩
  exact .inr (.inr rfl)

theorem Cursor.detached_word {c : Cursor} {word : String} {spaced : Bool} {line : Nat}
    (h : c.held = some ⟨.identifier, word, spaced, line⟩)
    (hs : spaced = false → sameLetters word "EX" = false) : c.Detached := by
  rw [Detached, h]
  rintro t ⟨⟩ hex
  cases spaced with
  | true => rfl
  | false => simp [Token.isKeyword, hs rfl] at hex

namespace Statement

theorem word_plain (s : Statement) : s.plain.word = s.word := by
  cases s with
  | flow f => cases f <;> rfl
  | _ => rfl

theorem endsInNumber_plain {s : Statement} (h : ∀ e ∈ s.parts, e.Sound) :
    s.plain.EndsInNumber ↔ s.EndsInNumber := by
  cases s with
  | assign name fields value =>
    cases fields with
    | some slots => rfl
    | none =>
      cases value with
      | num n =>
        have hn := (h (.num n) (by simp [parts])).self.2
        simp only [plain, plainFields, Option.map_none, Expr.plain, EndsInNumber, Number.IsBare,
          Number.text_plain hn]
      | var inner slots => cases slots <;> rfl
      | _ => rfl
  | flow f => cases f <;> rfl
  | _ => rfl

/-- The second statement does not go on as an exponent of the number that ends the first. -/
def Apart (s next : Statement) : Prop := s.EndsInNumber → sameLetters next.word "EX" = false

end Statement

theorem lineText {s : Statement} {ss : List Statement} (h : ∀ x ∈ s :: ss, x.Sound)
    (ha : (s :: ss).IsChain Statement.Apart) :
    ∃ texts text gap, (s :: ss).mapM Statement.text = .ok texts ∧
      (String.join texts).toList = text ++ lead gap ∧ Solid text ∧
      (∃ c cs, text = c :: cs ∧ Scan.isNameChar c = true) ∧
      LineText text s.plain (ss.map Statement.plain) := by
  induction ss generalizing s with
  | nil =>
    obtain ⟨written, hwritten, text, ending, htext, -, hsolid, hhead, hreads⟩ :=
      writes_statement (h s List.mem_cons_self)
    refine ⟨[written], text, ending.gap, ?_, by simpa using htext, hsolid, hhead, ?_⟩
    · simp [hwritten]
    · intro line spaced rest stop hr hs hstop
      have hallows : ending.Allows rest stop := by
        cases ending with
        | blank => exact ⟨hr, hstop.detached⟩
        | closed => exact hr.numberEnds
        | number => exact ⟨hr.numberEnds, hstop.detached⟩
      obtain ⟨c, hc, hheld, hread⟩ := hreads line spaced rest stop hallows hs hstop.fresh
      exact ⟨c, stop, hc, hheld, hstop.fresh, hread, Reader.remaining_stop hstop⟩
  | cons next ss ih =>
    obtain ⟨written, hwritten, text, ending, htext, hnumber, hsolid, hhead, hreads⟩ :=
      writes_statement (h s List.mem_cons_self)
    obtain ⟨hapart, hrest⟩ := List.isChain_cons_cons.mp ha
    obtain ⟨texts, behind, last, htexts, hjoin, hsolid', ⟨d, ds, hd, hname⟩, hline⟩ :=
      ih (fun x hx => h x (List.mem_cons_of_mem _ hx)) hrest
    refine ⟨written :: texts, text ++ (lead ending.gap ++ behind), last, ?_, ?_,
      (hsolid'.append _).append _, ?_, ?_⟩
    · rw [List.mapM_cons, hwritten, htexts]
      rfl
    · rw [String.join_cons, String.toList_append, htext, hjoin]
      simp
    · obtain ⟨c, cs, hcs, hc⟩ := hhead
      exact ⟨c, cs ++ (lead ending.gap ++ behind), by rw [hcs, List.cons_append], hc⟩
    · intro line spaced rest stop hr hs hstop
      obtain ⟨mid, mid', hmid, hheld, hfresh, hread, hremaining⟩ :=
        hline line ending.gap rest stop hr hs hstop
      rw [Statement.word_plain] at hheld
      have hends : NumberEnds (behind ++ rest) := by
        rw [hd]
        exact numberEnds_name hname _
      have hallows : ending.Allows (lead ending.gap ++ (behind ++ rest)) mid := by
        cases ending with
        | blank => exact ⟨parted_blank _, Cursor.detached_word hheld (by simp [Ending.gap])⟩
        | closed => exact hends
        | number =>
          have hparts := (h s List.mem_cons_self).parts
          have hex := hapart ((Statement.endsInNumber_plain hparts).mp (hnumber rfl))
          exact ⟨hends, Cursor.detached_word hheld (fun _ => hex)⟩
      obtain ⟨c, hc, hheld', hread'⟩ := hreads line spaced _ mid hallows hmid
        (Cursor.fresh_word hheld)
      refine ⟨c, mid, ?_, hheld', Cursor.fresh_word hheld, hread', ?_⟩
      · simpa using hc
      · exact Reader.remaining_more hread hremaining

end PartProgram
