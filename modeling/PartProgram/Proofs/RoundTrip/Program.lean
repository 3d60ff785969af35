import PartProgram.Proofs.Lines.Block
import PartProgram.Proofs.RoundTrip.Block

/-!
# Reading written programs

Every written block is read again as the block that stands on its line. What is read has
the same text as the program, and is equal to it where the numbers are exact.
-/

set_option autoImplicit false

namespace PartProgram

section Same

variable {α : Type} [BEq α] {f : α → α}

theorem map_same {xs : List α} (h : ∀ x ∈ xs, (f x == x) = true) : (xs.map f == xs) = true := by
  induction xs with
  | nil => rfl
  | cons x xs ih =>
    rw [List.map_cons, List.cons_beq_cons, h x List.mem_cons_self,
      ih (fun y hy => h y (List.mem_cons_of_mem _ hy))]
    rfl

theorem optionMap_same {x : Option α} (h : ∀ y ∈ x, (f y == y) = true) :
    (x.map f == x) = true := by
  cases x with
  | none => rfl
  | some y =>
    rw [Option.map_some, Option.some_beq_some]
    exact h y rfl

end Same

theorem slots_same {slots : Slots} (hclosed : Slots.Closed slots)
    (h : ∀ e, some e ∈ slots → e.Exact) : (Expr.plainSlots slots == slots) = true := by
  rw [Expr.plainSlots_eq, hclosed.dropGap_eq]
  apply map_same
  intro slot hslot
  apply optionMap_same
  rintro e rfl
  exact Expr.same_plain (h e hslot)

theorem fields_same {name : String} {fields : Option Slots} (h : (Expr.var name fields).Exact) :
    (plainFields fields == fields) = true := by
  apply optionMap_same
  rintro slots rfl
  exact slots_same (h.self.2 slots rfl) h.fields

theorem fieldsText_plain {name : String} {fields : Option Slots}
    (h : (Expr.var name fields).Sound) :
    Expr.fieldsText (plainFields fields) = Expr.fieldsText fields := by
  cases fields with
  | none => rfl
  | some slots =>
    exact Expr.inBraces_plain (h.self.2.2 slots rfl)
      (fun e he => Expr.text_plain (h.fields e he)) "[" "]"

namespace Flow

theorem same_plain {f : Flow} (h : ∀ e ∈ f.parts, e.Exact) : (f.plain == f) = true := by
  cases f with
  | ifThen e => exact Expr.same_plain (h e (by simp [parts]))
  | whileDo e => exact Expr.same_plain (h e (by simp [parts]))
  | untilTrue e => exact Expr.same_plain (h e (by simp [parts]))
  | forTo counter initial last =>
    have hc : (counter.plain == counter) = true := Expr.same_plain (h counter (by simp [parts]))
    have hi : (initial.plain == initial) = true := Expr.same_plain (h initial (by simp [parts]))
    have hl : (last.plain == last) = true := Expr.same_plain (h last (by simp [parts]))
    have hparts : (forTo counter.plain initial.plain last.plain == forTo counter initial last) =
      (counter.plain == counter && (initial.plain == initial && last.plain == last)) := rfl
    rw [plain, hparts, hc, hi, hl]
    rfl
  | _ => rfl

theorem text_plain {f : Flow} (h : ∀ e ∈ f.parts, e.Sound) : f.plain.text = f.text := by
  have hparts : ∀ e ∈ f.parts, e.plain.text = e.text := fun e he => Expr.text_plain (h e he)
  cases f with
  | ifThen e | whileDo e | untilTrue e =>
    simp only [plain, text, keyword, hparts e (by simp [parts])]
  | forTo counter initial last =>
    simp only [plain, text, hparts counter (by simp [parts]), hparts initial (by simp [parts]),
      hparts last (by simp [parts])]
  | _ => rfl

end Flow

namespace DeclaredVariable

theorem same_plain {v : DeclaredVariable} (h : ∀ e ∈ v.parts, e.Exact) : (v.plain == v) = true := by
  have hi : (v.initial.map Expr.plain == v.initial) = true := by
    apply optionMap_same
    intro e he
    exact Expr.same_plain (h e (by simp [parts, Option.mem_def.mp he]))
  show instBEqDeclaredVariable.beq _ _ = true
  simp [instBEqDeclaredVariable.beq, plain, hi]

theorem text_plain {v : DeclaredVariable} (h : ∀ e ∈ v.parts, e.Sound) : v.plain.text = v.text := by
  obtain ⟨name, dimensions, initial⟩ := v
  cases initial with
  | none => rfl
  | some e => simp only [plain, text, Option.map_some, Expr.text_plain (h e (by simp [parts]))]

end DeclaredVariable

namespace Declaration

theorem same_plain {decl : Declaration} (hl : decl.Legible) (h : ∀ e ∈ decl.parts, e.Exact) :
    (decl.plain == decl) = true := by
  have hfinite {x : Option Float} (hx : ∀ y ∈ x, y.isFinite = true) : (x == x) = true := by
    cases x with
    | none => rfl
    | some y => exact Double.beq_self (hx y rfl)
  have hd : (decl.declared.map DeclaredVariable.plain == decl.declared) = true := by
    apply map_same
    intro v hv
    apply DeclaredVariable.same_plain
    intro e he
    exact h e (List.mem_flatMap.mpr ⟨v, hv, he⟩)
  show instBEqDeclaration.beq _ _ = true
  simp [instBEqDeclaration.beq, plain, hd, hfinite hl.2.1, hfinite hl.2.2]

theorem text_plain {decl : Declaration} (h : ∀ e ∈ decl.parts, e.Sound) :
    decl.plain.text = decl.text := by
  have hd : decl.plain.declared.map DeclaredVariable.text =
      decl.declared.map DeclaredVariable.text := by
    rw [plain, List.map_map]
    apply List.map_congr_left
    intro v hv
    apply DeclaredVariable.text_plain
    intro e he
    exact h e (List.mem_flatMap.mpr ⟨v, hv, he⟩)
  rw [text, text, hd]
  rfl

end Declaration

namespace Statement

theorem same_plain {s : Statement} (h : s.Sound) (hx : ∀ e ∈ s.parts, e.Exact) :
    (s.plain == s) = true := by
  obtain ⟨hf, hl, -⟩ := h
  show instBEqStatement.beq _ _ = true
  cases s with
  | assign name fields value =>
    have hfields := fields_same (hx (.var name fields) (by simp [parts]))
    have hvalue : (value.plain == value) = true := Expr.same_plain (hx value (by simp [parts]))
    simp [instBEqStatement.beq, plain, hfields, hvalue]
  | declare decl => exact Declaration.same_plain hl hx
  | gcode id args =>
    obtain ⟨-, rfl⟩ := hf
    simp [instBEqStatement.beq, plain]
  | mcode id => simp [instBEqStatement.beq, plain]
  | jump direction target =>
    have ht : (target.map Expr.plain == target) = true := by
      apply optionMap_same
      intro e he
      exact Expr.same_plain (hx e (by simp [parts, Option.mem_def.mp he]))
    simp [instBEqStatement.beq, plain, ht]
  | instruction name args =>
    cases args with
    | none => simp [instBEqStatement.beq, plain, plainFields]
    | some args =>
      have hcall := hx (.call name args) (by simp [parts])
      have hargs := slots_same (hcall.self.2 args rfl) hcall.args
      simp [instBEqStatement.beq, plain, plainFields, hargs]
  | flow f => exact Flow.same_plain hx

theorem assignText_plain {name : String} {fields : Option Slots} {value : Expr}
    (hvar : (Expr.var name fields).Sound) (hvalue : value.Sound) :
    assignText name (plainFields fields) value.plain = assignText name fields value := by
  have hfields := fieldsText_plain hvar
  have htext := Expr.text_plain hvalue
  cases value with
  | num n =>
    have hnone : (plainFields fields).isNone = fields.isNone := by cases fields <;> rfl
    have hn := Number.text_plain hvalue.self.2
    simp only [Expr.plain, assignText, hnone, hn, hfields, Expr.text]
  | var inner slots =>
    rw [plain_var] at htext ⊢
    simp only [assignText, hfields, htext]
  | _ =>
    simp only [Expr.plain] at htext
    simp only [Expr.plain, assignText, hfields, htext]

theorem text_plain {s : Statement} (h : ∀ e ∈ s.parts, e.Sound) : s.plain.text = s.text := by
  cases s with
  | assign name fields value =>
    simp only [plain, text, assignText_plain (h (.var name fields) (by simp [parts]))
      (h value (by simp [parts]))]
  | declare decl => simp only [plain, text, Declaration.text_plain h]
  | gcode id args => rfl
  | mcode id => rfl
  | jump direction target =>
    cases target with
    | none => rfl
    | some e => simp only [plain, text, Option.map_some, Expr.text_plain (h e (by simp [parts]))]
  | instruction name args =>
    cases args with
    | none => rfl
    | some args =>
      have hcall := h (.call name args) (by simp [parts])
      have hslots := Expr.inBraces_plain hcall.self.2
        (fun e he => Expr.text_plain (hcall.args e he)) "(" ")"
      simp only [plain, plainFields, Option.map_some, text, hslots]
  | flow f => simp only [plain, text, Flow.text_plain h]

end Statement

namespace Block

/-- The blocks that are equal to the one that their text denotes. -/
structure Exact (b : Block) : Prop where
  parts : ∀ s ∈ b.statements, ∀ e ∈ s.parts, e.Exact
  trimmed : ∀ text ∈ b.comment, ∀ c ∈ text.toList.getLast?, isWhiteSpace c = false

theorem same_plain {b : Block} (h : b.Sound) (hx : b.Exact) : (b.plain == b) = true := by
  have hs : (b.statements.map Statement.plain == b.statements) = true :=
    map_same (fun s hs => Statement.same_plain (h.statements s hs) (hx.parts s hs))
  have hc : b.comment.map trimEnd = b.comment := by
    cases hcomment : b.comment with
    | none => rfl
    | some text => rw [Option.map_some, trimEnd_eq_self (hx.trimmed text hcomment)]
  show instBEqBlock.beq _ _ = true
  simp [instBEqBlock.beq, plain, hs, hc]

theorem mapM_text_plain {ss : List Statement} (h : ∀ s ∈ ss, ∀ e ∈ s.parts, e.Sound) :
    (ss.map Statement.plain).mapM Statement.text = ss.mapM Statement.text := by
  induction ss with
  | nil => rfl
  | cons s ss ih =>
    rw [List.map_cons, List.mapM_cons, List.mapM_cons,
      Statement.text_plain (h s List.mem_cons_self),
      ih (fun x hx => h x (List.mem_cons_of_mem _ hx))]

theorem text_plain {b : Block} (h : b.Sound) : b.plain.text = b.text := by
  obtain ⟨texts, -, -, htexts, -⟩ := bodyText h.labels h.statements h.apart
  have hplain := mapM_text_plain (fun s hs => (h.statements s hs).parts)
  obtain ⟨line, hline, hchars⟩ := text_trimmed htexts
  obtain ⟨line', hline', hchars'⟩ := text_trimmed (b := b.plain) (hplain.trans htexts)
  rw [hline, hline']
  congr 1
  cases hcomment : b.comment with
  | none =>
    have hnone : b.plain.comment = none := by rw [plain, hcomment, Option.map_none]
    rw [hcomment] at hchars
    rw [hnone] at hchars'
    exact congrArg trimEnd (String.toList_inj.mp (hchars'.trans hchars.symm))
  | some text =>
    have hsome : b.plain.comment = some (trimEnd text) := by rw [plain, hcomment, Option.map_some]
    rw [hcomment, ← List.append_assoc] at hchars
    rw [hsome, ← List.append_assoc] at hchars'
    rw [← String.toList_inj, trimEnd_behind hchars (by decide), trimEnd_behind hchars' (by decide),
      trimEnd_trimEnd]
    rfl

/-- A block without a character of its own. -/
def Blank (b : Block) : Prop := b = { line := b.line }

theorem plain_ne_blank {b : Block} (h : ¬ b.Blank) : b.plain ≠ { line := b.line } := by
  intro heq
  apply h
  obtain ⟨line, number, labels, statements, comment⟩ := b
  simpa [plain, Blank] using heq

end Block

namespace Program

def plain (p : Program) : Program := ⟨p.blocks.map Block.plain⟩

theorem same_plain {p : Program} (h : ∀ b ∈ p.blocks, b.Sound) (hx : ∀ b ∈ p.blocks, b.Exact) :
    (p.plain == p) = true :=
  map_same (fun b hb => Block.same_plain (h b hb) (hx b hb))

theorem text_plain {p : Program} (h : ∀ b ∈ p.blocks, b.Sound) (separator : String) :
    p.plain.text separator = p.text separator := by
  obtain ⟨blocks⟩ := p
  have hlines : (blocks.map Block.plain).mapM Block.text = blocks.mapM Block.text := by
    induction blocks with
    | nil => rfl
    | cons b blocks ih =>
      rw [List.map_cons, List.mapM_cons, List.mapM_cons, Block.text_plain (h b List.mem_cons_self),
        ih (fun x hx => h x (List.mem_cons_of_mem _ hx))]
  rw [text, text, lines, lines, plain, hlines]

def ended (lines : List String) : List Char := lines.flatMap (fun l => l.toList ++ ['\n'])

theorem intercalate_lines (lines : List String) (last : String) :
    ("\n".intercalate (lines ++ [last])).toList = ended lines ++ last.toList := by
  induction lines with
  | nil => simp [ended]
  | cons line lines ih =>
    obtain ⟨next, rest, hnext⟩ := List.exists_cons_of_ne_nil (List.concat_ne_nil last lines)
    rw [List.cons_append, hnext, String.intercalate_cons_cons, ← hnext, String.toList_append, ih]
    simp [ended]

theorem blocksAt_content {line : Nat} {text rest : List Char} {c : Cursor} {b : Block}
    (hc : Stands line (text ++ '\n' :: rest) c)
    (hb : Reader.blockContent {} line c = .ok b (Cursor.atBreak line rest)) :
    blocksAt {} line (text ++ '\n' :: rest) = (b :: ·) <$> blocksAt {} (line + 1) rest := by
  have hnext := Reader.nextBlock_content hc hb
  have hlength : rest.length < (text ++ '\n' :: rest).length := by simp; omega
  generalize text ++ '\n' :: rest = cs at hnext hlength
  cases cs with
  | nil => simp at hlength
  | cons x xs =>
    have hrest : rest.length ≤ xs.length := Nat.lt_succ_iff.mp hlength
    have hend := blocksFrom_lineEnd {} (line + 1) ⟨.newLine, "\n", false, line⟩ b hrest
    rw [← hend, blocksAt, blocksFrom, hnext]
    rfl

theorem blocksAt_written {blocks : List Block} (h : ∀ b ∈ blocks, b.Sound) (line : Nat)
    (hline : ∀ (i : Nat) (hi : i < blocks.length), blocks[i].line = line + i) :
    ∃ lines, blocks.mapM Block.text = .ok lines ∧ lines.length = blocks.length ∧
      ∀ rest, blocksAt {} line (ended lines ++ rest) =
        (blocks.map Block.plain ++ ·) <$> blocksAt {} (line + blocks.length) rest := by
  induction blocks generalizing line with
  | nil =>
    refine ⟨[], rfl, rfl, ?_⟩
    intro rest
    show blocksAt {} line rest = id <$> blocksAt {} line rest
    rw [id_map]
  | cons b blocks ih =>
    obtain ⟨text, htext, hreads⟩ := Block.reads_content (h b List.mem_cons_self)
    obtain ⟨lines, hlines, hlength, hrest⟩ := ih (fun x hx => h x (List.mem_cons_of_mem _ hx))
      (line + 1) (by
        intro i hi
        have hnext := hline (i + 1) (by simpa using hi)
        simpa [Nat.add_assoc, Nat.add_comm 1 i] using hnext)
    have hb : b.line = line := hline 0 (by simp)
    refine ⟨text :: lines, ?_, by simp [hlength], ?_⟩
    · rw [List.mapM_cons, htext, hlines]
      rfl
    · intro rest
      obtain ⟨c, hc, hcontent⟩ := hreads _ _ (LineRest.broken (ended lines ++ rest))
      rw [hb] at hc hcontent
      have hchars : ended (text :: lines) ++ rest =
          text.toList ++ '\n' :: (ended lines ++ rest) := by
        simp [ended]
      rw [hchars, blocksAt_content hc hcontent, hrest, List.length_cons, Nat.add_assoc,
        Nat.add_comm 1]
      cases blocksAt {} (line + (blocks.length + 1)) rest <;> rfl

/-- The last block of a text needs no line end, unless it is blank. -/
theorem blocksAt_last {b : Block} (h : b.Sound) (hne : ¬ b.Blank) :
    ∃ text, b.text = .ok text ∧ blocksAt {} b.line text.toList = .ok [b.plain] := by
  obtain ⟨text, htext, hreads⟩ := Block.reads_content h
  obtain ⟨c, hc, hcontent⟩ := hreads _ _ LineRest.ended
  rw [List.append_nil] at hc
  have hnext := Reader.nextBlock_final hc hcontent (Block.plain_ne_blank hne)
  exact ⟨text, htext, blocksAt_of_last hnext rfl⟩

theorem parse_written {p : Program} (h : ∀ b ∈ p.blocks, b.Sound) (hne : p.blocks ≠ [])
    (hline : ∀ (i : Nat) (hi : i < p.blocks.length), p.blocks[i].line = 1 + i) :
    ∃ out, p.text "\n" = .ok out ∧ parse {} (out ++ "\n") = .ok p.plain := by
  obtain ⟨lines, hlines, hlength, hread⟩ := blocksAt_written h 1 hline
  have hsome : lines ≠ [] := by
    rintro rfl
    exact hne (List.length_eq_zero_iff.mp hlength.symm)
  refine ⟨"\n".intercalate lines, ?_, ?_⟩
  · rw [text, Program.lines, hlines]
    rfl
  · have hchars : ("\n".intercalate lines ++ "\n").toList = ended lines ++ [] := by
      rw [← List.dropLast_append_getLast hsome, String.toList_append, intercalate_lines]
      simp [ended]
    rw [parse_eq, hchars, hread]
    exact congrArg (fun blocks => Except.ok (Program.mk blocks)) (List.append_nil _)

/-- A written program whose last block is not blank is read again. -/
theorem parse_written_end {p : Program} (h : ∀ b ∈ p.blocks, b.Sound)
    (hline : ∀ (i : Nat) (hi : i < p.blocks.length), p.blocks[i].line = 1 + i)
    {init : List Block} {last : Block} (hblocks : p.blocks = init ++ [last])
    (hlast : ¬ last.Blank) :
    ∃ out, p.text "\n" = .ok out ∧ parse {} out = .ok p.plain := by
  obtain ⟨blocks⟩ := p
  subst hblocks
  obtain ⟨lines, hlines, -, hread⟩ := blocksAt_written
    (fun b hb => h b (List.mem_append_left _ hb)) 1 (fun i hi => by
      have := hline i (by simp; omega)
      rwa [List.getElem_append_left hi] at this)
  obtain ⟨text, htext, hend⟩ := blocksAt_last (h last (by simp)) hlast
  have hlastLine : last.line = 1 + init.length := by
    have := hline init.length (by simp)
    simpa using this
  refine ⟨"\n".intercalate (lines ++ [text]), ?_, ?_⟩
  · rw [Program.text, Program.lines, List.mapM_append, hlines, List.mapM_cons, htext]
    rfl
  · rw [parse_eq, intercalate_lines, hread, ← hlastLine, hend]
    simp [plain]

end Program

end PartProgram
