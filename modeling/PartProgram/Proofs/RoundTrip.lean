import PartProgram.Proofs.RoundTrip.Program
import PartProgram.Proofs.Shape.Block

/-!
# Reading what was written

An expression whose nodes are sound is read from its text again. A program that was read is
written, and its text is read again as an equal program, or at least as one with the same
text. What a program needs for this besides the form that reading gives it is stated on its
nodes, its statements and its words.
-/

set_option autoImplicit false

namespace PartProgram

namespace Expr

theorem parse_sound {e : Expr} (h : e.Sound) : parse e.text = .ok e.plain := by
  obtain ⟨c, t, hc, -, -, hread⟩ := expressionText h 1 false [] ⟨[], 1, none⟩ parted_nil rfl
    ⟨by rintro t ⟨⟩, by rintro t ⟨⟩⟩
  have hstart : Reader.advance {} (Cursor.ofText e.text) = .ok () c := by
    rw [List.append_nil] at hc
    exact hc.close.advance none
  simp only [parse, Reader.wholeExpression]
  rw [Reader.run_bind, hstart]
  simp only
  rw [Reader.run_bind, Reader.expression_of_reads hread]
  rfl

/-- An expression is read from its text, except that a zero loses its sign. -/
theorem parse_text {e : Expr} (hs : e.Sound) (hx : e.Exact) :
    ∃ found, parse e.text = .ok found ∧ found.same e = true :=
  ⟨e.plain, parse_sound hs, same_plain hx⟩

def product : Expr :=
  .bin .mul (.un .negate (.var "R1" (some [none, some (.int (-2))])))
    (.call "ATAN" [some (.str "a;b"), none, some (.var "X" none)])

theorem exact_int : Number.Exact ⟨realOfInt (-2), true, .decimal⟩ := by
  refine ⟨by decide +kernel, ?_⟩
  rw [if_pos rfl]
  decide +kernel

theorem exact_five : Number.Exact ⟨realOfInt 5, true, .decimal⟩ := by
  refine ⟨by decide +kernel, ?_⟩
  rw [if_pos rfl]
  decide +kernel

theorem product_sound : product.Sound := by
  have hatan : IsIdentifier "ATAN" := by decide
  have hx : IsIdentifier "X" := by decide
  refine every_bin ⟨⟨by decide, by decide⟩, trivial⟩ (every_un ⟨⟨rfl, by simp⟩, trivial⟩ ?_) ?_
  · refine every_var ⟨.inr ⟨'R', '1', [], rfl, by decide, by decide⟩, ?_,
      by simp [Slots.Stable, Slots.Closed]⟩ ?_
    · rintro _ _ _ ⟨⟩ _ c ⟨⟩
    · rintro _ ⟨⟩ e he
      obtain rfl : e = .int (-2) := by simpa using he
      exact every_leaf rfl ⟨trivial, exact_int.1⟩
  · refine every_call ⟨hatan, by simp [Legible, Slots.Stable, Slots.Closed]⟩ ?_
    intro e he
    have hcases : e = .str "a;b" ∨ e = .var "X" none := by simpa using he
    rcases hcases with rfl | rfl
    · exact every_leaf rfl ⟨by simp [Formed, isLineEnd], trivial⟩
    · exact every_leaf rfl ⟨.inl hx, hx.digitsOnly, by simp⟩

theorem product_exact : product.Exact := by
  intro node hn
  constructor
  · rintro n rfl
    obtain rfl : n = ⟨realOfInt (-2), true, .decimal⟩ := by
      simpa [product, nodes, slotNodes, int] using hn
    exact exact_int
  · simp only [product, nodes, slotNodes, int, List.cons_append, List.nil_append,
      List.append_nil, List.mem_cons, List.not_mem_nil, or_false] at hn
    rcases hn with rfl | rfl | rfl | rfl | rfl | rfl | rfl <;>
      simp [list?, Slots.Closed]

theorem parse_text_product :
    product.Sound ∧ product.Exact ∧ product.text = "-R1[,-2]*ATAN(\x22a;b\x22,,X)" ∧
      ∃ found, parse product.text = .ok found ∧ found.same product = true :=
  ⟨product_sound, product_exact, by decide +kernel, parse_text product_sound product_exact⟩

end Expr

def Statement.name? : Statement → Option String
  | assign name _ _ => some name
  | instruction name _ => some name
  | _ => none

namespace Program

def statements (p : Program) : List Statement := p.blocks.flatMap Block.statements

def nodes (p : Program) : List Expr :=
  p.statements.flatMap (fun s => s.parts.flatMap Expr.nodes)

variable {p : Program} {text : String}

/-- What a program needs, besides the form that reading gives it, so that its text is read
again. -/
structure Legible (p : Program) : Prop where
  nodes : ∀ e ∈ p.nodes, e.Legible
  statements : ∀ s ∈ p.statements, s.Legible
  labels : ∀ b ∈ p.blocks, ∀ name ∈ b.labels, Free name
  apart : ∀ b ∈ p.blocks, b.statements.IsChain Statement.Apart
  detached : ∀ b ∈ p.blocks, ∀ n ∈ b.number, n < 0 →
    ∀ word ∈ b.words.head?, sameLetters word "EX" = false

theorem mem_statements {b : Block} {s : Statement} (hb : b ∈ p.blocks) (hs : s ∈ b.statements) :
    s ∈ p.statements := List.mem_flatMap.mpr ⟨b, hb, hs⟩

theorem mem_nodes {s : Statement} {e node : Expr} (hs : s ∈ p.statements) (he : e ∈ s.parts)
    (hn : node ∈ e.nodes) : node ∈ p.nodes :=
  List.mem_flatMap.mpr ⟨s, hs, List.mem_flatMap.mpr ⟨e, he, hn⟩⟩

theorem sound_blocks (h : parse {} text = .ok p) (hl : p.Legible) : ∀ b ∈ p.blocks, b.Sound := by
  intro b hb
  have hshaped := parse_shaped h b hb
  have hlabels (name : String) (hn : name ∈ b.labels) : IsLabel name :=
    Dialect.isBareWord_default (hshaped.labels name hn)
  refine ⟨hshaped.number, fun name hn => ⟨hlabels name hn, hl.labels b hb name hn⟩,
    hshaped.first, ?_, hl.apart b hb, hl.detached b hb, hshaped.unbroken⟩
  intro s hs
  have hstatement := hshaped.statements s hs
  have hmem := mem_statements hb hs
  refine ⟨hstatement.formed, hl.statements s hmem, ?_⟩
  intro e he node hn
  exact ⟨hstatement.parts e he node hn, hl.nodes node (mem_nodes hmem he hn)⟩

/-- The programs that are equal to what is read from their text, so far as it is read:
exact numbers, limits that have a text, lists that end in an entry, trimmed comments, and no
word `EX` where a statement or a label begins. -/
structure Regular (p : Program) : Prop where
  numbers : ∀ n, .num n ∈ p.nodes → n.Exact
  limits : ∀ decl, .declare decl ∈ p.statements → decl.Legible
  lists : ∀ e ∈ p.nodes, ∀ slots ∈ e.list?, Slots.Closed slots
  comments : ∀ b ∈ p.blocks, ∀ comment ∈ b.comment,
    ∀ c ∈ comment.toList.getLast?, isWhiteSpace c = false
  words : ∀ b ∈ p.blocks, ∀ word ∈ b.words, sameLetters word "EX" = false

/-- The names of a program are written as they were read: behind the letter of a variable
stand digits, and no assignment, instruction or label begins with a reserved word. -/
structure Spelled (p : Program) : Prop where
  names : ∀ name fields, .var name fields ∈ p.nodes → DigitsOnly name
  statements : ∀ s ∈ p.statements, ∀ name ∈ s.name?, Free name
  labels : ∀ b ∈ p.blocks, ∀ name ∈ b.labels, Free name

theorem Regular.fits (h : p.Regular) {s : Statement} (hs : s ∈ p.statements) : s.Fits := by
  unfold Statement.Fits
  split
  · rename_i name n
    intro _ hi _
    obtain ⟨-, hkind⟩ := h.numbers n (mem_nodes hs (e := .num n) (by simp [Statement.parts])
      (Expr.self_mem_nodes _))
    rw [if_pos hi, Option.isSome_iff_exists] at hkind
    obtain ⟨k, hk⟩ := hkind
    exact Double.abs_lt_of_integral hk
  · trivial

theorem Regular.legible (h : p.Regular) (hs : p.Spelled) : p.Legible := by
  refine ⟨?_, ?_, hs.labels, ?_, ?_⟩
  · intro e he
    cases e with
    | num n => exact (h.numbers n he).1
    | var name fields =>
      exact ⟨hs.names name fields he, fun slots hf => .inl (h.lists _ he slots hf)⟩
    | call name args => exact .inl (h.lists _ he args rfl)
    | _ => trivial
  · intro s hmem
    cases s with
    | assign name fields value => exact ⟨hs.statements _ hmem name rfl, h.fits hmem⟩
    | declare decl => exact h.limits decl hmem
    | instruction name args => exact hs.statements _ hmem name rfl
    | _ => trivial
  · intro b hb
    apply List.Pairwise.isChain
    apply List.pairwise_of_forall_mem_list
    intro s _ next hnext _
    exact h.words b hb next.word (List.mem_append_right _ (List.mem_map_of_mem hnext))
  · intro b hb _ _ _ word hw
    exact h.words b hb word (List.mem_of_mem_head? hw)

theorem Regular.exact (h : p.Regular) : ∀ b ∈ p.blocks, b.Exact := by
  intro b hb
  refine ⟨?_, h.comments b hb⟩
  intro s hs e he node hn
  have hmem := mem_nodes (mem_statements hb hs) he hn
  constructor
  · rintro n rfl
    exact h.numbers n hmem
  · exact h.lists node hmem

theorem parse_single {c : Cursor} {s : Statement} (hc : Stands 1 text.toList c)
    (hs : Reader.statement {} c = .ok (some s) ⟨[], 1, none⟩) (hn : ¬ s.IsNumber) :
    parse {} text = .ok ⟨[{ line := 1, statements := [s] }]⟩ := by
  have hends : LineRest 1 [] ⟨[], 1, none⟩ := .ended
  have hbody : ReadsBody (some s) ⟨[], 1, none⟩ [] [s] ⟨[], 1, none⟩ :=
    ⟨some s, _, Reader.labels_none rfl, Reader.statements_more (Reader.remaining_stop hends.stops)⟩
  have hnumber : Reader.blockNumber (some s) ⟨[], 1, none⟩ = .ok none ⟨[], 1, none⟩ :=
    blockNumber_none (by rintro t ⟨⟩; exact hn) _
  have hcontent := Reader.blockContent_plain hs hnumber
    (Reader.blockBody_reads hbody hends.comment_none 1 none)
  rw [parse_ok_iff]
  exact blocksAt_of_last (Reader.nextBlock_final hc hcontent (by simp)) rfl

/-- The text of a program that was read, with a line end behind it, is read as an equal
program. -/
theorem same_parse_text (h : parse {} text = .ok p) (hne : p.blocks ≠ []) (hr : p.Regular)
    (hs : p.Spelled) :
    ∃ out found, p.text "\n" = .ok out ∧ parse {} (out ++ "\n") = .ok found ∧
      (found == p) = true := by
  have hsound := sound_blocks h (hr.legible hs)
  obtain ⟨out, hout, hread⟩ := parse_written hsound hne (blocksAt_lines {} _ 1 (parse_ok_iff.mp h))
  exact ⟨out, p.plain, hout, hread, same_plain hsound hr.exact⟩

def approach : Program := ⟨[
  { line := 1, number := some 10, labels := ["AGAIN"],
    statements := [.gcode 1 none, .assign "Q" none Expr.product],
    comment := some " on the way" },
  { line := 2,
    statements := [.assign "X" none (.int 5), .jump .backward (some (.var "AGAIN" none))] }]⟩

def approachText : String :=
  "N10AGAIN:G01Q=-R1[,-2]*ATAN(\x22a;b\x22,,X) ; on the way\nX5GOTOB AGAIN"

theorem approach_statements : approach.statements =
    [.gcode 1 none, .assign "Q" none Expr.product, .assign "X" none (.int 5),
      .jump .backward (some (.var "AGAIN" none))] := rfl

theorem approach_part {s : Statement} (hs : s ∈ approach.statements) {e : Expr}
    (he : e ∈ s.parts) : e.Sound ∧ e.Exact := by
  have hname (name : String) (h : IsIdentifier name) :
      (Expr.var name none).Sound ∧ (Expr.var name none).Exact :=
    ⟨Expr.every_leaf rfl ⟨.inl h, h.digitsOnly, by simp⟩,
      Expr.every_leaf rfl ⟨by simp, by simp [Expr.list?]⟩⟩
  have hparts : approach.statements.flatMap Statement.parts =
      [.var "Q" none, Expr.product, .var "X" none, .int 5, .var "AGAIN" none] := rfl
  have hmem := List.mem_flatMap.mpr ⟨s, hs, he⟩
  simp only [hparts, List.mem_cons, List.not_mem_nil, or_false] at hmem
  rcases hmem with rfl | rfl | rfl | rfl | rfl
  · exact hname "Q" (by decide)
  · exact ⟨Expr.product_sound, Expr.product_exact⟩
  · exact hname "X" (by decide)
  · refine ⟨Expr.every_leaf rfl ⟨trivial, Expr.exact_five.1⟩,
      Expr.every_leaf rfl ⟨?_, by rintro _ ⟨⟩⟩⟩
    rintro n ⟨⟩
    exact Expr.exact_five
  · exact hname "AGAIN" (by decide)

theorem approach_node {node : Expr} (h : node ∈ approach.nodes) :
    (node.Formed ∧ node.Legible) ∧
      (∀ n, node = .num n → n.Exact) ∧ ∀ slots ∈ node.list?, Slots.Closed slots := by
  obtain ⟨s, hs, h⟩ := List.mem_flatMap.mp h
  obtain ⟨e, he, h⟩ := List.mem_flatMap.mp h
  obtain ⟨hsound, hexact⟩ := approach_part hs he
  exact ⟨hsound node h, hexact node h⟩

theorem approach_sound : ∀ b ∈ approach.blocks, b.Sound := by
  have hfive : (Statement.assign "X" none (.int 5)).Fits :=
    fun _ _ _ => by decide +kernel
  have hstatement : ∀ s ∈ approach.statements, s.Sound := by
    intro s hs
    have hparts : ∀ e ∈ s.parts, e.Sound := fun e he => (approach_part hs he).1
    simp only [approach_statements, List.mem_cons, List.not_mem_nil, or_false] at hs
    rcases hs with rfl | rfl | rfl | rfl
    · exact ⟨by simp [Statement.Formed], trivial, hparts⟩
    · exact ⟨trivial, ⟨by decide, trivial⟩, hparts⟩
    · exact ⟨trivial, ⟨by decide, hfive⟩, hparts⟩
    · exact ⟨by simp [Statement.Formed], trivial, hparts⟩
  intro b hb
  have hstatements : ∀ s ∈ b.statements, s.Sound := fun s hs => hstatement s (mem_statements hb hs)
  simp only [approach, List.mem_cons, List.not_mem_nil, or_false] at hb
  rcases hb with rfl | rfl
  · refine ⟨?_, by simp; decide, by simp, hstatements, ?_, by simp, by simp [isLineEnd]⟩
    · rintro _ ⟨⟩
      exact ⟨realOfInt 10, by decide +kernel⟩
    · simp [Statement.Apart, Statement.word, leadingWord, sameLetters]
  · refine ⟨by simp, by simp, ?_, hstatements, ?_, by simp, by simp⟩
    · rintro - - s ⟨⟩
      simp [Statement.IsNumber, sameLetters]
    · simp [Statement.Apart, Statement.word, sameLetters]

theorem approach_plain : approach.plain = approach := by
  have hsign : Number.plain ⟨realOfInt (-2), true, .decimal⟩ = ⟨realOfInt (-2), true, .decimal⟩ := by
    decide +kernel
  have hfive : Number.plain ⟨realOfInt 5, true, .decimal⟩ = ⟨realOfInt 5, true, .decimal⟩ := by
    decide +kernel
  have hproduct : Expr.product.plain = Expr.product := by
    simp [Expr.product, Expr.plain, Expr.plainEach, Slots.dropGap, Expr.int, hsign]
  have htrim : trimEnd " on the way" = " on the way" := by decide
  simp [approach, plain, Block.plain, Statement.plain, plainFields, hproduct, Expr.plain, Expr.int,
    hfive, htrim]

theorem parse_approach : parse {} approachText = .ok approach := by
  have hline : ∀ (i : Nat) (hi : i < approach.blocks.length),
      approach.blocks[i].line = 1 + i := by
    rintro (_ | _ | i) hi
    · rfl
    · rfl
    · exact absurd hi (Nat.not_lt.mpr (Nat.le_add_left 2 i))
  obtain ⟨out, hout, hread⟩ := parse_written_end approach_sound hline
    (show approach.blocks = [_] ++ [_] from rfl) (by simp [Block.Blank])
  have htext : approach.text "\n" = .ok approachText := by
    decide +kernel
  rw [htext] at hout
  cases hout
  rw [hread, approach_plain]

theorem approach_regular : approach.Regular where
  numbers n hn := (approach_node hn).2.1 n rfl
  limits decl hd := by simp [approach_statements] at hd
  lists e he := (approach_node he).2.2
  comments := by
    rintro b (_ | ⟨_, _ | ⟨_, ⟨⟩⟩⟩) comment ⟨⟩ c hc
    have hlast : " on the way".toList.getLast? = some 'y' := by decide
    cases hlast.symm.trans hc
    decide
  words := by decide

theorem approach_spelled : approach.Spelled where
  names name fields h := (approach_node h).1.2.1
  statements := by
    intro s hs name hname
    simp only [approach_statements, List.mem_cons, List.not_mem_nil, or_false] at hs
    rcases hs with rfl | rfl | rfl | rfl <;> cases hname
    · show Free "Q"
      decide
    · show Free "X"
      decide
  labels := by
    simp [approach]
    decide

theorem same_parse_text_approach :
    parse {} approachText = .ok approach ∧ approach.blocks ≠ [] ∧ approach.Regular ∧
      approach.Spelled ∧
      ∃ out found, approach.text "\n" = .ok out ∧ parse {} (out ++ "\n") = .ok found ∧
        (found == approach) = true :=
  have hne : approach.blocks ≠ [] := by simp [approach]
  ⟨parse_approach, hne, approach_regular, approach_spelled,
    same_parse_text parse_approach hne approach_regular approach_spelled⟩

def letterAssignment : Program :=
  ⟨[{ line := 1, statements := [.assign "G" none (.var "R1" none)] }]⟩

theorem letterAssignment_regular : letterAssignment.Regular := by
  refine ⟨?_, ?_, ?_, ?_, ?_⟩
  all_goals
    simp [letterAssignment, nodes, statements, Statement.parts, Expr.nodes, Expr.list?,
      Block.words, Statement.word, leadingWord, sameLetters]

theorem not_same_parse_text_letter :
    parse {} "+G=R1" = .ok letterAssignment ∧ letterAssignment.blocks ≠ [] ∧
      letterAssignment.Regular ∧ letterAssignment.text "\n" = .ok "G=R1" ∧
      parse {} ("G=R1" ++ "\n") = .error ⟨1, .expectedInteger "="⟩ := by
  have hc : Stands 1 "+G=R1".toList
      ⟨['G', '=', 'R', '1'], 1, some ⟨.operator, "+", false, 1⟩⟩ := rfl
  have hs : Reader.statement {} ⟨['G', '=', 'R', '1'], 1, some ⟨.operator, "+", false, 1⟩⟩ =
      .ok (some (.assign "G" none (.var "R1" none))) ⟨[], 1, none⟩ := rfl
  have hn : ¬ (Statement.assign "G" none (.var "R1" none)).IsNumber := by
    simp [Statement.IsNumber, sameLetters]
  exact ⟨parse_single hc hs hn, by simp [letterAssignment], letterAssignment_regular,
    by decide +kernel, rfl⟩

/-- The text of a program that was read is read as a program with this text. -/
theorem text_parse_text (h : parse {} text = .ok p) (hl : p.Legible)
    (hlast : ∀ b ∈ p.blocks.tail.getLast?, ¬ b.Blank) :
    ∃ out found, p.text "\n" = .ok out ∧ parse {} out = .ok found ∧
      found.text "\n" = .ok out := by
  have hsound := sound_blocks h hl
  have hline := blocksAt_lines {} _ 1 (parse_ok_iff.mp h)
  rcases List.eq_nil_or_concat p.blocks with hnil | ⟨init, last, hblocks⟩
  · obtain ⟨blocks⟩ := p
    subst hnil
    exact ⟨"", ⟨[]⟩, rfl, rfl, rfl⟩
  · rw [List.concat_eq_append] at hblocks
    by_cases hblank : last.Blank
    · -- Only a single block may be blank at the end; its text is read as no block at all.
      have hinit : init = [] := by
        by_contra hne
        obtain ⟨first, rest, rfl⟩ := List.exists_cons_of_ne_nil hne
        exact hlast last (by simp [hblocks]) hblank
      obtain ⟨blocks⟩ := p
      obtain ⟨line, number, labels, statements, comment⟩ := last
      cases hblank
      subst hinit hblocks
      exact ⟨"", ⟨[]⟩, rfl, rfl, rfl⟩
    · obtain ⟨out, hout, hread⟩ := parse_written_end hsound hline hblocks hblank
      exact ⟨out, p.plain, hout, hread, (text_plain hsound "\n").trans hout⟩

def gapCall : Program :=
  ⟨[{ line := 1, statements := [.instruction "CYCLE" (some [none])] }]⟩

theorem parse_gapCall : parse {} "CYCLE(,)" = .ok gapCall := by
  have hc : Stands 1 "CYCLE(,)".toList
      ⟨['(', ',', ')'], 1, some ⟨.identifier, "CYCLE", false, 1⟩⟩ := rfl
  have hs : Reader.statement {} ⟨['(', ',', ')'], 1, some ⟨.identifier, "CYCLE", false, 1⟩⟩ =
      .ok (some (.instruction "CYCLE" (some [none]))) ⟨[], 1, none⟩ := rfl
  exact parse_single hc hs (by simp [Statement.IsNumber])

theorem gapCall_legible : gapCall.Legible where
  nodes := by
    intro node hn
    obtain rfl : node = .call "CYCLE" [none] := by
      simpa [gapCall, nodes, statements, Statement.parts, Expr.nodes, Expr.slotNodes] using hn
    exact .inr rfl
  statements := by
    intro s hs
    obtain rfl : s = .instruction "CYCLE" (some [none]) := by
      simpa [gapCall, statements] using hs
    show Free "CYCLE"
    decide
  labels := by simp [gapCall]
  apart := by simp [gapCall]
  detached := by simp [gapCall]

theorem text_parse_text_approach :
    (parse {} approachText = .ok approach ∧ approach.Legible ∧
      (∀ b ∈ approach.blocks.tail.getLast?, ¬ b.Blank) ∧
      ∃ out found, approach.text "\n" = .ok out ∧ parse {} out = .ok found ∧
        found.text "\n" = .ok out) ∧
    parse {} "CYCLE(,)" = .ok gapCall ∧ gapCall.Legible ∧
      (∀ b ∈ gapCall.blocks.tail.getLast?, ¬ b.Blank) ∧
      ∃ out found, gapCall.text "\n" = .ok out ∧ parse {} out = .ok found ∧
        found.text "\n" = .ok out :=
  have hl := approach_regular.legible approach_spelled
  have hlast : ∀ b ∈ approach.blocks.tail.getLast?, ¬ b.Blank := by simp [approach, Block.Blank]
  have hsingle : ∀ b ∈ gapCall.blocks.tail.getLast?, ¬ b.Blank := by simp [gapCall]
  ⟨⟨parse_approach, hl, hlast, text_parse_text parse_approach hl hlast⟩,
    parse_gapCall, gapCall_legible, hsingle,
    text_parse_text parse_gapCall gapCall_legible hsingle⟩

/-- Behind a letter the digits are read as an integer of 64 bits, which the value of an
assignment need not fit. -/
theorem text_rejected_beyond_word :
    ∃ p, parse {} "X=99999999999999999999" = .ok p ∧
      p.text "\n" = .ok "X100000000000000000000" ∧
      ∀ found, parse {} "X100000000000000000000" ≠ .ok found := by
  have hwritten : (parse {} "X=99999999999999999999").toOption.bind
      (fun p => (p.text "\n").toOption) = some "X100000000000000000000" := by decide +kernel
  have hrejected : (parse {} "X100000000000000000000").toOption.isNone = true := by decide +kernel
  obtain ⟨p, hp, htext⟩ := Option.bind_eq_some_iff.mp hwritten
  refine ⟨p, ?_, ?_, ?_⟩
  · cases hparse : parse {} "X=99999999999999999999" with
    | error err =>
      rw [hparse] at hp
      cases hp
    | ok found =>
      rw [hparse] at hp
      cases hp
      rfl
  · cases hout : p.text "\n" with
    | error err =>
      rw [hout] at htext
      cases htext
    | ok out =>
      rw [hout] at htext
      cases htext
      rfl
  · intro found hfound
    rw [hfound] at hrejected
    cases hrejected

end Program

end PartProgram
