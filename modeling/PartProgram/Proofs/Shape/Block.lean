import PartProgram.Proofs.Lines
import PartProgram.Proofs.Shape.Statement

/-!
# The form of what is read: blocks and programs

Labels are names of two letters at least. In the narrowest dialect no G code has arguments
and no string stands for a name.
-/

set_option autoImplicit false

namespace PartProgram

namespace Reader

open PartProgram.Expr (Shaped ShapedSlots IsOperand)

variable {d : Dialect} {source : List Char}

theorem yields_blockNumber (first : Option Statement) :
    Yields source (blockNumber first) (fun number => (∀ n ∈ number, ∃ x, integral? x = some n) ∧
      (number = none → ∀ s ∈ first, ¬ s.IsNumber)) := by
  unfold blockNumber
  split
  · rename_i name fields value
    split
    · split
      · split
        · rename_i x _ _ n hn
          exact yields_pure ⟨by simpa using ⟨x, hn⟩, by simp⟩
        · exact yields_fail _
      · exact yields_fail _
    · rename_i hname
      refine yields_pure ⟨by simp, ?_⟩
      rintro _ _ ⟨⟩
      exact hname
  · rename_i hassign
    refine yields_pure ⟨by simp, ?_⟩
    rintro _ s ⟨⟩ hs
    cases s with
    | assign name fields value => exact hassign name fields value rfl
    | _ => exact hs

theorem yields_labels (ahead : List Char) {first : Option Statement}
    (h : ∀ s ∈ first, s.Shaped d source) :
    Yields source (labels d ahead first) (fun found => (∀ name ∈ found.1, d.IsBareWord name) ∧
      (found.1 = [] → found.2 = first) ∧ ∀ s ∈ found.2, s.Shaped d source) := by
  induction ahead generalizing first with
  | nil => exact yields_pure ⟨by simp, fun _ => rfl, h⟩
  | cons x ahead ih =>
    unfold labels
    split
    · rename_i name heq
      cases heq
      have hlabel : d.IsBareWord name := (h _ rfl).1
      apply (yields_accept _ _).bind
      intro colon _
      split
      · apply yields_statement.bind
        intro next hnext
        apply (ih hnext).bind
        rintro ⟨names, found⟩ ⟨hnames, -, hfound⟩
        exact yields_pure ⟨by simpa using ⟨hlabel, hnames⟩, by simp, hfound⟩
      · exact yields_pure ⟨by simp, fun _ => rfl, h⟩
    · exact yields_pure ⟨by simp, fun _ => rfl, h⟩

theorem yields_statements (ahead : List Char) {first : Option Statement}
    (h : ∀ s ∈ first, s.Shaped d source) :
    Yields source (statements d ahead first)
      (fun list => list.head? = first ∧ ∀ s ∈ list, s.Shaped d source) := by
  induction ahead generalizing first with
  | nil =>
    cases first with
    | none => exact yields_pure (by simp)
    | some s => exact yields_pure ⟨rfl, by simpa using h⟩
  | cons x ahead ih =>
    cases first with
    | none => exact yields_pure (by simp)
    | some s =>
      apply yields_statement.bind
      intro next hnext
      apply (ih hnext).bind
      rintro list ⟨-, hlist⟩
      exact yields_pure ⟨rfl, by simpa using ⟨h s rfl, hlist⟩⟩

theorem yields_comment :
    Yields source (comment d)
      (fun found => ∀ text ∈ found, ∀ c ∈ text.toList, isLineEnd c = false) := by
  apply yields_get
  intro c hc
  split
  · rename_i t ht
    obtain ⟨hheld, hk⟩ := Option.filter_eq_some_iff.mp ht
    have hcomment := (hc.held t hheld).comment (by simpa using hk)
    exact yields_advance.bind (fun _ _ => yields_pure (by simpa using hcomment)) c hc
  · exact yields_pure (by simp) c hc

end Reader

structure Block.Shaped (d : Dialect) (source : List Char) (b : Block) : Prop where
  number : ∀ n ∈ b.number, ∃ x, integral? x = some n
  labels : ∀ name ∈ b.labels, d.IsBareWord name
  first : b.number = none → b.labels = [] → ∀ s ∈ b.statements.head?, ¬ s.IsNumber
  statements : ∀ s ∈ b.statements, s.Shaped d source
  unbroken : ∀ text ∈ b.comment, ∀ c ∈ text.toList, isLineEnd c = false

section Shaped

variable {d : Dialect} {source : List Char}

theorem Block.shaped_empty (line : Nat) : Block.Shaped d source { line } :=
  ⟨by simp, by simp, by simp, by simp, by simp⟩

theorem Dialect.isBareWord_default {name : String} (h : ({} : Dialect).IsBareWord name) :
    IsLabel name := by
  rcases h with h | ⟨⟨⟩, -⟩
  exact h

/-- Without arguments of G codes and strings for names a statement has the narrower form. -/
theorem Statement.Shaped.formed {s : Statement} (h : s.Shaped {} source) : s.Formed := by
  obtain ⟨hformed, -⟩ := h
  cases s with
  | gcode id args =>
    refine ⟨hformed.1, ?_⟩
    cases args with
    | none => rfl
    | some list => exact absurd (hformed.2 list rfl).1 (by simp)
  | instruction name args =>
    cases args with
    | none => exact Dialect.isBareWord_default hformed
    | some slots => trivial
  | _ => exact hformed

theorem Statement.Shaped.parts {s : Statement} (h : s.Shaped {} source) :
    ∀ e ∈ s.parts, e.Every Expr.Formed := by
  have hexpressions (e : Expr) (he : e ∈ s.expressions) : e.Every Expr.Formed :=
    fun node hnode => (h.2 e he node hnode).formed
  cases s with
  | instruction name args =>
    cases args with
    | none =>
      have hlabel : IsLabel name := h.formed
      simp only [Statement.parts, List.mem_singleton]
      rintro e rfl
      exact Expr.every_var (.inl hlabel.1) (by simp)
    | some slots => exact hexpressions
  | _ => exact hexpressions

end Shaped

namespace Reader

variable {d : Dialect} {source : List Char}

theorem yields_blockBody (line : Nat) {number : Option Int} (ahead : List Char)
    {first : Option Statement} (hn : ∀ n ∈ number, ∃ x, integral? x = some n)
    (hfirst : ∀ s ∈ first, s.Shaped d source) (hnone : number = none → ∀ s ∈ first, ¬ s.IsNumber) :
    Yields source (blockBody d line number ahead first) (Block.Shaped d source) := by
  apply (yields_labels ahead hfirst).bind
  rintro ⟨names, found⟩ ⟨hnames, hsame, hfound⟩
  apply (yields_statements ahead hfound).bind
  rintro list ⟨hhead, hlist⟩
  apply yields_comment.bind
  intro comment hcomment
  apply yields_pure
  refine ⟨hn, hnames, ?_, hlist, hcomment⟩
  intro hnumber hlabels
  have hfirst : list.head? = first := hhead.trans (hsame hlabels)
  rw [hfirst]
  exact hnone hnumber

theorem yields_blockContent (line : Nat) :
    Yields source (blockContent d line) (Block.Shaped d source) := by
  apply yields_get
  intro c hc
  refine yields_statement.bind (fun first hfirst => ?_) c hc
  apply (yields_blockNumber first).bind
  rintro number ⟨hnumber, hnone⟩
  cases number with
  | none => exact yields_blockBody line _ (by simp) hfirst hnone
  | some n =>
    apply yields_statement.bind
    intro second hsecond
    exact yields_blockBody line _ hnumber hsecond (by simp)

theorem yields_lineEnd : Yields source (lineEnd d) (fun _ => True) := by
  apply yields_get
  intro c hc
  split
  · exact yields_pure trivial c hc
  · split
    · exact yields_advance c hc
    · exact yields_failWith _ c hc

theorem yields_nextBlock :
    Yields source (nextBlock d) (fun found => ∀ b ∈ found, b.Shaped d source) := by
  have hheld : Yields source (heldBlock d) (fun found => ∀ b ∈ found, b.Shaped d source) := by
    apply yields_get
    intro c hc
    split
    · exact yields_pure (by simp) c hc
    · split
      · exact yields_advance.bind
          (fun _ _ => yields_pure (by simpa using Block.shaped_empty _)) c hc
      · refine Yields.map (P := Block.Shaped d source) ?_ (by simp) c hc
        apply (yields_blockContent _).bind
        intro b hb
        exact yields_lineEnd.bind (fun _ _ => yields_pure hb)
  apply yields_get
  intro c hc
  split
  · exact yields_advance.bind (fun _ _ => hheld) c hc
  · exact hheld c hc

end Reader

namespace Program

variable {d : Dialect} {source : List Char}

theorem blocksFrom_shaped (ahead : List Char) {c : Cursor} (hc : c.Proper source)
    {blocks : List Block} (h : blocksFrom d ahead c = .ok blocks) :
    ∀ b ∈ blocks, b.Shaped d source := by
  induction ahead generalizing c blocks with
  | nil =>
    cases h
    simp
  | cons x ahead ih =>
    rw [blocksFrom] at h
    cases hn : Reader.nextBlock d c with
    | error err after => simp [hn] at h
    | ok found after =>
      obtain ⟨hfound, hafter⟩ := Reader.yields_nextBlock c hc found after hn
      cases found with
      | none =>
        rw [hn] at h
        cases h
        simp
      | some b =>
        simp only [hn] at h
        cases hrest : blocksFrom d ahead after with
        | error err => simp [hrest] at h
        | ok rest =>
          rw [hrest] at h
          cases h
          simpa using ⟨hfound b rfl, ih hafter hrest⟩

/-- A program that is read has blocks of the form that reading gives them. -/
theorem parse_shaped {text : String} {p : Program} (h : parse d text = .ok p) :
    ∀ b ∈ p.blocks, b.Shaped d text.toList :=
  blocksFrom_shaped text.toList (Cursor.proper_ofText text) (parse_ok_iff.mp h)

end Program

end PartProgram
