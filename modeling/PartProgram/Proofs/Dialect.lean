import PartProgram.Block.Reader
import PartProgram.Proofs.Dialect.Statement

/-!
# Wider dialects

A program of a dialect is the same program in a wider one. Where the narrower dialect
stops at a field brace behind a G code, it fails later in that line: no statement begins
with a field brace and no line ends there.
-/

set_option autoImplicit false

namespace PartProgram

namespace Reader

section Blocks

variable {d d' : Dialect} (h : d.Within d')
include h

theorem accept_follows {kind : TokenKind} (hk : kind ≠ .fieldBrace) (text : String) :
    Follows (accept d kind text) (accept d' kind text) := by
  apply (extends_accept h kind text).follows
  intro c after found hc ha
  simp only [accept, run_get, hc.not_holds hk, Bool.false_eq_true, if_false] at ha
  cases ha
  rfl

omit h in
theorem blockNumber_follows (first : Option Statement) :
    Follows (blockNumber first) (blockNumber first) := by
  apply (Extends.refl _).follows
  intro c after number _ hn
  match first with
  | some (.assign name _ value) =>
    simp only [blockNumber] at hn
    split at hn
    · match value with
      | .num ⟨x, true, _⟩ =>
        dsimp only at hn
        cases hx : integral? x with
        | none =>
          rw [hx] at hn
          cases hn
        | some n =>
          rw [hx] at hn
          cases hn
          rfl
      | .num ⟨_, false, _⟩ | .str _ | .var .. | .call .. | .bracket _ | .un .. | .bin .. =>
        cases hn
    · cases hn
      rfl
  | none | some (.gcode ..) | some (.mcode _) | some (.jump ..) | some (.declare _)
  | some (.flow _) | some (.instruction ..) =>
    cases hn
    rfl

theorem labels_follow (ahead : List Char) (first : Option Statement) :
    Follows (labels d ahead first) (labels d' ahead first) := by
  induction ahead generalizing first with
  | nil => exact follows_pure ([], first)
  | cons _ ahead ih =>
    match first with
    | some (.instruction name none) =>
      apply (accept_follows h (by decide) ":").bind
      intro found
      refine Follows.ite ?_ (follows_pure _)
      apply (statement_follows h).bind
      intro next
      exact (ih next).bind (fun rest => follows_pure (name :: rest.1, rest.2))
    | none | some (.instruction _ (some _)) | some (.assign ..) | some (.declare _)
    | some (.gcode ..) | some (.mcode _) | some (.jump ..) | some (.flow _) =>
      exact follows_pure _

theorem statements_follow (ahead : List Char) (first : Option Statement) :
    Follows (statements d ahead first) (statements d' ahead first) := by
  induction ahead generalizing first with
  | nil =>
    cases first with
    | none => exact follows_pure []
    | some s => exact follows_pure [s]
  | cons _ ahead ih =>
    cases first with
    | none => exact follows_pure []
    | some s =>
      apply (statement_follows h).bind
      intro next
      exact (ih next).bind (fun rest => follows_pure (s :: rest))

theorem comment_follows : Follows (comment d) (comment d') := by
  have hextends : Extends (comment d) (comment d') := by
    apply extends_get
    intro c
    cases c.held.filter (·.kind == .comment) with
    | none => exact .refl _
    | some t => exact extends_advance_pure h (some t.text)
  apply hextends.follows
  intro c after found hc hf
  obtain ⟨t, ht, hk⟩ := hc.held
  have hnone : c.held.filter (·.kind == .comment) = none := by simp [ht, hk, Option.filter]
  simp only [comment, run_get, hnone] at hf
  cases hf
  rfl

theorem blockBody_follows (line : Nat) (number : Option Int) (ahead : List Char)
    (first : Option Statement) :
    Follows (blockBody d line number ahead first) (blockBody d' line number ahead first) := by
  apply (labels_follow h ahead first).bind
  intro found
  apply (statements_follow h ahead found.2).bind
  intro list
  exact (comment_follows h).bind (fun comment => follows_pure _)

theorem blockContent_free (line : Nat) :
    ExtendsFree (blockContent d line) (blockContent d' line) := by
  apply extendsFree_get
  intro c
  apply Follows.toExtendsFree
  apply (statement_follows h).bind
  intro first
  apply (blockNumber_follows first).bind
  intro number
  cases number with
  | none => exact blockBody_follows h line none c.ahead first
  | some number =>
    exact (statement_follows h).bind (fun first => blockBody_follows h line _ c.ahead first)

theorem extends_blockFrom (line : Nat) : Extends (blockFrom d line) (blockFrom d' line) where
  reads {c after b} hb := by
    have hend : Extends (lineEnd d) (lineEnd d') := by
      apply extends_get
      intro c
      cases c.held with
      | none => exact .refl _
      | some t => exact (extends_advance h).ite (.refl _)
    obtain ⟨b, mid, hcontent, hrest⟩ := ok_bind hb
    rcases (blockContent_free h line).same hcontent with hcontent' | hstuck
    · rw [blockFrom, run_bind, hcontent']
      exact (hend.bind (fun _ => .refl (pure b))).reads hrest
    · obtain ⟨t, ht, hk⟩ := hstuck.held
      obtain ⟨_, _, hline, -⟩ := ok_bind hrest
      simp only [lineEnd, run_get, ht, hk, reduceCtorEq, if_false] at hline
      cases hline

theorem extends_nextBlock : Extends (nextBlock d) (nextBlock d') := by
  have hheld : Extends (heldBlock d) (heldBlock d') := by
    apply extends_get
    intro c
    cases c.held with
    | none => exact .refl _
    | some t =>
      apply Extends.ite
      · exact extends_advance_pure h _
      · exact (extends_blockFrom h t.line).map some
  unfold nextBlock
  apply extends_get
  intro c
  split
  · exact (extends_advance h).bind (fun _ => hheld)
  · exact hheld

end Blocks

end Reader

namespace Program

theorem blocksFrom_within {d d' : Dialect} (h : d.Within d') (ahead : List Char) (c : Cursor)
    {blocks : List Block} (hb : blocksFrom d ahead c = .ok blocks) :
    blocksFrom d' ahead c = .ok blocks := by
  induction ahead generalizing c blocks with
  | nil => exact hb
  | cons _ ahead ih =>
    unfold blocksFrom at hb ⊢
    split at hb
    · rename_i hn
      rw [(Reader.extends_nextBlock h).reads hn]
      exact hb
    · rename_i b after hn
      rw [(Reader.extends_nextBlock h).reads hn]
      cases hrest : blocksFrom d ahead after with
      | error e =>
        rw [hrest] at hb
        cases hb
      | ok rest =>
        rw [hrest] at hb
        simp only [ih after hrest]
        exact hb
    · cases hb

/-- What is read in a dialect is read, as the same program, with any of the switches on. -/
theorem parse_switched_on (d : Dialect) (comments arguments strings : Bool) (text : String)
    (p : Program) (h : parse d text = .ok p) :
    parse (d.switchOn comments arguments strings) text = .ok p := by
  have hwithin := d.within_switchOn comments arguments strings
  unfold parse at h ⊢
  cases hb : blocksFrom d text.toList (Cursor.ofText text) with
  | error e =>
    rw [hb] at h
    cases h
  | ok blocks =>
    rw [hb] at h
    rw [blocksFrom_within hwithin _ _ hb]
    exact h

theorem parse_switched_on_fields :
    ∃ p : Program, parse { lineComments := false } "G1 Q[\x22;\x22]=R" = .ok p ∧
      p.blocks.map (·.statements.length) = [2] ∧
      parse { gcodeArguments := true, stringInstructions := true } "G1 Q[\x22;\x22]=R" = .ok p := by
  have hread : (parse { lineComments := false } "G1 Q[\x22;\x22]=R").toOption.map
      (fun p => p.blocks.map (·.statements.length)) = some [2] := by decide +kernel
  cases hp : parse { lineComments := false } "G1 Q[\x22;\x22]=R" with
  | error e =>
    rw [hp] at hread
    cases hread
  | ok p =>
    rw [hp] at hread
    exact ⟨p, rfl, Option.some.inj hread,
      parse_switched_on { lineComments := false } true true true _ p hp⟩

end Program

end PartProgram
