import PartProgram.Proofs.Precedence

/-!
# An operand in front of a tree

What stands behind a sign is regrouped by the operand in front of it: the operand goes below
all operations that bind no tighter than the sign. The letter of an address word is a side of
the outermost operation only if there is none of them.
-/

set_option autoImplicit false

namespace PartProgram

namespace Expr

def outerOperators : Expr → List BinaryOp
  | bin op lhs rhs => op :: (lhs.outerOperators ++ rhs.outerOperators)
  | un _ arg => arg.outerOperators
  | _ => []

variable {op : BinaryOp} {lhs e : Expr}

theorem tightness_le_priority (h : e.Ranked) (hop : op ∈ e.outerOperators) :
    e.tightness ≤ op.priority := by
  induction e using Expr.induction with
  | bin top a b iha ihb =>
    obtain ⟨hleft, hright⟩ := inOrder_bin.mp h.self
    rw [outerOperators, List.mem_cons, List.mem_append] at hop
    rcases hop with rfl | hop | hop
    · exact Nat.le_refl _
    · exact hleft.trans (iha h.lhs hop)
    · exact hright.le.trans (ihb h.rhs hop)
  | un top arg ih =>
    have htight := inOrder_un.mp h.self
    have hle := ih h.arg hop
    rwa [htight] at hle
  | _ => cases hop

theorem outerOperators_tight_iff (h : e.Ranked) {n : Nat} (hn : n ≤ 11) :
    (∀ op ∈ e.outerOperators, n ≤ op.priority) ↔ n ≤ e.tightness := by
  constructor
  · intro hall
    cases e with
    | bin op a b => exact hall op List.mem_cons_self
    | _ => exact hn
  · exact fun hle op hop => hle.trans (tightness_le_priority h hop)

/-- An operand and an operator in front of a tree. They go to the left below the operations that
bind no tighter than the operator. -/
def preceded (op : BinaryOp) (lhs : Expr) : Expr → Expr
  | bin top a b =>
    if top.priority ≤ op.priority then bin top (preceded op lhs a) b
    else bin op lhs (bin top a b)
  | e => bin op lhs e

theorem preceded_tight (h : op.priority < e.tightness) : preceded op lhs e = bin op lhs e := by
  cases e with
  | bin top a b => exact if_neg (Nat.not_le.mpr h)
  | _ => rfl

theorem exists_preceded_eq_bin (op : BinaryOp) (lhs e : Expr) :
    ∃ top a b, preceded op lhs e = bin top a b := by
  cases e with
  | bin top a b =>
    rw [preceded]
    split <;> exact ⟨_, _, _, rfl⟩
  | _ => exact ⟨_, _, _, rfl⟩

theorem tightness_preceded (op : BinaryOp) (lhs e : Expr) :
    (preceded op lhs e).tightness = min op.priority e.tightness := by
  have hlt := priority_lt op
  cases e with
  | bin top a b =>
    rw [preceded]
    split
    · rename_i hle
      exact (Nat.min_eq_right hle).symm
    · rename_i hgt
      exact (Nat.min_eq_left (Nat.le_of_not_le hgt)).symm
  | _ => exact (Nat.min_eq_left hlt.le).symm

theorem ranked_preceded (op : BinaryOp) (hl : lhs.Ranked) (ht : lhs.tightness = 11)
    (h : e.Ranked) : (preceded op lhs e).Ranked := by
  have hlt := priority_lt op
  have hside : op.priority ≤ lhs.tightness := by omega
  induction e using Expr.induction with
  | bin top a b iha ihb =>
    obtain ⟨hleft, hright⟩ := inOrder_bin.mp h.self
    rw [preceded]
    split
    · rename_i hle
      refine every_bin (inOrder_bin.mpr ⟨?_, hright⟩) (iha h.lhs) h.rhs
      rw [tightness_preceded]
      exact Nat.le_min.mpr ⟨hle, hleft⟩
    · rename_i hgt
      exact every_bin (inOrder_bin.mpr ⟨hside, Nat.lt_of_not_le hgt⟩) hl h
  | _ => exact every_bin (inOrder_bin.mpr ⟨hside, hlt⟩) hl h

end Expr

section Spells

variable {ts : List Token} {sign : Token} {op : BinaryOp} {lhs : Expr}

theorem Spells.preceded_operand (hl : Spells ts lhs (some sign)) (hop : sign.binary? = some op)
    {us : List Token} {e : Expr} {next : Option Token} (h : Spells us e next)
    (ht : e.tightness = 11) : Spells (ts ++ sign :: us) (Expr.preceded op lhs e) next := by
  rw [Expr.preceded_tight (by rw [ht]; exact Expr.priority_lt op)]
  exact .bin hl hop h

theorem Spells.preceded (hl : Spells ts lhs (some sign)) (hop : sign.binary? = some op) :
    ∀ {us : List Token} {e : Expr} {next : Option Token}, Spells us e next → e.Ranked →
      Spells (ts ++ sign :: us) (Expr.preceded op lhs e) next
  | _, _, _, .operand h, _ => hl.preceded_operand hop (.operand h) h.tightness
  | _, _, _, .plus hplus h, _ => hl.preceded_operand hop (.plus hplus h) h.tightness
  | _, _, _, .un hop' h, hr =>
    hl.preceded_operand hop (.un hop' h) (UnaryOp.tightness_apply _ (Expr.ranked_apply hr).2)
  | _, _, _, .bin h hop' h', hr => by
    rw [Expr.preceded]
    split
    · have hall := Spells.bin (Spells.preceded hl hop h hr.lhs) hop' h'
      rwa [List.append_assoc, List.cons_append] at hall
    · exact .bin hl hop (.bin h hop' h')

end Spells

/-- A text on one line and without a comment. -/
def OneLine (text : String) : Prop :=
  ∀ t ∈ (tokenize {} text).tokens, t.kind ≠ .newLine ∧ t.kind ≠ .comment

instance (text : String) : Decidable (OneLine text) :=
  inferInstanceAs (Decidable (∀ t ∈ (tokenize {} text).tokens, _))

theorem Reader.advance_cases {c mid : Cursor} (h : Reader.advance {} c = .ok () mid) :
    (Scan.next {} c.line c.unread = .finished ∧ mid = ⟨[], c.line, none⟩) ∨
      ∃ t line rest, Scan.next {} c.line c.unread = .token t line rest ∧
        mid = ⟨rest, line, some t⟩ ∧ (t.kind ≠ .newLine → line = c.line) := by
  simp only [advance] at h
  cases hnext : Scan.next {} c.line c.unread with
  | finished =>
    rw [hnext] at h
    cases h
    exact .inl ⟨rfl, rfl⟩
  | fault cause rest =>
    rw [hnext] at h
    cases h
  | token t line rest =>
    rw [hnext] at h
    cases h
    refine .inr ⟨t, line, rest, rfl, rfl, fun hk => ?_⟩
    simp only [Scan.next] at hnext
    split at hnext
    · cases hnext
    · split at hnext
      · cases hnext
      · cases hnext
        exact if_neg hk

namespace Cursor

variable {c mid after : Cursor} {ts : List Token}

theorem Steps.scanned {t : Token} (ha : Reader.advance {} c = .ok () mid)
    (hs : mid.Steps (t :: ts) after) :
    ∃ rest, Scan.next {} c.line c.unread = .token t c.line rest ∧ mid = ⟨rest, c.line, some t⟩ ∧
      mid.atLineEnd = false ∧ ∃ behind, Reader.advance {} mid = .ok () behind ∧
        behind.Steps ts after := by
  obtain ⟨hheld, hline, hbehind⟩ := hs
  rcases Reader.advance_cases ha with ⟨-, rfl⟩ | ⟨u, line, rest, hnext, rfl, hsame⟩
  · cases hheld
  · cases hheld
    have hk : t.kind ≠ .newLine := by
      rintro hk
      simp [atLineEnd, hk] at hline
    obtain rfl := hsame hk
    exact ⟨rest, hnext, rfl, hline, hbehind⟩

theorem Steps.held_mem {t : Token} (ha : Reader.advance {} c = .ok () mid) (hs : mid.Steps ts after)
    (ht : after.held = some t) {n : Nat} (hn : c.unread.length ≤ n) :
    t ∈ (Scanned.upTo {} n c.line c.unread).tokens := by
  induction ts generalizing c mid n with
  | nil =>
    cases hs
    rcases Reader.advance_cases ha with ⟨-, rfl⟩ | ⟨u, line, rest, hnext, rfl, -⟩
    · cases ht
    · cases ht
      have hless := (Scan.next_token_rest hnext).1
      obtain ⟨m, rfl⟩ : ∃ m, n = m + 1 := ⟨n - 1, by omega⟩
      simp [Scanned.upTo, hnext]
  | cons u us ih =>
    obtain ⟨rest, hnext, rfl, -, behind, hbehind, hsteps⟩ := hs.scanned ha
    have hless := (Scan.next_token_rest hnext).1
    obtain ⟨m, rfl⟩ : ∃ m, n = m + 1 := ⟨n - 1, by omega⟩
    have hmem := ih hbehind hsteps (n := m) (by simp only; omega)
    simp only [Scanned.upTo, hnext]
    exact List.mem_cons_of_mem u hmem

theorem Steps.finished (ha : Reader.advance {} c = .ok () mid) (hs : mid.Steps ts after)
    (hn : after.held = none) : after = ⟨[], c.line, none⟩ := by
  induction ts generalizing c mid with
  | nil =>
    cases hs
    rcases Reader.advance_cases ha with ⟨-, rfl⟩ | ⟨t, line, rest, -, rfl, -⟩
    · rfl
    · cases hn
  | cons u us ih =>
    obtain ⟨rest, -, rfl, -, behind, hbehind, hsteps⟩ := hs.scanned ha
    rw [ih hbehind hsteps]

end Cursor

theorem Reader.expression_below {c after : Cursor} {e : Expr}
    (h : expression {} c = .ok e after) (k : Nat) :
    expression {} (c.below k) = .ok e (after.below k) := by
  have hsame := (lockstep_below {} k).expression_within (rfl : Cursor.Below k c (c.below k))
    (Nat.le_refl _) (Nat.le_refl _)
  rw [h] at hsame
  cases hbelow : expression {} (c.below k) with
  | error err other =>
    rw [hbelow] at hsame
    exact hsame.elim
  | ok e' other =>
    rw [hbelow] at hsame
    obtain ⟨rfl, rfl, -⟩ := hsame
    rfl

theorem Expr.reads_oneLine {text : String} {e : Expr} (ho : OneLine text)
    (he : Expr.parse text = .ok e) {line : Nat} (hline : 1 ≤ line) :
    ∃ c, Stands line text.toList c ∧ Reader.expression {} c = .ok e ⟨[], line, none⟩ := by
  obtain ⟨ts, next, ⟨c, after, ha, hs, hend, rfl⟩, hspells, hranked⟩ := spells_of_parse he
  have hnone : after.held = none := by
    cases hheld : after.held with
    | none => rfl
    | some t =>
      obtain ⟨hn, hc⟩ := ho t (hs.held_mem ha hheld (Nat.le_refl _))
      simp [Cursor.atLineEnd, hheld, hn, hc] at hend
  have hread : Reader.expression {} c = .ok e after :=
    Reader.expression_of_reads ((hspells.reads hranked hs rfl).reads (by simp [hnone]))
  rw [hs.finished ha hnone] at hread
  -- The text as it is read from the first line on, moved to the line.
  obtain ⟨k, rfl⟩ : ∃ k, line = 1 + k := ⟨line - 1, by omega⟩
  refine ⟨c.below k, ?_, Reader.expression_below hread k⟩
  have hshift := advance_below {} k (Cursor.ofText text)
  rw [ha] at hshift
  exact hshift

end PartProgram
