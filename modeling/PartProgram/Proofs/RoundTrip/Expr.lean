import PartProgram.Proofs.RoundTrip.Edge

/-!
# Reading written expressions

The text of a sound expression, with more text behind it at which an expression may
end, is read as the expression. Operators and left operands that wait are the right spine of
the tree read so far. The next operator completes exactly the operations that bind tighter, so
that the spine of a left operand is closed when its operator is read.
-/

set_option autoImplicit false

namespace PartProgram

/-- The operators on the right spine of a tree that are below those that wait, and the
last operand. -/
def hanging : Expr → Pending → Pending × Expr
  | .bin op lhs rhs, pending => hanging rhs ((op, lhs) :: pending)
  | e, pending => (pending, e)

theorem hanging_operand {e : Expr} (h : e.tightness = 11) (pending : Pending) :
    hanging e pending = (pending, e) := by
  cases e with
  | bin op lhs rhs =>
    have hlt := Expr.priority_lt op
    rw [Expr.tightness] at h
    omega
  | _ => rfl

theorem unwind_hanging (e : Expr) (pending : Pending) :
    (hanging e pending).1.unwind (hanging e pending).2 = pending.unwind e := by
  induction e, pending using hanging.induct with
  | case1 op lhs rhs pending ih => exact ih
  | case2 e pending h =>
    cases e with
    | bin op lhs rhs => exact absurd rfl (h op lhs rhs)
    | _ => rfl

theorem reduce_hanging {e : Expr} (hr : e.Ranked) {op : BinaryOp} (h : op.priority ≤ e.tightness)
    (pending : Pending) :
    (hanging e pending).1.reduce op (hanging e pending).2 = pending.reduce op e := by
  induction e, pending using hanging.induct with
  | case1 op' lhs rhs pending ih =>
    have hlt := (Expr.inOrder_bin.mp hr.self).2
    rw [Expr.tightness] at h
    rw [hanging, ih hr.rhs (by omega), Pending.reduce, if_pos h]
  | case2 e pending hne => rw [hanging_operand (Expr.tightness_eq_iff.mpr hne)]

theorem reduce_waiting {pending : Pending} {op : BinaryOp}
    (h : ∀ top ∈ pending.head?, top.1.priority < op.priority) (e : Expr) :
    pending.reduce op e = (pending, e) := by
  cases pending with
  | nil => rfl
  | cons top pending =>
    have hlt := h top rfl
    rw [Pending.reduce, if_neg (by omega)]

/-- The operands and operators of a tree are read. What waits for the tree binds less tight
than its outermost operation. -/
def ReadsSpine (c : Cursor) (e : Expr) (after : Cursor) : Prop :=
  ∃ n k, ∀ (ahead more : List Char) (pending : Pending), n ≤ ahead.length → k ≤ more.length →
    (∀ top ∈ pending.head?, top.1.priority < e.tightness) →
    (Reader.operand {} ahead >>= Reader.operations {} (Reader.operand {} ahead) more pending) c =
      Reader.operations {} (Reader.operand {} ahead) (more.drop k) (hanging e pending).1
        (hanging e pending).2 after

theorem readsSpine_operand {c after : Cursor} {e : Expr} (ht : e.tightness = 11)
    (h : Reads (Reader.operand {}) c e after) : ReadsSpine c e after := by
  obtain ⟨n, hn⟩ := h
  refine ⟨n, 0, ?_⟩
  intro ahead more pending hahead _ _
  rw [Reader.run_bind, hn ahead hahead, hanging_operand ht]
  rfl

theorem readsSpine_bin {c mid right after : Cursor} {t : Token} {op : BinaryOp} {lhs rhs : Expr}
    (hranked : (Expr.bin op lhs rhs).Ranked) (hl : ReadsSpine c lhs mid) (hm : mid.held = some t)
    (hk : t.kind = .operator) (ht : t.text ≠ "=") (hop : BinaryOp.ofText t.text = some op)
    (ha : Reader.advance {} mid = .ok () right) (hr : ReadsSpine right rhs after) :
    ReadsSpine c (.bin op lhs rhs) after := by
  obtain ⟨nl, kl, hreadl⟩ := hl
  obtain ⟨nr, kr, hreadr⟩ := hr
  obtain ⟨hle, hlt⟩ := Expr.inOrder_bin.mp hranked.self
  refine ⟨max nl nr, kl + (1 + kr), ?_⟩
  intro ahead more pending hahead hmore hpending
  rw [Expr.tightness] at hpending
  have hreduce : (hanging lhs pending).1.reduce op (hanging lhs pending).2 = (pending, lhs) := by
    rw [reduce_hanging hranked.lhs hle, reduce_waiting hpending]
  rw [hreadl ahead more pending (by omega) (by omega)
    (fun top htop => Nat.lt_of_lt_of_le (hpending top htop) hle)]
  obtain ⟨x, rest, hdrop⟩ : ∃ x rest, more.drop kl = x :: rest := by
    apply List.exists_cons_of_ne_nil
    intro hnil
    have := congrArg List.length hnil
    simp at this
    omega
  have hlen : kr ≤ rest.length := by
    have := congrArg List.length hdrop
    simp only [List.length_drop, List.length_cons] at this
    omega
  have hrest : more.drop (kl + (1 + kr)) = rest.drop kr := by
    rw [← List.drop_drop, hdrop, ← List.drop_drop]
    rfl
  rw [hdrop, Reader.operations_operator hm hk ht hop ha, hreduce,
    hreadr ahead rest _ (by omega) hlen (by rintro top ⟨⟩; exact hlt), hrest]
  rfl

theorem ReadsSpine.reads {c after : Cursor} {e : Expr} (h : ReadsSpine c e after)
    (hend : ∀ t ∈ after.held, t.kind = .operator → t.text = "=") :
    Reads Reader.nested c e after := by
  obtain ⟨n, k, hread⟩ := h
  refine ⟨max n k, ?_⟩
  intro ahead hahead
  have hspine := hread ahead ahead [] (by omega) (by omega) (by simp)
  rw [Reader.nested, Reader.expressionOf, hspine, Reader.operations_end hend, unwind_hanging]
  rfl

def SpineText (text : List Char) (e : Expr) : Prop :=
  ∀ (line : Nat) (spaced : Bool) (rest : List Char) (after : Cursor), Parted rest →
    Stands line rest after → after.EndsOperand →
    ∃ c t, Stands line (lead spaced ++ (text ++ rest)) c ∧ c.held = some t ∧ t.Opens ∧
      ReadsSpine c e after

theorem spineText_operand {text : List Char} {e : Expr} (ht : e.tightness = 11)
    (h : OperandText text e) : SpineText text e := by
  intro line spaced rest after hr hs he
  obtain ⟨c, t, hc, hheld, hopens, hread⟩ := h line spaced rest after hr hs he
  exact ⟨c, t, hc, hheld, hopens, readsSpine_operand ht hread⟩

theorem expressionText_spine {text : List Char} {e : Expr} (h : SpineText text e) :
    ExpressionText text e := by
  intro line spaced rest after hr hs he
  obtain ⟨c, t, hc, hheld, hopens, hread⟩ := h line spaced rest after hr hs he.1
  exact ⟨c, t, hc, hheld, hopens, hread.reads he.2⟩

theorem parted_symbol {op : BinaryOp} (h : op.isNamed = false) (rest : List Char) :
    Parted (op.symbol.toList ++ rest) := by
  cases op with
  | mul | div | add | sub | concat | eq | ne | gt | lt | ge | le =>
    exact parted_cons (by decide) (by decide) (by decide)
  | intDiv | mod | bitAnd | bitXor | bitOr | and | xor | or => exact absurd h (by decide)

theorem spineText_bin {op : BinaryOp} {lhs rhs : Expr} (hs : (Expr.bin op lhs rhs).Sound)
    (hlhs : SpineText lhs.text.toList lhs.plain) (hrhs : SpineText rhs.text.toList rhs.plain) :
    SpineText (Expr.bin op lhs rhs).text.toList (Expr.bin op lhs rhs).plain := by
  intro line spaced rest after hr hstands he
  obtain ⟨before, behind, htext, hnamed, hcollide⟩ := binaryText_eq op lhs.text rhs.text
  -- From the right: the second operand, the operator, the first operand.
  obtain ⟨right, -, hright, -, -, hreadr⟩ := hrhs line behind rest after hr hstands he
  have hoperator : Stands line (lead before ++ (op.symbol.toList ++
      (lead behind ++ (rhs.text.toList ++ rest))))
      ⟨lead behind ++ (rhs.text.toList ++ rest), line,
        some ⟨.operator, op.symbol, before, line⟩⟩ := by
    apply stands_binary
    · intro hn
      rw [(hnamed hn).2]
      exact parted_blank _
    · intro a ha b hb
      cases behind with
      | true =>
        cases hb
        simp [Scan.joins]
      | false =>
        obtain ⟨c, cs, hcs, -⟩ := Expr.text_head hs.rhs
        have hjoin := hcollide rfl
        rw [collide, Option.mem_def.mp ha, hcs] at hjoin
        rw [hcs] at hb
        cases hb
        exact hjoin
  have hparted : Parted (lead before ++ (op.symbol.toList ++
      (lead behind ++ (rhs.text.toList ++ rest)))) := by
    cases before with
    | true => exact parted_blank _
    | false =>
      apply parted_symbol
      rw [Bool.eq_false_iff]
      intro hn
      cases (hnamed hn).1
  obtain ⟨c, t, hc, hheld, hopens, hreadl⟩ := hlhs line spaced _ _ hparted hoperator (by
    rintro t ⟨⟩
    simp [Token.is, Token.isKeyword])
  refine ⟨c, t, ?_, hheld, hopens, ?_⟩
  · rw [Expr.text, htext]
    simpa only [List.append_assoc] using hc
  · have hof : BinaryOp.ofText op.symbol = some op := by cases op <;> decide
    have hne : op.symbol ≠ "=" := by cases op <;> decide
    exact readsSpine_bin (Expr.ranked_plain hs.ranked) hreadl rfl rfl hne hof (hright.advance _)
      hreadr

/-- The text of a sound tree is read as its operands and operators. -/
theorem spineText {e : Expr} (hs : e.Sound) :
    (e.tightness = 11 → OperandText e.text.toList e.plain) ∧ SpineText e.text.toList e.plain := by
  have of : ∀ {e : Expr}, e.tightness = 11 → OperandText e.text.toList e.plain →
      (e.tightness = 11 → OperandText e.text.toList e.plain) ∧ SpineText e.text.toList e.plain := by
    intro e ht h
    exact ⟨fun _ => h, spineText_operand ((Expr.tightness_plain e).trans ht) h⟩
  induction e using Expr.induction with
  | num n => exact of rfl (operandText_num hs.self.2)
  | str s => exact of rfl (operandText_str hs.self.1)
  | var name fields ih =>
    apply of rfl
    intro line spaced rest after hr hstands he
    have hfields : ∀ slots ∈ fields, ∀ e, some e ∈ slots →
        ExpressionText e.text.toList e.plain := by
      rintro slots hslots e he
      cases hslots
      exact expressionText_spine (ih slots rfl e he (hs.fields e he)).2
    obtain ⟨c, hc, hheld, hread⟩ := reads_var hs.self.1 hs.self.2.1 hfields line spaced
      hr hstands he.endsName
    rw [plain_var]
    exact ⟨c, _, hc, hheld, .inr (.inl rfl), hread⟩
  | call name args ih =>
    apply of rfl
    intro line spaced rest after hr hstands he
    have hargs : ∀ e, some e ∈ args → ExpressionText e.text.toList e.plain :=
      fun e he => expressionText_spine (ih e he (hs.args e he)).2
    obtain ⟨c, hc, hheld, hread⟩ := reads_call hs.self.1 hargs line spaced hstands
    exact ⟨c, _, hc, hheld, .inr (.inl rfl), hread⟩
  | bin op lhs rhs ihl ihr =>
    refine ⟨?_, spineText_bin hs (ihl hs.lhs).2 (ihr hs.rhs).2⟩
    intro ht
    have hlt := Expr.priority_lt op
    rw [Expr.tightness] at ht
    omega
  | un op arg ih =>
    obtain ⟨htight, hop⟩ := hs.self.1
    exact of rfl (operandText_un ((ih hs.arg).1 htight) hop)
  | bracket inner ih =>
    have hinner := operandText_bracket (expressionText_spine (ih hs.inner).2)
    apply of rfl
    simpa [Expr.text, Expr.plain] using hinner

theorem expressionText {e : Expr} (hs : e.Sound) : ExpressionText e.text.toList e.plain :=
  expressionText_spine (spineText hs).2

end PartProgram
