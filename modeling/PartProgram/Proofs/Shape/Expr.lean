import PartProgram.Proofs.Shape.Yields

/-!
# The form of what is read: expressions

The trees that are read agree with the priorities of the operators. The operands that wait on
the stack are kept in the order of their priorities.
-/

set_option autoImplicit false

namespace PartProgram

namespace Expr

variable {source : List Char}

/-- What reading a text guarantees of a node. -/
def FormedIn (source : List Char) : Expr → Prop
  | var name _ => IsName name ∧ NumberedIn source name
  | e => e.Formed

theorem FormedIn.formed {e : Expr} (h : e.FormedIn source) : e.Formed := by
  cases e with
  | var name fields => exact h.1
  | _ => exact h

def Shaped (source : List Char) (e : Expr) : Prop := e.Every (FormedIn source)

def ShapedSlots (source : List Char) (slots : Slots) : Prop :=
  ∀ e, some e ∈ slots → e.Shaped source

theorem shaped_num (n : Number) : (num n).Shaped source := every_leaf rfl trivial

def IsOperand (source : List Char) (e : Expr) : Prop := e.Shaped source ∧ e.tightness = 11

theorem isOperand_apply (op : UnaryOp) {arg : Expr} (h : arg.IsOperand source) :
    (op.apply arg).IsOperand source := by
  obtain ⟨hshaped, htight⟩ := h
  unfold UnaryOp.apply
  split
  · exact ⟨shaped_num _, rfl⟩
  · rename_i hnum
    refine ⟨every_un ⟨htight, ?_⟩ hshaped, rfl⟩
    rintro rfl n rfl
    exact hnum n rfl rfl

end Expr

namespace Pending

variable {source : List Char}

/-- The operators on the stack bind less tight than the bound and, downwards, ever less;
none binds tighter than its left operand. -/
def Stacked (source : List Char) : Pending → Nat → Prop
  | [], _ => True
  | (op, lhs) :: rest, bound =>
    op.priority < bound ∧ op.priority ≤ lhs.tightness ∧ lhs.Shaped source ∧
      Stacked source rest op.priority

theorem Stacked.unwind {pending : Pending} {current : Expr}
    (h : Stacked source pending current.tightness) (hc : current.Shaped source) :
    (unwind pending current).Shaped source := by
  induction pending generalizing current with
  | nil => exact hc
  | cons entry rest ih =>
    obtain ⟨op, lhs⟩ := entry
    obtain ⟨htop, hlhs, hshaped, hrest⟩ := h
    exact ih hrest (Expr.every_bin ⟨hlhs, htop⟩ hshaped hc)

theorem Stacked.reduce {pending : Pending} {current : Expr} {op : BinaryOp}
    (h : Stacked source pending current.tightness) (hc : current.Shaped source)
    (hop : op.priority ≤ current.tightness) :
    Stacked source (reduce op pending current).1 op.priority ∧
      (reduce op pending current).2.Shaped source ∧
      op.priority ≤ (reduce op pending current).2.tightness := by
  induction pending generalizing current with
  | nil => exact ⟨trivial, hc, hop⟩
  | cons entry rest ih =>
    obtain ⟨top, lhs⟩ := entry
    obtain ⟨htop, hlhs, hshaped, hrest⟩ := h
    rw [Pending.reduce]
    split
    · rename_i hle
      exact ih hrest (Expr.every_bin ⟨hlhs, htop⟩ hshaped hc) hle
    · rename_i hlt
      exact ⟨⟨by omega, hlhs, hshaped, hrest⟩, hc, hop⟩

end Pending

namespace Reader

open PartProgram.Expr (Shaped ShapedSlots IsOperand)

variable {d : Dialect} {source : List Char} {operand expression : Reader Expr}

theorem yields_operations (h : Yields source operand (IsOperand source)) (ahead : List Char) :
    ∀ (pending : Pending) (current : Expr), pending.Stacked source 11 → current.IsOperand source →
      Yields source (operations d operand ahead pending current) (Shaped source) := by
  induction ahead with
  | nil =>
    intro pending current hp hc
    rw [operations]
    exact yields_pure (Pending.Stacked.unwind (by rwa [hc.2]) hc.1)
  | cons x ahead ih =>
    intro pending current hp hc
    rw [operations]
    apply yields_binaryOperator.bind
    intro found _
    have hstacked : pending.Stacked source current.tightness := by rwa [hc.2]
    cases found with
    | none => exact yields_pure (hstacked.unwind hc.1)
    | some op =>
      have hlt := Expr.priority_lt op
      have htight : op.priority ≤ current.tightness := by
        rw [hc.2]
        omega
      obtain ⟨hw, hl, hop⟩ := hstacked.reduce hc.1 htight
      exact h.bind (fun e he => ih _ e ⟨hlt, hop, hl, hw⟩ he)

theorem yields_expressionOf (h : Yields source operand (IsOperand source)) (ahead : List Char) :
    Yields source (expressionOf d operand ahead) (Shaped source) :=
  h.bind (fun e he => yields_operations h ahead [] e trivial he)

theorem yields_slots (b : Braces) (h : Yields source expression (Shaped source))
    (ahead : List Char) :
    Yields source (slots d b expression ahead) (ShapedSlots source) := by
  induction ahead with
  | nil => exact yields_failWith _
  | cons x ahead ih =>
    have hmore (entry : Option Expr) (he : ∀ e ∈ entry, Shaped source e) :
        Yields source (do
          let _ ← accept d .separator ","
          return entry :: (← slots d b expression ahead)) (ShapedSlots source) := by
      apply (yields_accept _ _).bind
      intro _ _
      apply ih.bind
      intro rest hrest
      apply yields_pure
      intro e hmem
      rcases List.mem_cons.mp hmem with rfl | hmem
      · exact he e rfl
      · exact hrest e hmem
    rw [slots]
    apply yields_get
    intro c hc
    split
    · refine yields_advance.bind (fun _ _ => yields_pure ?_) c hc
      intro e he
      cases he
    split
    · exact yields_failWith _ c hc
    split
    · exact (yields_pure (P := fun entry => ∀ e ∈ entry, Shaped source e) (by simp)).bind hmore c hc
    · exact (h.map (by simp)).bind hmore c hc

theorem yields_variableOrCall {name : String} (hn : IsIdentifier name)
    (h : Yields source expression (Shaped source)) (ahead : List Char) :
    Yields source (variableOrCall d name expression ahead) (IsOperand source) := by
  have hbraced (b : Braces) : Yields source (braced d b expression ahead) (ShapedSlots source) :=
    yields_advance.bind (fun _ _ => yields_slots b h ahead)
  apply yields_advance.bind
  intro _ _
  apply yields_get
  intro c hc
  split
  · exact (hbraced .round).bind (fun args ha => yields_pure ⟨Expr.every_call hn ha, rfl⟩) c hc
  · refine (yields_gluedDigits hn).bind ?_ c hc
    intro glued hg
    apply yields_get
    intro c hc
    split
    · refine (hbraced .field).bind (fun slots hs => yields_pure ⟨Expr.every_var hg ?_, rfl⟩) c hc
      rintro _ ⟨⟩
      exact hs
    · exact yields_pure ⟨Expr.every_var hg (by simp), rfl⟩ c hc

theorem yields_operandOf (h : Yields source expression (Shaped source)) (ahead : List Char) :
    Yields source (operandOf d expression ahead) (IsOperand source) := by
  apply yields_expectMore.bind
  intro _ _
  apply yields_get
  intro c hc
  cases hheld : c.held with
  | none => exact yields_fail _ c hc
  | some t =>
    have ht := hc.held t hheld
    simp only
    split
    · exact (yields_number t).map (fun n _ => ⟨Expr.shaped_num n, rfl⟩) c hc
    · exact yields_variableOrCall (ht.name ‹_›) h ahead c hc
    · refine yields_advance.bind (fun _ _ => yields_pure ⟨Expr.every_leaf rfl ?_, rfl⟩) c hc
      exact ht.string ‹_›
    · split
      · refine yields_advance.bind (fun _ _ => h.bind (fun inner hi => ?_)) c hc
        exact (yields_expect _ _ _).bind
          (fun _ _ => yields_pure ⟨Expr.every_bracket trivial hi, rfl⟩)
      · exact yields_fail _ c hc
    · exact yields_fail _ c hc

theorem yields_operand (ahead : List Char) :
    Yields source (Reader.operand d ahead) (IsOperand source) := by
  induction ahead with
  | nil => exact yields_fail _
  | cons x ahead ih =>
    rw [Reader.operand]
    apply yields_unaryOperator.bind
    intro found _
    cases found with
    | none => exact yields_operandOf (yields_expressionOf ih ahead) ahead
    | some op => exact ih.bind (fun arg ha => yields_pure (Expr.isOperand_apply op ha))

theorem yields_expression : Yields source (Reader.expression d) (Shaped source) :=
  fun c hc => yields_expressionOf (yields_operand c.ahead) c.ahead c hc

end Reader

end PartProgram
