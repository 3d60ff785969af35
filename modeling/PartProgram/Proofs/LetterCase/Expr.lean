import PartProgram.Expr.Reader
import PartProgram.Proofs.LetterCase.Reader
import PartProgram.Proofs.Rename

/-!
# Expressions in upper case

The expression that is read in a text in upper case is the one that is read in the
text itself, with its names in upper case. Readers that recurse on the characters
ahead look at their number only, and that is the same.
-/

set_option autoImplicit false

namespace PartProgram

namespace Expr

abbrev upper (e : Expr) : Expr := e.rename PartProgram.upper

abbrev upperSlots (slots : Slots) : Slots := renameSlots PartProgram.upper slots

end Expr

namespace Pending

def upper (pending : Pending) : Pending := pending.map (fun entry => (entry.1, entry.2.upper))

theorem upper_unwind (pending : Pending) (current : Expr) :
    (pending.unwind current).upper = pending.upper.unwind current.upper := by
  induction pending generalizing current with
  | nil => rfl
  | cons entry pending ih => exact ih (.bin entry.1 entry.2 current)

theorem upper_reduce (op : BinaryOp) (pending : Pending) (current : Expr) :
    pending.upper.reduce op current.upper =
      ((pending.reduce op current).1.upper, (pending.reduce op current).2.upper) := by
  induction pending generalizing current with
  | nil => rfl
  | cons entry pending ih =>
    obtain ⟨top, lhs⟩ := entry
    by_cases h : op.priority ≤ top.priority
    · have hlater := ih (.bin top lhs current)
      simp only [upper, List.map_cons, reduce, if_pos h]
      exact hlater
    · simp only [upper, List.map_cons, reduce, if_neg h]

end Pending

theorem UnaryOp.upper_apply (op : UnaryOp) (e : Expr) : (op.apply e).upper = op.apply e.upper := by
  cases e with
  | num n => cases op <;> rfl
  | var name fields => cases fields <;> cases op <;> rfl
  | _ => cases op <;> rfl

namespace Reader

variable (d : Dialect)

theorem folds_heldOperator : FoldsBy d (Option.map upper) heldOperator heldOperator := by
  apply Folds.get
  intro c
  apply Folds.pure
  have hsign : "=".toList.all (fun c => !c.isAlpha) = true := by decide
  cases h : c.held with
  | none => simp [Cursor.fold, h]
  | some t =>
    have hiff := eq_iff_of_upper t.upper_text_fold hsign
    by_cases hop : t.kind = .operator
    · have htext := t.text_fold hop rfl
      by_cases hs : t.text = "="
      · simp [Cursor.fold, h, Option.filter, hs, hiff.mpr hs]
      · have hs' : upper t.text ≠ "=" := fun heq => hs (hiff.mp (htext.trans heq))
        have hkind : t.fold.kind = .operator := hop
        simp [Cursor.fold, h, Option.filter, hs, hs', hop, hkind, htext]
    · have hkind : t.fold.kind ≠ .operator := hop
      simp [Cursor.fold, h, Option.filter, hop, hkind]

theorem folds_binaryOperator : FoldsBy d id (binaryOperator d) (binaryOperator d) := by
  apply (folds_heldOperator d).bind
  intro text
  cases text with
  | none => exact .pure rfl
  | some text =>
    have hword : BinaryOp.ofText (upper text) = BinaryOp.ofText text :=
      ofWord_congr (upper_upper text) _
    simp only [Option.map_some, hword]
    cases BinaryOp.ofText text with
    | none => exact folds_fail rfl
    | some op => exact folds_advance_pure d rfl

theorem folds_unaryOperator : FoldsBy d id (unaryOperator d) (unaryOperator d) := by
  apply (folds_heldOperator d).bind
  intro text
  cases text with
  | none => exact .pure rfl
  | some text =>
    have hword : UnaryOp.ofText (upper text) = UnaryOp.ofText text :=
      ofWord_congr (upper_upper text) _
    simp only [Option.map_some, hword]
    apply Folds.ite (eq_iff_of_upper (upper_upper text) (by decide))
    · exact folds_advance_pure d rfl
    · cases UnaryOp.ofText text with
      | none => exact folds_fail rfl
      | some op => exact folds_advance_pure d rfl

theorem folds_exponentSign : FoldsBy d id (exponentSign d) (exponentSign d) := by
  apply (folds_accept d .operator (by decide)).bind
  intro minus
  apply Folds.ite Iff.rfl
  · exact .pure rfl
  · exact (folds_accept d .operator (by decide)).bind (fun _ => .pure rfl)

theorem folds_exponent : FoldsBy d id (exponent d) (exponent d) := by
  apply (folds_exponentSign d).bind
  intro sign
  apply Folds.get
  intro c
  have hvalue : ((c.fold d).held.filter Token.isDecimal).bind (fun t => readReal t.text) =
      (c.held.filter Token.isDecimal).bind (fun t => readReal t.text) := by
    cases h : c.held with
    | none => simp [Cursor.fold, h]
    | some t =>
      by_cases hdecimal : t.isDecimal = true
      · have hkind := Token.kind_of_isDecimal hdecimal
        simp [Cursor.fold, h, Option.filter, t.isDecimal_fold, hdecimal, t.text_fold hkind rfl,
          readReal_toUpper]
      · simp [Cursor.fold, h, Option.filter, t.isDecimal_fold, hdecimal]
  rw [hvalue]
  cases (c.held.filter Token.isDecimal).bind (fun t => readReal t.text) with
  | none => exact folds_failWith (fun _ _ => rfl)
  | some value => exact folds_advance_pure d rfl

theorem folds_number {t : Token} (ht : t.kind = .number) :
    FoldsBy d id (number d t) (number d t.fold) := by
  unfold number
  rw [t.number?_fold, t.toList_fold ht rfl, List.head?_map]
  cases t.number? with
  | none => exact folds_fail rfl
  | some value =>
    cases t.text.toList.head? with
    | none => exact folds_fail rfl
    | some mark =>
      simp only [Option.map_some, contains_toUpper _ (d := '.') rfl, ofMark_toUpper]
      apply (folds_advance d).bind
      intro _
      apply Folds.get
      intro c
      apply Folds.ite
      · cases h : c.held with
        | none => simp [Cursor.fold, h]
        | some next =>
          simp only [Cursor.fold, h, Option.map_some, Option.any_some, next.isKeyword_fold]
          rfl
      · apply (folds_advance d).bind
        intro _
        exact (folds_exponent d).bind (fun _ => .pure rfl)
      · exact .pure rfl

variable {operand operand' expression expression' : Reader Expr}

theorem folds_operations (h : FoldsBy d Expr.upper operand operand') {ahead ahead' : List Char}
    (hlength : ahead'.length = ahead.length) (pending : Pending) (current : Expr) :
    FoldsBy d Expr.upper (operations d operand ahead pending current)
      (operations d operand' ahead' pending.upper current.upper) := by
  induction ahead generalizing ahead' pending current with
  | nil =>
    cases List.eq_nil_of_length_eq_zero hlength
    exact .pure (pending.upper_unwind current).symm
  | cons _ ahead ih =>
    cases ahead' with
    | nil => cases hlength
    | cons _ ahead' =>
      apply (folds_binaryOperator d).bind
      intro op
      cases op with
      | none => exact .pure (pending.upper_unwind current).symm
      | some op =>
        simp only [id_eq, Pending.upper_reduce]
        apply h.bind
        intro e
        exact ih (Nat.succ.inj hlength) ((op, _) :: _) e

theorem folds_expressionOf (h : FoldsBy d Expr.upper operand operand') {ahead ahead' : List Char}
    (hlength : ahead'.length = ahead.length) :
    FoldsBy d Expr.upper (expressionOf d operand ahead) (expressionOf d operand' ahead') :=
  h.bind (fun e => folds_operations d h hlength [] e)

theorem folds_slots (b : Braces) (h : FoldsBy d Expr.upper expression expression')
    {ahead ahead' : List Char} (hlength : ahead'.length = ahead.length) :
    FoldsBy d Expr.upperSlots (slots d b expression ahead) (slots d b expression' ahead') := by
  have hunclosed : ∀ x y, (b.unclosed x).kind = (b.unclosed y).kind := by
    cases b <;> exact fun _ _ => rfl
  have hclosing : b.closing.toList.all (fun c => !c.isAlpha) = true := by
    cases b <;> decide
  induction ahead generalizing ahead' with
  | nil =>
    cases List.eq_nil_of_length_eq_zero hlength
    exact folds_failWith hunclosed
  | cons _ ahead ih =>
    cases ahead' with
    | nil => cases hlength
    | cons _ ahead' =>
      have hrest := ih (Nat.succ.inj hlength)
      apply Folds.get
      intro c
      apply Folds.ite (by rw [c.holds_fold d _ hclosing])
      · exact folds_advance_pure d rfl
      apply Folds.ite
      · rw [c.atLineEnd_fold, c.holds_fold d _ (by decide), c.holds_fold d _ (by decide)]
      · exact folds_failWith hunclosed
      have hbehind : ∀ entry : Option Expr, FoldsBy d Expr.upperSlots
          (do
            let _ ← accept d .separator ","
            return entry :: (← slots d b expression ahead))
          (do
            let _ ← accept d .separator ","
            return entry.map Expr.upper :: (← slots d b expression' ahead')) := by
        intro entry
        apply (folds_accept d .separator (by decide)).bind
        intro _
        apply hrest.bind
        intro rest
        cases entry <;> exact .pure rfl
      apply Folds.ite (by rw [c.holds_fold d _ (by decide)])
      · exact hbehind none
      · have hentry : FoldsBy d (Option.map Expr.upper) (some <$> expression)
            (some <$> expression') := h.map (fun _ => rfl)
        exact hentry.bind hbehind

theorem folds_braced (b : Braces) (h : FoldsBy d Expr.upper expression expression')
    {ahead ahead' : List Char} (hlength : ahead'.length = ahead.length) :
    FoldsBy d Expr.upperSlots (braced d b expression ahead) (braced d b expression' ahead') :=
  (folds_advance d).bind (fun _ => folds_slots d b h hlength)

theorem folds_variableOrCall (name : String) (h : FoldsBy d Expr.upper expression expression')
    {ahead ahead' : List Char} (hlength : ahead'.length = ahead.length) :
    FoldsBy d Expr.upper (variableOrCall d name expression ahead)
      (variableOrCall d (upper name) expression' ahead') := by
  apply (folds_advance d).bind
  intro _
  apply Folds.get
  intro c
  apply Folds.ite (by rw [c.holds_fold d _ (by decide)])
  · exact (folds_braced d .round h hlength).bind (fun _ => .pure rfl)
  apply (folds_gluedDigits d name).bind
  intro name
  apply Folds.get
  intro c
  apply Folds.ite (by rw [c.holds_fold d _ (by decide)])
  · exact (folds_braced d .field h hlength).bind (fun _ => .pure rfl)
  · exact .pure rfl

theorem folds_bracket (h : FoldsBy d Expr.upper expression expression') :
    FoldsBy d Expr.upper (bracket d expression) (bracket d expression') := by
  apply (folds_advance d).bind
  intro _
  apply h.bind
  intro inner
  exact (folds_expect d .brace (by decide) (fun _ _ => rfl)).bind (fun _ => .pure rfl)

theorem folds_operandOf (h : FoldsBy d Expr.upper expression expression')
    {ahead ahead' : List Char} (hlength : ahead'.length = ahead.length) :
    FoldsBy d Expr.upper (operandOf d expression ahead) (operandOf d expression' ahead') := by
  apply (folds_expectMore d).bind
  intro _
  apply Folds.get
  intro c
  cases hheld : c.held with
  | none =>
    simp only [Cursor.fold, hheld, Option.map_none]
    exact folds_fail rfl
  | some t =>
    have hkind : t.fold.kind = t.kind := rfl
    simp only [Cursor.fold, hheld, Option.map_some, hkind]
    cases hk : t.kind with
    | number => exact (folds_number d hk).map (fun _ => rfl)
    | identifier =>
      simp only [t.text_fold hk rfl]
      exact folds_variableOrCall d t.text h hlength
    | string =>
      have htext : t.fold.text = t.text := by
        rw [Token.fold, hk, foldText, String.ofList_toList]
      simp only [htext]
      exact folds_advance_pure d rfl
    | brace =>
      apply Folds.ite (eq_iff_of_upper t.upper_text_fold (by decide))
      · exact folds_bracket d h
      · exact folds_fail rfl
    | _ => exact folds_fail rfl

theorem folds_operand {ahead ahead' : List Char} (hlength : ahead'.length = ahead.length) :
    FoldsBy d Expr.upper (Reader.operand d ahead) (Reader.operand d ahead') := by
  induction ahead generalizing ahead' with
  | nil =>
    cases List.eq_nil_of_length_eq_zero hlength
    exact folds_fail rfl
  | cons _ ahead ih =>
    cases ahead' with
    | nil => cases hlength
    | cons _ ahead' =>
      have hshorter : ahead'.length = ahead.length := Nat.succ.inj hlength
      apply (folds_unaryOperator d).bind
      intro op
      cases op with
      | some op => exact (ih hshorter).bind (fun e => .pure (op.upper_apply e).symm)
      | none =>
        exact folds_operandOf d (folds_expressionOf d (ih hshorter) hshorter) hshorter

theorem folds_expression : FoldsBy d Expr.upper (Reader.expression d) (Reader.expression d) :=
  fun c => folds_expressionOf d (folds_operand d (c.ahead_fold d)) (c.ahead_fold d) c

end Reader

end PartProgram
