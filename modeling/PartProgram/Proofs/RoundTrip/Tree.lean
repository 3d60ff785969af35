import PartProgram.Proofs.RoundTrip.Number

/-!
# The nodes of an expression

A condition on expressions is mostly one on every node. Reading guarantees the form
of the nodes: what names and texts consist of, and that a tree agrees with the
priorities of its operators. The text of a tree is read back if, further, every node
is legible.
-/

set_option autoImplicit false

namespace PartProgram

/-- A name that scanning yields as one token. -/
def IsIdentifier (name : String) : Prop :=
  Scan.IsWord name.toList ∧ Scan.isOperatorName name.toList = false

instance (name : String) : Decidable (IsIdentifier name) :=
  inferInstanceAs (Decidable (Scan.IsWord name.toList ∧ Scan.isOperatorName name.toList = false))

/-- A name of a variable: one token, or a letter and the number behind it. -/
def IsName (name : String) : Prop :=
  IsIdentifier name ∨ ∃ letter digit rest, name.toList = letter :: digit :: rest ∧
    Scan.isNameChar letter = true ∧ digit.isDigit = true

/-- What follows the letter of a numbered variable are digits. -/
def DigitsOnly (name : String) : Prop :=
  ∀ letter digit rest, name.toList = letter :: digit :: rest → digit.isDigit = true →
    ∀ c ∈ rest, c.isDigit = true

def leadingWord (name : String) : String :=
  match name.toList with
  | letter :: digit :: _ => if digit.isDigit then String.ofList [letter] else name
  | _ => name

/-- A list that does not end in a gap. -/
def Slots.Closed (slots : Slots) : Prop := slots.getLast? ≠ some none

/-- A list with the text of the list that is read from this text. A list of nothing but a gap
is read as an empty one, which has the same text. -/
def Slots.Stable (slots : Slots) : Prop := Slots.Closed slots ∨ slots = [none]

/-- A list without the gap at its end, if it has one. -/
def Slots.dropGap : Slots → Slots
  | [] => []
  | [none] => []
  | slot :: rest => slot :: dropGap rest

theorem Slots.dropGap_cons (slot next : Option Expr) (slots : Slots) :
    dropGap (slot :: next :: slots) = slot :: dropGap (next :: slots) := by
  cases slot <;> rfl

theorem Slots.Closed.dropGap_eq {slots : Slots} (h : Slots.Closed slots) :
    dropGap slots = slots := by
  induction slots with
  | nil => rfl
  | cons slot slots ih =>
    cases slots with
    | nil =>
      cases slot with
      | none => exact absurd rfl h
      | some e => rfl
    | cons next slots =>
      rw [dropGap_cons, ih (by simpa [Closed, List.getLast?_cons_cons] using h)]

theorem Slots.dropGap_gap (front : Slots) : dropGap (front ++ [none]) = front := by
  induction front with
  | nil => rfl
  | cons slot front ih =>
    cases front with
    | nil => cases slot <;> rfl
    | cons next front =>
      simp only [List.cons_append] at ih ⊢
      rw [dropGap_cons, ih]

theorem Slots.mem_of_mem_dropGap {slot : Option Expr} {slots : Slots} (h : slot ∈ dropGap slots) :
    slot ∈ slots := by
  induction slots with
  | nil => exact h
  | cons first slots ih =>
    cases slots with
    | nil =>
      cases first with
      | none => cases h
      | some e => exact h
    | cons next slots =>
      rw [dropGap_cons] at h
      rcases List.mem_cons.mp h with rfl | h
      · exact List.mem_cons_self
      · exact List.mem_cons_of_mem first (ih h)

theorem Slots.dropGap_map (f : Expr → Expr) (slots : Slots) :
    dropGap (slots.map (Option.map f)) = (dropGap slots).map (Option.map f) := by
  induction slots with
  | nil => rfl
  | cons slot slots ih =>
    cases slots with
    | nil => cases slot <;> rfl
    | cons next slots =>
      simp only [List.map_cons] at ih ⊢
      rw [dropGap_cons, dropGap_cons, ih, List.map_cons]

namespace Expr

def list? : Expr → Option Slots
  | var _ fields => fields
  | call _ args => some args
  | _ => none

theorem induction {motive : Expr → Prop} (num : ∀ n, motive (.num n)) (str : ∀ s, motive (.str s))
    (var : ∀ name fields, (∀ fs ∈ fields, ∀ e, some e ∈ fs → motive e) → motive (.var name fields))
    (call : ∀ name args, (∀ e, some e ∈ args → motive e) → motive (.call name args))
    (bin : ∀ op lhs rhs, motive lhs → motive rhs → motive (.bin op lhs rhs))
    (un : ∀ op arg, motive arg → motive (.un op arg))
    (bracket : ∀ inner, motive inner → motive (.bracket inner)) (e : Expr) : motive e := by
  apply @Expr.rec motive (fun fields => ∀ fs ∈ fields, ∀ e, some e ∈ fs → motive e)
    (fun fs => ∀ e, some e ∈ fs → motive e) (fun slot => ∀ e ∈ slot, motive e) num str var call bin
    un bracket
  · intro fs hfs
    cases hfs
  · rintro fs ih _ ⟨⟩
    exact ih
  · intro e he
    cases he
  · rintro slot rest ih ihs e (_ | ⟨_, he⟩)
    · exact ih e rfl
    · exact ihs e he
  · intro e he
    cases he
  · rintro e ih _ ⟨⟩
    exact ih

mutual

def nodes : Expr → List Expr
  | num n => [num n]
  | str s => [str s]
  | var name none => [var name none]
  | var name (some fields) => var name (some fields) :: slotNodes fields
  | call name args => call name args :: slotNodes args
  | bin op lhs rhs => bin op lhs rhs :: (nodes lhs ++ nodes rhs)
  | un op arg => un op arg :: nodes arg
  | bracket inner => bracket inner :: nodes inner

def slotNodes : Slots → List Expr
  | [] => []
  | none :: rest => slotNodes rest
  | some e :: rest => nodes e ++ slotNodes rest

end

theorem mem_slotNodes {node : Expr} {slots : Slots} :
    node ∈ slotNodes slots ↔ ∃ e, some e ∈ slots ∧ node ∈ e.nodes := by
  induction slots with
  | nil => simp [slotNodes]
  | cons slot rest ih =>
    cases slot with
    | none => simp [slotNodes, ih]
    | some e => simp [slotNodes, ih]

mutual

/-- The tree that the text of a tree denotes. -/
def plain : Expr → Expr
  | num n => num n.plain
  | str s => str s
  | var name none => var name none
  | var name (some fields) => var name (some (Slots.dropGap (plainEach fields)))
  | call name args => call name (Slots.dropGap (plainEach args))
  | bin op lhs rhs => bin op (plain lhs) (plain rhs)
  | un op arg => un op (plain arg)
  | bracket inner => bracket (plain inner)

def plainEach : Slots → Slots
  | [] => []
  | none :: rest => none :: plainEach rest
  | some e :: rest => some (plain e) :: plainEach rest

end

def plainSlots (slots : Slots) : Slots := Slots.dropGap (plainEach slots)

theorem plainEach_eq (slots : Slots) : plainEach slots = slots.map (Option.map plain) := by
  induction slots with
  | nil => rfl
  | cons slot rest ih =>
    cases slot with
    | none => exact congrArg (none :: ·) ih
    | some e => exact congrArg (some e.plain :: ·) ih

theorem plainSlots_eq (slots : Slots) :
    plainSlots slots = (Slots.dropGap slots).map (Option.map plain) := by
  rw [plainSlots, plainEach_eq, Slots.dropGap_map]

/-- How tight the outermost operation binds; an operand binds tighter than any. -/
def tightness : Expr → Nat
  | bin op _ _ => op.priority
  | _ => 11

theorem tightness_plain (e : Expr) : e.plain.tightness = e.tightness := by
  cases e with
  | var name fields => cases fields <;> rfl
  | _ => rfl

theorem priority_lt (op : BinaryOp) : op.priority < 11 := by
  cases op <;> decide

/-- What reading guarantees of a node. -/
def Formed : Expr → Prop
  | str text => ∀ c ∈ text.toList, isLineEnd c = false ∧ c ≠ '\x22'
  | var name _ => IsName name
  | call name _ => IsIdentifier name
  | bin op lhs rhs => op.priority ≤ lhs.tightness ∧ op.priority < rhs.tightness
  | un op arg => arg.tightness = 11 ∧ (op = .negate → ∀ n, arg ≠ num n)
  | num _ | bracket _ => True

/-- At an operation the left side is no operation that binds less tight, and the right side
none that binds as tight or less. The operand of a prefix operator is no operation. -/
def InOrder : Expr → Prop
  | bin op lhs rhs =>
    (∀ op' a b, lhs = bin op' a b → op.priority ≤ op'.priority) ∧
      ∀ op' a b, rhs = bin op' a b → op.priority < op'.priority
  | un _ arg => ∀ op a b, arg ≠ bin op a b
  | _ => True

/-- What a node needs besides to be read back. -/
def Legible : Expr → Prop
  | num n => n.value.isFinite = true
  | var name fields => DigitsOnly name ∧ ∀ slots ∈ fields, Slots.Stable slots
  | call _ args => Slots.Stable args
  | _ => True

def Every (P : Expr → Prop) (e : Expr) : Prop := ∀ node ∈ e.nodes, P node

def Ranked (e : Expr) : Prop := e.Every InOrder

/-- Every node has the form that reading gives it and is legible. -/
def Sound (e : Expr) : Prop := e.Every (fun node => node.Formed ∧ node.Legible)

/-- Every number is equal to the one that its text denotes, and no list ends in a gap. -/
def Exact (e : Expr) : Prop :=
  e.Every (fun node => (∀ n, node = num n → n.Exact) ∧ ∀ slots ∈ node.list?, Slots.Closed slots)

theorem self_mem_nodes (e : Expr) : e ∈ e.nodes := by
  cases e with
  | var name fields => cases fields <;> exact List.mem_cons_self
  | _ => exact List.mem_cons_self

section Every

variable {P : Expr → Prop}

theorem Every.self {e : Expr} (h : e.Every P) : P e := h e e.self_mem_nodes

theorem Every.fields {name : String} {slots : Slots} (h : (var name (some slots)).Every P) :
    ∀ e, some e ∈ slots → e.Every P :=
  fun e he node hn => h node (List.mem_cons_of_mem _ (mem_slotNodes.mpr ⟨e, he, hn⟩))

theorem Every.args {name : String} {slots : Slots} (h : (call name slots).Every P) :
    ∀ e, some e ∈ slots → e.Every P :=
  fun e he node hn => h node (List.mem_cons_of_mem _ (mem_slotNodes.mpr ⟨e, he, hn⟩))

theorem Every.lhs {op : BinaryOp} {lhs rhs : Expr} (h : (bin op lhs rhs).Every P) :
    lhs.Every P :=
  fun node hn => h node (List.mem_cons_of_mem _ (List.mem_append_left _ hn))

theorem Every.rhs {op : BinaryOp} {lhs rhs : Expr} (h : (bin op lhs rhs).Every P) :
    rhs.Every P :=
  fun node hn => h node (List.mem_cons_of_mem _ (List.mem_append_right _ hn))

theorem Every.arg {op : UnaryOp} {arg : Expr} (h : (un op arg).Every P) : arg.Every P :=
  fun node hn => h node (List.mem_cons_of_mem _ hn)

theorem Every.inner {inner : Expr} (h : (bracket inner).Every P) : inner.Every P :=
  fun node hn => h node (List.mem_cons_of_mem _ hn)

theorem every_leaf {e : Expr} (hn : e.nodes = [e]) (h : P e) : e.Every P := by
  intro node hnode
  rw [hn, List.mem_singleton] at hnode
  rw [hnode]
  exact h

theorem every_var {name : String} {fields : Option Slots} (h : P (var name fields))
    (hf : ∀ slots ∈ fields, ∀ e, some e ∈ slots → e.Every P) : (var name fields).Every P := by
  cases fields with
  | none => exact every_leaf rfl h
  | some slots =>
    intro node hnode
    rcases List.mem_cons.mp hnode with rfl | hnode
    · exact h
    · obtain ⟨e, he, hnode⟩ := mem_slotNodes.mp hnode
      exact hf slots rfl e he node hnode

theorem every_call {name : String} {args : Slots} (h : P (call name args))
    (ha : ∀ e, some e ∈ args → e.Every P) : (call name args).Every P := by
  intro node hnode
  rcases List.mem_cons.mp hnode with rfl | hnode
  · exact h
  · obtain ⟨e, he, hnode⟩ := mem_slotNodes.mp hnode
    exact ha e he node hnode

theorem every_bin {op : BinaryOp} {lhs rhs : Expr} (h : P (bin op lhs rhs)) (hl : lhs.Every P)
    (hr : rhs.Every P) : (bin op lhs rhs).Every P := by
  intro node hnode
  rcases List.mem_cons.mp hnode with rfl | hnode
  · exact h
  · rcases List.mem_append.mp hnode with hnode | hnode
    · exact hl node hnode
    · exact hr node hnode

theorem every_un {op : UnaryOp} {arg : Expr} (h : P (un op arg)) (ha : arg.Every P) :
    (un op arg).Every P := by
  intro node hnode
  rcases List.mem_cons.mp hnode with rfl | hnode
  · exact h
  · exact ha node hnode

theorem every_bracket {inner : Expr} (h : P (bracket inner)) (hi : inner.Every P) :
    (bracket inner).Every P := by
  intro node hnode
  rcases List.mem_cons.mp hnode with rfl | hnode
  · exact h
  · exact hi node hnode

end Every

theorem tightness_eq_iff {e : Expr} : e.tightness = 11 ↔ ∀ op a b, e ≠ bin op a b := by
  cases e with
  | bin op lhs rhs =>
    have hlt := priority_lt op
    constructor
    · intro h
      rw [tightness] at h
      omega
    · exact fun h => absurd rfl (h op lhs rhs)
  | _ => simp [tightness]

theorem inOrder_bin {op : BinaryOp} {lhs rhs : Expr} :
    (bin op lhs rhs).InOrder ↔ op.priority ≤ lhs.tightness ∧ op.priority < rhs.tightness := by
  have hlt := priority_lt op
  apply and_congr
  · cases lhs with
    | bin => simp [tightness]
    | _ => simp [tightness, Nat.le_of_lt hlt]
  · cases rhs with
    | bin => simp [tightness]
    | _ => simp [tightness, hlt]

theorem inOrder_un {op : UnaryOp} {arg : Expr} : (un op arg).InOrder ↔ arg.tightness = 11 :=
  tightness_eq_iff.symm

theorem Formed.inOrder {e : Expr} (h : e.Formed) : e.InOrder := by
  cases e with
  | bin op lhs rhs => exact inOrder_bin.mpr h
  | un op arg => exact inOrder_un.mpr h.1
  | _ => trivial

theorem mem_plainSlots {e : Expr} {slots : Slots} (h : some e ∈ plainSlots slots) :
    ∃ e', some e' ∈ slots ∧ e'.plain = e := by
  rw [plainSlots_eq] at h
  obtain ⟨slot, hslot, heq⟩ := List.mem_map.mp h
  cases slot with
  | none => cases heq
  | some e' => exact ⟨e', Slots.mem_of_mem_dropGap hslot, Option.some.inj heq⟩

theorem ranked_plain {e : Expr} (h : e.Ranked) : e.plain.Ranked := by
  induction e using Expr.induction with
  | num n => exact every_leaf rfl trivial
  | str s => exact h
  | var name fields ih =>
    cases fields with
    | none => exact h
    | some slots =>
      apply every_var (P := InOrder) trivial
      rintro _ ⟨⟩ e he
      obtain ⟨e', he', rfl⟩ := mem_plainSlots he
      exact ih slots rfl e' he' (h.fields e' he')
  | call name args ih =>
    apply every_call (P := InOrder) trivial
    intro e he
    obtain ⟨e', he', rfl⟩ := mem_plainSlots he
    exact ih e' he' (h.args e' he')
  | bin op lhs rhs ihl ihr =>
    obtain ⟨hl, hr⟩ := inOrder_bin.mp h.self
    refine every_bin (inOrder_bin.mpr ?_) (ihl h.lhs) (ihr h.rhs)
    rw [tightness_plain, tightness_plain]
    exact ⟨hl, hr⟩
  | un op arg ih =>
    refine every_un (inOrder_un.mpr ?_) (ih h.arg)
    rw [tightness_plain]
    exact inOrder_un.mp h.self
  | bracket inner ih => exact every_bracket trivial (ih h.inner)

theorem Sound.ranked {e : Expr} (h : e.Sound) : e.Ranked :=
  fun node hn => (h node hn).1.inOrder

theorem sameSlots_map {read : Expr → Expr} {slots : Slots}
    (h : ∀ e, some e ∈ slots → (read e).same e = true) :
    sameSlots (slots.map (Option.map read)) slots = true := by
  induction slots with
  | nil => rfl
  | cons slot rest ih =>
    have hrest := ih (fun e he => h e (List.mem_cons_of_mem _ he))
    cases slot with
    | none => exact hrest
    | some e =>
      rw [List.map_cons, Option.map_some, sameSlots, h e List.mem_cons_self, hrest]
      rfl

theorem sameSlots_plain {slots : Slots} (hclosed : Slots.Closed slots)
    (h : ∀ e, some e ∈ slots → e.plain.same e = true) :
    sameSlots (plainSlots slots) slots = true := by
  rw [plainSlots_eq, hclosed.dropGap_eq]
  exact sameSlots_map h

theorem same_plain {e : Expr} (h : e.Exact) : e.plain.same e = true := by
  induction e using Expr.induction with
  | num n => exact Number.plain_same (h.self.1 n rfl)
  | str s => simp [plain, same]
  | var name fields ih =>
    cases fields with
    | none => simp [plain, same]
    | some slots =>
      have hslots := sameSlots_plain (h.self.2 slots rfl)
        (fun e he => ih slots rfl e he (h.fields e he))
      show (var name (some (plainSlots slots))).same (var name (some slots)) = true
      simp [same, hslots]
  | call name args ih =>
    have hslots := sameSlots_plain (h.self.2 args rfl) (fun e he => ih e he (h.args e he))
    show (call name (plainSlots args)).same (call name args) = true
    simp [same, hslots]
  | bin op lhs rhs ihl ihr => simp [plain, same, ihl h.lhs, ihr h.rhs]
  | un op arg ih => simp [plain, same, ih h.arg]
  | bracket inner ih => exact ih h.inner

theorem slotTexts_map {slots : Slots} {read : Expr → Expr}
    (h : ∀ e, some e ∈ slots → (read e).text = e.text) :
    slotTexts (slots.map (Option.map read)) = slotTexts slots := by
  induction slots with
  | nil => rfl
  | cons slot rest ih =>
    have hrest := ih (fun e he => h e (List.mem_cons_of_mem _ he))
    cases slot with
    | none => exact congrArg ("" :: ·) hrest
    | some e =>
      rw [List.map_cons, Option.map_some, slotTexts, slotTexts, hrest, h e List.mem_cons_self]

theorem inBraces_plain {slots : Slots} (hstable : Slots.Stable slots)
    (h : ∀ e, some e ∈ slots → e.plain.text = e.text) (opening closing : String) :
    inBraces opening closing (slotTexts (plainSlots slots)) =
      inBraces opening closing (slotTexts slots) := by
  rcases hstable with hclosed | rfl
  · rw [plainSlots_eq, hclosed.dropGap_eq, slotTexts_map h]
  · rfl

theorem text_plain {e : Expr} (h : e.Sound) : e.plain.text = e.text := by
  induction e using Expr.induction with
  | num n => exact Number.text_plain h.self.2
  | str s => rfl
  | var name fields ih =>
    cases fields with
    | none => rfl
    | some slots =>
      have hslots := inBraces_plain (h.self.2.2 slots rfl)
        (fun e he => ih slots rfl e he (h.fields e he)) "[" "]"
      exact congrArg (name ++ ·) hslots
  | call name args ih =>
    have hslots := inBraces_plain h.self.2 (fun e he => ih e he (h.args e he)) "(" ")"
    exact congrArg (name ++ ·) hslots
  | bin op lhs rhs ihl ihr => rw [plain, text, text, ihl h.lhs, ihr h.rhs]
  | un op arg ih => rw [plain, text, text, ih h.arg]
  | bracket inner ih => rw [plain, text, text, ih h.inner]

end Expr

end PartProgram
