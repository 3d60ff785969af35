import PartProgram.Proofs.RoundTrip.Body
import PartProgram.Proofs.Shape.Expr

/-!
# The form of what is read: instructions

Codes that are read fit into their words, a jump has a target exactly if it needs one, and
the parts of every statement have the form of expressions. Of the two things that the
dialect decides, one is whether a string may stand for a name.
-/

set_option autoImplicit false

namespace PartProgram

namespace Reader

open PartProgram.Expr (Shaped ShapedSlots IsOperand)

variable {d : Dialect} {source : List Char} {α : Type} {P : α → Prop} {c : Cursor}

theorem integer?_lt {t : Token} {n : Int} (h : t.integer? = some n) : n < 2 ^ 63 := by
  have hread {radix : Nat} {cs : List Char} (hn : readInteger radix cs = some n) : n < 2 ^ 63 := by
    unfold readInteger at hn
    simp only at hn
    split at hn
    · split at hn
      · rename_i hword
        cases hn
        have hlimit : ((wordLimit : Nat) : Int) = 2 ^ 63 := rfl
        simp only [isWord, Bool.and_eq_true, decide_eq_true_eq, hlimit] at hword
        exact hword.2
      · cases hn
    · cases hn
  unfold Token.integer? at h
  split at h
  · unfold integerText? at h
    split at h
    · cases h
    · split at h
      · exact hread h
      · obtain ⟨word, -, rfl⟩ := Option.map_eq_some_iff.mp h
        exact Int64.toInt_lt word
      · exact hread h
  · cases h

theorem yields_integer : Yields source (integer d) (fun n => n < 2 ^ 63) := by
  apply yields_get
  intro c hc
  split
  · rename_i n hn
    obtain ⟨t, -, ht⟩ := Option.bind_eq_some_iff.mp hn
    refine yields_advance.bind (fun _ _ => yields_pure ?_) c hc
    exact integer?_lt ht
  · exact yields_failWith _ c hc

theorem yields_natural : Yields source (natural d) (fun n => n < 2 ^ 32) := by
  apply yields_get
  intro c hc
  split
  · split
    · rename_i hn
      have hlimit : ((twoTo 32 : Nat) : Int) = 2 ^ 32 := rfl
      simp only [Bool.and_eq_true, decide_eq_true_eq, hlimit] at hn
      exact yields_advance.bind (fun _ _ => yields_pure (by omega)) c hc
    · exact yields_failWith _ c hc
  · exact yields_failWith _ c hc

theorem yields_separated {entry : Reader α} (h : Yields source entry P) (ahead : List Char) :
    Yields source (separated d entry ahead) (fun list => list ≠ [] ∧ ∀ a ∈ list, P a) := by
  induction ahead with
  | nil => exact h.bind (fun a ha => yields_pure (by simpa using ha))
  | cons x ahead ih =>
    rw [separated]
    apply h.bind
    intro a ha
    apply (yields_accept _ _).bind
    intro more _
    split
    · apply ih.bind
      intro list hlist
      exact yields_pure (by simpa [ha] using hlist.2)
    · exact yields_pure (by simpa using ha)

theorem yields_entries {entry : Reader α} (h : Yields source entry P) :
    Yields source (entries d entry) (fun list => list ≠ [] ∧ ∀ a ∈ list, P a) :=
  fun c hc => yields_separated h c.ahead c hc

theorem yields_fieldEntries {entry : Reader α} (h : Yields source entry P) :
    Yields source (fieldEntries d entry) (fun list => list ≠ [] ∧ ∀ a ∈ list, P a) := by
  apply yields_advance.bind
  intro _ _
  apply (yields_entries h).bind
  intro list hlist
  exact (yields_expect _ _ _).bind (fun _ _ => yields_pure hlist)

theorem yields_codeNumber : Yields source (codeNumber d) (fun n => n < 2 ^ 32) :=
  yields_advance.bind (fun _ _ => yields_expectMore.bind (fun _ _ => yields_natural))

end Reader

def IsQuoted (name : String) : Prop :=
  ∃ text : String, name = "\x22" ++ text ++ "\x22" ∧
    ∀ c ∈ text.toList, isLineEnd c = false ∧ c ≠ '\x22'

def Dialect.IsBareWord (d : Dialect) (name : String) : Prop :=
  IsLabel name ∨ d.stringInstructions = true ∧ IsQuoted name

namespace Statement

/-- What reading in a dialect guarantees of a statement besides the form of its expressions. -/
def FormedIn (d : Dialect) : Statement → Prop
  | gcode id args => id < 2 ^ 32 ∧ ∀ list ∈ args, d.gcodeArguments = true ∧ list ≠ []
  | instruction name none => d.IsBareWord name
  | s => s.Formed

def expressions : Statement → List Expr
  | instruction _ none => []
  | s => s.parts

/-- The form that reading gives to a statement and its expressions. -/
def Shaped (d : Dialect) (source : List Char) (s : Statement) : Prop :=
  s.FormedIn d ∧ ∀ e ∈ s.expressions, e.Shaped source

end Statement

def Flow.Shaped (source : List Char) (f : Flow) : Prop :=
  f.Formed ∧ ∀ e ∈ f.parts, e.Shaped source

section Shaped

variable {d : Dialect} {source : List Char}

theorem Statement.shaped_assign {name : String} {fields : Option Slots} {value : Expr}
    (hvar : (Expr.var name fields).Shaped source) (hvalue : value.Shaped source) :
    (Statement.assign name fields value).Shaped d source := by
  refine ⟨trivial, ?_⟩
  simp only [expressions, parts, List.mem_cons, List.not_mem_nil, or_false]
  rintro e (rfl | rfl)
  · exact hvar
  · exact hvalue

theorem Expr.Shaped.name {name : String} {fields : Option Slots}
    (h : (Expr.var name fields).Shaped source) : IsName name ∧ NumberedIn source name :=
  h _ (Expr.self_mem_nodes _)

theorem Expr.shaped_letter {letter : Char} (h : Scan.isNameChar letter = true) :
    (Expr.var (String.ofList [letter]) none).Shaped source := by
  have hletter := isIdentifier_letter h
  exact Expr.every_var ⟨.inl hletter, .inl hletter.digitsOnly⟩ (by simp)

theorem Expr.shaped_negated {e : Expr} (h : e.Shaped source) : e.negated.Shaped source := by
  unfold negated
  split
  · exact shaped_num _
  · exact every_un ⟨rfl, by simp⟩ (every_bracket trivial h)
  · rename_i hnum hbin
    refine every_un ⟨?_, fun _ n hn => hnum n hn⟩ h
    unfold tightness
    split
    · rename_i op lhs rhs
      exact absurd rfl (hbin op lhs rhs)
    · rfl

theorem Expr.shaped_signedWord {e value : Expr} {name : String} (h : e.Shaped source)
    (hs : e.signedWord? = some (name, value)) : (Expr.var name none).Shaped source ∧
      value.Shaped source := by
  unfold signedWord? at hs
  split at hs
  · split at hs
    · cases hs
      exact ⟨h.lhs, h.rhs⟩
    · cases hs
  · split at hs
    · cases hs
      exact ⟨h.lhs, shaped_negated h.rhs⟩
    · cases hs
  · cases hs

end Shaped

namespace Reader

open PartProgram.Expr (Shaped ShapedSlots IsOperand)

variable {d : Dialect} {source : List Char} {name : String} {fields : Option Slots}
  {c : Cursor}

theorem yields_variableStatement (h : (Expr.var name fields).Shaped source) :
    Yields source (variableStatement d name fields) (Statement.Shaped d source) := by
  obtain ⟨hname, hnumbered⟩ := h.name
  apply (yields_accept _ _).bind
  intro equals _
  split
  · apply yields_expression.bind
    intro value hvalue
    exact yields_pure (Statement.shaped_assign h hvalue)
  split
  · exact yields_fail _
  split
  · apply yields_expression.bind
    intro value hvalue
    exact yields_pure (Statement.shaped_assign (Expr.every_var ⟨hname, hnumbered⟩ (by simp)) hvalue)
  · rename_i letter digit rest heq
    split
    · split
      · apply yields_pure
        apply Statement.shaped_assign _ (Expr.shaped_num _)
        obtain ⟨c, cs, hcs, hc⟩ := hname.head
        rw [heq] at hcs
        cases hcs
        exact Expr.shaped_letter hc
      · exact yields_fail _
    · rename_i hdigit
      apply yields_pure
      rcases hname with hidentifier | ⟨letter', digit', rest', heq', -, hdigit'⟩
      · exact ⟨.inl ⟨hidentifier, by simp [heq]⟩, by simp [Statement.expressions]⟩
      · rw [heq] at heq'
        cases heq'
        exact absurd hdigit' hdigit
  · rename_i heq
    obtain ⟨c, cs, hcs, -⟩ := hname.head
    rw [heq] at hcs
    cases hcs

theorem yields_assignmentOrInstruction :
    Yields source (assignmentOrInstruction d) (Statement.Shaped d source) := by
  apply yields_expression.bind
  intro e he
  split
  · exact yields_variableStatement he
  · rename_i name args
    apply yields_pure
    refine ⟨trivial, ?_⟩
    simp only [Statement.expressions, Statement.parts, List.mem_singleton]
    rintro e rfl
    exact he
  · split
    · rename_i text hstrings
      apply yields_pure
      have htext := he _ (Expr.self_mem_nodes _)
      exact ⟨.inr ⟨hstrings, text, rfl, htext⟩, by simp [Statement.expressions]⟩
    · exact yields_fail _
  · split
    · rename_i hword
      obtain ⟨hvar, hvalue⟩ := Expr.shaped_signedWord he hword
      exact yields_pure (Statement.shaped_assign hvar hvalue)
    · exact yields_fail _

theorem yields_gcode : Yields source (gcode d) (Statement.Shaped d source) := by
  apply yields_codeNumber.bind
  intro id hid
  apply yields_get
  intro c hc
  split
  · rename_i harguments
    simp only [Bool.and_eq_true] at harguments
    refine (yields_fieldEntries yields_expression).bind (fun args hargs => yields_pure ?_) c hc
    refine ⟨⟨hid, ?_⟩, hargs.2⟩
    rintro _ ⟨⟩
    exact ⟨harguments.1, hargs.1⟩
  · exact yields_pure ⟨⟨hid, by simp⟩, by simp [Statement.expressions, Statement.parts]⟩ c hc

theorem yields_jump (direction : JumpDirection) :
    Yields source (jump d direction) (Statement.Shaped d source) := by
  apply yields_advance.bind
  intro _ _
  split
  · rename_i hstart
    exact yields_pure
      ⟨⟨fun _ => hstart, fun _ => rfl⟩, by simp [Statement.expressions, Statement.parts]⟩
  · rename_i hstart
    apply yields_expression.bind
    intro target htarget
    apply yields_pure
    refine ⟨⟨by simp, fun h => absurd h hstart⟩, ?_⟩
    simpa [Statement.expressions, Statement.parts] using htarget

theorem yields_forLoop : Yields source (forLoop d) (Flow.Shaped source) := by
  apply yields_assignmentOrInstruction.bind
  intro s hs
  split
  · rename_i name fields initial
    apply (yields_acceptKeyword _).bind
    intro found _
    split
    · apply yields_expression.bind
      intro last hlast
      apply yields_pure
      have hvar := hs.2 (.var name fields) (by simp [Statement.expressions, Statement.parts])
      have hinitial := hs.2 initial (by simp [Statement.expressions, Statement.parts])
      refine ⟨⟨name, fields, rfl⟩, ?_⟩
      simp only [Flow.parts, List.mem_cons, List.not_mem_nil, or_false]
      rintro e (rfl | rfl | rfl)
      · exact hvar
      · exact hinitial
      · exact hlast
    · exact yields_fail _
  · exact yields_fail _

theorem yields_flow (keyword : FlowKeyword) :
    Yields source (flow d keyword) (Flow.Shaped source) := by
  have hbare {f : Flow} (hf : f.Formed) (hp : f.parts = []) :
      Yields source (pure f) (Flow.Shaped source) :=
    yields_pure ⟨hf, by simp [hp]⟩
  have hcondition {f : Expr → Flow} (hf : ∀ e, (f e).Formed) (hp : ∀ e, (f e).parts = [e]) :
      Yields source (f <$> expression d) (Flow.Shaped source) :=
    yields_expression.map (fun e he => ⟨hf e, by simpa [hp] using he⟩)
  apply yields_advance.bind
  intro _ _
  cases keyword with
  | ifThen => exact hcondition (fun _ => trivial) (fun _ => rfl)
  | whileDo => exact hcondition (fun _ => trivial) (fun _ => rfl)
  | untilTrue => exact hcondition (fun _ => trivial) (fun _ => rfl)
  | forTo => exact yields_forLoop
  | _ => exact hbare trivial rfl

end Reader

end PartProgram
