import PartProgram.Proofs.LetterCase.Block
import PartProgram.Proofs.Run.Beside

/-!
# The case of letters does not matter

Two texts that differ in the case of letters only, and not in those of strings and
comments, are read as programs that differ in the case of names only. Such programs
go the same way when they are run: they report the same up to the case of names,
leave the same state, and fail for causes of the same kind in the same lines.
-/

set_option autoImplicit false

namespace PartProgram

/-- The cause of an error without the texts in it. -/
def RunCause.kind : RunCause → RunCause
  | unknownVariable _ => unknownVariable ""
  | unknownTarget _ => unknownTarget ""
  | invalidTarget _ => invalidTarget ""
  | unexpectedArguments _ => unexpectedArguments ""
  | expectedNumber _ => expectedNumber ""
  | unsupportedFunction _ => unsupportedFunction ""
  | cause => cause

def View.anyCase : View where
  name := upper
  cause := RunCause.kind
  places := true
  upper_of_name h := h
  unknownVariable _ := rfl
  unknownTarget _ := rfl
  unexpectedArguments _ := rfl
  unsupportedFunction _ := rfl
  invalidTarget _ := rfl

/-- Texts that differ in the case of letters only, outside strings and comments. -/
def SameButCase (d : Dialect) (text text' : String) : Prop :=
  foldCase d .code text.toList = foldCase d .code text'.toList

/-- Outcomes that differ in the case of names only, with errors of the same kind. -/
structure SameOutcome (x y : Outcome × Session) : Prop where
  events : x.1.events.map (Event.rename upper) = y.1.events.map (Event.rename upper)
  state : x.2.state = y.2.state
  halt : x.1.halt.map (Halt.seen .anyCase) = y.1.halt.map (Halt.seen .anyCase)

namespace Session

def load (d : Dialect) (s : Session) : List (String × String) → Except ReadError Session
  | [] => .ok s
  | (name, text) :: rest => do
    let p ← Program.parse d text
    load d (s.addSubprogram name p) rest

def execute (d : Dialect) (steps : Nat) (s : Session) (subprograms : List (String × String))
    (text : String) : Except ReadError (Outcome × Session) := do
  let p ← Program.parse d text
  let s ← s.load d subprograms
  return s.process steps p

structure Alike (s s' : Session) : Prop where
  state : s.state = s'.state
  programs : Exec.TablesLike .anyCase s.programs s'.programs

theorem Alike.refl (s : Session) : s.Alike s := ⟨rfl, fun _ => rfl⟩

theorem Alike.addSubprogram {s s' : Session} (h : s.Alike s') {name name' : String}
    (hname : upper name = upper name') {p p' : Program} (hp : p.upper = p'.upper) :
    (s.addSubprogram name p).Alike (s'.addSubprogram name' p') where
  state := h.state
  programs := by
    intro key
    simp only [Session.addSubprogram, Table.find?_insert, hname]
    split
    · exact congrArg some hp
    · exact h.programs key

end Session

inductive SameReading {α : Type} (R : α → α → Prop) :
    Except ReadError α → Except ReadError α → Prop
  | refused {e e' : ReadError} (hline : e.line = e'.line) (hkind : e.cause.kind = e'.cause.kind) :
      SameReading R (.error e) (.error e')
  | read {a b : α} (h : R a b) : SameReading R (.ok a) (.ok b)

theorem SameReading.bind {α β : Type} {R : α → α → Prop} {T : β → β → Prop}
    {x y : Except ReadError α} {k k' : α → Except ReadError β} (h : SameReading R x y)
    (hk : ∀ a b, R a b → SameReading T (k a) (k' b)) : SameReading T (x >>= k) (y >>= k') := by
  cases h with
  | refused hline hkind => exact .refused hline hkind
  | read h => exact hk _ _ h

theorem SameButCase.parse {d : Dialect} {text text' : String} (h : SameButCase d text text') :
    SameReading (fun p p' => p.upper = p'.upper) (Program.parse d text) (Program.parse d text') := by
  have hfold := Program.parse_congr d h
  cases hx : Program.parse d text with
  | ok p =>
    cases hy : Program.parse d text' with
    | ok p' =>
      rw [hx, hy] at hfold
      exact .read (Except.ok.inj hfold)
    | error e' =>
      rw [hx, hy] at hfold
      cases hfold
  | error e =>
    cases hy : Program.parse d text' with
    | ok p' =>
      rw [hx, hy] at hfold
      cases hfold
    | error e' =>
      rw [hx, hy] at hfold
      have hkind : e.kind = e'.kind := Except.error.inj hfold
      have hline : e.kind.line = e'.kind.line := congrArg ReadError.line hkind
      have hcause : e.kind.cause = e'.kind.cause := congrArg ReadError.cause hkind
      exact .refused hline hcause

theorem Session.Alike.load {d : Dialect} {s s' : Session} (h : s.Alike s')
    {subprograms subprograms' : List (String × String)}
    (hsubs : List.Forall₂ (fun x y => upper x.1 = upper y.1 ∧ SameButCase d x.2 y.2)
      subprograms subprograms') :
    SameReading Alike (s.load d subprograms) (s'.load d subprograms') := by
  induction hsubs generalizing s s' with
  | nil => exact .read h
  | cons hsub hrest ih =>
    apply hsub.2.parse.bind
    intro p p' hp
    exact ih (h.addSubprogram hsub.1 hp)

theorem Event.seen_anyCase (events : List Event) :
    events.filterMap (Event.seen .anyCase) = events.map (Event.rename upper) := by
  have hseen : Event.seen .anyCase = some ∘ Event.rename upper := by
    funext e
    simp [Event.seen, View.anyCase]
  rw [hseen, List.filterMap_eq_map]

theorem Session.Alike.process {s s' : Session} (h : s.Alike s') (steps : Nat) {p p' : Program}
    (hp : p.upper = p'.upper) : SameOutcome (s.process steps p) (s'.process steps p') := by
  have hevents : ∀ {r r' : Run}, r.Like .anyCase r' →
      r.events.toList.map (Event.rename upper) = r'.events.toList.map (Event.rename upper) := by
    intro r r' hlike
    rw [← Event.seen_anyCase, ← Event.seen_anyCase]
    exact hlike.seen
  have hstart : Run.Like .anyCase { state := s.state } { state := s'.state } :=
    ⟨h.state, rfl, rfl⟩
  unfold Session.process
  rcases Exec.beside_runFrom h.programs steps steps hp 0 _ _ hstart with
    ⟨hshort, -⟩ | ⟨hshort, -⟩ | ⟨_, r, r', hx, hy, hlike⟩ |
    ⟨halt, halt', r, r', hx, hy, hhalt, hlike⟩
  · exact absurd hshort (Nat.lt_irrefl steps)
  · exact absurd hshort (Nat.lt_irrefl steps)
  · rw [hx, hy]
    exact ⟨hevents hlike, hlike.state, rfl⟩
  · rw [hx, hy]
    exact ⟨hevents hlike, hlike.state, congrArg some hhalt⟩

/-- The case of letters outside strings and comments does not matter: either both texts, with
their subprograms, are refused in the same line for a cause of the same kind, or both are run
with the same outcome up to the case of names. -/
theorem letter_case_immaterial (d : Dialect) (steps : Nat) (s : Session) (text text' : String)
    (subprograms subprograms' : List (String × String)) (htext : SameButCase d text text')
    (hsubs : List.Forall₂ (fun x y => upper x.1 = upper y.1 ∧ SameButCase d x.2 y.2)
      subprograms subprograms') :
    SameReading SameOutcome (s.execute d steps subprograms text)
      (s.execute d steps subprograms' text') := by
  apply htext.parse.bind
  intro p p' hp
  apply ((Session.Alike.refl s).load hsubs).bind
  intro t t' ht
  exact .read (ht.process steps hp)

theorem letter_case_immaterial_call :
    SameButCase { stringInstructions := true } "turn 'h1f' \"Tool\" m5 ; Go"
        "Turn 'H1F' \"Tool\" M5 ; Go" ∧
      SameReading SameOutcome
        (({} : Session).execute { stringInstructions := true } 9 [("turn", "gotof out\nOut: m7")]
          "turn 'h1f' \"Tool\" m5 ; Go")
        (({} : Session).execute { stringInstructions := true } 9 [("TURN", "GotoF OUT\nout: M7")]
          "Turn 'H1F' \"Tool\" M5 ; Go") := by
  have htext : SameButCase { stringInstructions := true } "turn 'h1f' \"Tool\" m5 ; Go"
      "Turn 'H1F' \"Tool\" M5 ; Go" := by
    unfold SameButCase
    decide +kernel
  have hsub : SameButCase { stringInstructions := true } "gotof out\nOut: m7"
      "GotoF OUT\nout: M7" := by
    unfold SameButCase
    decide +kernel
  have hname : upper "turn" = upper "TURN" := by decide
  exact ⟨htext, letter_case_immaterial _ 9 {} _ _ _ _ htext (.cons ⟨hname, hsub⟩ .nil)⟩

end PartProgram
