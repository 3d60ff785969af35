import PartProgram.Proofs.Blanks.FirstToken
import PartProgram.Proofs.Blanks.Scan

/-!
# Only the presence of blanks matters

How many blanks stand between two tokens, and whether any stand at either end of a line,
makes no difference to what is read. Blanks in strings, quoted numbers and comments are
text. A carriage return and a line feed are one line end when they stand together and two
when blanks keep them apart; such blanks are a line of their own.
-/

set_option autoImplicit false

namespace PartProgram

/-- The same position in two lines that differ in blanks. -/
structure Cursor.Alike (d : Dialect) (x y : List Char) (c c' : Cursor) : Prop where
  line : c'.line = c.line
  held : c'.held = c.held
  unread : Unread d x y c.unread c'.unread

namespace Reader

def value {α : Type} (r : EStateM.Result ReadError Cursor α) : Except ReadError α :=
  Prod.fst <$> answer r

theorem value_map {α β : Type} (f : α → β) (p : Reader α) (c : Cursor) :
    value ((f <$> p) c) = f <$> value (p c) := by
  rw [run_map]
  cases p c <;> rfl

variable {d : Dialect} {x y : List Char} {c c' : Cursor}

/-- Two results with the same value at positions that are alike, or with the same error. -/
def Concur (d : Dialect) (x y : List Char) {α : Type} :
    EStateM.Result ReadError Cursor α → EStateM.Result ReadError Cursor α → Prop
  | .ok a c, .ok a' c' => a' = a ∧ c.Alike d x y c'
  | .error e _, .error e' _ => e' = e
  | _, _ => False

theorem Concur.bind {α β : Type} {p : Reader α} (h : Concur d x y (p c) (p c')) {q : α → Reader β}
    (hq : ∀ (a : α) (c c' : Cursor), c.Alike d x y c' → value (q a c') = value (q a c)) :
    value ((p >>= q) c') = value ((p >>= q) c) := by
  rw [run_bind, run_bind]
  cases hp : p c <;> cases hp' : p c' <;> rw [hp, hp'] at h
  · obtain ⟨rfl, ha⟩ := h
    exact hq _ _ _ ha
  · exact h.elim
  · exact h.elim
  · cases h
    rfl

theorem advance_alike (hg : Gapped x y) (h : c.Alike d x y c') :
    match advance d c, advance d c' with
    | .ok _ c, .ok _ c' => c.Alike d x y c'
    | .error e c, .error e' c' => e' = e ∧ c.Alike d x y c'
    | _, _ => False := by
  have hs := Scan.next_alike hg c.line h.unread
  simp only [advance, h.line]
  generalize Scan.next d c.line c.unread = s at hs
  generalize Scan.next d c.line c'.unread = s' at hs
  cases hs with
  | finished => exact ⟨rfl, rfl, .passed (by simp [Unbroken])⟩
  | token t hr => exact ⟨rfl, rfl, hr⟩
  | fault cause hr => exact ⟨rfl, rfl, h.held, hr⟩

theorem advance_concur (hg : Gapped x y) (h : c.Alike d x y c') :
    Concur d x y (advance d c) (advance d c') := by
  have hs := advance_alike hg h
  cases ha : advance d c <;> cases ha' : advance d c' <;> rw [ha, ha'] at hs
  · exact ⟨rfl, hs⟩
  · exact hs
  · exact hs
  · exact hs.1

theorem lockstep_alike (hg : Gapped x y) : Lockstep d 0 (Cursor.Alike d x y) where
  inLine h := by
    rw [Cursor.inLine, Cursor.inLine, h.held]
    exact Option.map_id'.symm
  errorLine h := by
    rw [Cursor.errorLine, Cursor.errorLine, h.held, h.line, Nat.add_zero]
  step h _ := advance_alike hg h

theorem blockContent_concur (hg : Gapped x y) (line : Nat) (h : c.Alike d x y c')
    (ht : c.inLine.isSome = true) :
    Concur d x y (blockContent d line c) (blockContent d line c') := by
  have hb := (lockstep_alike hg).blockContent (n := c.size) (m := c'.size) line h ht (by omega)
    (by omega)
  rw [Nat.add_zero] at hb
  cases hc : blockContent d line c <;> cases hc' : blockContent d line c' <;> rw [hc, hc'] at hb
  · exact ⟨hb.1, hb.2.1⟩
  · exact hb
  · exact hb
  · exact hb.1.1

theorem value_lineEnd (hg : Gapped x y) {α : Type} (a : α) (h : c.Alike d x y c') :
    value ((do lineEnd d; return a : Reader α) c') =
      value ((do lineEnd d; return a : Reader α) c) := by
  have L := lockstep_alike (d := d) hg
  simp only [lineEnd, bind_assoc, run_get, h.held]
  cases c.held with
  | none => rfl
  | some t =>
    dsimp only
    split
    · exact (advance_concur hg h).bind (fun _ _ _ _ => rfl)
    · have hfail : Concur d x y ((failWith .expectedLineEnd : Reader Unit) c)
          (failWith .expectedLineEnd c') := by
        simp only [failWith, L.errorLine h, L.found h, Nat.add_zero, Concur]
      exact hfail.bind (fun _ _ _ _ => rfl)

/-- The block at the held token does not depend on how many blanks are ahead. -/
theorem value_heldBlock (hg : Gapped x y) (h : c.Alike d x y c') :
    value (heldBlock d c') = value (heldBlock d c) := by
  simp only [heldBlock, run_get, h.held]
  cases hc : c.held with
  | none => rfl
  | some t =>
    dsimp only
    split
    · exact (advance_concur hg h).bind (fun _ _ _ _ => rfl)
    · rename_i hk
      have ht : c.inLine.isSome = true := by simp [Cursor.inLine, hc, Option.filter, hk]
      rw [value_map, value_map, blockFrom]
      exact congrArg (some <$> ·)
        ((blockContent_concur hg t.line h ht).bind (fun b _ _ ha => value_lineEnd hg b ha))

theorem value_nextBlock (hg : Gapped x y) (line : Nat) {front : List Char} (hu : Unbroken front)
    (hclear : Clear d x y front) :
    value (nextBlock d ⟨front ++ y, line, none⟩) =
      value (nextBlock d ⟨front ++ x, line, none⟩) := by
  have hstart : Cursor.Alike d x y ⟨front ++ x, line, none⟩ ⟨front ++ y, line, none⟩ :=
    ⟨rfl, rfl, .ahead hu hclear⟩
  rw [nextBlock_start d rfl, nextBlock_start d rfl]
  exact (advance_concur hg hstart).bind (fun _ _ _ ha => value_heldBlock hg ha)

end Reader

namespace Program

variable {d : Dialect} {u u' e r r' : List Char} {line : Nat}

theorem blocksAt_unbroken (d : Dialect) (line : Nat) (hu : Unbroken u) :
    blocksAt d line u = Option.toList <$> Reader.value (Reader.nextBlock d ⟨u, line, none⟩) := by
  rcases nextBlock_beside d line (.inl rfl : Scan.IsLineEnd ['\n'] []) hu with
    ⟨err, after, -, -, hn, -⟩ | ⟨found, -, -, -, hn, -⟩
  · rw [blocksAt_of_error hn, hn]
    rfl
  · rw [blocksAt_of_last hn rfl, hn]
    rfl

theorem blocksAt_leading (d : Dialect) (line : Nat) {blanks : List Char}
    (h : ∀ c ∈ blanks, isBlank c = true) (hu : Unbroken u) :
    blocksAt d line (blanks ++ u) = blocksAt d line u := by
  rw [blocksAt_unbroken d line (unbroken_append (unbroken_blanks h) hu),
    blocksAt_unbroken d line hu, Reader.value, Reader.nextBlock_leading d line h, Reader.value]

theorem blocksAt_gapped {x y front : List Char} (hg : Gapped x y) (line : Nat)
    (hu : Unbroken front) (hclear : Clear d x y front) :
    blocksAt d line (front ++ x) = blocksAt d line (front ++ y) := by
  rw [blocksAt_unbroken d line (unbroken_append hu hg.unbroken.1),
    blocksAt_unbroken d line (unbroken_append hu hg.unbroken.2),
    Reader.value_nextBlock hg line hu hclear]

theorem blocksAt_line_congr (he : Scan.IsLineEnd e r) (he' : Scan.IsLineEnd e r')
    (hu : Unbroken u) (hu' : Unbroken u') (h : blocksAt d line u = blocksAt d line u')
    (hr : blocksAt d (line + 1) r = blocksAt d (line + 1) r') :
    blocksAt d line (u ++ (e ++ r)) = blocksAt d line (u' ++ (e ++ r')) := by
  rcases blocksAt_line d line he hu with ⟨err, -, hx, hs⟩ | ⟨found, -, -, hx, hs⟩
  · rcases blocksAt_line d line he' hu' with ⟨err', -, hx', hs'⟩ | ⟨found', -, -, hx', hs'⟩
    · rw [hs, hs', ← hx, ← hx', h]
    · rw [hx, hx'] at h
      cases h
  · rcases blocksAt_line d line he' hu' with ⟨err', -, hx', hs'⟩ | ⟨found', -, -, hx', hs'⟩
    · rw [hx, hx'] at h
      cases h
    · rw [hx, hx'] at h
      have hfound : found = found' := by
        simpa using congrArg List.head? (Except.ok.inj h)
      rw [hs, hs', hfound, hr]

end Program

/-- The start of the text, or a line end, stands in front. -/
def atLineStart (front : List Char) : Bool := front.getLast?.all isLineEnd

def OneLineEnd (front back : List Char) : Prop :=
  front.getLast? = some '\r' ∧ back.head? = some '\n'

/-- Two texts that differ in blanks which are in none of their tokens. -/
inductive Reblanked (d : Dialect) : List Char → List Char → Prop
  /-- Other blanks, where no string, quoted number or comment has begun. -/
  | between {front x y back : List Char} (hfront : Part.behind d front = .code)
      (hx : x ≠ [] ∧ ∀ c ∈ x, isBlank c = true) (hy : y ≠ [] ∧ ∀ c ∈ y, isBlank c = true) :
      Reblanked d (front ++ (x ++ back)) (front ++ (y ++ back))
  /-- Blanks at the start of a line, unless they keep two line ends apart. -/
  | lineStart {front blanks back : List Char} (hfront : atLineStart front = true)
      (hb : ∀ c ∈ blanks, isBlank c = true) (hends : ¬ OneLineEnd front back) :
      Reblanked d (front ++ (blanks ++ back)) (front ++ back)
  /-- Blanks at the end of a line without a comment, unless they keep two line ends apart. -/
  | lineEnd {front blanks back : List Char} (hfront : (Part.behind d front).isComment = false)
      (hback : Scan.atLineEnd back = true) (hb : ∀ c ∈ blanks, isBlank c = true)
      (hends : ¬ OneLineEnd front back) :
      Reblanked d (front ++ (blanks ++ back)) (front ++ back)

section Lines

variable {d : Dialect} {lines u front blanks a a' : List Char}

theorem last_line (front : List Char) :
    ∃ lines u, front = lines ++ u ∧ atLineStart lines = true ∧ Unbroken u := by
  induction front using List.reverseRecOn with
  | nil => exact ⟨[], [], rfl, rfl, by simp [Unbroken]⟩
  | append_singleton front c ih =>
    cases hc : isLineEnd c with
    | true => exact ⟨front ++ [c], [], by simp, by simp [atLineStart, hc], by simp [Unbroken]⟩
    | false =>
      obtain ⟨lines, u, rfl, hl, hu⟩ := ih
      exact ⟨lines, u ++ [c], by simp, hl, unbroken_append hu (by simpa [Unbroken] using hc)⟩

theorem unbroken_atLineStart (h : atLineStart u = true) (hu : Unbroken u) : u = [] := by
  cases hc : u.getLast? with
  | none => exact List.getLast?_eq_none_iff.mp hc
  | some c =>
    have hl := hu c (List.mem_of_getLast? hc)
    simp [atLineStart, hc, hl] at h

theorem behind_lines (h : atLineStart lines = true) :
    Part.behind d (lines ++ u) = Part.behind d u := by
  rcases List.eq_nil_or_concat lines with rfl | ⟨init, c, rfl⟩
  · rfl
  · have hc : isLineEnd c = true := by simpa [atLineStart] using h
    rw [Part.behind, List.foldl_append, List.concat_eq_append, List.foldl_append, List.foldl_cons,
      List.foldl_nil, Part.step_lineEnd hc, Part.behind]

theorem not_oneLineEnd (h : ∀ c ∈ a.head?, isLineEnd c = false) : ¬ OneLineEnd lines a := by
  rintro ⟨-, ha⟩
  cases h _ ha

theorem not_oneLineEnd_blanks (hu : Unbroken u) (hb : ∀ c ∈ blanks, isBlank c = true)
    (h : ¬ OneLineEnd (lines ++ u) a) : ¬ OneLineEnd lines (u ++ (blanks ++ a)) := by
  cases u with
  | cons c u => exact not_oneLineEnd (fun e he => by cases he; exact hu c List.mem_cons_self)
  | nil =>
    cases blanks with
    | cons c blanks =>
      exact not_oneLineEnd (fun e he => by cases he; exact unbroken_blanks hb c List.mem_cons_self)
    | nil => simpa using h

namespace Program

theorem blocksAt_behind (h : ∀ line, blocksAt d line a = blocksAt d line a')
    (hl : atLineStart lines = true) (ha : ¬ OneLineEnd lines a) (ha' : ¬ OneLineEnd lines a')
    (line : Nat) : blocksAt d line (lines ++ a) = blocksAt d line (lines ++ a') := by
  induction lines using lines_induction generalizing line with
  | last u hu =>
    rw [unbroken_atLineStart hl hu]
    exact h line
  | line u e r hu he ih =>
    have hlast : r ≠ [] → (u ++ (e ++ r)).getLast? = r.getLast? := by
      intro hr
      rw [← List.append_assoc, List.getLast?_append_of_ne_nil _ hr]
    have hends : ∀ a, ¬ OneLineEnd (u ++ (e ++ r)) a →
        Scan.IsLineEnd e (r ++ a) ∧ ¬ OneLineEnd r a := by
      intro a ha
      cases r with
      | nil =>
        refine ⟨?_, by simp [OneLineEnd]⟩
        rcases he with rfl | rfl | ⟨rfl, -⟩
        · exact .inl rfl
        · exact .inr (.inl rfl)
        · exact .inr (.inr ⟨rfl, fun h => ha ⟨by simp, h⟩⟩)
      | cons c r =>
        rw [OneLineEnd, hlast (List.cons_ne_nil c r)] at ha
        exact ⟨he, ha⟩
    have hstart : atLineStart r = true := by
      cases r with
      | nil => rfl
      | cons c r => rwa [atLineStart, hlast (List.cons_ne_nil c r)] at hl
    obtain ⟨hx, hx'⟩ := hends a ha
    obtain ⟨hy, hy'⟩ := hends a' ha'
    simp only [List.append_assoc]
    exact blocksAt_line_congr hx hy hu hu rfl (ih hstart hx' hy' (line + 1))

theorem blocksAt_around {x y back : List Char} (hl : atLineStart lines = true) (hu : Unbroken u)
    (hx : ∀ c ∈ x, isBlank c = true) (hy : ∀ c ∈ y, isBlank c = true)
    (hex : ¬ OneLineEnd lines (u ++ (x ++ back))) (hey : ¬ OneLineEnd lines (u ++ (y ++ back)))
    (h : ∀ b, Unbroken b → b <+: back → ∀ line,
      blocksAt d line (u ++ (x ++ b)) = blocksAt d line (u ++ (y ++ b))) (line : Nat) :
    blocksAt d line (lines ++ (u ++ (x ++ back))) =
      blocksAt d line (lines ++ (u ++ (y ++ back))) := by
  refine blocksAt_behind (fun line => ?_) hl hex hey line
  rcases line_cases back with hb | ⟨b, e, r, rfl, hb, he⟩
  · exact h back hb (List.prefix_refl _) line
  · have hline := h b hb (List.prefix_append _ _) line
    have hux := unbroken_append hu (unbroken_append (unbroken_blanks hx) hb)
    have huy := unbroken_append hu (unbroken_append (unbroken_blanks hy) hb)
    simpa only [List.append_assoc] using blocksAt_line_congr he he hux huy hline rfl

end Program

end Lines

theorem gapped_blanks {x y b : List Char} (hx : x ≠ [] ∧ ∀ c ∈ x, isBlank c = true)
    (hy : y ≠ [] ∧ ∀ c ∈ y, isBlank c = true) (hb : Unbroken b) :
    Gapped (x ++ b) (y ++ b) where
  left c hc := by
    rw [List.head?_append_of_ne_nil _ hx.1] at hc
    exact hx.2 c (List.mem_of_head? hc)
  right c hc := by
    rw [List.head?_append_of_ne_nil _ hy.1] at hc
    exact hy.2 c (List.mem_of_head? hc)
  same := by rw [List.dropWhile_append_of_pos hx.2, List.dropWhile_append_of_pos hy.2]
  unbroken := ⟨unbroken_append (unbroken_blanks hx.2) hb, unbroken_append (unbroken_blanks hy.2) hb⟩

theorem gapped_end {blanks : List Char} (hb : ∀ c ∈ blanks, isBlank c = true) :
    Gapped blanks [] where
  left c hc := hb c (List.mem_of_head? hc)
  right c hc := by cases hc
  same := List.dropWhile_eq_nil_iff.mpr hb
  unbroken := ⟨unbroken_blanks hb, by simp [Unbroken]⟩

namespace Program

variable {d : Dialect} {front x y blanks back : List Char}

theorem blocksAt_between (hfront : Part.behind d front = .code)
    (hx : x ≠ [] ∧ ∀ c ∈ x, isBlank c = true) (hy : y ≠ [] ∧ ∀ c ∈ y, isBlank c = true)
    (line : Nat) :
    blocksAt d line (front ++ (x ++ back)) = blocksAt d line (front ++ (y ++ back)) := by
  obtain ⟨lines, u, rfl, hl, hu⟩ := last_line front
  rw [behind_lines hl] at hfront
  have hfirst : ∀ {z : List Char}, (z ≠ [] ∧ ∀ c ∈ z, isBlank c = true) →
      ¬ OneLineEnd lines (u ++ (z ++ back)) := by
    intro z hz
    apply not_oneLineEnd
    intro c hc
    have hne : u ++ z ≠ [] := by simp [hz.1]
    rw [← List.append_assoc, List.head?_append_of_ne_nil _ hne] at hc
    exact unbroken_append hu (unbroken_blanks hz.2) c (List.mem_of_head? hc)
  simp only [List.append_assoc]
  refine blocksAt_around hl hu hx.2 hy.2 (hfirst hx) (hfirst hy) (fun b hb _ line => ?_) line
  exact blocksAt_gapped (gapped_blanks hx hy hb) line hu (.inl hfront)

theorem blocksAt_lineStart (hfront : atLineStart front = true)
    (hb : ∀ c ∈ blanks, isBlank c = true) (hends : ¬ OneLineEnd front back) (line : Nat) :
    blocksAt d line (front ++ (blanks ++ back)) = blocksAt d line (front ++ back) := by
  have hnil : Unbroken [] := by simp [Unbroken]
  have hkept : ¬ OneLineEnd front ([] ++ (blanks ++ back)) :=
    not_oneLineEnd_blanks hnil hb (by simpa using hends)
  exact blocksAt_around (y := []) hfront hnil hb (by simp) hkept hends
    (fun b hu _ line => blocksAt_leading d line hb hu) line

theorem blocksAt_lineEnd (hfront : (Part.behind d front).isComment = false)
    (hback : Scan.atLineEnd back = true) (hb : ∀ c ∈ blanks, isBlank c = true)
    (hends : ¬ OneLineEnd front back) (line : Nat) :
    blocksAt d line (front ++ (blanks ++ back)) = blocksAt d line (front ++ back) := by
  obtain ⟨lines, u, rfl, hl, hu⟩ := last_line front
  rw [behind_lines hl] at hfront
  have hnil : ∀ c ∈ ([] : List Char), isBlank c = true := by simp
  simp only [List.append_assoc]
  refine blocksAt_around (y := []) hl hu hb hnil (not_oneLineEnd_blanks hu hb hends)
    (not_oneLineEnd_blanks hu hnil hends) (fun b hub hpre line => ?_) line
  have hlast : b = [] := by
    cases b with
    | nil => rfl
    | cons c b =>
      obtain ⟨more, rfl⟩ := hpre
      have hc : isLineEnd c = false := hub c List.mem_cons_self
      rw [Scan.atLineEnd.eq_def] at hback
      simp [hc] at hback
  subst hlast
  simpa using blocksAt_gapped (gapped_end hb) line hu (.inr ⟨hfront, hb, hnil⟩)

/-- Only the presence of blanks matters: two texts that differ in blanks which are in none of
their tokens are the same program, or fail with the same error. -/
theorem parse_reblanked (d : Dialect) (text text' : String)
    (h : Reblanked d text.toList text'.toList) : parse d text' = parse d text := by
  have hblocks : blocksAt d 1 text'.toList = blocksAt d 1 text.toList := by
    generalize text.toList = cs at h
    generalize text'.toList = cs' at h
    cases h with
    | between hfront hx hy => exact (blocksAt_between hfront hx hy 1).symm
    | lineStart hfront hb hends => exact (blocksAt_lineStart hfront hb hends 1).symm
    | lineEnd hfront hback hb hends => exact (blocksAt_lineEnd hfront hback hb hends 1).symm
  rw [parse_eq, parse_eq, hblocks]

theorem parse_reblanked_words :
    Reblanked {} ("MSG(\x22a  b\x22) ; c  d\r\nN20 G1" ++ (" " ++ "X2\n")).toList
        ("MSG(\x22a  b\x22) ; c  d\r\nN20 G1" ++ ("\t \x0c" ++ "X2\n")).toList ∧
      parse {} ("MSG(\x22a  b\x22) ; c  d\r\nN20 G1" ++ ("\t \x0c" ++ "X2\n")) =
        parse {} ("MSG(\x22a  b\x22) ; c  d\r\nN20 G1" ++ (" " ++ "X2\n")) := by
  have h : Reblanked {} ("MSG(\x22a  b\x22) ; c  d\r\nN20 G1" ++ (" " ++ "X2\n")).toList
      ("MSG(\x22a  b\x22) ; c  d\r\nN20 G1" ++ ("\t \x0c" ++ "X2\n")).toList := by
    simp only [String.toList_append]
    exact .between (by simp [Part.behind, Part.step, isLineEnd]) ⟨by simp, by simp [isBlank]⟩
      ⟨by simp, by simp [isBlank]⟩
  exact ⟨h, parse_reblanked {} _ _ h⟩

/-- A blank line between a carriage return and a line feed is a block of its own. Without its
blank the two are one line end, and the block is gone. -/
theorem parse_blank_line_between_line_ends :
    atLineStart "M6\r".toList = true ∧ (∀ c ∈ " ".toList, isBlank c = true) ∧
      (parse {} ("M6\r" ++ (" " ++ "\nM8"))).toOption.map (·.blocks.map Block.line) =
        some [1, 2, 3] ∧
      (parse {} ("M6\r" ++ "\nM8")).toOption.map (·.blocks.map Block.line) = some [1, 2] ∧
      parse {} ("M6\r" ++ (" " ++ "\nM8")) ≠ parse {} ("M6\r" ++ "\nM8") := by
  have hapart : (parse {} ("M6\r" ++ (" " ++ "\nM8"))).toOption.map (·.blocks.map Block.line) =
      some [1, 2, 3] := by decide +kernel
  have hjoined : (parse {} ("M6\r" ++ "\nM8")).toOption.map (·.blocks.map Block.line) =
      some [1, 2] := by decide +kernel
  refine ⟨rfl, by simp [isBlank], hapart, hjoined, fun h => ?_⟩
  rw [h, hjoined] at hapart
  cases hapart

end Program

end PartProgram
