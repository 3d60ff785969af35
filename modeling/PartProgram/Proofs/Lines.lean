import PartProgram.Proofs.Lines.Block

/-!
# Reading line by line

A program is read one line at a time, and its blocks stand on consecutive lines.
-/

set_option autoImplicit false

namespace PartProgram

variable {d : Dialect} {u e r : List Char} {line : Nat}

def cutLines : List Char → List (List Char)
  | [] => [[]]
  | '\r' :: '\n' :: cs => [] :: cutLines cs
  | c :: cs =>
    if isLineEnd c then [] :: cutLines cs
    else
      match cutLines cs with
      | line :: lines => (c :: line) :: lines
      | [] => [[c]]

theorem cutLines_lineEnd (he : Scan.IsLineEnd e r) : cutLines (e ++ r) = [] :: cutLines r := by
  rcases he with rfl | rfl | ⟨rfl, hr⟩
  · rfl
  · rfl
  · cases r with
    | nil => rfl
    | cons c r =>
      have hc : c ≠ '\n' := by simpa using hr
      simp [cutLines, hc, isLineEnd]

theorem cutLines_cons {c : Char} (hc : isLineEnd c = false) {cs line : List Char}
    {lines : List (List Char)} (h : cutLines cs = line :: lines) :
    cutLines (c :: cs) = (c :: line) :: lines := by
  have hr : c ≠ '\r' := by rintro rfl; cases hc
  rw [cutLines]
  · simp [hc, h]
  · intro _ hx
    exact absurd hx hr

theorem cutLines_line (he : Scan.IsLineEnd e r) (hu : Unbroken u) :
    cutLines (u ++ (e ++ r)) = u :: cutLines r := by
  induction u with
  | nil => exact cutLines_lineEnd he
  | cons c u ih =>
    exact cutLines_cons (hu c (List.mem_cons_self ..))
      (ih (fun x hx => hu x (List.mem_cons_of_mem _ hx)))

theorem cutLines_unbroken (hu : Unbroken u) : cutLines u = [u] := by
  induction u with
  | nil => rfl
  | cons c u ih =>
    exact cutLines_cons (hu c (List.mem_cons_self ..))
      (ih (fun x hx => hu x (List.mem_cons_of_mem _ hx)))

theorem line_cases (cs : List Char) :
    Unbroken cs ∨ ∃ u e r, cs = u ++ (e ++ r) ∧ Unbroken u ∧ Scan.IsLineEnd e r := by
  induction cs with
  | nil => exact .inl (by simp [Unbroken])
  | cons c cs ih =>
    cases hc : isLineEnd c with
    | true =>
      right
      rcases isLineEnd_iff.mp hc with rfl | rfl
      · by_cases hn : cs.head? = some '\n'
        · obtain ⟨rest, rfl⟩ := List.head?_eq_some_iff.mp hn
          exact ⟨[], ['\r', '\n'], rest, rfl, by simp [Unbroken], .inr (.inl rfl)⟩
        · exact ⟨[], ['\r'], cs, rfl, by simp [Unbroken], .inr (.inr ⟨rfl, hn⟩)⟩
      · exact ⟨[], ['\n'], cs, rfl, by simp [Unbroken], .inl rfl⟩
    | false =>
      rcases ih with hu | ⟨u, e, r, rfl, hu, he⟩
      · exact .inl (by simpa [Unbroken, hc] using hu)
      · exact .inr ⟨c :: u, e, r, rfl, by simpa [Unbroken, hc] using hu, he⟩

theorem lines_induction {motive : List Char → Prop} (last : ∀ u, Unbroken u → motive u)
    (line : ∀ u e r, Unbroken u → Scan.IsLineEnd e r → motive r → motive (u ++ (e ++ r)))
    (cs : List Char) : motive cs := by
  induction hn : cs.length using Nat.strongRecOn generalizing cs with
  | ind n ih =>
    rcases line_cases cs with hu | ⟨u, e, r, rfl, hu, he⟩
    · exact last cs hu
    · refine line u e r hu he (ih r.length ?_ r rfl)
      have : 0 < e.length := by rcases he with rfl | rfl | ⟨rfl, -⟩ <;> decide
      simp only [List.length_append] at hn
      omega

namespace Program

/-- The blocks of a text stand on consecutive lines. -/
theorem blocksAt_lines (d : Dialect) (cs : List Char) (line : Nat) {blocks : List Block}
    (h : blocksAt d line cs = .ok blocks) (i : Nat) (hi : i < blocks.length) :
    blocks[i].line = line + i := by
  induction cs using lines_induction generalizing line blocks i with
  | last u hu =>
    rcases blocksAt_line d line (.inl rfl : Scan.IsLineEnd ['\n'] []) hu with
      ⟨err, -, hx, -⟩ | ⟨found, -, hl, hx, -⟩
    · simp [hx] at h
    · rw [hx] at h
      cases h
      cases found with
      | none => simp at hi
      | some b =>
        have hz : i = 0 := by simpa using hi
        subst hz
        exact hl b rfl
  | line u e r hu he ih =>
    rcases blocksAt_line d line he hu with ⟨err, -, -, hx⟩ | ⟨found, -, hl, -, hx⟩
    · simp [hx] at h
    · rw [hx] at h
      cases hr : blocksAt d (line + 1) r with
      | error err => simp [hr] at h
      | ok rest =>
        rw [hr] at h
        cases h
        cases i with
        | zero =>
          cases found with
          | none => rfl
          | some b => exact hl b rfl
        | succ i =>
          have := ih (line + 1) hr i (by simpa using hi)
          simpa [Nat.add_assoc, Nat.add_comm 1 i] using this

theorem blocksAt_error (d : Dialect) (cs : List Char) {err : ReadError}
    (h : blocksAt d 1 cs = .error err) :
    ∃ i u, (cutLines cs)[i]? = some u ∧ err.line = i + 1 ∧
      blocksAt d 1 u = .error { err with line := 1 } ∧
      ∀ j v, j < i → (cutLines cs)[j]? = some v → ∃ blocks, blocksAt d 1 v = .ok blocks := by
  induction cs using lines_induction generalizing err with
  | last u hu =>
    rcases blocksAt_line d 1 (.inl rfl : Scan.IsLineEnd ['\n'] []) hu with
      ⟨err', hl, hx, -⟩ | ⟨found, -, -, hx, -⟩
    · rw [hx] at h
      cases h
      refine ⟨0, u, by simp [cutLines_unbroken hu], hl, by rw [hx, ← hl], by simp⟩
    · simp [hx] at h
  | line u e r hu he ih =>
    rw [cutLines_line he hu]
    rcases blocksAt_line d 1 he hu with ⟨err', hl, hx, hx'⟩ | ⟨found, -, -, hx, hx'⟩
    · rw [hx'] at h
      cases h
      exact ⟨0, u, rfl, hl, by rw [hx, ← hl], by simp⟩
    · rw [hx', blocksAt_below d 1 1 r] at h
      cases hr : blocksAt d 1 r with
      | ok rest => simp [hr, shift] at h
      | error err' =>
        rw [hr] at h
        cases h
        obtain ⟨i, v, hv, hl, hvx, hprev⟩ := ih hr
        refine ⟨i + 1, v, hv, congrArg (· + 1) hl, hvx, ?_⟩
        intro j w hj hw
        cases j with
        | zero =>
          cases hw
          exact ⟨_, hx⟩
        | succ j => exact hprev j w (by omega) hw

def behind (first : Block) : Except ReadError Program → Except ReadError Program
  | .ok p => .ok ⟨first :: p.blocks.map (Block.below 1)⟩
  | .error err => .error (err.below 1)

theorem parse_error_iff {text : String} {err : ReadError} :
    parse d text = .error err ↔ blocksAt d 1 text.toList = .error err := by
  rw [parse_eq]
  cases blocksAt d 1 text.toList <;> simp

theorem parse_ok_iff {text : String} {p : Program} :
    parse d text = .ok p ↔ blocksAt d 1 text.toList = .ok p.blocks := by
  rw [parse_eq]
  cases blocksAt d 1 text.toList with
  | error err => simp
  | ok blocks =>
    cases p with
    | mk list => simp

theorem parse_line_error {a e r : String} {err : ReadError} (hu : Unbroken a.toList)
    (he : Scan.IsLineEnd e.toList r.toList) (h : parse d a = .error err) :
    err.line = 1 ∧ parse d (a ++ e ++ r) = .error err := by
  have happ : (a ++ e ++ r).toList = a.toList ++ (e.toList ++ r.toList) := by simp
  rw [parse_error_iff] at h ⊢
  rw [happ]
  rcases blocksAt_line d 1 he hu with ⟨err', hl, hx, hx'⟩ | ⟨found, -, -, hx, -⟩
  · rw [hx] at h
    cases h
    exact ⟨hl, hx'⟩
  · simp [hx] at h

theorem parse_line_ok {a e r : String} {p : Program} (hu : Unbroken a.toList)
    (he : Scan.IsLineEnd e.toList r.toList) (h : parse d a = .ok p) :
    (p.blocks = [] ↔ a.toList.all isBlank = true) ∧
      (a.toList.all isBlank = false → ∃ b, p.blocks = [b] ∧ b.line = 1) ∧
      parse d (a ++ e ++ r) = behind (p.blocks.headD { line := 1 }) (parse d r) := by
  have happ : (a ++ e ++ r).toList = a.toList ++ (e.toList ++ r.toList) := by simp
  rw [parse_ok_iff] at h
  rw [parse_eq, parse_eq, happ]
  rcases blocksAt_line d 1 he hu with ⟨err', -, hx, -⟩ | ⟨found, hf, hl, hx, hx'⟩
  · simp [hx] at h
  · rw [hx] at h
    have hb : p.blocks = found.toList := (Except.ok.inj h).symm
    rw [hx', blocksAt_below d 1 1, hb]
    refine ⟨?_, ?_, ?_⟩
    · rw [← hf]
      cases found <;> simp
    · intro hblank
      cases found with
      | none => simp [hf.mp rfl] at hblank
      | some b => exact ⟨b, rfl, hl b rfl⟩
    · cases found <;> cases blocksAt d 1 r.toList <;> rfl

/-- Reading goes line by line. The error of a line is the error of every text that
begins with it. The block of a line, which is empty if the line is blank, stands in
front of what follows, read one line further down. Blocks therefore stand on
consecutive lines, and an error is that of the first line which has one. -/
theorem parse_line_by_line (d : Dialect) :
    (∀ a e r : String, Unbroken a.toList → Scan.IsLineEnd e.toList r.toList →
      (∀ err, parse d a = .error err → err.line = 1 ∧ parse d (a ++ e ++ r) = .error err) ∧
      ∀ p, parse d a = .ok p →
        (p.blocks = [] ↔ a.toList.all isBlank = true) ∧
        (a.toList.all isBlank = false → ∃ b, p.blocks = [b] ∧ b.line = 1) ∧
        parse d (a ++ e ++ r) = behind (p.blocks.headD { line := 1 }) (parse d r)) ∧
    (∀ text p, parse d text = .ok p →
      ∀ (i : Nat) (hi : i < p.blocks.length), p.blocks[i].line = i + 1) ∧
    ∀ text err, parse d text = .error err →
      ∃ i u, (cutLines text.toList)[i]? = some u ∧ err.line = i + 1 ∧
        parse d (String.ofList u) = .error { err with line := 1 } ∧
        ∀ j v, j < i → (cutLines text.toList)[j]? = some v →
          ∃ p, parse d (String.ofList v) = .ok p := by
  refine ⟨?_, ?_, ?_⟩
  · intro a e r hu he
    exact ⟨fun err h => parse_line_error hu he h, fun p h => parse_line_ok hu he h⟩
  · intro text p h i hi
    rw [blocksAt_lines d text.toList 1 (parse_ok_iff.mp h) i hi, Nat.add_comm]
  · intro text err h
    obtain ⟨i, u, hu, hl, hx, hprev⟩ := blocksAt_error d text.toList (parse_error_iff.mp h)
    refine ⟨i, u, hu, hl, ?_, ?_⟩
    · rwa [parse_error_iff, String.toList_ofList]
    · intro j v hj hv
      obtain ⟨blocks, hb⟩ := hprev j v hj hv
      refine ⟨⟨blocks⟩, ?_⟩
      rwa [parse_ok_iff, String.toList_ofList]

theorem parse_line_by_line_code :
    Unbroken "G1".toList ∧ Scan.IsLineEnd "\r\n".toList "G".toList ∧
      parse {} ("G1" ++ "\r\n" ++ "G") = .error ⟨2, .unexpectedLineEnd⟩ := by
  have hu : Unbroken "G1".toList := by simp [Unbroken, isLineEnd]
  have he : Scan.IsLineEnd "\r\n".toList "G".toList := .inr (.inl rfl)
  refine ⟨hu, he, ?_⟩
  rw [(((parse_line_by_line {}).1 "G1" "\r\n" "G" hu he).2
    ⟨[{ line := 1, statements := [.gcode 1 none] }]⟩ rfl).2.2]
  rfl

end Program

end PartProgram
