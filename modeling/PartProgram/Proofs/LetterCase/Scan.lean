import PartProgram.Proofs.LetterCase.Fold

/-!
# Scanning in upper case

A text in upper case has the same tokens as the text itself, with their letters as capitals
too, and the scan of it fails for the same cause.
-/

set_option autoImplicit false

namespace PartProgram

def foldText (kind : TokenKind) (text : List Char) : List Char :=
  match kind with
  | .string | .comment => text
  | _ => text.map Char.toUpper

def Token.fold (t : Token) : Token :=
  { t with text := String.ofList (foldText t.kind t.text.toList) }

def Lexeme.FoldsTo (d : Dialect) : Lexeme → Lexeme → Prop
  | found kind text rest, l => l = found kind (foldText kind text) (foldCase d .code rest)
  | fault cause _, l => ∃ rest, l = fault cause rest

theorem Lexeme.FoldsTo.ite {d : Dialect} {b : Prop} [Decidable b] {l m l' m' : Lexeme}
    (ht : b → l.FoldsTo d l') (hf : ¬b → m.FoldsTo d m') :
    (if b then l else m).FoldsTo d (if b then l' else m') := by
  by_cases hb : b
  · rw [if_pos hb, if_pos hb]
    exact ht hb
  · rw [if_neg hb, if_neg hb]
    exact hf hb

namespace Scan

variable (d : Dialect)

theorem coded_digit : Coded Char.isDigit := by
  unfold Coded
  decide

theorem coded_blank : Coded isBlank := by
  unfold Coded
  decide

theorem coded_word : Coded (fun c => isNameChar c || c.isDigit) := by
  unfold Coded
  decide

theorem cutName_toUpper (cs : List Char) :
    cutName (cs.map Char.toUpper) = (cutName cs).map Char.toUpper := by
  match cs with
  | [] => rfl
  | [a] => rfl
  | [a, b] =>
    simp only [List.map_cons, List.map_nil, cutName, isDigit_toUpper]
    split <;> rfl
  | a :: b :: c :: cs =>
    simp only [List.map_cons, cutName, isDigit_toUpper, isEx, toUpper_toUpper]
    by_cases hb : b.isDigit = true
    · simp [hb]
    · by_cases hc : (a.toUpper == 'E' && b.toUpper == 'X' && c.isDigit) = true <;> simp [hb, hc]

theorem name_taken (cs : List Char) :
    ∀ c ∈ cs.take (cutName (cs.takeWhile (fun c => isNameChar c || c.isDigit))).length,
      (isNameChar c || c.isDigit) = true := by
  have hfront := cutName_begins (cs.takeWhile (fun c => isNameChar c || c.isDigit))
  rw [← List.prefix_iff_eq_take.mp (hfront.trans (List.takeWhile_prefix _))]
  exact fun c hc => List.mem_takeWhile_imp (p := fun c => isNameChar c || c.isDigit)
    (hfront.subset hc)

theorem name_fold (cs : List Char) : (name cs).FoldsTo d (name (foldCase d .code cs)) := by
  have hword : ∀ c : Char, (isNameChar c.toUpper || c.toUpper.isDigit) =
      (isNameChar c || c.isDigit) := by
    intro c
    rw [isNameChar_toUpper, isDigit_toUpper]
  have hrun := takeWhile_code (d := d) hword coded_word cs
  have htext : cutName ((foldCase d .code cs).takeWhile (fun c => isNameChar c || c.isDigit)) =
      (cutName (cs.takeWhile (fun c => isNameChar c || c.isDigit))).map Char.toUpper := by
    rw [hrun, cutName_toUpper]
  have hname : upper (String.ofList
      ((cutName (cs.takeWhile (fun c => isNameChar c || c.isDigit))).map Char.toUpper)) =
      upper (String.ofList (cutName (cs.takeWhile (fun c => isNameChar c || c.isDigit)))) := by
    rw [upper, String.toList_ofList, List.map_map, upper, String.toList_ofList]
    exact congrArg String.ofList (List.map_congr_left (fun c _ => toUpper_toUpper c))
  simp only [name, Lexeme.FoldsTo, htext, List.length_map,
    drop_foldCase coded_word _ (name_taken cs), sameLetters_congr hname]
  split <;> rfl

theorem number_fold (cs : List Char) : (number cs).FoldsTo d (number (foldCase d .code cs)) := by
  have hdigits := takeWhile_code (d := d) isDigit_toUpper coded_digit
  have hbehind := dropWhile_code (d := d) isDigit_toUpper coded_digit
  have hpoint : ∀ cs : List Char, foldCase d .code ('.' :: cs) = '.' :: foldCase d .code cs :=
    foldCase_coded (p := (· == '.')) (by unfold Coded; decide) rfl
  have hother : ∀ {c : Char}, c ≠ '.' → c.toUpper ≠ '.' :=
    fun hc h => hc ((toUpper_eq_iff rfl).mp h)
  simp only [number, hdigits, hbehind]
  cases cs.dropWhile Char.isDigit with
  | nil => rfl
  | cons c rest =>
    by_cases hc : c = '.'
    · subst hc
      simp only [hpoint, hdigits, hbehind]
      cases rest.dropWhile Char.isDigit with
      | nil => simp [Lexeme.FoldsTo, foldText, foldCase]
      | cons e beyond =>
        by_cases he : e = '.'
        · subst he
          simp only [hpoint]
          exact ⟨_, rfl⟩
        · simp [Lexeme.FoldsTo, foldText, foldCase, Part.letter, he, hother he]
    · simp [Lexeme.FoldsTo, foldText, foldCase, Part.letter, hc, hother hc]

theorem delimited_closed (kind : TokenKind) {delimiter : Char} (cause : ReadCause) {cs : List Char}
    (h : closes delimiter cs = true) :
    ∃ rest, cs.dropWhile (fun c => !isLineEnd c && c != delimiter) = delimiter :: rest ∧
      delimited kind delimiter cause cs =
        .found kind (cs.takeWhile (fun c => !isLineEnd c && c != delimiter)) rest := by
  rw [closes, beq_iff_eq, List.head?_eq_some_iff] at h
  obtain ⟨rest, hrest⟩ := h
  refine ⟨rest, hrest, ?_⟩
  simp [delimited, hrest]

theorem delimited_open (kind : TokenKind) {delimiter : Char} (cause : ReadCause) {cs : List Char}
    (h : closes delimiter cs = false) :
    ∃ rest, delimited kind delimiter cause cs = .fault cause rest := by
  unfold closes at h
  simp only [delimited]
  cases hcs : cs.dropWhile (fun c => !isLineEnd c && c != delimiter) with
  | nil => exact ⟨[], rfl⟩
  | cons c rest =>
    rw [hcs] at h
    have hc : (c == delimiter) = false := by simpa using h
    exact ⟨c :: rest, by simp only [hc, Bool.false_eq_true, if_false]⟩

theorem delimited_fold (kind : TokenKind) {delimiter : Char}
    (hdelimiter : delimiter.isAlpha = false) (cause : ReadCause) (cs : List Char)
    (hkind : ∀ text, foldText kind text = text.map (Part.within delimiter).letter) :
    (delimited kind delimiter cause cs).FoldsTo d
      (delimited kind delimiter cause (foldCase d (.within delimiter) cs)) := by
  have hsame := closes_foldCase hdelimiter d (.within delimiter) cs
  cases h : closes delimiter cs with
  | false =>
    rw [h] at hsame
    obtain ⟨rest, hopen⟩ := delimited_open kind cause h
    rw [hopen]
    exact delimited_open kind cause hsame
  | true =>
    rw [h] at hsame
    obtain ⟨rest, hrest, hfound⟩ := delimited_closed kind cause h
    obtain ⟨rest', hrest', hfound'⟩ := delimited_closed kind cause hsame
    rw [dropWhile_within hdelimiter, hrest, foldCase_closing hdelimiter] at hrest'
    rw [hfound, hfound', takeWhile_within hdelimiter, Lexeme.FoldsTo, hkind,
      (List.cons.inj hrest').2]

theorem foldCase_atLineEnd {cs : List Char} (h : atLineEnd cs = true) (closing : Char) :
    foldCase d (.within closing) cs = foldCase d .code cs := by
  cases cs with
  | nil => rfl
  | cons c cs =>
    have hc : isLineEnd c = true := h
    have hupper : c.toUpper = c := by
      rcases isLineEnd_iff.mp hc with rfl | rfl <;> rfl
    have hbegun : Part.begun d c cs = .code :=
      begun_of_coded (p := isLineEnd) (by unfold Coded; decide) d c cs hc
    simp [foldCase, Part.next, hc, Part.letter, hupper, hbegun]

theorem atLineEnd_foldCase (part : Part) (cs : List Char) :
    atLineEnd (foldCase d part cs) = atLineEnd cs := by
  cases cs with
  | nil => rfl
  | cons c cs => exact letter_congr isLineEnd_toUpper part c

theorem braceComment_fold (cs : List Char) :
    (braceComment cs).FoldsTo d (braceComment (foldCase d (.within ')') cs)) := by
  have hclosing : ')'.isAlpha = false := rfl
  have hletter : (Part.within ')').letter = id := rfl
  have hblanks := dropWhile_code (d := d) isBlank_toUpper coded_blank
  simp only [braceComment, takeWhile_within hclosing, dropWhile_within hclosing, hletter,
    List.map_id]
  cases hcs : cs.dropWhile (fun c => !isLineEnd c && c != ')') with
  | nil => rfl
  | cons c rest =>
    by_cases hc : c = ')'
    · subst hc
      simp only [foldCase_closing hclosing, hblanks, atLineEnd_foldCase]
      apply Lexeme.FoldsTo.ite
      · exact fun _ => rfl
      · exact fun _ => ⟨_, rfl⟩
    · -- The line ends before the comment is closed.
      have hfirst := List.head?_dropWhile_not (fun c => !isLineEnd c && c != ')') cs
      rw [hcs] at hfirst
      have hend : atLineEnd (c :: rest) = true := by simpa [hc, atLineEnd] using hfirst
      rw [foldCase_atLineEnd d hend]
      have hc' : c.toUpper ≠ ')' := fun h => hc ((toUpper_eq_iff rfl).mp h)
      simp [Lexeme.FoldsTo, foldText, foldCase, Part.letter, hc, hc']

theorem lineComment_fold (cs : List Char) :
    (lineComment cs).FoldsTo d (lineComment (foldCase d (.within '\n') cs)) := by
  have hinside : (fun c => !isLineEnd c) = fun c => !isLineEnd c && c != '\n' := by
    funext c
    by_cases hc : c = '\n'
    · subst hc
      rfl
    · simp [hc]
  have hletter : (Part.within '\n').letter = id := rfl
  have hend : atLineEnd (cs.dropWhile (fun c => !isLineEnd c)) = true := by
    have hfirst := List.head?_dropWhile_not (fun c => !isLineEnd c) cs
    cases hcs : cs.dropWhile (fun c => !isLineEnd c) with
    | nil => rfl
    | cons c rest =>
      rw [hcs] at hfirst
      simpa [atLineEnd] using hfirst
  rw [hinside] at hend
  have hclosing : '\n'.isAlpha = false := rfl
  simp only [lineComment, hinside, takeWhile_within hclosing, dropWhile_within hclosing, hletter,
    List.map_id, Lexeme.FoldsTo, foldText, foldCase_atLineEnd d hend]

theorem isOperatorChar_toUpper (c : Char) : isOperatorChar c.toUpper = isOperatorChar c := by
  simp only [isOperatorChar, List.contains_cons, List.contains_nil, beq_toUpper c (d := '*') rfl,
    beq_toUpper c (d := '/') rfl, beq_toUpper c (d := '+') rfl, beq_toUpper c (d := '-') rfl,
    beq_toUpper c (d := '<') rfl, beq_toUpper c (d := '>') rfl, beq_toUpper c (d := '=') rfl]

theorem joins_toUpper (a c : Char) : joins a c.toUpper = joins a c := by
  have hpair : ∀ {b e : Char}, e.isAlpha = false →
      ((a, c.toUpper) == (b, e)) = ((a, c) == (b, e)) :=
    fun he => congrArg (_ && ·) (beq_toUpper c he)
  simp only [joins, List.contains_cons, List.contains_nil, hpair (e := '<') rfl,
    hpair (e := '=') rfl, hpair (e := '>') rfl]

theorem operator_fold {c : Char} (hc : c.toUpper = c) (cs : List Char) :
    (operator c cs).FoldsTo d (operator c (foldCase d .code cs)) := by
  cases cs with
  | nil => simp [operator, Lexeme.FoldsTo, foldText, foldCase, hc]
  | cons next rest =>
    simp only [operator, foldCase, Part.letter, joins_toUpper]
    apply Lexeme.FoldsTo.ite
    · intro h
      have hnext : Part.code.next d next rest = .code :=
        begun_of_coded (p := joins c) (by simp [Coded, joins]) d next rest h
      simp [Lexeme.FoldsTo, foldText, hc, hnext]
    · intro _
      simp [Lexeme.FoldsTo, foldText, foldCase, Part.letter, hc]

theorem lineEnd_fold {c : Char} (hc : c.toUpper = c) (cs : List Char) :
    (lineEnd c cs).FoldsTo d (lineEnd c (foldCase d .code cs)) := by
  cases cs with
  | nil => simp [lineEnd, Lexeme.FoldsTo, foldText, foldCase, hc]
  | cons next rest =>
    simp only [lineEnd, foldCase, Part.letter, beq_toUpper next (d := '\n') rfl]
    apply Lexeme.FoldsTo.ite
    · intro h
      simp only [Bool.and_eq_true, beq_iff_eq] at h
      obtain ⟨rfl, rfl⟩ := h
      rfl
    · intro _
      simp [Lexeme.FoldsTo, foldText, foldCase, Part.letter, hc]

theorem toUpper_of_not_nameChar {c : Char} (h : isNameChar c = false) : c.toUpper = c := by
  rcases toUpper_cases c with hc | hc
  · exact hc
  · have halpha : c.isAlpha = true := isAlpha_iff_toNat.mpr (.inr ⟨hc.1, hc.2.1⟩)
    simp [isNameChar, halpha] at h

theorem string_fold (cs : List Char) :
    (delimited .string '\x22' .unterminatedString cs).FoldsTo d
      (delimited .string '\x22' .unterminatedString
        (foldCase d (Part.begun d '\x22' cs) cs)) := by
  cases hclosed : closes '\x22' cs with
  | true =>
    simp only [Part.begun, hclosed]
    exact delimited_fold d .string rfl _ cs (fun text => (List.map_id text).symm)
  | false =>
    obtain ⟨rest, hopen⟩ := delimited_open .string .unterminatedString hclosed
    rw [hopen]
    apply delimited_open
    rw [closes_foldCase rfl, hclosed]

/-- The token that a text in upper case begins with. -/
theorem lexeme_fold (c : Char) (cs : List Char) :
    (lexeme d c cs).FoldsTo d (lexeme d c.toUpper (foldCase d (Part.begun d c cs) cs)) := by
  simp only [lexeme, isLineEnd_toUpper, isNameChar_toUpper, isDigit_toUpper, isOperatorChar_toUpper,
    beq_toUpper c (d := ';') rfl, beq_toUpper c (d := '(') rfl, beq_toUpper c (d := '\x27') rfl,
    beq_toUpper c (d := '.') rfl, beq_toUpper c (d := '\x22') rfl, beq_toUpper c (d := ',') rfl,
    beq_toUpper c (d := ':') rfl, beq_toUpper c (d := ')') rfl, beq_toUpper c (d := '[') rfl,
    beq_toUpper c (d := ']') rfl]
  apply Lexeme.FoldsTo.ite
  · intro h
    have hc : c.toUpper = c := by
      rcases isLineEnd_iff.mp h with rfl | rfl <;> rfl
    rw [begun_of_coded (p := isLineEnd) (by unfold Coded; decide) d c cs h, hc]
    exact lineEnd_fold d hc cs
  intro _
  apply Lexeme.FoldsTo.ite
  · intro h
    simp only [Bool.and_eq_true, beq_iff_eq] at h
    obtain ⟨rfl, hd⟩ := h
    simp only [Part.begun, hd]
    exact lineComment_fold d cs
  intro hs
  apply Lexeme.FoldsTo.ite
  · intro h
    simp only [Bool.and_eq_true, beq_iff_eq] at h
    obtain ⟨rfl, hd⟩ := h
    simp only [Part.begun, hd]
    exact braceComment_fold d cs
  intro hp
  apply Lexeme.FoldsTo.ite
  · intro h
    have hword := begun_of_coded coded_word d c cs (by rw [h, Bool.true_or])
    have hname := name_fold d (c :: cs)
    rw [foldCase, Part.letter, Part.next, hword] at hname
    rw [hword]
    exact hname
  intro hn
  -- All that follows is no letter.
  have hupper : c.toUpper = c := toUpper_of_not_nameChar (Bool.eq_false_iff.mpr hn)
  rw [hupper]
  apply Lexeme.FoldsTo.ite
  · intro h
    obtain rfl := beq_iff_eq.mp h
    exact delimited_fold d .number rfl _ cs (fun _ => rfl)
  intro hq
  apply Lexeme.FoldsTo.ite
  · intro h
    have hcoded : Coded (fun c => c.isDigit || c == '.') := by
      unfold Coded
      decide
    have hnumber := number_fold d (c :: cs)
    rw [foldCase, Part.letter, hupper, Part.next, begun_of_coded hcoded d c cs h] at hnumber
    rw [begun_of_coded hcoded d c cs h]
    exact hnumber
  intro _
  apply Lexeme.FoldsTo.ite
  · intro h
    obtain rfl := beq_iff_eq.mp h
    exact string_fold d cs
  intro hdq
  have hbegun : Part.begun d c cs = .code := by simp [Part.begun, hs, hp, hq, hdq]
  rw [hbegun]
  have hsingle : ∀ {kind : TokenKind}, foldText kind [c] = [c.toUpper] →
      (Lexeme.found kind [c] cs).FoldsTo d (.found kind [c] (foldCase d .code cs)) := by
    intro kind hkind
    rw [Lexeme.FoldsTo, hkind, hupper]
  apply Lexeme.FoldsTo.ite
  · exact fun _ => hsingle rfl
  intro _
  apply Lexeme.FoldsTo.ite
  · exact fun _ => hsingle rfl
  intro _
  apply Lexeme.FoldsTo.ite
  · exact fun _ => hsingle rfl
  intro _
  apply Lexeme.FoldsTo.ite
  · exact fun _ => hsingle rfl
  intro _
  apply Lexeme.FoldsTo.ite
  · exact fun _ => operator_fold d hupper cs
  · exact fun _ => ⟨_, rfl⟩

end Scan

theorem Scan.next_fold (d : Dialect) (line : Nat) (cs : List Char) :
    match Scan.next d line cs with
    | .finished => Scan.next d line (foldCase d .code cs) = .finished
    | .token t after rest =>
      Scan.next d line (foldCase d .code cs) = .token t.fold after (foldCase d .code rest)
    | .fault cause _ => ∃ rest, Scan.next d line (foldCase d .code cs) = .fault cause rest := by
  simp only [Scan.next, dropWhile_code isBlank_toUpper Scan.coded_blank]
  cases hcs : cs.dropWhile isBlank with
  | nil => rfl
  | cons c behind =>
    have hspaced : isBlank ((foldCase d .code cs).headD c.toUpper) = isBlank (cs.headD c) := by
      cases cs with
      | nil => cases hcs
      | cons x cs => exact isBlank_toUpper x
    have hlexeme := Scan.lexeme_fold d c behind
    simp only [foldCase, Part.letter, Part.next, hspaced]
    cases hl : Scan.lexeme d c behind with
    | fault cause rest =>
      rw [hl] at hlexeme
      obtain ⟨rest', hfault⟩ := hlexeme
      exact ⟨rest', by rw [hfault]⟩
    | found kind text rest =>
      rw [hl, Lexeme.FoldsTo] at hlexeme
      simp only [hlexeme, Token.fold, String.toList_ofList]

end PartProgram
