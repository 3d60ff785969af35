import PartProgram.Proofs.BlockNumber
import PartProgram.Proofs.LetterCase.Scan
import PartProgram.Proofs.Shape.Block

/-!
# Labels

A label is what the reader of statements leaves of a word in front of a colon, and the
target of a jump is what the reader of expressions makes of a word. Every label is a word
of both kinds, and so is any other spelling of it in small or capital letters. It cannot
be taken for a block number, since its second character is no digit. So a jump to a label
that a program has leads to the first block with it.
-/

set_option autoImplicit false

namespace PartProgram

section Spelling

variable {name word : String}

theorem cutName_of_upper (h : upper name = upper word)
    (hcut : Scan.cutName name.toList = name.toList) (hne : word.toList ≠ []) :
    Scan.cutName word.toList = word.toList := by
  have hmap : name.toList.map Char.toUpper = word.toList.map Char.toUpper := by
    rw [← upper_toList, h, upper_toList]
  have hlength : (Scan.cutName word.toList).length = word.toList.length := by
    have hupper : (Scan.cutName word.toList).map Char.toUpper = word.toList.map Char.toUpper := by
      rw [← Scan.cutName_toUpper, ← hmap, Scan.cutName_toUpper, hcut]
    simpa using congrArg List.length hupper
  obtain ⟨c, cs, hword⟩ := List.exists_cons_of_ne_nil hne
  rw [hword] at hlength ⊢
  obtain ⟨-, front, hfront, hbegins⟩ := Scan.cutName_front c cs
  rw [hfront] at hlength ⊢
  rw [hbegins.eq_of_length (Nat.succ.inj hlength)]

theorem all_of_upper {p : Char → Bool} (hp : ∀ c : Char, p c.toUpper = p c)
    (h : upper name = upper word) : word.toList.all p = name.toList.all p := by
  rw [← all_toUpper hp word.toList, ← upper_toList, ← h, upper_toList, all_toUpper hp]

theorem IsIdentifier.of_upper (hn : IsIdentifier name) (h : upper name = upper word) :
    IsIdentifier word := by
  have hchar : ∀ c : Char, (Scan.isNameChar c.toUpper || c.toUpper.isDigit) =
      (Scan.isNameChar c || c.isDigit) := by
    intro c
    rw [isNameChar_toUpper, isDigit_toUpper]
  have hmap : name.toList.map Char.toUpper = word.toList.map Char.toUpper := by
    rw [← upper_toList, h, upper_toList]
  have hne : word.toList ≠ [] := by
    intro hnil
    rw [hnil, List.map_nil, List.map_eq_nil_iff] at hmap
    exact hn.1.ne_nil hmap
  refine ⟨⟨hne, ?_, ?_, cutName_of_upper h hn.1.cut hne⟩, ?_⟩
  · have hall := all_of_upper (p := fun c => Scan.isNameChar c || c.isDigit) hchar h
    rw [List.all_eq_true.mpr hn.1.chars] at hall
    exact List.all_eq_true.mp hall
  · intro c hc
    have hhead : (word.toList.map Char.toUpper).head? = some c.toUpper := by
      rw [List.head?_map, hc, Option.map_some]
    rw [← hmap, List.head?_map, Option.map_eq_some_iff] at hhead
    obtain ⟨first, hfirst, hsame⟩ := hhead
    rw [← isNameChar_toUpper, ← hsame, isNameChar_toUpper]
    exact hn.1.first first hfirst
  · have hop := hn.2
    simp only [Scan.isOperatorName, String.ofList_toList, sameLetters_congr h] at hop ⊢
    exact hop

/-- A label in another case of letters could be a label as well. -/
theorem IsLabel.of_upper (hn : IsLabel name) (h : upper name = upper word) : IsLabel word := by
  have hlength := congrArg (fun s => s.toList.length) h
  simp only [upper_toList, List.length_map] at hlength
  exact ⟨hn.1.of_upper h, hlength ▸ hn.2⟩

theorem IsLabel.not_reference (h : IsLabel name) : blockReference? name = none := by
  obtain ⟨first, second, rest, hname, hsecond⟩ := h.characters
  simp [blockReference?, hname, hsecond]

end Spelling

theorem Reader.readsTarget_label {name : String} (h : IsLabel name) :
    ReadsTarget {} name.toList (.var name none) := by
  have hstands := stands_identifier h.1 1 true parted_nil
  rw [List.append_nil] at hstands
  refine ⟨_, hstands.advance, expression_alone rfl (by simp) (fun inner ahead => ?_)⟩
  rw [operandOf_held rfl (by simp) (by simp)]
  rfl

theorem hasLabel_congr {name word : String} (h : upper name = upper word) :
    Block.hasLabel name = Block.hasLabel word := by
  funext b
  rw [Block.hasLabel, Block.hasLabel, sameLetters_congr h]

namespace Program

theorem findLabel?_first {p : Program} {b : Block} {label : String} (hb : b ∈ p.blocks)
    (hlabel : label ∈ b.labels) :
    ∃ j, p.findLabel? label = some j ∧ (p.blocks[j]?.any (Block.hasLabel label)) = true ∧
      ∀ k < j, (p.blocks[k]?.any (Block.hasLabel label)) = false := by
  have hhas : b.hasLabel label = true :=
    List.any_eq_true.mpr ⟨label, hlabel, (sameLetters_iff label label).mpr rfl⟩
  cases hf : p.findLabel? label with
  | none =>
    have hno := List.findIdx?_eq_none_iff.mp hf b hb
    simp [hhas] at hno
  | some j =>
    obtain ⟨hlt, hj, hfirst⟩ := List.findIdx?_eq_some_iff_getElem.mp hf
    refine ⟨j, rfl, ?_, fun k hk => ?_⟩
    · simpa [List.getElem?_eq_getElem hlt] using hj
    · simpa [List.getElem?_eq_getElem (Nat.lt_trans hk hlt)] using hfirst k hk

/-- Every label of a program can be jumped to. In any case of its letters it is read behind the
word of a jump as the target of one jump, it stands for no block number, and the jump leads to
the first block that carries the label. -/
theorem jump_finds_label (text : String) (p : Program) (b : Block) (label word : String)
    (direction : JumpDirection) (hparse : parse {} text = .ok p) (hb : b ∈ p.blocks)
    (hlabel : label ∈ b.labels) (hword : PartProgram.upper word = PartProgram.upper label)
    (hdirection : direction ≠ .start) :
    parse {} ("GOTO" ++ direction.suffix ++ " " ++ word) =
        .ok ⟨[{ line := 1, statements := [.jump direction (some (.var word none))] }]⟩ ∧
      blockReference? word = none ∧
      ∃ j, (p.blocks[j]?.any (Block.hasLabel label)) = true ∧
        (∀ k < j, (p.blocks[k]?.any (Block.hasLabel label)) = false) ∧
        ∀ (programs : Table Program) (call : Program → Exec Unit) (line : Nat) (r : Run),
          skipping r.control.branches = false →
            Exec.statement programs call p line (.jump direction (some (.var word none))) r =
              .ok () { r with control := { r.control with jump := some (.to j) } } := by
  have hbare := (parse_shaped hparse b hb).labels label hlabel
  have hname : IsLabel word := (Dialect.isBareWord_default hbare).of_upper hword.symm
  have hread := parse_jump hdirection (Reader.readsTarget_label hname)
  rw [String.ofList_toList] at hread
  obtain ⟨j, hj, hhas, hfirst⟩ := findLabel?_first hb hlabel
  have htarget : p.target (some (.var word none)) = .ok j := by
    rw [findLabel?, ← hasLabel_congr hword] at hj
    simp only [target, hname.not_reference, findLabel?, hj]
    rfl
  exact ⟨hread, hname.not_reference, j, hhas, hfirst,
    fun programs call line r hskip => Exec.statement_jump htarget hskip⟩

theorem jump_finds_label_keyword : ∃ p j,
    parse {} "M6\n+If: M8" = .ok p ∧
      parse {} "GOTOF IF" =
        .ok ⟨[{ line := 1, statements := [.jump .forward (some (.var "IF" none))] }]⟩ ∧
      (p.blocks[j]?.any (Block.hasLabel "If")) = true ∧
      Exec.statement [] (fun _ => pure ()) p 1 (.jump .forward (some (.var "IF" none)))
          { state := {} } =
        .ok () { state := {}, control := { jump := some (.to j) } } := by
  have hread : (parse {} "M6\n+If: M8").toOption.map
      (fun p => p.blocks[1]?.map (·.labels)) = some (some ["If"]) := by decide +kernel
  cases hp : parse {} "M6\n+If: M8" with
  | error e =>
    rw [hp] at hread
    cases hread
  | ok p =>
    rw [hp] at hread
    obtain ⟨b, hb, hlabels⟩ := Option.map_eq_some_iff.mp (Option.some.inj hread)
    have hlabel : "If" ∈ b.labels := by simp [hlabels]
    obtain ⟨hjump, -, j, hhas, -, hgo⟩ :=
      jump_finds_label "M6\n+If: M8" p b "If" "IF" .forward hp (List.mem_of_getElem? hb) hlabel
        (by decide) (by decide)
    exact ⟨p, j, rfl, hjump, hhas, hgo [] _ 1 { state := {} } rfl⟩

end Program

end PartProgram
