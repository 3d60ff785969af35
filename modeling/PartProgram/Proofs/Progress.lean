import PartProgram.Proofs.Rounds

/-!
# Progress of reading

Reading goes on after an error, from the position that the error leaves. That
position is never behind an earlier one: the unread text is always an end of
what was unread before, and an error leaves no more to read than there was. A
block takes a token, so a text has no more blocks than bytes, however often the
next one is asked for.
-/

set_option autoImplicit false

namespace PartProgram

def Cursor.bytes (c : Cursor) : Nat :=
  (String.ofList c.unread).utf8ByteSize + (if c.held.isSome then 1 else 0)

theorem length_le_bytes (cs : List Char) : cs.length ≤ (String.ofList cs).utf8ByteSize := by
  induction cs with
  | nil => exact Nat.zero_le _
  | cons c cs ih =>
    have hcons : String.ofList (c :: cs) = String.singleton c ++ String.ofList cs := by
      rw [← List.singleton_append, String.ofList_append]
      rfl
    have := c.utf8Size_pos
    rw [hcons, String.utf8ByteSize_append, String.utf8ByteSize_singleton, List.length_cons]
    omega

namespace Cursor

theorem size_le_bytes (c : Cursor) : c.size ≤ c.bytes :=
  Nat.add_le_add_right (length_le_bytes c.unread) _

theorem bytes_ofText (text : String) : (ofText text).bytes = text.utf8ByteSize := by
  simp [bytes, ofText]

end Cursor

namespace Reader

/-- Where reading stands after a number of calls, going on after errors. -/
def resumed (d : Dialect) : Nat → Cursor → Cursor
  | 0, c => c
  | calls + 1, c => position (nextBlock d (resumed d calls c))

def blocksRead (d : Dialect) (calls : Nat) (c : Cursor) : List Block :=
  (nextBlocks d calls c).filterMap (fun result => result.toOption.join)

end Reader

namespace Cursor.Later

variable {c after : Cursor}

theorem bytes (h : Later c after) : after.bytes + c.size ≤ c.bytes + after.size := by
  obtain ⟨taken, htaken⟩ := h.suffix
  have := length_le_bytes taken
  simp only [Cursor.bytes, Cursor.size, ← htaken, String.ofList_append,
    String.utf8ByteSize_append, List.length_append]
  omega

theorem bytes_le (h : Later c after) : after.bytes ≤ c.bytes := by
  have := h.bytes
  have := h.size_le
  omega

theorem bytes_lt (h : Later c after) (hs : after.size < c.size) : after.bytes < c.bytes := by
  have := h.bytes
  omega

end Cursor.Later

namespace Reader

variable {d : Dialect} {c after : Cursor}

theorem resumed_later (d : Dialect) (calls : Nat) (c : Cursor) :
    c.Later (resumed d calls c) := by
  induction calls with
  | zero => exact Cursor.Later.refl c
  | succ calls ih => exact ih.trans (nextBlock_later d _)

theorem nextBlocks_ended (d : Dialect) (calls : Nat) (hc : c.size = 0) :
    nextBlocks d calls c = List.replicate calls (.ok none) := by
  induction calls generalizing c with
  | zero => rfl
  | succ calls ih =>
    obtain ⟨after, h⟩ := nextBlock_nothing d hc
    simp only [nextBlocks, h, ih (nextBlock_none h), List.replicate_succ]

theorem blocksRead_length (d : Dialect) (calls : Nat) (c : Cursor) :
    (blocksRead d calls c).length ≤ c.bytes := by
  induction calls generalizing c with
  | zero => exact Nat.zero_le _
  | succ calls ih =>
    have hl := nextBlock_later d c
    unfold blocksRead nextBlocks
    cases h : nextBlock d c with
    | error e after =>
      rw [h] at hl
      exact Nat.le_trans (ih after) hl.bytes_le
    | ok found after =>
      rw [h] at hl
      cases found with
      | none => exact Nat.le_trans (ih after) hl.bytes_le
      | some b =>
        have hlt := hl.bytes_lt (nextBlock_takes h)
        exact Nat.succ_le_of_lt (Nat.lt_of_le_of_lt (ih after) hlt)

end Reader

/-- Reading a text makes progress. No loop of a call is cut off that may take more rounds
than there are bytes to read, at any position. The position is never moved back, neither by
a step within a call nor by a call, and it stays within the text. After any number of
calls, failed ones among them, a block leaves fewer bytes, and behind the end there is
nothing but the end. So the text is read to its end or its first error, and it has at most
as many blocks as bytes, however often it is asked for the next one. -/
theorem Program.reading_progress (d : Dialect) (text : String) :
    (∀ (c : Cursor) rounds, c.bytes < rounds → Attempt.Complete d rounds c) ∧
    (∀ c : Cursor, (Reader.position (Reader.advance d c)).unread <:+ c.unread) ∧
    (∀ calls : Nat,
      let c := Reader.resumed d calls (Cursor.ofText text)
      c.unread <:+ text.toList ∧
      (Reader.position (Reader.nextBlock d c)).unread <:+ c.unread ∧
      (∀ b after, Reader.nextBlock d c = .ok (some b) after → after.bytes < c.bytes) ∧
      (∀ after, Reader.nextBlock d c = .ok none after →
        ∀ more, Reader.nextBlocks d more after = List.replicate more (.ok none))) ∧
    (∀ rounds, text.utf8ByteSize < rounds →
      Attempt.parse d rounds text = some (Program.parse d text)) ∧
    ∀ calls, (Reader.blocksRead d calls (Cursor.ofText text)).length ≤ text.utf8ByteSize := by
  have htext := Cursor.bytes_ofText text
  refine ⟨fun c rounds hr => ?_, fun c => (Reader.advance_later d c).suffix, fun calls => ?_,
    fun rounds hr => ?_, fun calls => ?_⟩
  · exact Attempt.complete d (Nat.lt_of_le_of_lt c.size_le_bytes hr)
  · refine ⟨(Reader.resumed_later d calls _).suffix, (Reader.nextBlock_later d _).suffix, ?_, ?_⟩
    · intro b after h
      have hl := Reader.nextBlock_later d (Reader.resumed d calls (Cursor.ofText text))
      rw [h] at hl
      exact hl.bytes_lt (Reader.nextBlock_takes h)
    · intro after h more
      exact Reader.nextBlocks_ended d more (Reader.nextBlock_none h)
  · refine Attempt.parse_eq d (Nat.lt_of_le_of_lt ?_ hr)
    exact htext ▸ (Cursor.ofText text).size_le_bytes
  · exact htext ▸ Reader.blocksRead_length d calls (Cursor.ofText text)

example : (Reader.blocksRead {} 6 (Cursor.ofText "AB\nCD\x22\nEF")).length = 3 := by decide +kernel

end PartProgram
