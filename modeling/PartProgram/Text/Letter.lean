/-!
# Letters

Program text is ASCII outside strings and comments, and the case of a letter
never matters there. Upper case is therefore taken of ASCII letters only;
every other character is left alone.
-/

set_option autoImplicit false

namespace PartProgram

def upper (s : String) : String :=
  String.ofList (s.toList.map Char.toUpper)

/-- Equality up to the case of ASCII letters. -/
def sameLetters (a b : String) : Bool :=
  a.toList.map Char.toUpper == b.toList.map Char.toUpper

def ofWord {α : Type} (table : List (String × α)) (text : String) : Option α :=
  (table.find? (fun entry => sameLetters entry.1 text)).map Prod.snd

theorem upper_toList (s : String) : (upper s).toList = s.toList.map Char.toUpper := by
  simp [upper]

theorem sameLetters_iff (a b : String) : sameLetters a b = true ↔ upper a = upper b := by
  rw [sameLetters, beq_iff_eq, ← upper_toList, ← upper_toList, String.toList_inj]

theorem toUpper_of_not_lower {c : Char} (h : ¬('a'.val ≤ c.val ∧ c.val ≤ 'z'.val)) :
    c.toUpper = c :=
  dif_neg h

theorem toUpper_toUpper (c : Char) : c.toUpper.toUpper = c.toUpper := by
  by_cases h : 'a'.val ≤ c.val ∧ c.val ≤ 'z'.val
  · have hval : c.toUpper.val = c.val + ('A'.val - 'a'.val) := by
      delta Char.toUpper
      rw [dif_pos h]
    apply toUpper_of_not_lower
    simp only [hval, UInt32.le_iff_toNat_le, UInt32.toNat_add] at h ⊢
    have h1 : 'a'.val.toNat = 97 := rfl
    have h2 : 'z'.val.toNat = 122 := rfl
    have h3 : ('A'.val - 'a'.val).toNat = 4294967264 := rfl
    omega
  · rw [toUpper_of_not_lower h, toUpper_of_not_lower h]

theorem upper_upper (s : String) : upper (upper s) = upper s := by
  rw [← String.toList_inj, upper_toList, upper_toList, List.map_map]
  exact List.map_congr_left (fun c _ => toUpper_toUpper c)

theorem sameLetters_congr {a b : String} (h : upper a = upper b) :
    sameLetters a = sameLetters b := by
  funext c
  rw [Bool.eq_iff_iff, sameLetters_iff, sameLetters_iff, h]

end PartProgram
