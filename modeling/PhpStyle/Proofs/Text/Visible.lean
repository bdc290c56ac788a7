import PhpStyle.Text.Blank

/-!
# Visible characters

What is left of a text without its white space. Layout is what may change while the visible
characters stay as they are and in their order, so the statements about fixes of layout are made in
these terms.
-/

namespace PhpStyle.Text

/-- The characters of a text that are no white space. -/
def visible (s : String) : List Char := s.toList.filter fun c => !isSpace c

/-- An empty text shows nothing. -/
@[simp] theorem visible_empty : visible "" = [] := by simp [visible]

/-- Texts put together show what each of them shows. -/
@[simp] theorem visible_append (a b : String) : visible (a ++ b) = visible a ++ visible b := by
  simp [visible]

/-- A text shows nothing if it is blank. -/
theorem visible_eq_nil_iff {s : String} : visible s = [] ↔ isBlank s = true := by
  simp [visible, isBlank, List.filter_eq_nil_iff]

/-- Joined texts show what each of them shows. -/
theorem visible_join (texts : List String) :
    visible (String.join texts) = texts.flatMap visible := by
  rw [visible, String.toList_join, List.filter_flatMap]
  rfl

/-- Texts put together are blank if both are. -/
@[simp] theorem isBlank_append (a b : String) : isBlank (a ++ b) = (isBlank a && isBlank b) := by
  simp [isBlank]

/-- A character that is no white space makes a text visible. -/
theorem visible_ne_nil_of_mem {s : String} {c : Char} (hmem : c ∈ s.toList)
    (hc : isSpace c = false) : visible s ≠ [] := by
  refine List.ne_nil_of_mem (a := c) (List.mem_filter.mpr ⟨hmem, ?_⟩)
  simp [hc]

/-- A text is what is taken of it with what is left. -/
theorem take_append_drop (s : String) (n : Nat) :
    s = String.ofList (s.toList.take n) ++ String.ofList (s.toList.drop n) := by
  rw [← String.toList_inj, String.toList_append, String.toList_ofList, String.toList_ofList,
    List.take_append_drop]

end PhpStyle.Text
