import Mathlib.Algebra.GroupWithZero.Nat
import PhpStyle.Proofs.Php.Exact

/-!
# Line breaks between tokens

The lines of two tokens lie as far apart as line breaks stand between them, so on the way to a later
line some token breaks the line, and along a line no token does and the columns rise.
-/

namespace PhpStyle

/-- The number of line breaks in a token. -/
def Store.breaks (s : Store) (i : Nat) : Nat := (s.text i).toList.count '\n'

namespace Php

open Store (breaks)

namespace Sound

variable {s : Store} {i j k : Nat} (h : Sound s)

include h

/-- A token stands on the line on which the one before it ends. -/
theorem line_succ (hi : i + 1 < s.size) : s.line (i + 1) = s.line i + s.breaks i :=
  (h.follows i hi).line

/-- A token lies as many lines further down as line breaks stand between. -/
theorem line_eq_add_sum (hij : i ≤ j) (hj : j < s.size) :
    s.line j = s.line i + ((List.range' i (j - i)).map s.breaks).sum := by
  induction j, hij using Nat.le_induction with
  | base => simp
  | succ j hij ih =>
    have hlength : j + 1 - i = (j - i) + 1 := by omega
    have hlast : i + (j - i) = j := by omega
    rw [h.line_succ hj, ih (by omega), hlength, List.range'_1_concat, hlast, List.map_append,
      List.sum_append]
    simp only [List.map_cons, List.map_nil, List.sum_cons, List.sum_nil]
    omega

/-- On the way to a token that is no further down, no token breaks the line. -/
theorem breaks_eq_zero (hik : i ≤ k) (hkj : k < j) (hj : j < s.size) (hline : s.line j ≤ s.line i) :
    s.breaks k = 0 := by
  have hbefore := h.line_le hik (by omega)
  have hbehind := h.line_le (show k + 1 ≤ j from hkj) hj
  have hnext := h.line_succ (i := k) (by omega)
  omega

/-- Tokens that no line break parts stand on one line. -/
theorem line_eq_of_flat (hij : i ≤ j) (hj : j < s.size)
    (hflat : ∀ k, i ≤ k → k < j → s.breaks k = 0) : s.line j = s.line i := by
  have hsum : ((List.range' i (j - i)).map s.breaks).sum = 0 := by
    refine List.sum_eq_zero_iff_forall_eq_nat.mpr fun n hn => ?_
    obtain ⟨k, hk, rfl⟩ := List.mem_map.mp hn
    obtain ⟨hlow, hhigh⟩ := List.mem_range'_1.mp hk
    exact hflat k hlow (by omega)
  rw [h.line_eq_add_sum hij hj, hsum, Nat.add_zero]

/-- On the way to a later line, a token on the first line breaks it. -/
theorem exists_break (hij : i ≤ j) (hj : j < s.size) (hline : s.line i < s.line j) :
    ∃ k, i ≤ k ∧ k < j ∧ s.line k = s.line i ∧ 0 < s.breaks k := by
  induction j, hij using Nat.le_induction with
  | base => omega
  | succ j hij ih =>
    by_cases hbefore : s.line i < s.line j
    · obtain ⟨k, hik, hkj, hk⟩ := ih (by omega) hbefore
      exact ⟨k, hik, by omega, hk⟩
    · have hle := h.line_le hij (by omega)
      have hnext := h.line_succ hj
      exact ⟨j, hij, Nat.lt_succ_self j, by omega, by omega⟩

/-- An opening brace has no line break. -/
theorem breaks_of_openCurly (hi : s.kind i = .openCurly) : s.breaks i = 0 := by
  rw [breaks, (h.shapes i).openCurly hi]
  rfl

/-- A closing parenthesis has no line break. -/
theorem breaks_of_closeParen (hi : s.kind i = .closeParen) : s.breaks i = 0 := by
  rw [breaks, (h.shapes i).closeParen hi]
  rfl

/-- Whitespace breaks at most one line. -/
theorem breaks_le_one (hi : (s.kind i).isWrapping = false) : s.breaks i ≤ 1 := by
  have hone := (h.shapes i).oneLine hi
  rw [breaks]
  by_cases hnil : (s.text i).toList = []
  · simp [hnil]
  · rw [← List.dropLast_append_getLast hnil, List.count_append, List.count_eq_zero_of_not_mem hone]
    rw [Nat.zero_add]
    exact List.count_le_length

end Sound

namespace Exact

variable {s : Store} {i j : Nat} (h : Exact s)

include h

/-- An opening parenthesis has no line break. -/
theorem breaks_of_openParen (hi : s.kind i = .openParen) : s.breaks i = 0 := by
  rw [breaks, (h.spells i).openParen hi]
  rfl

/-- No token is empty. -/
theorem length_pos (hi : i < s.size) : 0 < (s.text i).toList.length := by
  rw [List.length_pos_iff]
  exact fun hnil => h.text_ne i hi (String.toList_eq_nil_iff.mp hnil)

/-- Along a line the columns rise. -/
theorem column_lt (hij : i < j) (hj : j < s.size) (hline : s.line j ≤ s.line i) :
    (s.token i).column < (s.token j).column := by
  induction j, (show i + 1 ≤ j from hij) using Nat.le_induction with
  | base =>
    have hbreaks := h.sound.breaks_eq_zero (Nat.le_refl i) (Nat.lt_succ_self i) hj hline
    have hcolumn := h.column i hj (List.count_eq_zero.mp hbreaks)
    have hlength := h.length_pos (i := i) (by omega)
    rw [String.length_toList] at hlength
    omega
  | succ j hij ih =>
    have hle := h.sound.line_le (show j ≤ j + 1 by omega) hj
    have hbreaks := h.sound.breaks_eq_zero (show i ≤ j by omega) (Nat.lt_succ_self j) hj hline
    have hbefore := ih (by omega) (by omega) (by omega)
    have hcolumn := h.column j hj (List.count_eq_zero.mp hbreaks)
    omega

end Exact

end Php

end PhpStyle
