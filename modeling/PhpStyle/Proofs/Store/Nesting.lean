import Mathlib.Data.List.Pairwise
import PhpStyle.Store.Build

/-!
# Nested intervals

The check of a builder meets intervals by opener, the longer of two first, and keeps those still
open on a stack. This file shows that the check accepts exactly the families of intervals of which
no two cross, in whatever order they were declared.
-/

namespace PhpStyle.Outline

/-- The second interval starts inside the first and ends behind it. -/
def Crosses (a b : Nat × Nat) : Prop := a.1 < b.1 ∧ b.1 ≤ a.2 ∧ a.2 < b.2

instance (a b : Nat × Nat) : Decidable (Crosses a b) :=
  inferInstanceAs (Decidable (a.1 < b.1 ∧ b.1 ≤ a.2 ∧ a.2 < b.2))

/-- Pairs are sorted by where they open, and those that open together with the wider one first. -/
theorem outerFirst_iff {a b : Nat × Nat} :
    outerFirst a b = true ↔ a.1 < b.1 ∨ a.1 = b.1 ∧ b.2 ≤ a.2 := by
  simp [outerFirst]

/-- Of two intervals in nesting order, the second does not open in front of the first. -/
theorem le_of_outerFirst {a b : Nat × Nat} (h : outerFirst a b = true) : a.1 ≤ b.1 := by
  rcases outerFirst_iff.mp h with h | h <;> omega

/-- An interval that has ended crosses none that opens later. -/
theorem not_crosses_of_lt {a b : Nat × Nat} (h : a.2 < b.1) : ¬ Crosses a b := by
  intro hcross
  have := hcross.2.1
  omega

/-- An interval crosses none that ends inside it. -/
theorem not_crosses_of_le {a b : Nat × Nat} (h : b.2 ≤ a.2) : ¬ Crosses a b := by
  intro hcross
  have := hcross.2.2
  omega

/-- The open intervals that have not ended in front of a place. -/
def live (stack : List (Nat × Nat)) (n : Nat) : List (Nat × Nat) :=
  stack.dropWhile fun held => held.2 < n

/-- The pairs that are still open are among those on the stack. -/
theorem live_sublist (stack : List (Nat × Nat)) (n : Nat) : (live stack n).Sublist stack :=
  List.dropWhile_sublist _

/-- What has not ended is kept, and what is dropped has ended. -/
theorem mem_live_or {stack : List (Nat × Nat)} {a : Nat × Nat} (n : Nat) (ha : a ∈ stack) :
    a ∈ live stack n ∨ a.2 < n := by
  rw [← @List.takeWhile_append_dropWhile _ (fun held => decide (held.2 < n)) stack] at ha
  rcases List.mem_append.mp ha with ha | ha
  · have hall := @List.all_takeWhile _ (fun held => decide (held.2 < n)) stack
    right
    simpa using List.all_eq_true.mp hall a ha
  · exact .inl ha

section Stack

variable {stack rest : List (Nat × Nat)} {next : Nat × Nat}

/-- The ends of open intervals rise towards the bottom of the stack, so those that have ended lie on
top. -/
theorem le_of_mem_live (hstack : stack.Pairwise fun a b => a.2 ≤ b.2) (n : Nat) :
    ∀ a ∈ live stack n, n ≤ a.2 := by
  have hlive := hstack.sublist (live_sublist stack n)
  have hhead := List.head?_dropWhile_not (fun held : Nat × Nat => decide (held.2 < n)) stack
  intro a ha
  unfold live at hlive ha
  cases hdrop : stack.dropWhile (fun held => held.2 < n) with
  | nil => simp [hdrop] at ha
  | cons top held =>
    rw [hdrop] at hlive ha
    have htop : n ≤ top.2 := by simpa [hdrop] using hhead
    rcases List.mem_cons.mp ha with rfl | ha
    · exact htop
    · exact Nat.le_trans htop (List.rel_of_pairwise_cons hlive ha)

/-- The check goes on with the intervals that are live, and accepts the next one if it ends inside
all of them. -/
theorem checkNested_cons_eq_ok_iff (hstack : stack.Pairwise fun a b => a.2 ≤ b.2) :
    checkNested stack (next :: rest) = .ok () ↔
      (∀ a ∈ live stack next.1, next.2 ≤ a.2) ∧
        checkNested (next :: live stack next.1) rest = .ok () := by
  have hlive := hstack.sublist (live_sublist stack next.1)
  rw [checkNested]
  unfold live at hlive ⊢
  cases hdrop : stack.dropWhile (fun held => held.2 < next.1) with
  | nil => simp
  | cons top held =>
    rw [hdrop] at hlive
    simp only
    split
    · rename_i hlong
      refine ⟨fun h => (by cases h), fun h => ?_⟩
      have := h.1 top List.mem_cons_self
      omega
    · rename_i hshort
      refine (and_iff_right fun a ha => ?_).symm
      rcases List.mem_cons.mp ha with rfl | ha
      · omega
      · have := List.rel_of_pairwise_cons hlive ha
        omega

/-- The check accepts the intervals still to come exactly if none of them crosses an open one or
another of them. -/
theorem checkNested_eq_ok_iff (hstack : stack.Pairwise fun a b => a.2 ≤ b.2)
    (hfirst : ∀ a ∈ stack, ∀ b ∈ rest, outerFirst a b = true)
    (hrest : rest.Pairwise fun a b => outerFirst a b = true) :
    checkNested stack rest = .ok () ↔
      (∀ a ∈ stack, ∀ b ∈ rest, ¬ Crosses a b) ∧ rest.Pairwise fun a b => ¬ Crosses a b := by
  induction rest generalizing stack with
  | nil => simp [checkNested]
  | cons next rest ih =>
    obtain ⟨hnext, hrest⟩ := List.pairwise_cons.mp hrest
    have hsub := live_sublist stack next.1
    have hopen : ∀ a ∈ next :: live stack next.1, ∀ b ∈ rest, outerFirst a b = true := by
      intro a ha b hb
      rcases List.mem_cons.mp ha with rfl | ha
      · exact hnext b hb
      · exact hfirst a (hsub.mem ha) b (List.mem_cons_of_mem next hb)
    have hended {a b : Nat × Nat} (ha : a.2 < next.1) (hb : b ∈ next :: rest) : ¬ Crosses a b := by
      refine not_crosses_of_lt (Nat.lt_of_lt_of_le ha ?_)
      rcases List.mem_cons.mp hb with rfl | hb
      · exact Nat.le_refl _
      · exact le_of_outerFirst (hnext b hb)
    rw [checkNested_cons_eq_ok_iff hstack, List.pairwise_cons]
    constructor
    · rintro ⟨hinside, hok⟩
      rw [ih (.cons hinside (hstack.sublist hsub)) hopen hrest] at hok
      obtain ⟨hcross, hlater⟩ := hok
      refine ⟨fun a ha b hb => ?_, hcross next List.mem_cons_self, hlater⟩
      rcases mem_live_or next.1 ha with hmem | hlt
      · rcases List.mem_cons.mp hb with rfl | hb
        · exact not_crosses_of_le (hinside a hmem)
        · exact hcross a (List.mem_cons_of_mem next hmem) b hb
      · exact hended hlt hb
    · rintro ⟨hcross, hnone, hlater⟩
      have hinside : ∀ a ∈ live stack next.1, next.2 ≤ a.2 := by
        intro a ha
        have hnot := hcross a (hsub.mem ha) next List.mem_cons_self
        have hreaches := le_of_mem_live hstack next.1 a ha
        unfold Crosses at hnot
        rcases outerFirst_iff.mp (hfirst a (hsub.mem ha) next List.mem_cons_self) with h | h <;>
          omega
      refine ⟨hinside, (ih (.cons hinside (hstack.sublist hsub)) hopen hrest).mpr ⟨?_, hlater⟩⟩
      intro a ha b hb
      rcases List.mem_cons.mp ha with rfl | ha
      · exact hnone b hb
      · exact hcross a (hsub.mem ha) b (List.mem_cons_of_mem next hb)

end Stack

/-- The check accepts a family of intervals exactly if no two of them cross. -/
theorem checkNested_mergeSort_iff (intervals : List (Nat × Nat)) :
    checkNested [] (intervals.mergeSort outerFirst) = .ok () ↔
      ∀ a ∈ intervals, ∀ b ∈ intervals, ¬ Crosses a b := by
  have hperm := List.mergeSort_perm intervals outerFirst
  have hsorted := @List.pairwise_mergeSort _ outerFirst
    (fun a b c hab hbc => by rw [outerFirst_iff] at *; omega)
    (fun a b => by rw [Bool.or_eq_true, outerFirst_iff, outerFirst_iff]; omega) intervals
  rw [checkNested_eq_ok_iff .nil (by simp) hsorted]
  constructor
  · rintro ⟨-, hlater⟩ a ha b hb
    have hearlier : (intervals.mergeSort outerFirst).Pairwise (flip fun a b => ¬ Crosses a b) :=
      hsorted.imp fun {a b} h hcross => by
        have := le_of_outerFirst h
        have := hcross.1
        omega
    exact hlater.forall_of_forall_of_flip (fun a _ h => absurd h.1 (Nat.lt_irrefl _)) hearlier
      (hperm.mem_iff.mpr ha) (hperm.mem_iff.mpr hb)
  · intro h
    refine ⟨by simp, List.pairwise_of_forall_mem_list fun a ha b hb => ?_⟩
    exact h a (hperm.mem_iff.mp ha) b (hperm.mem_iff.mp hb)

end PhpStyle.Outline
