import Mathlib.Algebra.BigOperators.Group.Finset.Basic
import Mathlib.Algebra.GroupWithZero.Nat
import PhpStyle.Proofs.Edit.Moves
import PhpStyle.Proofs.Run.Defects

/-!
# Edits that leave a text as it is

A text is a row of token texts, so edits that leave it as it is cannot change it between two tokens
outside of which nothing is edited. In particular they keep the number of characters of any sort:
what the edited tokens hold of it before and after is the same in all. Of a single edit this means
that it leaves its token as it is.
-/

namespace PhpStyle

namespace Store

variable {s : Store} {edits : List Edit}

/-- A rewritten text is made up of the rewritten texts of its tokens. -/
theorem toList_rewrite (s : Store) (edits : List Edit) :
    (s.rewrite edits).toList =
      (List.range s.size).flatMap fun k => (s.rewritten edits k).toList := by
  rw [rewrite_eq_join, String.toList_join, List.flatMap_map]

/-- The source of a store is made up of the texts of its tokens. -/
theorem toList_source (hs : Php.Sound s) :
    s.source.toList = (List.range s.size).flatMap fun k => (s.text k).toList := by
  rw [← rewrite_nil hs, toList_rewrite]
  rfl

/-- A row of tokens split at a stretch of them. -/
theorem flatMap_range_split {α : Type} (f : Nat → List α) {low high n : Nat} (hle : low ≤ high)
    (hn : high ≤ n) :
    (List.range n).flatMap f = (List.range' 0 low).flatMap f ++
      ((List.range' low (high - low)).flatMap f ++ (List.range' high (n - high)).flatMap f) := by
  have hlow : List.range' 0 low ++ List.range' low (high - low) = List.range' 0 high := by
    rw [show List.range' low (high - low) = List.range' (0 + 1 * low) (high - low) by simp,
      List.range'_append, show low + (high - low) = high by omega]
  have hhigh : List.range' 0 high ++ List.range' high (n - high) = List.range' 0 n := by
    rw [show List.range' high (n - high) = List.range' (0 + 1 * high) (n - high) by simp,
      List.range'_append, show high + (n - high) = n by omega]
  rw [← List.append_assoc, ← List.flatMap_append, hlow, ← List.flatMap_append, hhigh,
    List.range_eq_range']

/-- Edits that leave a text as it is leave it as it is between any two tokens that have all of them
between them. -/
theorem segment_eq (hs : Php.Sound s) (h : s.rewrite edits = s.source) {low high : Nat}
    (hle : low ≤ high) (hsize : high ≤ s.size)
    (hin : ∀ e ∈ edits, low ≤ e.target ∧ e.target < high) :
    ((List.range' low (high - low)).flatMap fun k => (s.rewritten edits k).toList) =
      (List.range' low (high - low)).flatMap fun k => (s.text k).toList := by
  have hsame (tokens : List Nat) (hout : ∀ k ∈ tokens, k < low ∨ high ≤ k) :
      (tokens.flatMap fun k => (s.rewritten edits k).toList) =
        tokens.flatMap fun k => (s.text k).toList := by
    refine List.flatMap_congr fun k hk => congrArg String.toList ?_
    refine rewritten_of_forall_ne fun e he => ?_
    have := hin e he
    rcases hout k hk with hlow | hhigh <;> omega
  have htext := congrArg String.toList h
  rw [toList_rewrite, toList_source hs, flatMap_range_split _ hle hsize,
    flatMap_range_split _ hle hsize,
    hsame (List.range' 0 low) fun k hk => .inl (by
      simp only [List.mem_range'_1] at hk; omega),
    hsame (List.range' high (s.size - high)) fun k hk => .inr (by
      simp only [List.mem_range'_1] at hk; omega)] at htext
  exact List.append_cancel_right (List.append_cancel_left htext)

/-- A single edit that leaves the text as it is leaves its token as it is. -/
theorem result_eq_of_singleton (hs : Php.Sound s) {e : Edit} (h : s.rewrite [e] = s.source)
    (hsize : e.target < s.size) : e.result s = s.text e.target := by
  have hsegment := segment_eq hs h (Nat.le_succ e.target) hsize (by simp)
  have hnodup : ([e].map (·.target)).Nodup := List.nodup_singleton _
  have hafter : s.rewritten [e] e.target = e.result s :=
    rewritten_of_mem hnodup List.mem_cons_self
  simpa [Nat.succ_sub, hafter, String.toList_inj] using hsegment

/-- Characters of a sort in the tokens that edits change, before and after, are as many if the edits
leave the text as it is. -/
theorem sum_countP_eq (hs : Php.Sound s) (h : s.rewrite edits = s.source)
    (hnodup : (edits.map (·.target)).Nodup) (hsize : ∀ e ∈ edits, e.target < s.size)
    (p : Char → Bool) :
    (edits.map fun e => (e.result s).toList.countP p).sum =
      (edits.map fun e => (s.text e.target).toList.countP p).sum := by
  let after (k : Nat) : Nat := (s.rewritten edits k).toList.countP p
  let before (k : Nat) : Nat := (s.text k).toList.countP p
  have htotal : ∑ k ∈ Finset.range s.size, after k = ∑ k ∈ Finset.range s.size, before k := by
    have htext := congrArg (List.countP p) (congrArg String.toList h)
    rw [toList_rewrite, toList_source hs, List.countP_flatMap, List.countP_flatMap] at htext
    exact htext
  have hedited : (edits.map (·.target)).toFinset ⊆ Finset.range s.size := by
    intro k hk
    obtain ⟨e, he, rfl⟩ := List.mem_map.mp (List.mem_toFinset.mp hk)
    exact Finset.mem_range.mpr (hsize e he)
  have hothers : ∑ k ∈ Finset.range s.size \ (edits.map (·.target)).toFinset, after k =
      ∑ k ∈ Finset.range s.size \ (edits.map (·.target)).toFinset, before k := by
    refine Finset.sum_congr rfl fun k hk => ?_
    have hother : ∀ e ∈ edits, e.target ≠ k := by
      rintro e he rfl
      exact (Finset.mem_sdiff.mp hk).2 (List.mem_toFinset.mpr (List.mem_map_of_mem he))
    simp only [after, before, rewritten_of_forall_ne hother]
  rw [← Finset.sum_sdiff hedited, ← Finset.sum_sdiff hedited, hothers, Nat.add_left_cancel_iff,
    List.sum_toFinset _ hnodup, List.sum_toFinset _ hnodup, List.map_map, List.map_map] at htotal
  refine Eq.trans (congrArg List.sum (List.map_congr_left fun e he => ?_)) htotal
  simp only [after, Function.comp_apply, rewritten_of_mem hnodup he]

end Store

namespace Finding

variable {s : Store} {f : Finding}

/-- The fix of a finding, if it has one, does not leave the text as it is. -/
def Changes (s : Store) (f : Finding) : Prop :=
  ∀ c, f.fix = some c → s.rewrite c ≠ s.source

/-- A finding without a fix counts as changing the text. -/
theorem changes_of_none (h : f.fix = none) : f.Changes s := by
  intro c hc
  rw [h] at hc
  cases hc

/-- A fix of one edit changes the text if it changes its token. -/
theorem changes_of_singleton (hs : Php.Sound s) {e : Edit} (hfix : f.fix = some [e])
    (hsize : e.target < s.size) (hne : e.result s ≠ s.text e.target) : f.Changes s := by
  intro c hc
  rw [hfix] at hc
  cases hc
  exact fun h => hne (Store.result_eq_of_singleton hs h hsize)

/-- Putting a text in front of a token changes the text unless nothing is put there. -/
theorem changes_of_insert (hs : Php.Sound s) {i : Nat} {t : String}
    (hfix : f.fix = some [.insert i t]) (hsize : i < s.size) (ht : t ≠ "") : f.Changes s := by
  refine changes_of_singleton hs hfix hsize fun h => ht ?_
  have hlength := congrArg String.length h
  simpa [Edit.result, Edit.insert, Change.applyTo] using hlength

/-- Putting a text behind a token changes the text unless nothing is put there. -/
theorem changes_of_append (hs : Php.Sound s) {i : Nat} {t : String}
    (hfix : f.fix = some [.append i t]) (hsize : i < s.size) (ht : t ≠ "") : f.Changes s := by
  refine changes_of_singleton hs hfix hsize fun h => ht ?_
  have hlength := congrArg String.length h
  simpa [Edit.result, Edit.append, Change.applyTo] using hlength

/-- Replacing a token by another text changes the text. -/
theorem changes_of_replace (hs : Php.Sound s) {i : Nat} {t : String}
    (hfix : f.fix = some [.replace i t]) (hsize : i < s.size) (hne : t ≠ s.text i) : f.Changes s :=
  changes_of_singleton hs hfix hsize hne

/-- A fix that leaves the tokens it edits with more or fewer characters of a sort changes the
text. -/
theorem changes_of_countP (hs : Php.Sound s) (honce : f.EditsOnce) {c : Changeset}
    (hfix : f.fix = some c) (hsize : ∀ e ∈ c, e.target < s.size) (p : Char → Bool)
    (hne : (c.map fun e => (e.result s).toList.countP p).sum ≠
      (c.map fun e => (s.text e.target).toList.countP p).sum) : f.Changes s := by
  intro c' hc' h
  rw [hfix] at hc'
  cases hc'
  exact hne (Store.sum_countP_eq hs h (honce c hfix) hsize p)

end Finding

end PhpStyle
