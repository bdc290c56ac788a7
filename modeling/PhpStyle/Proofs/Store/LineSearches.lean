import Mathlib.Order.Bounds.Basic
import PhpStyle.Proofs.Store.Positions

/-!
# Walks back along a line

Lines never fall along a store, so the tokens that start on one line stand side by side. The walk
that looks for a token on a line goes back until it comes to an earlier line, and the walk to the
start of a line until it comes to any other. So both come to the first token of the line, and answer
with the least of the indexes that they look for.
-/

namespace PhpStyle.Store

/-- Lines do not fall up to a token. -/
def RisesTo (s : Store) (p : Nat) : Prop := ∀ i j, i ≤ j → j ≤ p → s.line i ≤ s.line j

section

variable {s : Store} {test : TokenTest} {p : Nat}

/-- A walk down from token `i` ends with the least index in front of it whose token passes, or with
what was found before if there is none. -/
theorem firstOnLineBelow_spec (test : TokenTest) (line i : Nat)
    (hrises : ∀ j k, j ≤ k → k < i → s.line j ≤ s.line k) (found : Option Nat) :
    (∃ j, s.firstOnLineBelow test line i found = some j ∧
      IsLeast {k | k < i ∧ line ≤ s.line k ∧ test (s.token k) = true} j) ∨
    (s.firstOnLineBelow test line i found = found ∧
      ∀ k < i, line ≤ s.line k → test (s.token k) = false) := by
  -- Each step may put the token it comes to in the place of what was found, so that is left open.
  induction i generalizing found with
  | zero => exact .inr ⟨rfl, fun k hk => absurd hk (Nat.not_lt_zero k)⟩
  | succ i ih =>
    rw [firstOnLineBelow]
    by_cases hline : s.line i < line
    · -- The walk stops, and every token in front stands on an earlier line, too.
      refine .inr ⟨if_pos hline, fun k hk hge => ?_⟩
      have hle := hrises k i (by omega) (Nat.lt_succ_self i)
      omega
    · rw [if_neg hline]
      have hbefore := ih (fun j k hjk hk => hrises j k hjk (by omega))
        (if test (s.token i) = true then some i else found)
      rcases hbefore with ⟨j, hanswer, ⟨hlt, hj⟩, hleast⟩ | ⟨hanswer, hnone⟩
      · refine .inl ⟨j, hanswer, ⟨by omega, hj⟩, fun k ⟨hk, hpasses⟩ => ?_⟩
        by_cases hki : k < i
        · exact hleast ⟨hki, hpasses⟩
        · omega
      · rw [hanswer]
        by_cases htest : test (s.token i) = true
        · refine .inl ⟨i, if_pos htest, ⟨Nat.lt_succ_self i, by omega, htest⟩, ?_⟩
          rintro k ⟨hk, hge, hpasses⟩
          by_contra hlt
          rw [hnone k (by omega) hge] at hpasses
          cases hpasses
        · refine .inr ⟨if_neg htest, fun k hk hge => ?_⟩
          rcases Nat.lt_or_eq_of_le (Nat.le_of_lt_succ hk) with hki | rfl
          · exact hnone k hki hge
          · simpa using htest

/-- The search along a line finds the least index on it whose token passes, or there is none. -/
theorem findFirstOnLine_spec (hrises : s.RisesTo p) (test : TokenTest) :
    (∃ j, s.findFirstOnLine test p = some j ∧
      IsLeast {k | k ≤ p ∧ s.line k = s.line p ∧ test (s.token k) = true} j) ∨
    (s.findFirstOnLine test p = none ∧ ∀ k ≤ p, s.line k = s.line p →
      test (s.token k) = false) := by
  have hsame {k : Nat} (hk : k < p + 1) : s.line p ≤ s.line k ↔ s.line k = s.line p := by
    have := hrises k p (Nat.le_of_lt_succ hk) (Nat.le_refl p)
    omega
  rcases firstOnLineBelow_spec test (s.line p) (p + 1)
    (fun j k hjk hk => hrises j k hjk (Nat.le_of_lt_succ hk)) none with ⟨j, hj, hmem,
      hleast⟩ | ⟨hnone, hfails⟩
  · obtain ⟨hlt, hline, hpasses⟩ := hmem
    refine .inl ⟨j, hj, ⟨Nat.le_of_lt_succ hlt, (hsame hlt).mp hline, hpasses⟩, ?_⟩
    rintro k ⟨hk, hkline, hkpasses⟩
    exact hleast ⟨Nat.lt_succ_of_le hk, Nat.le_of_eq hkline.symm, hkpasses⟩
  · exact .inr ⟨hnone, fun k hk hline => hfails k (Nat.lt_succ_of_le hk) (Nat.le_of_eq hline.symm)⟩

/-- The search on a line finds the least token up to a place that stands on its line and passes the
test. -/
theorem findFirstOnLine_eq_some_iff (hrises : s.RisesTo p) {i : Nat} :
    s.findFirstOnLine test p = some i ↔
    IsLeast {k | k ≤ p ∧ s.line k = s.line p ∧ test (s.token k) = true} i := by
  rcases findFirstOnLine_spec hrises test with ⟨j, hj, hleast⟩ | ⟨hnone, hfails⟩
  · rw [hj, Option.some_inj]
    exact ⟨fun h => h ▸ hleast, hleast.unique⟩
  · rw [hnone]
    refine ⟨nofun, fun h => ?_⟩
    obtain ⟨hle, hline, hpasses⟩ := h.1
    rw [hfails i hle hline] at hpasses
    cases hpasses

/-- The search on a line finds nothing if no token up to a place stands on its line and passes the
test. -/
theorem findFirstOnLine_eq_none_iff (hrises : s.RisesTo p) : s.findFirstOnLine test p = none ↔
    ∀ k ≤ p, s.line k = s.line p → test (s.token k) = false := by
  rcases findFirstOnLine_spec hrises test with ⟨j, hj, hleast⟩ | ⟨hnone, hfails⟩
  · rw [hj]
    refine ⟨nofun, fun h => ?_⟩
    obtain ⟨hle, hline, hpasses⟩ := hleast.1
    rw [h j hle hline] at hpasses
    cases hpasses
  · exact iff_of_true hnone hfails

/-- The walk to the start of a line ends with the least index on it. -/
theorem lineStartBelow_isLeast {line i : Nat} (hrises : s.RisesTo i) (hi : s.line i = line) :
    IsLeast {k | k ≤ i ∧ s.line k = line} (s.lineStartBelow line i) := by
  induction i with
  | zero => exact ⟨⟨Nat.le_refl 0, hi⟩, fun k _ => Nat.zero_le k⟩
  | succ i ih =>
    rw [lineStartBelow]
    split
    · rename_i hother
      refine ⟨⟨Nat.le_refl _, hi⟩, fun k ⟨hk, hline⟩ => ?_⟩
      by_contra hlt
      have hlow := hrises k i (by omega) (Nat.le_succ i)
      have hhigh := hrises i (i + 1) (Nat.le_succ i) (Nat.le_refl _)
      omega
    · rename_i hsame
      have hbefore := ih (fun j k hjk hk => hrises j k hjk (Nat.le_succ_of_le hk))
          (Decidable.not_not.mp hsame)
      obtain ⟨⟨hle, hline⟩, hleast⟩ := hbefore
      refine ⟨⟨Nat.le_succ_of_le hle, hline⟩, fun k ⟨hk, hkline⟩ => ?_⟩
      by_cases hki : k ≤ i
      · exact hleast ⟨hki, hkline⟩
      · omega

end

variable {lexemes : List Lexeme} {outline : Outline} {store : Store}

/-- A token starts as many lines below the one before it as that one has line breaks. -/
theorem line_succ_of_build? (hbuild : Store.build? lexemes outline = .ok store) {i : Nat}
    (hi : i + 1 < store.size) :
    store.line (i + 1) = store.line i + (store.text i).toList.count '\n' := by
  rw [size_of_build? hbuild] at hi
  have hnext := token_eq_put hbuild (List.getElem?_eq_getElem hi)
  have hthis := token_eq_put hbuild (List.getElem?_eq_getElem (Nat.lt_of_succ_lt hi))
  rw [line, line, text, hnext, hthis,
    Lexeme.textBefore_succ (List.getElem?_eq_getElem (Nat.lt_of_succ_lt hi)), Place.after_append]
  exact Place.after_line _ _

/-- In a store that was built lines rise. -/
theorem risesTo_of_build? (hbuild : Store.build? lexemes outline = .ok store) {p : Nat}
    (hp : p < store.size) : store.RisesTo p := by
  intro i j hij hj
  induction j, hij using Nat.le_induction with
  | base => exact Nat.le_refl _
  | succ j hij ih =>
    have hbefore := ih (by omega)
    have hnext := line_succ_of_build? hbuild (i := j) (by omega)
    omega

/-- In every store, the search along a line finds the least index up to `p` whose token starts on
the line of `p` and is accepted, or with `exclude` is not, and nothing only if there is none. The
line starts with the least index of a token on it, so the search finds this one with a test that
accepts all tokens. -/
theorem line_walks_find_least (hbuild : Store.build? lexemes outline = .ok store) {p : Nat}
    (hp : p < store.size) (test : TokenTest) (exclude : Bool) :
    let found := store.findFirstOnLine (fun t => test t != exclude) p
    (∀ i, found = some i ↔
      IsLeast {i | i ≤ p ∧ store.line i = store.line p ∧ test (store.token i) ≠ exclude} i) ∧
    (found = none ↔ ∀ i ≤ p, store.line i = store.line p → test (store.token i) = exclude) ∧
    IsLeast {i | i < store.size ∧ store.line i = store.line p} (store.lineStart p) ∧
    ((∀ i < store.size, test (store.token i) ≠ exclude) → found = some (store.lineStart p)) := by
  intro found
  have hrises := risesTo_of_build? hbuild hp
  obtain ⟨⟨hle, hline⟩, hleast⟩ := lineStartBelow_isLeast hrises rfl
  refine ⟨fun i => ?_, ?_, ⟨⟨Nat.lt_of_le_of_lt hle hp, hline⟩, fun k ⟨_, hkline⟩ => ?_⟩,
    fun hall => ?_⟩
  · rw [findFirstOnLine_eq_some_iff hrises]
    simp only [bne_iff_ne]
  · rw [findFirstOnLine_eq_none_iff hrises]
    simp only [bne_eq_false_iff_eq]
  · by_cases hk : k ≤ p
    · exact hleast ⟨hk, hkline⟩
    · exact Nat.le_trans hle (Nat.le_of_not_le hk)
  · rw [findFirstOnLine_eq_some_iff hrises]
    refine ⟨⟨hle, hline, bne_iff_ne.mpr (hall _ (Nat.lt_of_le_of_lt hle hp))⟩, ?_⟩
    rintro k ⟨hk, hkline, _⟩
    exact hleast ⟨hk, hkline⟩

/-- Behind a string over two lines stand whitespace, a token without text and a name. The name is
the first token on its line that is no whitespace, no string is on the line, and the whitespace
starts it. -/
theorem line_walks_behind_long_token :
    let lexemes : List Lexeme := [
      ⟨.openTag, "<?php\n"⟩, ⟨.quotedString, "'a\nb'"⟩, ⟨.whitespace, " "⟩,
      ⟨.whitespace, ""⟩, ⟨.identifier, "x"⟩]
    ∃ store, Store.build? lexemes {} = .ok store ∧ 4 < store.size ∧
      store.findFirstOnLine (fun t => TokenTest.isKind .whitespace t != true) 4 = some 4 ∧
      store.findFirstOnLine (fun t => TokenTest.isKind .quotedString t != false) 4 = none ∧
      store.lineStart 4 = 2 ∧ store.findFirstOnLine (fun _ => true != false) 4 = some 2 := by
  intro lexemes
  obtain ⟨store, hbuild⟩ := (exists_build?_iff lexemes {}).mpr (Outline.wellFormed_empty _)
  have hsize : 4 < store.size := by
    rw [size_of_build? hbuild]
    decide
  have hput {i : Nat} {l : Lexeme} (hl : lexemes[i]? = some l) := token_eq_put hbuild hl
  have h0 : store.line 0 = 1 := by rw [line, hput rfl]; decide
  have h1 : store.line 1 = 2 := by rw [line, hput rfl]; decide
  have h2 : store.line 2 = 3 ∧ (store.token 2).kind = .whitespace := by rw [line, hput rfl]; decide
  have h3 : store.line 3 = 3 ∧ (store.token 3).kind = .whitespace := by rw [line, hput rfl]; decide
  have h4 : store.line 4 = 3 ∧ (store.token 4).kind = .identifier := by rw [line, hput rfl]; decide
  have hon {k : Nat} (hk : k ≤ 4) (hline : store.line k = store.line 4) : k = 2 ∨
      k = 3 ∨ k = 4 := by
    by_contra hnot
    have hfront : k = 0 ∨ k = 1 := by omega
    rcases hfront with rfl | rfl <;> omega
  obtain ⟨hname, _⟩ := line_walks_find_least hbuild hsize (.isKind .whitespace) true
  obtain ⟨_, hstring, hstart, _⟩ := line_walks_find_least hbuild hsize (.isKind .quotedString) false
  obtain ⟨_, _, _, hall⟩ := line_walks_find_least hbuild hsize (fun _ => true) false
  have hfirst : store.lineStart 4 = 2 := by
    refine hstart.unique ⟨⟨by omega, by omega⟩, fun k ⟨_, hline⟩ => ?_⟩
    by_contra hlt
    rcases hon (by omega) hline with rfl | rfl | rfl <;> omega
  refine ⟨store, hbuild, hsize, (hname 4).mpr ⟨⟨Nat.le_refl 4, rfl, ?_⟩, ?_⟩,
    hstring.mpr ?_, hfirst, hfirst ▸ hall (by simp)⟩
  · simp [TokenTest.isKind, h4.2]
  · rintro k ⟨hk, hline, hvisible⟩
    rcases hon hk hline with rfl | rfl | rfl
    · exact absurd (by simp [TokenTest.isKind, h2.2]) hvisible
    · exact absurd (by simp [TokenTest.isKind, h3.2]) hvisible
    · exact Nat.le_refl 4
  · intro k hk hline
    rcases hon hk hline with rfl | rfl | rfl
    · simp [TokenTest.isKind, h2.2]
    · simp [TokenTest.isKind, h3.2]
    · simp [TokenTest.isKind, h4.2]

end PhpStyle.Store
