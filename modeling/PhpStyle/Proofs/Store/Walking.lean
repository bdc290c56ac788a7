import PhpStyle.Standard.Layout

/-!
# What walking finds

A search through a store finds a token that passes its test, and everything it went over on its way
fails the test. For the searches of the rules this says what stands between two tokens: nothing but
whitespace, or nothing but whitespace and comments.
-/

namespace PhpStyle.Store

variable {s : Store} {test : TokenTest} {i j : Nat}

/-- Scanning up finds the nearest token that passes the test. -/
theorem scanUp_eq_some {count : Nat} (h : s.scanUp test i count = some j) :
    i ≤ j ∧ j < i + count ∧ test (s.token j) = true ∧
      ∀ k, i ≤ k → k < j → test (s.token k) = false := by
  induction count generalizing i with
  | zero => cases h
  | succ count ih =>
    rw [scanUp] at h
    split at h
    · rename_i hi
      cases h
      exact ⟨Nat.le_refl _, by omega, hi, fun k _ _ => by omega⟩
    · rename_i hi
      obtain ⟨hle, hlt, hj, hbetween⟩ := ih h
      refine ⟨by omega, by omega, hj, fun k hk hkj => ?_⟩
      rcases Nat.eq_or_lt_of_le hk with rfl | hk
      · simpa using hi
      · exact hbetween k hk hkj

/-- If scanning up finds nothing, no token within reach passes the test. -/
theorem scanUp_eq_none {count : Nat} (h : s.scanUp test i count = none) :
    ∀ k, i ≤ k → k < i + count → test (s.token k) = false := by
  induction count generalizing i with
  | zero => exact fun k _ _ => by omega
  | succ count ih =>
    intro k hik hk
    rw [scanUp] at h
    split at h
    · cases h
    · rename_i hi
      rcases Nat.eq_or_lt_of_le hik with rfl | hik
      · simpa using hi
      · exact ih h k hik (by omega)

/-- Scanning down finds the nearest token that passes the test. -/
theorem scanDown_eq_some {stop : Nat} (h : s.scanDown test stop i = some j) :
    stop ≤ j ∧ j < i ∧ test (s.token j) = true ∧ ∀ k, j < k → k < i → test (s.token k) = false := by
  induction i with
  | zero => cases h
  | succ i ih =>
    rw [scanDown] at h
    split at h
    · cases h
    · rename_i hstop
      split at h
      · rename_i hi
        cases h
        exact ⟨by omega, Nat.lt_succ_self _, hi, fun k _ _ => by omega⟩
      · rename_i hi
        obtain ⟨hle, hlt, hj, hbetween⟩ := ih h
        refine ⟨hle, by omega, hj, fun k hjk hk => ?_⟩
        rcases Nat.eq_or_lt_of_le (Nat.le_of_lt_succ hk) with rfl | hk
        · simpa using hi
        · exact hbetween k hjk hk

/-- If scanning down finds nothing, no token within reach passes the test. -/
theorem scanDown_eq_none {stop : Nat} (h : s.scanDown test stop i = none) :
    ∀ k, stop ≤ k → k < i → test (s.token k) = false := by
  induction i with
  | zero => exact fun k _ hk => absurd hk (Nat.not_lt_zero k)
  | succ i ih =>
    intro k hstop hk
    rw [scanDown] at h
    split at h
    · omega
    · split at h
      · cases h
      · rename_i hi
        rcases Nat.eq_or_lt_of_le (Nat.le_of_lt_succ hk) with rfl | hk
        · simpa using hi
        · exact ih h k hstop hk

/-- All kinds but one are the other kinds. -/
theorem except_isKind_eq_true_iff {k : Kind} :
    TokenTest.except (.isKind k) (s.token i) = true ↔ s.kind i ≠ k := by
  simp [TokenTest.except, TokenTest.isKind, kind]

/-- Of all kinds but one, that one is left out. -/
theorem except_isKind_eq_false_iff {k : Kind} :
    TokenTest.except (.isKind k) (s.token i) = false ↔ s.kind i = k := by
  simp [TokenTest.except, TokenTest.isKind, kind]

/-- The next visible token, with nothing but whitespace in front of it. -/
theorem nextVisible?_eq_some {stop : Option Nat} (h : s.nextVisible? i stop = some j) :
    i < j ∧ j < s.size ∧ s.kind j ≠ .whitespace ∧ ∀ k, i < k → k < j → s.kind k = .whitespace := by
  obtain ⟨first, hfirst, hfound⟩ := Option.bind_eq_some_iff.mp h
  have hfirst : first = i + 1 := by
    rw [next?, index?] at hfirst
    split at hfirst <;> cases hfirst
    rfl
  subst hfirst
  obtain ⟨hle, hlt, hj, hbetween⟩ := scanUp_eq_some hfound
  refine ⟨hle, by omega, except_isKind_eq_true_iff.mp hj, fun k hik hkj => ?_⟩
  exact except_isKind_eq_false_iff.mp (hbetween k hik hkj)

/-- A token is the one behind its predecessor. -/
theorem prev?_eq_some (h : s.prev? i = some j) : i = j + 1 := by
  rw [prev?] at h
  split at h
  · cases h
  · cases h
    omega

/-- The visible token before another, with nothing but whitespace behind it. -/
theorem prevVisible?_eq_some {stop : Nat} (h : s.prevVisible? i (some stop) = some j) :
    stop ≤ j ∧ j < i ∧ s.kind j ≠ .whitespace ∧ ∀ k, j < k → k < i → s.kind k = .whitespace := by
  obtain ⟨last, hlast, hfound⟩ := Option.bind_eq_some_iff.mp h
  obtain rfl := prev?_eq_some hlast
  obtain ⟨hle, hlt, hj, hbetween⟩ := scanDown_eq_some hfound
  refine ⟨hle, hlt, except_isKind_eq_true_iff.mp hj, fun k hjk hk => ?_⟩
  exact except_isKind_eq_false_iff.mp (hbetween k hjk hk)

/-- If nothing visible is found in front of a token, whitespace stands there. -/
theorem prevVisible?_eq_none {stop : Nat} (h : s.prevVisible? i (some stop) = none) :
    ∀ k, stop ≤ k → k < i → s.kind k = .whitespace := by
  intro k hstop hk
  obtain ⟨last, rfl⟩ : ∃ last, i = last + 1 := ⟨i - 1, by omega⟩
  exact except_isKind_eq_false_iff.mp (scanDown_eq_none h k hstop hk)

/-- The token of code before another, with nothing but trivia behind it. -/
theorem prevCodeDownTo?_eq_some {stop : Nat} (h : s.prevCodeDownTo? i stop = some j) :
    stop ≤ j ∧ j < i ∧ (s.kind j).isTrivia = false ∧
      ∀ k, j < k → k < i → (s.kind k).isTrivia = true := by
  obtain ⟨last, hlast, hfound⟩ := Option.bind_eq_some_iff.mp h
  obtain rfl := prev?_eq_some hlast
  obtain ⟨hle, hlt, hj, hbetween⟩ := scanDown_eq_some hfound
  refine ⟨hle, hlt, by simpa [Token.isTrivia, kind] using hj, fun k hjk hk => ?_⟩
  simpa [Token.isTrivia, kind] using hbetween k hjk hk

/-- If no code is found in front of a token, trivia stands there. -/
theorem prevCodeDownTo?_eq_none {stop : Nat} (h : s.prevCodeDownTo? i stop = none) :
    ∀ k, stop ≤ k → k < i → (s.kind k).isTrivia = true := by
  intro k hstop hk
  obtain ⟨last, rfl⟩ : ∃ last, i = last + 1 := ⟨i - 1, by omega⟩
  simpa [Token.isTrivia, kind] using scanDown_eq_none h k hstop hk

/-- What a walk down a line ends with: the token found before it, or one that it came to; in front
of either stands a token of an earlier line or one that fails the test. -/
theorem firstOnLineBelow_eq_some {line : Nat} {found : Option Nat}
    (h : s.firstOnLineBelow test line i found = some j) :
    (j < i ∧ test (s.token j) = true ∧ line ≤ s.line j ∧
      ∀ p, p + 1 = j → s.line p < line ∨ test (s.token p) = false) ∨
    (found = some j ∧ ∀ p, p + 1 = i → s.line p < line ∨ test (s.token p) = false) := by
  induction i generalizing found with
  | zero => exact .inr ⟨h, by simp⟩
  | succ i ih =>
    rw [firstOnLineBelow] at h
    split at h
    · rename_i hline
      exact .inr ⟨h, fun p hp => .inl (by cases hp; exact hline)⟩
    · rename_i hline
      rcases ih h with ⟨hlt, hj⟩ | ⟨hfound, hprev⟩
      · exact .inl ⟨by omega, hj⟩
      · split at hfound
        · rename_i hi
          cases hfound
          exact .inl ⟨Nat.lt_succ_self _, hi, by omega, hprev⟩
        · rename_i hi
          exact .inr ⟨hfound, fun p hp => .inr (by cases hp; simpa using hi)⟩

/-- The first token on a line that passes a test: in front of it stands a token of an earlier line,
or one that fails the test. -/
theorem findFirstOnLine_eq_some (h : s.findFirstOnLine test i = some j) :
    j ≤ i ∧ test (s.token j) = true ∧ s.line i ≤ s.line j ∧
      ∀ p, p + 1 = j → s.line p < s.line i ∨ test (s.token p) = false := by
  rcases firstOnLineBelow_eq_some h with ⟨hlt, hrest⟩ | ⟨hfound, _⟩
  · exact ⟨Nat.le_of_lt_succ hlt, hrest⟩
  · cases hfound

/-- A token found on a line stays found as the search goes down. -/
theorem isSome_firstOnLineBelow {line : Nat} {found : Option Nat} (h : found.isSome = true) :
    (s.firstOnLineBelow test line i found).isSome = true := by
  induction i generalizing found with
  | zero => exact h
  | succ i ih =>
    rw [firstOnLineBelow]
    split
    · exact h
    · refine ih ?_
      split
      · rfl
      · exact h

/-- A token that passes the test is found itself, if none before it on its line does. -/
theorem exists_findFirstOnLine (h : test (s.token i) = true) :
    ∃ j, s.findFirstOnLine test i = some j := by
  rw [← Option.isSome_iff_exists, findFirstOnLine, firstOnLineBelow, if_neg (Nat.lt_irrefl _),
    if_pos h]
  exact isSome_firstOnLineBelow rfl

end PhpStyle.Store
