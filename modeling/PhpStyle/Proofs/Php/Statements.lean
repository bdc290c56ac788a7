import PhpStyle.Proofs.Php.Declarations
import PhpStyle.Store.Walk

/-!
# Where statements end

The search for the end of a statement goes over whole groups and stops at whatever ends a statement
outside of them. Groups nest, so it never comes past the bracket that closes a group around its
start, and what it has gone over without stopping lies inside of groups that it has left behind.
-/

namespace PhpStyle

namespace Store

/-- A pair of brackets from token `first` to token `last`, or in between, with a token inside. -/
def IsNested (s : Store) (first last k : Nat) : Prop :=
  ∃ i j, s.bracketMatch? i = some j ∧ first ≤ i ∧ i < k ∧ k < j ∧ j ≤ last

/-- A scope that is no part of an expression. -/
def IsBlock (s : Store) (g : Group) : Prop :=
  s.scope? g.opener = some g ∧ isExpressionScope (s.kind g.owner) = false

/-- The search for the end of a statement in so many rounds, and nothing if it is still under way
after them. -/
def statementEndIn (s : Store) : Nat → Bool → Nat → Nat → Option Nat
  | 0, _, _, _ => none
  | rounds + 1, inside, last, i =>
    if i < s.size then
      if inside && endsStatement (s.kind i) then some i
      else if inside && (s.kind i).closesGroup then some last
      else
        match s.statementScopeEnd? i with
        | some j => some j
        | none =>
          match s.groupEnd? i with
          | some ⟨j, _⟩ => s.statementEndIn rounds true j (j + 1)
          | none => s.statementEndIn rounds true (if (s.token i).isTrivia then last else i) (i + 1)
    else some last

/-- What a search over groups relies on: a pair of brackets opens and closes a group, no two pairs
cross, and the braces of a scope are a pair. -/
structure Bracketed (s : Store) : Prop where
  lt_size : ∀ i j, s.bracketMatch? i = some j → j < s.size
  closes : ∀ i j, s.bracketMatch? i = some j → i < j →
    (s.kind i).opensGroup = true ∧ (s.kind j).closesGroup = true
  nested : ∀ o c i j, s.bracketMatch? o = some c → s.bracketMatch? i = some j →
    o < i → i < c → j < c
  scope : ∀ i g, s.scope? i = some g → g.opener < g.closer ∧
    s.bracketMatch? g.opener = some g.closer

/-- A search that began at token `p` has come to token `i`, and `last` is the last token of code
before it. -/
structure Searched (s : Store) (p : Nat) (inside : Bool) (last i : Nat) : Prop where
  start : inside = false → last = p ∧ i = p
  behind : inside = true → last < i
  le : p ≤ last
  lt_size : last < s.size
  /-- The search has not come past the end of a group around its start. -/
  around : ∀ o c, s.bracketMatch? o = some c → o < p → p < c → i ≤ c
  marks : ∀ k, p < k → k < i → endsStatement (s.kind k) = true → s.IsNested p last k
  blocks : ∀ g, s.IsBlock g → p ≤ g.opener → g.opener < i → s.IsNested p last g.opener
  trivia : ∀ k, last < k → k < i → (s.kind k).isTrivia = true

/-- Token `e` ends the statement at token `p`. -/
structure IsStatementEnd (s : Store) (p e : Nat) : Prop where
  le : p ≤ e
  lt_size : e < s.size
  around : ∀ o c, s.bracketMatch? o = some c → o < p → p < c → o < e ∧ e < c
  marks : ∀ k, p < k → k < e → endsStatement (s.kind k) = true → s.IsNested p e k
  blocks : ∀ g, s.IsBlock g → p ≤ g.opener → g.opener < e → g.closer = e ∨ s.IsNested p e g.opener
  /-- It is a mark, or the end of a block, or the last code of the group around the statement. -/
  reason : (p < e ∧ endsStatement (s.kind e) = true) ∨
    (∃ g, s.IsBlock g ∧ p ≤ g.opener ∧ g.closer = e) ∨
    ∃ x, e < x ∧ (x = s.size ∨ x < s.size ∧ (s.kind x).closesGroup = true) ∧
      ∀ k, e < k → k < x → (s.kind k).isTrivia = true

variable {s : Store} {p last i j k : Nat} {inside : Bool}

/-- What is nested in a stretch is nested in a longer one. -/
theorem IsNested.mono (h : s.IsNested p last k) {last' : Nat} (hle : last ≤ last') :
    s.IsNested p last' k := by
  obtain ⟨o, c, hpair, ho, hok, hkc, hc⟩ := h
  exact ⟨o, c, hpair, ho, hok, hkc, Nat.le_trans hc hle⟩

/-- The end of a scope is taken at its opening brace, if the scope is no part of an expression. -/
theorem statementScopeEnd?_eq_some_iff :
    s.statementScopeEnd? i = some j ↔ ∃ g, s.IsBlock g ∧ g.opener = i ∧ g.closer = j := by
  unfold statementScopeEnd? IsBlock
  constructor
  · intro h
    split at h
    · rename_i g hg
      split at h
      · rename_i hblock
        simp only [Bool.and_eq_true, decide_eq_true_eq, Bool.not_eq_true'] at hblock
        obtain ⟨rfl, hkind⟩ := hblock
        exact ⟨g, ⟨hg, hkind⟩, rfl, Option.some.inj h⟩
      · cases h
    · cases h
  · rintro ⟨g, ⟨hg, hkind⟩, rfl, rfl⟩
    simp [hg, hkind]

/-- The end of a group is the partner of the bracket that opens it. -/
theorem bracketMatch?_of_groupEnd? {h : i < j} (hend : s.groupEnd? i = some ⟨j, h⟩) :
    s.bracketMatch? i = some j := by
  unfold groupEnd? at hend
  split at hend
  · split at hend
    · rename_i found hfound
      split at hend
      · cases hend
        exact hfound
      · cases hend
    · cases hend
  · cases hend

/-- A statement ends with a semicolon, a comma or a close tag. -/
theorem endsStatement_eq_true_iff {kind : Kind} :
    endsStatement kind = true ↔ kind = .semicolon ∨ kind = .comma ∨ kind = .closeTag := by
  cases kind <;> decide

/-- What opens a group ends no statement. -/
theorem endsStatement_eq_false_of_opensGroup {kind : Kind} (h : kind.opensGroup = true) :
    endsStatement kind = false := by
  cases kind <;> first | rfl | cases h

/-- What closes a group ends no statement. -/
theorem endsStatement_eq_false_of_closesGroup {kind : Kind} (h : kind.closesGroup = true) :
    endsStatement kind = false := by
  cases kind <;> first | rfl | cases h

/-- A search that has answered gives the same answer in any number of rounds that is large enough,
and one round for each token is. -/
theorem statementEndIn_eq {rounds : Nat} (h : s.size - i < rounds) :
    s.statementEndIn rounds inside last i = some (s.statementEndFrom inside last i) := by
  induction rounds generalizing inside last i with
  | zero => omega
  | succ rounds ih =>
    rw [statementEndIn, statementEndFrom]
    split
    · split
      · rfl
      split
      · rfl
      cases s.statementScopeEnd? i with
      | some j => rfl
      | none =>
        cases s.groupEnd? i with
        | some found => exact ih (by have := found.2; omega)
        | none => exact ih (by omega)
    · rfl

namespace Searched

/-- A search that goes on stands in front of the end of every group around its start. -/
theorem lt_closer (h : Searched s p inside last i) (hs : s.Bracketed)
    (hgoes : inside = true → (s.kind i).closesGroup = false) {o c : Nat}
    (hpair : s.bracketMatch? o = some c) (ho : o < p) (hc : p < c) : i < c := by
  refine Nat.lt_of_le_of_ne (h.around o c hpair ho hc) ?_
  rintro rfl
  cases inside with
  | false => exact absurd (h.start rfl).2 (Nat.ne_of_gt hc)
  | true =>
    have hcloses := (hs.closes o i hpair (Nat.lt_trans ho hc)).2
    rw [hgoes rfl] at hcloses
    cases hcloses

/-- A search stands at its start or behind it, and at the last code that it has passed or behind
it. -/
theorem le_at (h : Searched s p inside last i) : p ≤ i ∧ last ≤ i := by
  cases inside with
  | false =>
    obtain ⟨rfl, rfl⟩ := h.start rfl
    exact ⟨Nat.le_refl _, Nat.le_refl _⟩
  | true =>
    have := h.le
    have := h.behind rfl
    omega

/-- A search that comes to a pair of brackets has gone over what lies in front, and all else up to
the closing one is nested. -/
theorem nested_mark (h : Searched s p inside last i) (hs : s.Bracketed)
    (hpair : s.bracketMatch? i = some j) (hij : i < j) (hp : p < k) (hk : k ≤ j)
    (hmark : endsStatement (s.kind k) = true) : s.IsNested p j k := by
  obtain ⟨hopens, hcloses⟩ := hs.closes i j hpair hij
  obtain ⟨hpi, hlast⟩ := h.le_at
  rcases Nat.lt_trichotomy k i with hki | rfl | hik
  · exact (h.marks k hp hki hmark).mono (by omega)
  · rw [endsStatement_eq_false_of_opensGroup hopens] at hmark
    cases hmark
  · rcases Nat.lt_or_eq_of_le hk with hkj | rfl
    · exact ⟨i, j, hpair, hpi, hik, hkj, Nat.le_refl j⟩
    · rw [endsStatement_eq_false_of_closesGroup hcloses] at hmark
      cases hmark

/-- A block within a group that the search passes over is nested behind its start. -/
theorem nested_block (h : Searched s p inside last i) (hs : s.Bracketed)
    (hpair : s.bracketMatch? i = some j) (hij : i < j) {g : Group} (hg : s.IsBlock g)
    (hp : p ≤ g.opener) (hk : g.opener ≤ j) (hne : g.opener ≠ i) : s.IsNested p j g.opener := by
  obtain ⟨hpi, hlast⟩ := h.le_at
  rcases Nat.lt_trichotomy g.opener i with hki | heq | hik
  · exact (h.blocks g hg hp hki).mono (by omega)
  · exact absurd heq hne
  · refine ⟨i, j, hpair, hpi, hik, Nat.lt_of_le_of_ne hk ?_, Nat.le_refl j⟩
    -- the bracket that closes the pair opens none
    rintro rfl
    obtain ⟨hlt, hmatch⟩ := hs.scope _ g hg.1
    have hopens := (hs.closes _ _ hmatch hlt).1
    have hcloses := (hs.closes i _ hpair hij).2
    rw [Kind.opensGroup_of_closesGroup hcloses] at hopens
    cases hopens

/-- A search goes on behind a group. -/
theorem group (h : Searched s p inside last i) (hs : s.Bracketed)
    (hgoes : inside = true → (s.kind i).closesGroup = false)
    (hblock : s.statementScopeEnd? i = none) (hpair : s.bracketMatch? i = some j) (hij : i < j) :
    Searched s p true j (j + 1) where
  start := nofun
  behind _ := Nat.lt_succ_self j
  le := Nat.le_trans h.le_at.1 (Nat.le_of_lt hij)
  lt_size := hs.lt_size i j hpair
  around o c hgroup ho hc :=
    have hic := h.lt_closer hs hgoes hgroup ho hc
    hs.nested o c i j hgroup hpair (Nat.lt_of_lt_of_le ho h.le_at.1) hic
  marks _ hp hk := h.nested_mark hs hpair hij hp (Nat.le_of_lt_succ hk)
  blocks g hg hp hk := by
    refine h.nested_block hs hpair hij hg hp (Nat.le_of_lt_succ hk) ?_
    rintro rfl
    rw [statementScopeEnd?_eq_some_iff.mpr ⟨g, hg, rfl, rfl⟩] at hblock
    cases hblock
  trivia _ _ _ := by omega

/-- A search goes on behind a token that opens no group and ends nothing. -/
theorem token (h : Searched s p inside last i) (hs : s.Bracketed) (hi : i < s.size)
    (hmark : inside = true → endsStatement (s.kind i) = false)
    (hgoes : inside = true → (s.kind i).closesGroup = false)
    (hblock : s.statementScopeEnd? i = none) :
    Searched s p true (if (s.token i).isTrivia then last else i) (i + 1) := by
  obtain ⟨hpi, hlast⟩ := h.le_at
  have hle : last ≤ if (s.token i).isTrivia then last else i := by split <;> omega
  exact {
    start := nofun
    behind := fun _ => by split <;> omega
    le := Nat.le_trans h.le hle
    lt_size := by split <;> [exact h.lt_size; exact hi]
    around := fun o c hpair ho hc => h.lt_closer hs hgoes hpair ho hc
    marks := by
      intro k hp hk hends
      rcases Nat.lt_or_eq_of_le (Nat.le_of_lt_succ hk) with hki | rfl
      · exact (h.marks k hp hki hends).mono hle
      · cases inside with
        | false => exact absurd (h.start rfl).2 (Nat.ne_of_gt hp)
        | true =>
          rw [hmark rfl] at hends
          cases hends
    blocks := by
      intro g hg hp hk
      rcases Nat.lt_or_eq_of_le (Nat.le_of_lt_succ hk) with hki | rfl
      · exact (h.blocks g hg hp hki).mono hle
      · rw [statementScopeEnd?_eq_some_iff.mpr ⟨g, hg, rfl, rfl⟩] at hblock
        cases hblock
    trivia := by
      intro k hk hki
      split at hk
      · rename_i htrivia
        rcases Nat.lt_or_eq_of_le (Nat.le_of_lt_succ hki) with hki | rfl
        · exact h.trivia k hk hki
        · exact htrivia
      · omega }

/-- At a mark the search has found it. -/
theorem mark (h : Searched s p true last i) (hs : s.Bracketed) (hi : i < s.size)
    (hmark : endsStatement (s.kind i) = true) : IsStatementEnd s p i where
  le := h.le_at.1
  lt_size := hi
  around o c hpair ho hc := by
    refine ⟨Nat.lt_of_lt_of_le ho h.le_at.1, h.lt_closer hs (fun _ => ?_) hpair ho hc⟩
    by_contra hcloses
    rw [endsStatement_eq_false_of_closesGroup (by simpa using hcloses)] at hmark
    cases hmark
  marks k hp hk hends := (h.marks k hp hk hends).mono h.le_at.2
  blocks g hg hp hk := .inr ((h.blocks g hg hp hk).mono h.le_at.2)
  reason := .inl ⟨Nat.lt_of_le_of_lt h.le (h.behind rfl), hmark⟩

/-- At the end of a group around its start, or behind all tokens, the search goes back to the last
token of code. -/
theorem back (h : Searched s p inside last i) (hp : p < s.size)
    (hend : s.size ≤ i ∨ i < s.size ∧ inside = true ∧ (s.kind i).closesGroup = true) :
    IsStatementEnd s p last := by
  have hlast : last < i := by
    cases inside with
    | false =>
      obtain ⟨_, rfl⟩ := h.start rfl
      rcases hend with hend | ⟨_, hinside, _⟩
      · omega
      · cases hinside
    | true => exact h.behind rfl
  exact {
    le := h.le
    lt_size := h.lt_size
    around := fun o c hpair ho hc =>
      ⟨Nat.lt_of_lt_of_le ho h.le, Nat.lt_of_lt_of_le hlast (h.around o c hpair ho hc)⟩
    marks := fun k hp hk => h.marks k hp (Nat.lt_trans hk hlast)
    blocks := fun g hg hp hk => .inr (h.blocks g hg hp (Nat.lt_trans hk hlast))
    reason := by
      right
      right
      rcases hend with hend | ⟨hi, _, hcloses⟩
      · exact ⟨s.size, h.lt_size, .inl rfl,
          fun k hk hsize => h.trivia k hk (Nat.lt_of_lt_of_le hsize hend)⟩
      · exact ⟨i, hlast, .inr ⟨hi, hcloses⟩, h.trivia⟩ }

/-- At a block the search answers with its end. -/
theorem block (h : Searched s p inside last i) (hs : s.Bracketed)
    (hgoes : inside = true → (s.kind i).closesGroup = false)
    (hblock : s.statementScopeEnd? i = some j) : IsStatementEnd s p j := by
  obtain ⟨g, hg, rfl, rfl⟩ := statementScopeEnd?_eq_some_iff.mp hblock
  obtain ⟨hlt, hpair⟩ := hs.scope _ g hg.1
  have hpi := h.le_at.1
  exact {
    le := by omega
    lt_size := hs.lt_size _ _ hpair
    around := by
      intro o c hgroup ho hc
      have hic := h.lt_closer hs hgoes hgroup ho hc
      exact ⟨by omega, hs.nested o c _ _ hgroup hpair (by omega) hic⟩
    marks := fun k hp hk => h.nested_mark hs hpair hlt hp (Nat.le_of_lt hk)
    blocks := by
      intro other hother hp hk
      by_cases heq : other.opener = g.opener
      · left
        have hsame := hother.1
        rw [heq, hg.1] at hsame
        rw [Option.some.inj hsame]
      · exact .inr (h.nested_block hs hpair hlt hother hp (Nat.le_of_lt hk) heq)
    reason := .inr (.inl ⟨g, hg, hpi, rfl⟩) }

end Searched

/-- Wherever a search has come to, it answers with the end of the statement at which it began. -/
theorem isStatementEnd_statementEndFrom (hs : s.Bracketed) (hp : p < s.size)
    (h : Searched s p inside last i) : IsStatementEnd s p (s.statementEndFrom inside last i) := by
  fun_induction statementEndFrom s inside last i with
  | case1 inside last i hi hmark =>
    obtain ⟨rfl, hmark⟩ := Bool.and_eq_true_iff.mp hmark
    exact h.mark hs hi hmark
  | case2 inside last i hi _ hcloses => exact h.back hp (.inr ⟨hi, Bool.and_eq_true_iff.mp hcloses⟩)
  | case3 inside last i hi _ hgoes j hblock => exact h.block hs (by simpa using hgoes) hblock
  | case4 inside last i hi _ hgoes hblock j hij hend ih =>
    exact ih (h.group hs (by simpa using hgoes) hblock (bracketMatch?_of_groupEnd? hend) hij)
  | case5 inside last i hi hmark hgoes hblock _ ih =>
    exact ih (h.token hs hi (by simpa using hmark) (by simpa using hgoes) hblock)
  | case6 inside last i hi => exact h.back hp (.inl (Nat.le_of_not_lt hi))

/-- Where a search begins it has gone over nothing. -/
theorem searched_start (hp : p < s.size) : Searched s p false p p where
  start _ := ⟨rfl, rfl⟩
  behind := nofun
  le := Nat.le_refl p
  lt_size := hp
  around _ _ _ _ hc := Nat.le_of_lt hc
  marks _ _ _ := by omega
  blocks _ _ _ _ := by omega
  trivia _ _ _ := by omega

end Store

namespace Php

/-- In the store of a PHP text brackets pair as the search for the end of a statement expects. -/
theorem bracketed_of_build {lexemes : List Lexeme} {store : Store}
    (hbuild : Store.build? lexemes (outline lexemes) = .ok store) : store.Bracketed := by
  have hpair {i j : Nat} (h : store.bracketMatch? i = some j) (hij : i < j) :
      (i, j) ∈ Brackets.pair (lexemes.map (·.kind)) := by
    rcases (Store.bracketMatch?_eq_some_iff hbuild).mp h with hmem | hmem
    · exact hmem
    · exact absurd (Brackets.mem_pair hmem).1 (Nat.not_lt.mpr (Nat.le_of_lt hij))
  constructor
  · intro i j h
    have hsize : store.size = (lexemes.map (·.kind)).length := by
      rw [Store.size_of_build? hbuild, List.length_map]
    rw [hsize]
    rcases (Store.bracketMatch?_eq_some_iff hbuild).mp h with hmem | hmem
    · exact Brackets.lt_length_of_mem_pair hmem
    · exact Nat.lt_trans (Brackets.mem_pair hmem).1 (Brackets.lt_length_of_mem_pair hmem)
  · intro i j h hij
    obtain ⟨_, opener, closer, hopener, hcloser, hopens, hcloses, _⟩ :=
      Brackets.mem_pair (hpair h hij)
    rw [kind_of_build hbuild i, kind_of_build hbuild j, kind_ofKinds hopener, kind_ofKinds hcloser]
    exact ⟨hopens, hcloses⟩
  · intro o c i j hgroup h hoi hic
    by_cases hij : i < j
    · rcases Brackets.apart_of_mem_pair (hpair hgroup (by omega)) (hpair h hij)
        with heq | hapart | hapart
      · cases heq
        omega
      · obtain ⟨hlater, hside⟩ := hapart
        dsimp only at hlater hside
        omega
      · exact hapart.1
    · omega
  · intro i g hg
    obtain ⟨hmem, _⟩ := (Store.scope?_eq_some_iff hbuild).mp hg
    have hends := (family_scopes _).ends g hmem
    exact ⟨(Brackets.mem_pair hends).1, (Store.bracketMatch?_eq_some_iff hbuild).mpr (.inl hends)⟩

/-- From every token of a PHP text the search for the end of its statement takes at most one round
for each token from there on, and answers with a token not in front of it. It stays inside of all
groups around the start. Every mark that ends a statement and that it has gone over is inside of a
group within the statement, and so is every block but one that ends the statement. It stops at a
mark, at the end of a block, or in front of the end of the group around the statement, and then no
code is left in between. -/
theorem statementEnd_stays_in_group (source : String) : ∃ store, tokenize source = .ok store ∧
    ∀ p < store.size, ∃ e, store.statementEnd p = e ∧
      store.statementEndIn (store.size - p + 1) false p p = some e ∧ p ≤ e ∧ e < store.size ∧
      (∀ o c, store.bracketMatch? o = some c → o < p → p < c → o < e ∧ e < c) ∧
      (∀ k, p < k → k < e → store.kind k ∈ [.semicolon, .comma, .closeTag] →
        ∃ o c, store.bracketMatch? o = some c ∧ p ≤ o ∧ o < k ∧ k < c ∧ c ≤ e) ∧
      (∀ g, store.IsBlock g → p ≤ g.opener → g.opener < e → g.closer = e ∨
        store.IsNested p e g.opener) ∧ ((p < e ∧ store.kind e ∈ [.semicolon, .comma, .closeTag]) ∨
        (∃ g, store.IsBlock g ∧ p ≤ g.opener ∧ g.closer = e) ∨
        ∃ x, e < x ∧ (x = store.size ∨ x < store.size ∧ (store.kind x).closesGroup = true) ∧
          ∀ k, e < k → k < x → (store.kind k).isTrivia = true) := by
  obtain ⟨store, hstore, hbuild⟩ := exists_tokenize source
  refine ⟨store, hstore, fun p hp => ⟨_, rfl, ?_, ?_⟩⟩
  · exact Store.statementEndIn_eq (Nat.lt_succ_self _)
  have hend : store.IsStatementEnd p (store.statementEnd p) :=
    Store.isStatementEnd_statementEndFrom (bracketed_of_build hbuild) hp (Store.searched_start hp)
  have hmarks (k : Nat) : store.kind k ∈ [.semicolon, .comma, .closeTag] ↔
      Store.endsStatement (store.kind k) = true := by
    simp [Store.endsStatement_eq_true_iff]
  simp only [hmarks]
  exact ⟨hend.le, hend.lt_size, hend.around, hend.marks, hend.blocks, hend.reason⟩

/-- A call with a closure among its arguments: from the call the search goes over the statements of
the closure, from one of these it stays inside, and from the last argument it goes no further. -/
theorem statementEnd_of_call :
    ∃ store, tokenize "<?php f(function () \x7b a(1, 2); return 3; \x7d, $b); g();" = .ok store ∧
      (1 < store.size ∧ store.statementEnd 1 = 29 ∧ store.kind 29 = .semicolon) ∧
      (store.kind 17 = .semicolon ∧
        ∃ o c, store.bracketMatch? o = some c ∧ 1 ≤ o ∧ o < 17 ∧ 17 < c ∧ c ≤ 29) ∧
      (10 < store.size ∧ store.statementEnd 10 = 17 ∧ store.bracketMatch? 8 = some 24) ∧
      27 < store.size ∧ store.statementEnd 27 = 27 ∧ store.bracketMatch? 2 = some 28 := by
  have hdraft : (draft? "<?php f(function () \x7b a(1, 2); return 3; \x7d, $b); g();").any (fun s =>
      s.size = 35 ∧ s.statementEndIn (s.size - 1 + 1) false 1 1 = some 29 ∧
        s.statementEndIn (s.size - 10 + 1) false 10 10 = some 17 ∧
        s.statementEndIn (s.size - 27 + 1) false 27 27 = some 27 ∧ s.kind 29 = .semicolon ∧
        s.kind 17 = .semicolon ∧ s.bracketMatch? 8 = some 24 ∧
        s.bracketMatch? 2 = some 28) = true := by
    decide +kernel
  obtain ⟨store, hstore, hcomputed⟩ := exists_of_draft hdraft
  obtain ⟨hsize, hcall, hinner, hargument, hmark, hnested, hbrace, hparen⟩ :=
    of_decide_eq_true hcomputed
  obtain ⟨found, hfound, hspec⟩ := statementEnd_stays_in_group
    "<?php f(function () \x7b a(1, 2); return 3; \x7d, $b); g();"
  obtain rfl : found = store := Except.ok.inj (hfound.symm.trans hstore)
  have hend {p e : Nat} (hp : p < found.size)
      (hin : found.statementEndIn (found.size - p + 1) false p p = some e) :
      found.statementEnd p = e := by
    obtain ⟨_, he, hanswer, _⟩ := hspec p hp
    rw [he]
    exact Option.some.inj (hanswer.symm.trans hin)
  have h1 : 1 < found.size := by omega
  have h10 : 10 < found.size := by omega
  have h27 : 27 < found.size := by omega
  have hcallEnd := hend h1 hcall
  obtain ⟨e, he, _, _, _, _, hmarks, _⟩ := hspec 1 h1
  obtain rfl : e = 29 := he.symm.trans hcallEnd
  exact ⟨found, hstore, ⟨h1, he, hmark⟩,
    ⟨hnested, hmarks 17 (by decide) (by decide) (by simp [hnested])⟩,
    ⟨h10, hend h10 hinner, hbrace⟩, h27, hend h27 hargument, hparen⟩

end Php

end PhpStyle
