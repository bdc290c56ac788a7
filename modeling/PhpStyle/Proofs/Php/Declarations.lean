import PhpStyle.Proofs.Php.Settling
import PhpStyle.Proofs.Php.Stores
import PhpStyle.Proofs.Php.Tokenizing
import PhpStyle.Proofs.Run.Preview

/-!
# Owners and their braces

The brace of a scope is looked for from its owner on, over whole groups and no further than the end
of the statement. One search does not stop there: the parentheses of a `function` are the first ones
behind it, wherever they are. So a scope can go from a keyword in one statement to the brace of
another.
-/

namespace PhpStyle

/-- Tokens behind which a new statement starts. -/
def Kind.endsStatement : Kind → Bool
  | .semicolon | .closeTag => true
  | _ => false

/-- A declaration ends with a semicolon or a close tag. -/
theorem Kind.endsStatement_eq_true_iff {k : Kind} :
    k.endsStatement = true ↔ k = .semicolon ∨ k = .closeTag := by
  cases k <;> decide

/-- Among these pairs is one strictly between two tokens with a third token inside. -/
def Php.Brackets.Enclosed (pairs : List (Nat × Nat)) (low high k : Nat) : Prop :=
  ∃ p ∈ pairs, low < p.1 ∧ p.1 < k ∧ k < p.2 ∧ p.2 < high

namespace Store

/-- A pair of brackets strictly between two tokens encloses a third. -/
def IsEnclosed (s : Store) (low high k : Nat) : Prop :=
  ∃ i j, s.bracketMatch? i = some j ∧ low < i ∧ i < k ∧ k < j ∧ j < high

/-- The owner and the brace of a scope belong to one declaration: on the way from one to the other
statements end only inside of brackets. -/
def IsJoined (s : Store) (g : Group) : Prop :=
  ∀ k, g.owner < k → k < g.opener → (s.kind k).endsStatement = true →
    s.IsEnclosed g.owner g.opener k

/-- On the way from a `function` to its brace a statement ends outside of brackets, and no
parenthesis has come before that. -/
def LeavesStatement (s : Store) (g : Group) : Prop :=
  s.kind g.owner = .kwFunction ∧ ∃ k, g.owner < k ∧ k < g.opener ∧
    (s.kind k).endsStatement = true ∧ ¬ s.IsEnclosed g.owner g.opener k ∧
    ∀ p, g.owner < p → p ≤ k → s.kind p ≠ .openParen

end Store

namespace Php

section

variable {kinds : List Kind} {taken : List Nat} {low high i j k : Nat}

/-- Between the ends of a pair whatever ends a statement is enclosed. -/
theorem enclosed_of_mem_pair {p : Nat × Nat} (hp : p ∈ Brackets.pair kinds) (hlow : low < p.1)
    (hhigh : p.2 < high) (hfirst : p.1 ≤ k) (hlast : k ≤ p.2)
    (hends : ((Skeleton.ofKinds kinds).kind k).endsStatement = true) :
    Brackets.Enclosed (Brackets.pair kinds) low high k := by
  have hbracket (kind : Kind) : kind.isBracket = true → kind.endsStatement = false := by
    cases kind <;> decide
  have hopener : k ≠ p.1 := by
    rintro rfl
    rw [hbracket _ (isBracket_opener hp).2] at hends
    cases hends
  have hcloser : k ≠ p.2 := by
    rintro rfl
    rw [hbracket _ (isBracket_closer hp).2] at hends
    cases hends
  exact ⟨p, hp, hlow, by omega, by omega, hhigh⟩

/-- A block is looked for over whole groups: whatever ends a statement on the way is enclosed. -/
theorem enclosed_of_blockFrom? (h : (Skeleton.ofKinds kinds).blockFrom? taken i = some j)
    (hlow : low < i) (hik : i ≤ k) (hkj : k < j)
    (hends : ((Skeleton.ofKinds kinds).kind k).endsStatement = true) :
    Brackets.Enclosed (Brackets.pair kinds) low j k := by
  have hgroup {i closer : Nat} (hopens : ((Skeleton.ofKinds kinds).kind i).opensGroup = true)
      (hcloser : (Skeleton.ofKinds kinds).partner? i = some closer) (hlow : low < i) (hik : i ≤ k)
      (hbehind : closer + 1 ≤ j)
      (ih : low < closer + 1 → closer + 1 ≤ k → Brackets.Enclosed (Brackets.pair kinds) low j k) :
      Brackets.Enclosed (Brackets.pair kinds) low j k := by
    have hpair := mem_pair_of_partner? hopens hcloser
    by_cases hinside : k ≤ closer
    · exact enclosed_of_mem_pair hpair hlow (by omega) hik hinside hends
    · have := (Brackets.mem_pair hpair).1
      exact ih (by omega) (by omega)
  fun_induction (Skeleton.ofKinds kinds).blockFrom? taken i with
  | case1 i =>
    obtain ⟨rfl, _⟩ := Skeleton.freeCurly?_eq_some_iff.mp h
    omega
  | case5 i _ hkind closer hcloser _ ih
  | case8 i _ hkind closer hcloser _ ih
  | case11 i _ hkind closer hcloser _ ih =>
    have hbehind := (Skeleton.blockFrom?_eq_some h).1
    exact hgroup (by rw [hkind]; rfl) hcloser hlow hik hbehind fun hlow hik => ih h hlow hik
  | case14 i _ _ hsemicolon _ htag _ _ _ ih =>
    have hne : k ≠ i := by
      rintro rfl
      rcases Kind.endsStatement_eq_true_iff.mp hends with hkind | hkind
      · exact hsemicolon hkind
      · exact htag hkind
    exact ih h (by omega) (by omega)
  | case2 | case3 | case4 | case6 | case7 | case9 | case10 | case12 | case13 | case15 => cases h

/-- No statement ends between a token and the next code. -/
theorem le_of_nextCode? {s : Skeleton} (h : s.nextCode? i = some j) (hik : i < k)
    (hends : (s.kind k).endsStatement = true) : j ≤ k := by
  have htrivia (kind : Kind) : kind.isTrivia = true → kind.endsStatement = false := by
    cases kind <;> decide
  by_contra hbefore
  have hgap := (Skeleton.after?_eq_some_iff.mp h).2.2.2 k hik (by omega)
  rw [htrivia _ (by simpa using hgap)] at hends
  cases hends

/-- A parenthesis that has a partner is paired with it. -/
theorem mem_pair_of_openParen (hopener : (Skeleton.ofKinds kinds).kind i = .openParen)
    (hcloser : (Skeleton.ofKinds kinds).partner? i = some j) : (i, j) ∈ Brackets.pair kinds :=
  mem_pair_of_partner? (by rw [hopener]; rfl) hcloser

/-- The block of a condition is the next code behind its parentheses. What ends a statement before
it is inside of them. -/
theorem enclosed_of_blockPastParens? {owner opener : Nat}
    (hopener : (Skeleton.ofKinds kinds).nextCode? owner = some opener)
    (hparen : (Skeleton.ofKinds kinds).kind opener = .openParen)
    (h : (Skeleton.ofKinds kinds).blockPastParens? opener = some j) (hk : owner < k) (hkj : k < j)
    (hends : ((Skeleton.ofKinds kinds).kind k).endsStatement = true) :
    Brackets.Enclosed (Brackets.pair kinds) owner j k := by
  obtain ⟨closer, hcloser, hblock⟩ := Option.bind_eq_some_iff.mp h
  have hlast : k ≤ closer := by
    by_contra hbehind
    have := le_of_nextCode? hblock (by omega) hends
    omega
  exact enclosed_of_mem_pair (mem_pair_of_openParen hparen hcloser)
    (Skeleton.lt_of_nextCode? hopener)
    (Skeleton.lt_of_nextCode? hblock) (le_of_nextCode? hopener hk hends) hlast hends

/-- The block of a function is looked for behind the first parentheses. What ends a statement before
it is enclosed or comes before any parenthesis. -/
theorem enclosed_of_firstParens {owner opener closer : Nat}
    (hopener : (Skeleton.ofKinds kinds).after? (· == .openParen) owner = some opener)
    (hcloser : (Skeleton.ofKinds kinds).partner? opener = some closer)
    (hblock : (Skeleton.ofKinds kinds).blockFrom? taken (closer + 1) = some j) (hkj : k < j)
    (hends : ((Skeleton.ofKinds kinds).kind k).endsStatement = true) :
    Brackets.Enclosed (Brackets.pair kinds) owner j k ∨
      ∀ p, owner < p → p ≤ k → (Skeleton.ofKinds kinds).kind p ≠ .openParen := by
  obtain ⟨hbefore, _, hparen, hnone⟩ := Skeleton.after?_eq_some_iff.mp hopener
  have hpair := mem_pair_of_openParen (by simpa using hparen) hcloser
  have hinside := (Brackets.mem_pair hpair).1
  have hbehind := (Skeleton.blockFrom?_eq_some hblock).1
  by_cases hfirst : opener ≤ k
  · left
    by_cases hlast : k ≤ closer
    · exact enclosed_of_mem_pair hpair hbefore (by omega) hfirst hlast hends
    · exact enclosed_of_blockFrom? hblock (by omega) (by omega) hkj hends
  · right
    intro p hp hpk
    have h := hnone p hp (by omega)
    simpa using h

/-- What ends a statement between an owner and the brace found for it is enclosed, unless the owner
is a function and no parenthesis has come yet. -/
theorem enclosed_of_scopeOpener? {owner : Nat}
    (h : (Skeleton.ofKinds kinds).scopeOpener? taken owner = some j) (hk : owner < k) (hkj : k < j)
    (hends : ((Skeleton.ofKinds kinds).kind k).endsStatement = true) :
    Brackets.Enclosed (Brackets.pair kinds) owner j k ∨
      ((Skeleton.ofKinds kinds).kind owner = .kwFunction ∨
        (Skeleton.ofKinds kinds).kind owner = .closure) ∧
      ∀ p, owner < p → p ≤ k → (Skeleton.ofKinds kinds).kind p ≠ .openParen := by
  unfold Skeleton.scopeOpener? at h
  dsimp only [Option.bind_eq_bind] at h
  split at h
  · -- the brace is the next code
    obtain ⟨next, hnext, h⟩ := Option.bind_eq_some_iff.mp h
    obtain ⟨rfl, _⟩ := Skeleton.freeCurly?_eq_some_iff.mp h
    have := le_of_nextCode? hnext hk hends
    omega
  split at h
  · -- the brace is the next code behind the parentheses of the condition
    simp only [Option.bind_eq_some_iff, Option.guard_eq_some', Skeleton.freeCurly?_eq_some_iff] at h
    obtain ⟨opener, hopener, _, hparen, block, hblock, rfl, _⟩ := h
    exact .inl (enclosed_of_blockPastParens? hopener hparen hblock hk hkj hends)
  split at h
  · -- the parentheses of a function are the first ones behind it
    rename_i hfunction
    simp only [Option.bind_eq_some_iff] at h
    obtain ⟨opener, hopener, closer, hcloser, hblock⟩ := h
    exact (enclosed_of_firstParens hopener hcloser hblock hkj hends).imp_right fun hnone =>
      ⟨hfunction, hnone⟩
  have hblock (hblock : (Skeleton.ofKinds kinds).blockFrom? taken (owner + 1) = some j) :
      Brackets.Enclosed (Brackets.pair kinds) owner j k :=
    enclosed_of_blockFrom? hblock (Nat.lt_succ_self owner) hk hkj hends
  split at h
  · simp only [Option.bind_eq_some_iff] at h
    obtain ⟨next, hnext, _, _, h⟩ := h
    split at h
    · obtain ⟨rfl, _⟩ := Skeleton.freeCurly?_eq_some_iff.mp h
      have := le_of_nextCode? hnext hk hends
      omega
    · exact .inl (hblock h)
  split at h
  · split at h
    · cases h
    · exact .inl (hblock h)
  · cases h

/-- Every scope of a file goes to the brace that is found for its owner. -/
theorem scopeOpener?_of_mem_scopesFrom {s : Skeleton} {taken owners : List Nat} :
    ∀ g ∈ s.scopesFrom taken owners, ∃ taken, s.scopeOpener? taken g.owner = some g.opener := by
  induction owners generalizing taken with
  | nil => simp [Skeleton.scopesFrom]
  | cons owner owners ih =>
    rw [Skeleton.scopesFrom]
    split
    · rename_i first hfirst
      simp only [Skeleton.scope?, Option.bind_eq_bind, Option.bind_eq_some_iff,
        Option.some.injEq] at hfirst
      obtain ⟨opener, hopener, _, _, rfl⟩ := hfirst
      exact List.forall_mem_cons.mpr ⟨⟨taken, hopener⟩, ih⟩
    · exact ih

end

section

variable {lexemes : List Lexeme} {store : Store}
  (hbuild : Store.build? lexemes (outline lexemes) = .ok store)

include hbuild

/-- The kinds that a store tells are those that its outline was made for. -/
theorem kind_of_build (i : Nat) :
    store.kind i = (Skeleton.ofKinds (lexemes.map (·.kind))).kind i := by
  by_cases hi : i < store.size
  · obtain ⟨l, hl, hkind, _⟩ := Store.exists_lexeme_of_build? hbuild hi
    rw [hkind, kind_ofKinds (by rw [List.getElem?_map, hl]; rfl)]
  · have hsize : lexemes.length ≤ i := by
      rw [← Store.size_of_build? hbuild]
      exact Nat.le_of_not_lt hi
    rw [Store.kind, Store.token_of_size_le (Nat.le_of_not_lt hi)]
    simp [Token.absent, Skeleton.kind, Skeleton.ofKinds, hsize]

/-- Between paired brackets of the kinds, a token of the store is between partners. -/
theorem isEnclosed_of_build {low high k : Nat}
    (h : Brackets.Enclosed (Brackets.pair (lexemes.map (·.kind))) low high k) :
    store.IsEnclosed low high k := by
  obtain ⟨p, hp, hplace⟩ := h
  exact ⟨p.1, p.2, (Store.bracketMatch?_eq_some_iff hbuild).mpr (.inl hp), hplace⟩

end

/-- On the way from a closure to its parenthesis no statement ends. -/
theorem exists_paren_of_closure_of_build {source : String} {store : Store}
    (hbuild : Store.build? (settleWords (lex source)) (outline (settleWords (lex source))) =
      .ok store) {owner k : Nat} (howner : store.kind owner = .closure) (hk : owner < k)
    (hends : (store.kind k).endsStatement = true) :
    ∃ p, owner < p ∧ p ≤ k ∧ store.kind p = .openParen := by
  have hget (i : Nat) :
      store.kind i = ((settleWords (lex source)).map (·.kind))[i]?.getD .unknown := by
    rw [kind_of_build hbuild]
    simp [Skeleton.kind, Skeleton.ofKinds]
  have hclosure : ((settleWords (lex source)).map (·.kind))[owner]? = some .closure := by
    rw [hget] at howner
    cases hkind : ((settleWords (lex source)).map (·.kind))[owner]? with
    | none => simp [hkind] at howner
    | some kind => simpa [hkind] using howner
  obtain ⟨p, hp, hparen, hbetween⟩ := exists_paren_of_closure hclosure
  refine ⟨p, hp, ?_, by rw [hget, hparen]; rfl⟩
  by_contra hbefore
  obtain ⟨kind, hkind, hgap⟩ := hbetween k hk (by omega)
  rw [hget, hkind, Option.getD_some] at hends
  have hstays (kind : Kind) : kind.endsStatement = true →
      ¬ (kind.isTrivia = true ∨ kind = .bitwiseAnd) := by
    cases kind <;> decide
  exact hstays kind hends hgap

/-- In every text, the owner and the brace of a scope belong to one declaration, unless the owner is
a `function` whose statement ends before any parenthesis. -/
theorem isJoined_iff (source : String) :
    ∃ store, tokenize source = .ok store ∧ ∀ i g, store.scope? i = some g →
      (store.IsJoined g ↔ ¬ store.LeavesStatement g) := by
  obtain ⟨store, hstore, hbuild⟩ := exists_tokenize source
  refine ⟨store, hstore, fun i g hg => ⟨?_, fun hstays k hk hko hends => ?_⟩⟩
  · rintro hjoined ⟨_, k, hk, hko, hends, hopen, _⟩
    exact hopen (hjoined k hk hko hends)
  · have hkind := kind_of_build hbuild
    obtain ⟨hmem, _⟩ := (Store.scope?_eq_some_iff hbuild).mp hg
    obtain ⟨taken, hopener⟩ := scopeOpener?_of_mem_scopesFrom g hmem
    rcases enclosed_of_scopeOpener? hopener hk hko (by rwa [← hkind]) with
      henclosed | ⟨howner, hnone⟩
    · exact isEnclosed_of_build hbuild henclosed
    simp only [← hkind] at howner hnone
    rcases howner with howner | howner
    · by_contra hopen
      exact hstays ⟨howner, k, hk, hko, hends, hopen, hnone⟩
    · obtain ⟨p, hp, hpk, hparen⟩ := exists_paren_of_closure_of_build hbuild howner hk hends
      exact absurd hparen (hnone p hp hpk)

/-- An import of a function takes the body of the function that is declared behind it. -/
theorem import_takes_body :
    ∃ store g, tokenize "<?php use function a; function b() {}" = .ok store ∧
      store.scope? 3 = some g ∧ store.kind g.owner = .kwFunction ∧ ¬ store.IsJoined g := by
  have hdraft : (draft? "<?php use function a; function b() {}").any (fun s =>
      s.scope? 3 = some ⟨3, 14, 15⟩ ∧ s.kind 3 = .kwFunction ∧ s.kind 6 = .semicolon ∧
        ∀ i < 6, s.bracketMatch? i = none) = true := by
    decide +kernel
  obtain ⟨store, hstore, hcomputed⟩ := exists_of_draft hdraft
  obtain ⟨hscope, hkind, hends, hbrackets⟩ := of_decide_eq_true hcomputed
  refine ⟨store, _, hstore, hscope, hkind, fun hjoined => ?_⟩
  obtain ⟨i, j, hpair, hi, hbefore, _⟩ :=
    hjoined 6 (by decide) (by decide) (by rw [hends]; rfl)
  rw [hbrackets i hbefore] at hpair
  cases hpair

end Php

end PhpStyle
