import PhpStyle.Proofs.Store.Building

/-!
# What a built store looks up

Every entry of a look-up table was claimed by a declared pair or group, and each claim is still
there in the end. So a built store answers with what was declared and with nothing else: brackets
and comment tags name each other, and the tokens of a group all name that group.
-/

namespace PhpStyle

namespace Outline

variable {α : Type} {slots r : Slots α} {entries : List (Nat × α)} {i : Nat} {value : α}

/-- Whatever stands in a table has been entered or stood there before, and none of it is lost. -/
theorem getElem?_enter_iff (h : enter slots entries = .ok r) :
    r[i]? = some (some value) ↔ (i, value) ∈ entries ∨ slots[i]? = some (some value) := by
  induction entries generalizing slots with
  | nil =>
    rw [enter_nil] at h
    cases h
    simp
  | cons e entries ih =>
    obtain ⟨first, other⟩ := e
    rw [enter_cons] at h
    obtain ⟨next, hclaim, hrest⟩ := bind_eq_ok_iff.mp h
    obtain ⟨hfree, rfl⟩ := claim_eq_ok_iff.mp hclaim
    rw [ih hrest, List.mem_cons]
    by_cases hfirst : first = i
    · subst hfirst
      have hin : first < slots.size := (Array.getElem?_eq_some_iff.mp hfree).1
      have hset : (slots.setIfInBounds first (some other))[first]? = some (some other) := by
        simp [hin]
      rw [hset, hfree]
      simp [or_comm, eq_comm]
    · rw [Array.getElem?_setIfInBounds_ne hfirst]
      simp [Ne.symm hfirst]

/-- In a table that was blank stands exactly what was entered. -/
theorem join_getElem?_eq_some_iff {size : Nat}
    (h : enter (Array.replicate size none) entries = .ok r) :
    r[i]?.join = some value ↔ (i, value) ∈ entries := by
  rw [Option.join_eq_some_iff, getElem?_enter_iff h, Array.getElem?_replicate]
  apply or_iff_left
  split <;> simp

/-- A table into which groups were entered has each of them under all of its tokens. -/
theorem join_getElem?_groups {size : Nat} {groups : List Group} {order : Group → List Nat}
    {table : Slots Group} (horder : ∀ g, (order g).Perm g.tokens)
    (h : enter (Array.replicate size none) (groups.flatMap fun g => (order g).map (·, g)) =
      .ok table) {g : Group} : table[i]?.join = some g ↔ g ∈ groups ∧ i ∈ g.tokens := by
  rw [join_getElem?_eq_some_iff h, List.mem_flatMap]
  constructor
  · rintro ⟨found, hfound, hmem⟩
    obtain ⟨token, htoken, heq⟩ := List.mem_map.mp hmem
    cases heq
    exact ⟨hfound, (horder g).mem_iff.mp htoken⟩
  · rintro ⟨hg, htoken⟩
    exact ⟨g, hg, List.mem_map.mpr ⟨i, (horder g).mem_iff.mpr htoken, rfl⟩⟩

/-- A table into which pairs were entered has each end of a pair as the partner of the other. -/
theorem join_getElem?_pairs {size : Nat} {pairs : List (Nat × Nat)} {table : Slots Nat}
    (h : enter (Array.replicate size none) (pairs.flatMap fun p => [(p.1, p.2), (p.2, p.1)]) =
      .ok table) {j : Nat} : table[i]?.join = some j ↔ (i, j) ∈ pairs ∨ (j, i) ∈ pairs := by
  rw [join_getElem?_eq_some_iff h, List.mem_flatMap]
  constructor
  · rintro ⟨p, hp, hmem⟩
    rcases List.mem_cons.mp hmem with heq | hmem
    · left
      rwa [heq]
    · right
      rw [List.mem_singleton, Prod.mk.injEq] at hmem
      rwa [hmem.1, hmem.2]
  · rintro (hp | hp)
    · exact ⟨(i, j), hp, by simp⟩
    · exact ⟨(j, i), hp, by simp⟩

end Outline

namespace Store

/-- The tables of a store are those of an outline: what is declared has been entered into blank
tables, and the scopes around the tokens have been recorded. -/
structure Tabulates (s : Store) (o : Outline) : Prop where
  brackets : Outline.enter (Array.replicate s.size none)
    (o.brackets.flatMap fun p => [(p.1, p.2), (p.2, p.1)]) = .ok s.brackets
  parens : Outline.enter (Array.replicate s.size none)
    (o.parens.flatMap fun g => (Outline.parenOrder g).map (·, g)) = .ok s.parens
  scopes : Outline.enter (Array.replicate s.size none)
    (o.scopes.flatMap fun g => g.tokens.map (·, g)) = .ok s.scopes
  comments : Outline.enter (Array.replicate s.size none)
    (o.comments.flatMap fun p => [(p.1, p.2), (p.2, p.1)]) = .ok s.comments
  conditions : s.conditions = Outline.conditions s.tokens o.scopes

/-- A look-up pairs exactly the ends of what is declared, a lower with a higher one, and leads back
from each to the other. -/
def PairsExactly (declared : List (Nat × Nat)) (lookup : Nat → Option Nat) : Prop :=
  ∀ i j, (lookup i = some j ↔ i < j ∧ (i, j) ∈ declared ∨ j < i ∧ (j, i) ∈ declared) ∧
    (lookup i = some j → lookup j = some i)

/-- A look-up finds exactly what is declared, each group at its owner and at its two ends. -/
def FindsExactly (declared : List Group) (lookup : Nat → Option Group) : Prop :=
  ∀ i g, lookup i = some g ↔ g ∈ declared ∧ (i = g.owner ∨ i = g.opener ∨ i = g.closer)

section Lookup

variable {lexemes : List Lexeme} {outline : Outline} {store : Store}
  (hbuild : Store.build? lexemes outline = .ok store)

include hbuild

/-- A store that was built has the entries of its outline. -/
theorem tabulates_of_build? : store.Tabulates outline := by
  simp only [build?, bind_eq_ok_iff] at hbuild
  obtain ⟨brackets, hb, parens, hp, scopes, hs, comments, hc, _, _, hstore⟩ := hbuild
  cases hstore
  constructor
  · exact ((Outline.foldlM_eq_ok_iff (Outline.claimPair_eq_ok_iff _) _ _ _).mp hb).2
  · exact ((Outline.foldlM_eq_ok_iff (Outline.claimParen_eq_ok_iff _) _ _ _).mp hp).2
  · exact ((Outline.foldlM_eq_ok_iff (Outline.claimScope_eq_ok_iff _) _ _ _).mp hs).2
  · exact ((Outline.foldlM_eq_ok_iff (Outline.claimPair_eq_ok_iff _) _ _ _).mp hc).2
  · rfl

/-- The brackets of a built store are partners as declared, either way round. -/
theorem bracketMatch?_eq_some_iff {i j : Nat} :
    store.bracketMatch? i = some j ↔ (i, j) ∈ outline.brackets ∨ (j, i) ∈ outline.brackets :=
  Outline.join_getElem?_pairs (tabulates_of_build? hbuild).brackets

/-- Partners among comment tags are those of the outline, in either direction. -/
theorem commentMatch?_eq_some_iff {i j : Nat} :
    store.commentMatch? i = some j ↔ (i, j) ∈ outline.comments ∨ (j, i) ∈ outline.comments :=
  Outline.join_getElem?_pairs (tabulates_of_build? hbuild).comments

/-- The parentheses of a built store are those declared, each found at its own tokens. -/
theorem paren?_eq_some_iff {i : Nat} {g : Group} :
    store.paren? i = some g ↔ g ∈ outline.parens ∧ i ∈ g.tokens :=
  Outline.join_getElem?_groups Outline.parenOrder_perm (tabulates_of_build? hbuild).parens

/-- A token has a scope if it is a token of one of the outline. -/
theorem scope?_eq_some_iff {i : Nat} {g : Group} :
    store.scope? i = some g ↔ g ∈ outline.scopes ∧ i ∈ g.tokens :=
  Outline.join_getElem?_groups (fun g => .refl g.tokens) (tabulates_of_build? hbuild).scopes

end Lookup

/-- A look-up that knows the declared pairs either way round pairs them up, if each starts at its
lower end. -/
theorem PairsExactly.of_lt {declared : List (Nat × Nat)} {lookup : Nat → Option Nat}
    (hlt : ∀ p ∈ declared, p.1 < p.2)
    (hlookup : ∀ i j, lookup i = some j ↔ (i, j) ∈ declared ∨ (j, i) ∈ declared) :
    PairsExactly declared lookup := by
  intro i j
  have hboth (a b : Nat) : a < b ∧ (a, b) ∈ declared ↔ (a, b) ∈ declared :=
    and_iff_right_of_imp fun hmem => hlt (a, b) hmem
  constructor
  · rw [hboth, hboth]
    exact hlookup i j
  · rw [hlookup, hlookup]
    exact Or.symm

/-- The keyword of parentheses is that of the group, unless they own themselves. -/
theorem parenOwner?_eq_some_iff {s : Store} {i k : Nat} :
    s.parenOwner? i = some k ↔ ∃ g, s.paren? i = some g ∧ g.owner ≠ g.opener ∧ g.owner = k := by
  rw [parenOwner?, Option.bind_eq_some_iff]
  apply exists_congr
  intro g
  by_cases hself : g.owner = g.opener
  · simp [hself]
  · simp [hself]

/-- A store is built exactly if every index is that of a token, pairs open before they close, owners
stand in front, no token is used twice by one of the four families, and no two pairs of any families
cross. A built store looks up exactly what was declared: brackets and comment tags by pairs, scopes
and parentheses by groups, and for parentheses the owner, unless they own themselves. -/
theorem build?_accepts_and_answers (lexemes : List Lexeme) (outline : Outline) :
    ((∃ store, Store.build? lexemes outline = .ok store) ↔ outline.WellFormed lexemes.length) ∧
    ∀ store, Store.build? lexemes outline = .ok store →
      PairsExactly outline.brackets store.bracketMatch? ∧
      PairsExactly outline.comments store.commentMatch? ∧
      FindsExactly outline.scopes store.scope? ∧ FindsExactly outline.parens store.paren? ∧
      ∀ i k, store.parenOwner? i = some k ↔
        ∃ g, store.paren? i = some g ∧ g.owner ≠ g.opener ∧ g.owner = k := by
  refine ⟨exists_build?_iff lexemes outline, fun store hbuild => ?_⟩
  have hfits := wellFormed_of_build? hbuild
  refine ⟨?_, ?_, ?_, ?_, fun i k => parenOwner?_eq_some_iff⟩
  · apply PairsExactly.of_lt
    · exact fun p hp => (hfits.brackets_fit p hp).1
    · exact fun i j => bracketMatch?_eq_some_iff hbuild
  · apply PairsExactly.of_lt
    · exact fun p hp => (hfits.comments_fit p hp).1
    · exact fun i j => commentMatch?_eq_some_iff hbuild
  · intro i g
    rw [scope?_eq_some_iff hbuild, Group.mem_tokens_iff]
  · intro i g
    rw [paren?_eq_some_iff hbuild, Group.mem_tokens_iff]

/-- A condition with a call in its block: the pair of braces is the scope of the condition as well,
and the parentheses of the call own themselves. -/
theorem build?_accepts_condition :
    let words := ["<?php ", "if", " ", "(", "$a", ")", " ", "\x7b", "/**", "foo", "(", ")", ";",
      "*/", "\x7d"]
    let outline : Outline := {
      brackets := [(3, 5), (7, 14), (10, 11)]
      parens := [⟨1, 3, 5⟩, ⟨10, 10, 11⟩]
      scopes := [⟨1, 7, 14⟩]
      comments := [(8, 13)] }
    ∃ store, Store.build? (words.map (Lexeme.mk .identifier)) outline = .ok store ∧
      store.bracketMatch? 7 = some 14 ∧ store.bracketMatch? 14 = some 7 ∧
      store.bracketMatch? 8 = none ∧
      store.commentMatch? 13 = some 8 ∧ store.scope? 1 = some ⟨1, 7, 14⟩ ∧
      store.scope? 14 = some ⟨1, 7, 14⟩ ∧
      store.paren? 11 = some ⟨10, 10, 11⟩ ∧ store.parenOwner? 5 = some 1 ∧
      store.parenOwner? 10 = none := by
  intro words outline
  obtain ⟨hiff, hanswers⟩ := build?_accepts_and_answers (words.map (Lexeme.mk .identifier)) outline
  obtain ⟨store, hstore⟩ := hiff.mpr (by constructor <;> decide)
  obtain ⟨hbrackets, hcomments, hscopes, hparens, howner⟩ := hanswers store hstore
  refine ⟨store, hstore, (hbrackets 7 14).1.mpr (by decide), (hbrackets 14 7).1.mpr (by decide), ?_,
    (hcomments 13 8).1.mpr (by decide), (hscopes 1 _).mpr (by decide),
    (hscopes 14 _).mpr (by decide), (hparens 11 _).mpr (by decide),
    (howner 5 1).mpr ⟨⟨1, 3, 5⟩, (hparens 5 _).mpr (by decide), by decide, rfl⟩, ?_⟩
  · rw [Option.eq_none_iff_forall_ne_some]
    intro j hj
    have hmem := (hbrackets 8 j).1.mp hj
    simp [outline] at hmem
  · rw [Option.eq_none_iff_forall_ne_some]
    intro k hk
    obtain ⟨g, hg, hself, _⟩ := (howner 10 k).mp hk
    obtain ⟨hmem, htoken⟩ := (hparens 10 g).mp hg
    simp only [outline, List.mem_cons, List.not_mem_nil, or_false] at hmem
    rcases hmem with rfl | rfl
    · exact absurd htoken (by decide)
    · exact hself rfl

end Store

end PhpStyle
