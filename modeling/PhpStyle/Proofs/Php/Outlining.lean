import PhpStyle.Proofs.Php.Comments
import PhpStyle.Proofs.Php.Owners
import PhpStyle.Proofs.Store.Building

/-!
# Outlines of PHP code are well formed

The parentheses and scopes of an outline are pairs of brackets, each with an owner that is no
bracket or its own opener, and no owner has two. Comments and brackets have no token in common and
no end of one lies in a gap of the other. So a store can be built for every outline, however
unbalanced the code is.
-/

namespace PhpStyle.Php

/-- The skeleton of a file with tokens of these kinds. -/
def Skeleton.ofKinds (kinds : List Kind) : Skeleton :=
  ⟨kinds.toArray, Brackets.partners kinds.length (Brackets.pair kinds)⟩

section

variable {kinds : List Kind}

/-- A skeleton has the kinds that it is made of. -/
theorem kind_ofKinds {i : Nat} {kind : Kind} (h : kinds[i]? = some kind) :
    (Skeleton.ofKinds kinds).kind i = kind := by
  simp [Skeleton.kind, Skeleton.ofKinds, h]

/-- A pair of brackets starts with one that opens a group. -/
theorem isBracket_opener {p : Nat × Nat} (h : p ∈ Brackets.pair kinds) :
    ((Skeleton.ofKinds kinds).kind p.1).opensGroup = true ∧
      ((Skeleton.ofKinds kinds).kind p.1).isBracket = true := by
  obtain ⟨_, opener, _, hopener, _, hopens, _⟩ := Brackets.mem_pair h
  rw [kind_ofKinds hopener]
  exact ⟨hopens, by simp [Kind.isBracket, hopens]⟩

/-- A pair of brackets ends with one that opens no group. -/
theorem isBracket_closer {p : Nat × Nat} (h : p ∈ Brackets.pair kinds) :
    ((Skeleton.ofKinds kinds).kind p.2).opensGroup = false ∧
      ((Skeleton.ofKinds kinds).kind p.2).isBracket = true := by
  obtain ⟨_, _, closer, _, hcloser, _, hcloses, _⟩ := Brackets.mem_pair h
  rw [kind_ofKinds hcloser]
  exact ⟨Kind.opensGroup_of_closesGroup hcloses, by simp [Kind.isBracket, hcloses]⟩

/-- The partner of an opening bracket closes it. -/
theorem mem_pair_of_partner? {i j : Nat}
    (hopens : ((Skeleton.ofKinds kinds).kind i).opensGroup = true)
    (h : (Skeleton.ofKinds kinds).partner? i = some j) : (i, j) ∈ Brackets.pair kinds := by
  rcases Brackets.mem_of_partners h with hmem | hmem
  · exact hmem
  · have hcloses := (isBracket_closer hmem).1
    simp [hopens] at hcloses

/-- In a skeleton of kinds partners stand behind their openers. -/
theorem partnersBehind_ofKinds (kinds : List Kind) : (Skeleton.ofKinds kinds).PartnersBehind :=
  fun _ _ hopens h => (Brackets.mem_pair (mem_pair_of_partner? hopens h)).1

/-- Groups of one family: each is a pair of brackets with an owner in front that is no bracket or
the opener itself, and no two share an owner or a pair. -/
structure Family (kinds : List Kind) (groups : List Group) : Prop where
  ends : ∀ g ∈ groups, (g.opener, g.closer) ∈ Brackets.pair kinds
  owners : ∀ g ∈ groups, g.owner = g.opener ∨
    ((Skeleton.ofKinds kinds).kind g.owner).isBracket = false ∧ g.owner < g.opener
  apart : groups.Pairwise fun a b => a.owner ≠ b.owner ∧ a.opener ≠ b.opener

namespace Family

variable {groups : List Group}

/-- The groups of a family fit. -/
theorem fits (h : Family kinds groups) : ∀ g ∈ groups, g.Fits kinds.length := by
  intro g hg
  have hpair := h.ends g hg
  refine ⟨?_, (Brackets.mem_pair hpair).1, Brackets.lt_length_of_mem_pair hpair⟩
  rcases h.owners g hg with howner | ⟨_, howner⟩ <;> omega

/-- The owner of a group is no end of another pair of brackets. -/
theorem owner_ne (h : Family kinds groups) {g : Group} (hg : g ∈ groups) {p : Nat × Nat}
    (hp : p ∈ Brackets.pair kinds) (hne : g.opener ≠ p.1) : g.owner ≠ p.1 ∧ g.owner ≠ p.2 := by
  rcases h.owners g hg with howner | ⟨hkind, _⟩
  · have hends := Brackets.ends_ne (h.ends g hg) hp hne
    rw [howner]
    exact ⟨hne, hends.1⟩
  · constructor
    · intro heq
      have hbracket := (isBracket_opener hp).2
      rw [← heq, hkind] at hbracket
      cases hbracket
    · intro heq
      have hbracket := (isBracket_closer hp).2
      rw [← heq, hkind] at hbracket
      cases hbracket

/-- No token belongs to two groups of a family. -/
theorem nodup_tokens (h : Family kinds groups) : (groups.flatMap Group.tokens).Nodup := by
  refine List.nodup_flatMap.mpr ⟨fun g hg => ?_, ?_⟩
  · obtain ⟨howner, hopener, _⟩ := h.fits g hg
    unfold Group.tokens
    split
    · simp
      omega
    · simp
      omega
  · refine h.apart.imp_of_mem fun {a b} ha hb ⟨howner, hopener⟩ => ?_
    obtain ⟨ha1, ha2⟩ := h.owner_ne ha (h.ends b hb) hopener
    obtain ⟨hb1, hb2⟩ := h.owner_ne hb (h.ends a ha) hopener.symm
    obtain ⟨h1, h2, h3⟩ := Brackets.ends_ne (h.ends a ha) (h.ends b hb) hopener
    intro x hxa hxb
    rcases Group.mem_tokens_iff.mp hxa with rfl | rfl | rfl <;>
      rcases Group.mem_tokens_iff.mp hxb with heq | heq | heq <;> simp_all

end Family

/-- The parentheses of a file with their owners are a family. -/
theorem family_parens (kinds : List Kind) :
    Family kinds (((Brackets.pair kinds).filter fun p =>
      (Skeleton.ofKinds kinds).kind p.1 = .openParen).map fun p =>
        ⟨(Skeleton.ofKinds kinds).parenOwner p.1, p.1, p.2⟩) where
  ends := by
    intro g hg
    obtain ⟨p, hp, rfl⟩ := List.mem_map.mp hg
    exact (List.mem_filter.mp hp).1
  owners := by
    intro g hg
    obtain ⟨p, hp, rfl⟩ := List.mem_map.mp hg
    have hopen := of_decide_eq_true (List.mem_filter.mp hp).2
    exact (Skeleton.parenOwner_cases hopen).imp_right fun h => ⟨h.1, h.2.1⟩
  apart := by
    refine List.pairwise_map.mpr (((Brackets.pair_pairwise kinds).filter _).imp_of_mem ?_)
    intro p q hp hq ⟨hlater, hside⟩
    obtain ⟨hp, hp'⟩ := List.mem_filter.mp hp
    obtain ⟨hq, hq'⟩ := List.mem_filter.mp hq
    have hopener : p.1 ≠ q.1 := by
      have := (Brackets.mem_pair hp).1
      have := (Brackets.mem_pair hq).1
      omega
    refine ⟨fun heq => ?_, hopener⟩
    dsimp only at heq
    rcases Skeleton.parenOwner_cases (of_decide_eq_true hp') with howner | howner <;>
      rcases Skeleton.parenOwner_cases (of_decide_eq_true hq') with howner' | howner'
    · exact hopener (by rw [← howner, heq, howner'])
    · have hkind := howner'.1
      rw [← heq, howner, (isBracket_opener hp).2] at hkind
      cases hkind
    · have hkind := howner.1
      rw [heq, howner', (isBracket_opener hq).2] at hkind
      cases hkind
    · exact hopener (howner.opener_unique (heq ▸ howner'))

/-- The scopes of a file are a family. -/
theorem family_scopes (kinds : List Kind) : Family kinds (Skeleton.ofKinds kinds).scopes where
  ends := by
    intro g hg
    obtain ⟨_, _, hfound⟩ := Skeleton.mem_scopesFrom (partnersBehind_ofKinds kinds) g hg
    exact mem_pair_of_partner? (by rw [hfound.opener]; rfl) hfound.closer
  owners := by
    intro g hg
    obtain ⟨_, _, hfound⟩ := Skeleton.mem_scopesFrom (partnersBehind_ofKinds kinds) g hg
    exact .inr ⟨hfound.owner, hfound.behind⟩
  apart := Skeleton.scopesFrom_pairwise (partnersBehind_ofKinds kinds) List.nodup_range

/-- No token of a comment is a bracket. -/
theorem isBracket_of_mem_pairComments (hchain : kinds.IsChain DocFollows) {p : Nat × Nat}
    (hp : p ∈ pairComments none kinds.zipIdx) {i : Nat} (hfirst : p.1 ≤ i) (hlast : i ≤ p.2) :
    ((Skeleton.ofKinds kinds).kind i).isBracket = false := by
  obtain ⟨_, _, hopener, hparts⟩ := isDocPart_of_mem_pairComments hchain hp
  rcases Nat.eq_or_lt_of_le hfirst with rfl | hlt
  · rw [kind_ofKinds hopener]
    rfl
  · obtain ⟨kind, hkind, hpart⟩ := hparts i hlt hlast
    rw [kind_ofKinds hkind]
    exact Kind.isBracket_of_isDocPart hpart

/-- No ends of a pair of brackets lie in a comment. -/
theorem outside_of_mem_pairComments (hchain : kinds.IsChain DocFollows) {p q : Nat × Nat}
    (hp : p ∈ pairComments none kinds.zipIdx) (hq : q ∈ Brackets.pair kinds) :
    ¬ (p.1 ≤ q.1 ∧ q.1 ≤ p.2) ∧ ¬ (p.1 ≤ q.2 ∧ q.2 ≤ p.2) := by
  constructor
  · rintro ⟨hfirst, hlast⟩
    have h := isBracket_of_mem_pairComments hchain hp hfirst hlast
    rw [(isBracket_opener hq).2] at h
    cases h
  · rintro ⟨hfirst, hlast⟩
    have h := isBracket_of_mem_pairComments hchain hp hfirst hlast
    rw [(isBracket_closer hq).2] at h
    cases h

/-- No two comments cross. -/
theorem not_crosses_pairComments (hchain : kinds.IsChain DocFollows) {p q : Nat × Nat}
    (hp : p ∈ pairComments none kinds.zipIdx) (hq : q ∈ pairComments none kinds.zipIdx) :
    ¬ Outline.Crosses p q := by
  rintro ⟨hopens, hinside, _⟩
  obtain ⟨_, _, _, hparts⟩ := isDocPart_of_mem_pairComments hchain hp
  obtain ⟨_, _, hopener, _⟩ := isDocPart_of_mem_pairComments hchain hq
  obtain ⟨kind, hkind, hpart⟩ := hparts q.1 hopens hinside
  rw [hopener] at hkind
  cases hkind
  cases hpart

/-- No tag belongs to two comments. -/
theorem nodup_ends_pairComments (hchain : kinds.IsChain DocFollows) :
    ((pairComments none kinds.zipIdx).flatMap fun p => [p.1, p.2]).Nodup := by
  have hlt : ∀ p ∈ pairComments none kinds.zipIdx, p.1 < p.2 := fun p hp =>
    (isDocPart_of_mem_pairComments hchain hp).1
  have hrising := (Brackets.pending_zipIdx kinds).rising
  refine Brackets.nodup_ends hlt ((pairComments_pairwise hrising).imp_of_mem ?_)
  intro p q hp hq hbehind
  have := hlt q hq
  exact ⟨by omega, .inr hbehind⟩

end

/-- An interval of an outline is a pair of brackets or a comment. -/
theorem mem_intervals_outline {lexemes : List Lexeme} {p : Nat × Nat}
    (h : p ∈ (outline lexemes).intervals) :
    p ∈ Brackets.pair (lexemes.map (·.kind)) ∨
      p ∈ pairComments none (lexemes.map (·.kind)).zipIdx := by
  simp only [Outline.intervals, List.mem_append] at h
  rcases h with ((h | h) | h) | h
  · exact .inl h
  · obtain ⟨g, hg, rfl⟩ := List.mem_map.mp h
    exact .inl ((family_parens _).ends g hg)
  · obtain ⟨g, hg, rfl⟩ := List.mem_map.mp h
    exact .inl ((family_scopes _).ends g hg)
  · exact .inr h

/-- The outline of lexemes whose comments come in runs is well formed. -/
theorem wellFormed_outline {lexemes : List Lexeme}
    (hchain : (lexemes.map (·.kind)).IsChain DocFollows) :
    (outline lexemes).WellFormed lexemes.length := by
  have hlength : lexemes.length = (lexemes.map (·.kind)).length := List.length_map _ |>.symm
  rw [hlength]
  exact {
    brackets_fit := fun p hp => ⟨(Brackets.mem_pair hp).1, Brackets.lt_length_of_mem_pair hp⟩
    parens_fit := (family_parens _).fits
    scopes_fit := (family_scopes _).fits
    comments_fit := fun p hp =>
      have h := isDocPart_of_mem_pairComments hchain hp
      ⟨h.1, h.2.1⟩
    brackets_once := Brackets.nodup_ends_pair _
    parens_once := (family_parens _).nodup_tokens
    scopes_once := (family_scopes _).nodup_tokens
    comments_once := nodup_ends_pairComments hchain
    nested := by
      intro p hp q hq
      rcases mem_intervals_outline hp with hp | hp <;> rcases mem_intervals_outline hq with hq | hq
      · exact Brackets.not_crosses_pair hp hq
      · have := outside_of_mem_pairComments hchain hq hp
        rintro ⟨_, _, _⟩
        omega
      · have := outside_of_mem_pairComments hchain hp hq
        rintro ⟨_, _, _⟩
        omega
      · exact not_crosses_pairComments hchain hp hq }

end PhpStyle.Php
