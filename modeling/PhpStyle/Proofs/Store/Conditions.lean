import Mathlib.Data.List.Nodup
import PhpStyle.Proofs.Store.Lookups

/-!
# The scopes around a token

Scopes are recorded by opener, each for the tokens between its braces. So the record of a token
lists the scopes around it, and no others, by opener. No two scopes cross, and no two share a brace.
So each scope of the record lies strictly inside the one before it, and the last one inside all
others.
-/

namespace PhpStyle

/-- A token stands strictly between the braces of a scope. -/
def Group.Encloses (g : Group) (i : Nat) : Prop := g.opener < i ∧ i < g.closer

instance (g : Group) (i : Nat) : Decidable (g.Encloses i) :=
  inferInstanceAs (Decidable (g.opener < i ∧ i < g.closer))

/-- The braces of a scope lie strictly inside those of another. -/
def Group.Inside (inner outer : Group) : Prop := outer.opener < inner.opener ∧
    inner.closer < outer.closer

namespace Outline

variable {size i : Nat} {outline : Outline}

/-- Change the entries of a range of tokens. -/
theorem getElem?_foldl_modify {α : Type} (f : α → α) (start count : Nat)
    (slots : Array α) (i : Nat) :
    ((List.range' start count).foldl (fun acc k => acc.modify k f) slots)[i]? =
      if start ≤ i ∧ i < start + count then slots[i]?.map f else slots[i]? := by
  induction count generalizing start slots with
  | zero =>
    have hnone : ¬ (start ≤ i ∧ i < start + 0) := by omega
    rw [if_neg hnone]
    rfl
  | succ count ih =>
    rw [List.range'_succ, List.foldl_cons, ih, Array.getElem?_modify]
    by_cases hfirst : start = i
    · have hpast : ¬ (start + 1 ≤ i ∧ i < start + 1 + count) := by omega
      have hin : start ≤ i ∧ i < start + (count + 1) := by omega
      rw [if_neg hpast, if_pos hin, if_pos hfirst]
    · have hsame : (start + 1 ≤ i ∧ i < start + 1 + count) ↔
          (start ≤ i ∧ i < start + (count + 1)) := by
        omega
      rw [if_neg hfirst]
      simp only [hsame]

/-- The entry of a scope in the record of a token: its owner with the kind. -/
def entry (tokens : Array Token) (g : Group) : Nat × Kind :=
  (g.owner, (tokens[g.owner]?.getD .absent).kind)

/-- A scope is added to the records of the tokens that it encloses. -/
theorem getElem?_enclose (tokens : Array Token) (records : Array (List (Nat × Kind)))
    (g : Group) (i : Nat) : (enclose tokens records g)[i]? =
      records[i]?.map (· ++ if g.Encloses i then [entry tokens g] else []) := by
  rw [enclose, getElem?_foldl_modify]
  by_cases hin : g.Encloses i
  · obtain ⟨hopener, hcloser⟩ := hin
    have hrange : g.opener + 1 ≤ i ∧ i < g.opener + 1 + (g.closer - (g.opener + 1)) := by omega
    rw [if_pos hrange, if_pos ⟨hopener, hcloser⟩]
    rfl
  · have hrange : ¬ (g.opener + 1 ≤ i ∧ i < g.opener + 1 + (g.closer - (g.opener + 1))) := by
      intro hrange
      apply hin
      constructor <;> omega
    rw [if_neg hrange, if_neg hin]
    simp

/-- Entering scopes adds to the record of a token those that enclose it, in their order. -/
theorem getElem?_foldl_enclose (tokens : Array Token) (scopes : List Group)
    (records : Array (List (Nat × Kind))) (i : Nat) :
    (scopes.foldl (enclose tokens) records)[i]? =
      records[i]?.map (· ++ (scopes.filter fun g => g.Encloses i).map (entry tokens)) := by
  induction scopes generalizing records with
  | nil => simp
  | cons g scopes ih =>
    rw [List.foldl_cons, ih, getElem?_enclose, Option.map_map]
    congr 1
    funext record
    by_cases hin : g.Encloses i
    · simp [hin]
    · simp [hin]

/-- A scope around a token that all others around the token hold. -/
def Innermost (scopes : List Group) (g : Group) (i : Nat) : Prop :=
  g ∈ scopes ∧ g.Encloses i ∧ ∀ other ∈ scopes, other.Encloses i → other.opener ≤ g.opener ∧
    g.closer ≤ other.closer

instance (scopes : List Group) (g : Group) (i : Nat) : Decidable (Innermost scopes g i) :=
  inferInstanceAs (Decidable (_ ∧ _ ∧ ∀ other ∈ scopes, _ → _))

/-- The scopes around a token, by opener. -/
def chain (scopes : List Group) (i : Nat) : List Group :=
  (scopes.mergeSort fun a b => a.opener ≤ b.opener).filter fun g => g.Encloses i

/-- The chain of a token has the scopes whose braces it stands between. -/
theorem mem_chain_iff {scopes : List Group} {g : Group} :
    g ∈ chain scopes i ↔ g ∈ scopes ∧ g.opener < i ∧ i < g.closer := by
  rw [chain, List.mem_filter, List.mem_mergeSort, decide_eq_true_eq, Group.Encloses]

/-- Of two scopes around a token that share no token and do not cross, the one that opens later is
inside. -/
theorem inside_of_le {a b : Group} (hcross : ¬ Crosses (a.opener, a.closer) (b.opener, b.closer))
    (hapart : List.Disjoint a.tokens b.tokens) (ha : a.Encloses i) (hb : b.Encloses i)
    (hle : a.opener ≤ b.opener) : b.Inside a := by
  have hopener : a.opener ≠ b.opener := by
    intro heq
    exact hapart (Group.mem_tokens_iff.mpr (.inr (.inl rfl)))
      (Group.mem_tokens_iff.mpr (.inr (.inl heq)))
  have hcloser : a.closer ≠ b.closer := by
    intro heq
    exact hapart (Group.mem_tokens_iff.mpr (.inr (.inr rfl)))
      (Group.mem_tokens_iff.mpr (.inr (.inr heq)))
  unfold Crosses at hcross
  unfold Group.Encloses at ha hb
  constructor
  · omega
  · omega

/-- Scopes are sorted by their openers. -/
theorem pairwise_opener_mergeSort (scopes : List Group) :
    (scopes.mergeSort fun a b => a.opener ≤ b.opener).Pairwise fun a b => a.opener ≤ b.opener := by
  have hsorted := @List.pairwise_mergeSort Group (fun a b => decide (a.opener ≤ b.opener))
    (fun a b c hab hbc => by simp only [decide_eq_true_eq] at *; omega)
    (fun a b => by simp only [Bool.or_eq_true, decide_eq_true_eq]; omega) scopes
  exact hsorted.imp of_decide_eq_true

section

variable (h : outline.WellFormed size)

include h

/-- The scopes around a token share no token. -/
theorem WellFormed.pairwise_apart (i : Nat) :
    (chain outline.scopes i).Pairwise fun a b => List.Disjoint a.tokens b.tokens := by
  have hperm := List.mergeSort_perm outline.scopes fun a b => decide (a.opener ≤ b.opener)
  have honce := (hperm.flatMap_right Group.tokens).nodup_iff.mpr h.scopes_once
  exact (List.nodup_flatMap.mp honce).2.filter fun g => decide (g.Encloses i)

/-- Around a token, every scope lies inside the one that opens before it. -/
theorem WellFormed.pairwise_chain (i : Nat) :
    (chain outline.scopes i).Pairwise fun outer inner => inner.Inside outer := by
  have hopener := (pairwise_opener_mergeSort outline.scopes).filter fun g => decide (g.Encloses i)
  refine (hopener.and (h.pairwise_apart i)).imp_of_mem fun {a b} ha hb hab => ?_
  obtain ⟨ha, hina⟩ := mem_chain_iff.mp ha
  obtain ⟨hb, hinb⟩ := mem_chain_iff.mp hb
  have hinterval {g : Group} (hg : g ∈ outline.scopes) :
      (g.opener, g.closer) ∈ outline.intervals := by
    have hmem := List.mem_map_of_mem (f := fun g : Group => (g.opener, g.closer)) hg
    simp only [intervals, List.mem_append]
    exact .inl (.inr hmem)
  apply inside_of_le (h.nested _ (hinterval ha) _ (hinterval hb)) hab.2 hina hinb
  exact hab.1

/-- The scopes around a token have different owners. -/
theorem WellFormed.nodup_owners (i : Nat) : ((chain outline.scopes i).map Group.owner).Nodup := by
  apply List.pairwise_map.mpr
  refine (h.pairwise_apart i).imp fun {a b} hapart heq => ?_
  exact hapart (Group.mem_tokens_iff.mpr (.inl rfl)) (Group.mem_tokens_iff.mpr (.inl heq))

/-- The last scope around a token is the one that all others hold. -/
theorem WellFormed.getLast?_chain_eq_some_iff (i : Nat) {g : Group} :
    (chain outline.scopes i).getLast? = some g ↔ g ∈ chain outline.scopes i ∧
      ∀ other ∈ chain outline.scopes i, other.opener ≤ g.opener ∧ g.closer ≤ other.closer := by
  have hlast {last : Group} (hlast : (chain outline.scopes i).getLast? = some last) :
      last ∈ chain outline.scopes i ∧
        ∀ other ∈ chain outline.scopes i, other = last ∨ last.Inside other := by
    obtain ⟨outer, houter⟩ := List.getLast?_eq_some_iff.mp hlast
    have hpairwise := h.pairwise_chain i
    rw [houter] at hpairwise ⊢
    constructor
    · simp
    · intro other hother
      rcases List.mem_append.mp hother with hother | hother
      · exact .inr ((List.pairwise_append.mp hpairwise).2.2 other hother last (by simp))
      · exact .inl (List.mem_singleton.mp hother)
  constructor
  · intro hg
    obtain ⟨hmem, hothers⟩ := hlast hg
    refine ⟨hmem, fun other hother => ?_⟩
    rcases hothers other hother with rfl | ⟨hopener, hcloser⟩
    · omega
    · omega
  · rintro ⟨hmem, hinnermost⟩
    cases hfound : (chain outline.scopes i).getLast? with
    | none =>
      rw [List.getLast?_eq_none_iff.mp hfound] at hmem
      cases hmem
    | some last =>
      obtain ⟨hlastMem, hothers⟩ := hlast hfound
      rcases hothers g hmem with rfl | ⟨hopener, _⟩
      · rfl
      · have hle := (hinnermost last hlastMem).1
        omega

end

end Outline

namespace Store

variable {lexemes : List Lexeme} {outline : Outline} {store : Store}

/-- The record of a token lists the scopes around it by opener. -/
theorem conditionsAt_eq_map_chain (hbuild : Store.build? lexemes outline = .ok store) (i : Nat) :
    store.conditionsAt i = (Outline.chain outline.scopes i).map fun g =>
      (g.owner, store.kind g.owner) := by
  have hfits := wellFormed_of_build? hbuild
  rw [conditionsAt, (tabulates_of_build? hbuild).conditions, Outline.conditions,
    Outline.getElem?_foldl_enclose, Array.getElem?_replicate]
  split
  · rfl
  · rename_i hpast
    have hnone : Outline.chain outline.scopes i = [] := by
      apply List.eq_nil_iff_forall_not_mem.mpr
      intro g hg
      obtain ⟨hg, _, hcloser⟩ := Outline.mem_chain_iff.mp hg
      have hlast := (hfits.scopes_fit g hg).2.2
      rw [← size_of_build? hbuild] at hlast
      exact hpast (Nat.lt_trans hcloser hlast)
    rw [hnone]
    rfl

/-- The deepest condition of a token is the owner of the innermost scope around it. -/
theorem deepestCondition?_eq_some_iff (hbuild : Store.build? lexemes outline = .ok store) {i : Nat}
    {c : Nat × Kind} : store.deepestCondition? i = some c ↔
      ∃ g, Outline.Innermost outline.scopes g i ∧ c = (g.owner, store.kind g.owner) := by
  have hfits := wellFormed_of_build? hbuild
  rw [deepestCondition?, conditionsAt_eq_map_chain hbuild, List.getLast?_map,
    Option.map_eq_some_iff]
  refine exists_congr fun g => and_congr ?_ eq_comm
  rw [hfits.getLast?_chain_eq_some_iff, Outline.mem_chain_iff, Outline.Innermost, and_assoc]
  simp only [Outline.mem_chain_iff, and_imp, Group.Encloses]

/-- No owner is recorded twice for a token. -/
theorem nodup_conditionsAt (hbuild : Store.build? lexemes outline = .ok store) (i : Nat) :
    ((store.conditionsAt i).map (·.1)).Nodup := by
  rw [conditionsAt_eq_map_chain hbuild, List.map_map]
  exact (wellFormed_of_build? hbuild).nodup_owners i

/-- The scopes recorded for a token are those whose braces enclose it, each by its owner with the
kind, and each once. The braces of every scope in the record lie strictly inside those of the scope
before it, and the deepest one is the one that lies inside all others. -/
theorem conditions_nest (hbuild : Store.build? lexemes outline = .ok store) (i : Nat) :
    ∃ chain : List Group,
      store.conditionsAt i = chain.map (fun g => (g.owner, store.kind g.owner)) ∧
      (∀ g, g ∈ chain ↔ g ∈ outline.scopes ∧ g.opener < i ∧ i < g.closer) ∧
      (chain.map Group.owner).Nodup ∧
      (chain.Pairwise fun outer inner => outer.opener < inner.opener ∧
        inner.closer < outer.closer) ∧
      ∀ c, store.deepestCondition? i = some c ↔ ∃ g ∈ chain, c = (g.owner, store.kind g.owner) ∧
        ∀ other ∈ chain, other.opener ≤ g.opener ∧ g.closer ≤ other.closer := by
  have hfits := wellFormed_of_build? hbuild
  have hrecord := conditionsAt_eq_map_chain hbuild i
  refine ⟨Outline.chain outline.scopes i, hrecord, fun g => Outline.mem_chain_iff,
    hfits.nodup_owners i, hfits.pairwise_chain i, fun c => ?_⟩
  rw [deepestCondition?, hrecord, List.getLast?_map, Option.map_eq_some_iff]
  simp only [hfits.getLast?_chain_eq_some_iff]
  constructor
  · rintro ⟨g, ⟨hg, hinnermost⟩, rfl⟩
    exact ⟨g, hg, rfl, hinnermost⟩
  · rintro ⟨g, hg, rfl, hinnermost⟩
    exact ⟨g, ⟨hg, hinnermost⟩, rfl⟩

/-- A condition in the first of two methods of a class, its scope declared before theirs. -/
theorem conditions_nest_of_method :
    let words : List Lexeme := [
      ⟨.kwClass, "class"⟩, ⟨.openCurly, "\x7b"⟩, ⟨.kwFunction, "function"⟩,
      ⟨.openCurly, "\x7b"⟩, ⟨.kwIf, "if"⟩, ⟨.openCurly, "\x7b"⟩, ⟨.semicolon, ";"⟩,
      ⟨.closeCurly, "\x7d"⟩, ⟨.closeCurly, "\x7d"⟩, ⟨.kwFunction, "function"⟩, ⟨.openCurly, "\x7b"⟩,
      ⟨.closeCurly, "\x7d"⟩, ⟨.closeCurly, "\x7d"⟩]
    let outline : Outline := { scopes := [⟨4, 5, 7⟩, ⟨9, 10, 11⟩, ⟨2, 3, 8⟩, ⟨0, 1, 12⟩] }
    ∃ (store : Store) (chain : List Group), Store.build? words outline = .ok store ∧
      store.conditionsAt 6 = chain.map (fun g => (g.owner, store.kind g.owner)) ∧
      (∀ g, g ∈ chain ↔ g ∈ outline.scopes ∧ g.opener < 6 ∧ 6 < g.closer) ∧
      (chain.map Group.owner).Nodup ∧
      (chain.Pairwise fun outer inner => outer.opener < inner.opener ∧
        inner.closer < outer.closer) ∧
      ⟨0, 1, 12⟩ ∈ chain ∧ ⟨2, 3, 8⟩ ∈ chain ∧ ⟨9, 10, 11⟩ ∉ chain ∧
      store.deepestCondition? 6 = some (4, .kwIf) := by
  intro words outline
  obtain ⟨store, hbuild⟩ : ∃ store, Store.build? words outline = .ok store :=
    (exists_build?_iff words outline).mpr (by constructor <;> decide)
  obtain ⟨chain, hrecord, hmem, howners, hnested, hdeepest⟩ := conditions_nest hbuild 6
  refine ⟨store, chain, hbuild, hrecord, hmem, howners, hnested, ?_, ?_, ?_, ?_⟩
  · exact (hmem _).mpr (by decide)
  · exact (hmem _).mpr (by decide)
  · rw [hmem]
    decide
  · have hkind : store.kind 4 = .kwIf := (token_of_build? hbuild (i := 4) rfl).1
    rw [hdeepest, ← hkind]
    refine ⟨⟨4, 5, 7⟩, (hmem _).mpr (by decide), rfl, fun other hother => ?_⟩
    obtain ⟨hdeclared, hopener, hcloser⟩ := (hmem other).mp hother
    simp only [outline, List.mem_cons, List.not_mem_nil, or_false] at hdeclared
    rcases hdeclared with rfl | rfl | rfl | rfl <;> dsimp only at hopener hcloser ⊢ <;> omega

end Store

end PhpStyle
