import PhpStyle.Proofs.Run.Preview
import PhpStyle.Proofs.Run.Routing
import PhpStyle.Proofs.Standard.Layout
import PhpStyle.Proofs.Store.Conditions
import PhpStyle.Standard.MethodName

/-!
# Methods are reported once

The rule for names of methods is asked once for each class around a function, and it only answers
for the innermost scope. The scopes around a token have different owners, so of all the times that
it is asked about a function it answers once at most, and never if the innermost scope is no class.
-/

namespace PhpStyle

namespace MethodName

/-- What has methods. -/
def classKinds : List Kind := [.kwClass, .anonClass, .kwInterface, .kwTrait, .kwEnum]

/-- What the rule says of a function in a class, under its name. -/
def finding (s : Store) (i owner : Nat) (name : String) : Finding :=
  { rule := "Stefna.Naming.CamelCapsMethodName", code := "NotCamelCaps", index := i
    message := "Method name \"" ++ (s.declarationName? owner).getD "[Anonymous Class]" ++
    "::" ++ name ++ "\" is not in camel caps format" }

/-- What the rule says at a token: something of a function with a bad name in the scope of a
class. -/
def finding? (s : Store) (i : Nat) : Option Finding :=
  if s.kind i = .kwFunction then
    ((s.deepestCondition? i).filter fun c => c.2 ∈ classKinds).bind fun c =>
      ((s.declarationName? i).filter fun name => !isAllowed name).map (finding s i c.1)
  else none

variable {s : Store} {i scope : Nat} {f : Finding}

/-- A method is reported if it is declared right inside a class and has no allowed name. -/
theorem finding?_eq_some_iff : finding? s i = some f ↔ s.kind i = .kwFunction ∧
    ∃ c, s.deepestCondition? i = some c ∧ c.2 ∈ classKinds ∧
      ∃ name, s.declarationName? i = some name ∧ isAllowed name = false ∧
      finding s i c.1 name = f := by
  rw [finding?, Option.ite_none_right_eq_some]
  simp only [Option.bind_eq_some_iff, Option.map_eq_some_iff, Option.filter_eq_some_iff,
    decide_eq_true_eq, Bool.not_eq_true', and_assoc]

/-- Of a scope that is not the innermost nothing is reported. -/
theorem memberFindings_of_ne (h : (s.deepestCondition? i).map (·.1) ≠ some scope) :
    memberFindings (.ofStore s) i scope = [] :=
  if_pos h

/-- Of the classes around a function, the rule answers for the deepest condition if this is one of
them. -/
theorem answers_eq (hnodup : ((s.conditionsAt i).map (·.1)).Nodup) :
    rule.answers (.ofStore s) i = match s.deepestCondition? i with
      | some c => if c.2 ∈ classKinds then memberFindings (.ofStore s) i c.1 else []
      | none => [] := by
  have hasked : rule.answers (.ofStore s) i =
      (s.conditionsAt i).flatMap fun c =>
        if c.2 ∈ classKinds then memberFindings (.ofStore s) i c.1 else [] := by
    change (if ∃ c ∈ s.conditionsAt i, c.2 ∈ classKinds then _ else []) = _
    split
    · rfl
    · rename_i hnone
      symm
      rw [List.flatMap_eq_nil_iff]
      exact fun c hc => if_neg fun hkind => hnone ⟨c, hc, hkind⟩
  rw [hasked]
  cases hlast : s.deepestCondition? i with
  | none => rw [List.getLast?_eq_none_iff.mp hlast, List.flatMap_nil]
  | some deepest =>
    obtain ⟨outer, houter⟩ := List.getLast?_eq_some_iff.mp hlast
    rw [houter] at hnodup ⊢
    have hskip : outer.flatMap
        (fun c => if c.2 ∈ classKinds then memberFindings (.ofStore s) i c.1 else []) = [] := by
      rw [List.flatMap_eq_nil_iff]
      intro c hc
      have hne : c.1 ≠ deepest.1 := by
        rw [List.map_append, List.nodup_append] at hnodup
        exact hnodup.2.2 _ (List.mem_map_of_mem hc) _ (List.mem_singleton_self _)
      rw [memberFindings_of_ne (by rw [hlast]; simpa using hne.symm), ite_self]
    rw [List.flatMap_append, hskip, List.nil_append, List.flatMap_singleton]

/-- Of the innermost scope a method is reported once. -/
theorem memberFindings_deepest {c : Nat × Kind} (h : s.deepestCondition? i = some c) :
    (memberFindings (.ofStore s) i c.1).map (fun f => { f with rule := rule.name }) =
      (((s.declarationName? i).filter fun name =>
        !isAllowed name).map (finding s i c.1)).toList := by
  have hasked : ¬ (s.deepestCondition? i).map (·.1) ≠ some c.1 := by simp [h]
  unfold memberFindings
  dsimp only [File.ofStore_store]
  rw [if_neg hasked]
  cases s.declarationName? i with
  | none => rfl
  | some name =>
    cases hname : isAllowed name with
    | true => simp [hname]
    | false =>
      dsimp only
      rw [hname, Option.filter_some_pos (by simp [hname])]
      rfl

/-- At a token the rule finds one thing at most. -/
theorem adds_eq_toList (hnodup : ((s.conditionsAt i).map (·.1)).Nodup) :
    rule.adds (.ofStore s) i = (finding? s i).toList := by
  have hkinds : s.kind i ∈ rule.kinds ↔ s.kind i = .kwFunction := List.mem_singleton
  rw [Rule.adds, answers_eq hnodup, finding?]
  simp only [File.ofStore_store, hkinds]
  split
  · cases hdeepest : s.deepestCondition? i with
    | none => rfl
    | some c =>
      dsimp only
      by_cases hclass : c.2 ∈ classKinds
      · rw [if_pos hclass, Option.filter_some_pos (by simpa using hclass)]
        exact memberFindings_deepest hdeepest
      · rw [if_neg hclass, Option.filter_some_neg (by simpa using hclass)]
        rfl
  · rfl

/-- A sweep of the rule takes what is found at each token. -/
theorem sweep_eq_filterMap {lexemes : List Lexeme} {outline : Outline}
    (hbuild : Store.build? lexemes outline = .ok s) :
    (Sweeper.ofRules [rule]).sweep (.ofStore s) = (List.range s.size).filterMap (finding? s) := by
  rw [List.filterMap_eq_flatMap_toList]
  refine List.flatMap_congr fun i _ => ?_
  rw [Sweeper.sweepToken_eq_flatMap, List.flatMap_singleton,
    adds_eq_toList (Store.nodup_conditionsAt hbuild i)]

/-- In every store a sweep of the rule goes over the functions in order, and reports none of them
twice. It reports exactly the functions with bad names whose innermost scope is that of a class, an
interface, a trait or an enum, with or without a name. If any other scope is the innermost one of a
token, nothing is reported there. -/
theorem methods_reported_once {lexemes : List Lexeme} {outline : Outline} {store : Store}
    (hbuild : Store.build? lexemes outline = .ok store) :
    let findings := (Sweeper.ofRules [rule]).sweep (.ofStore store)
    (findings.Pairwise fun a b => a.index < b.index) ∧
    (∀ f, f ∈ findings ↔ store.kind f.index = .kwFunction ∧
      ∃ g, Outline.Innermost outline.scopes g f.index ∧
      store.kind g.owner ∈ [.kwClass, .anonClass, .kwInterface, .kwTrait, .kwEnum] ∧
      ∃ name, store.declarationName? f.index = some name ∧ isAllowed name = false ∧
        f = finding store f.index g.owner name) ∧
    ∀ i g, Outline.Innermost outline.scopes g i →
      store.kind g.owner ∉ [.kwClass, .anonClass, .kwInterface, .kwTrait, .kwEnum] →
      ∀ f ∈ findings, f.index ≠ i := by
  intro findings
  have hindex (i : Nat) (f : Finding) (h : finding? store i = some f) : f.index = i := by
    obtain ⟨_, _, _, _, _, _, _, rfl⟩ := finding?_eq_some_iff.mp h
    rfl
  have hfindings : findings = (List.range store.size).filterMap (finding? store) :=
    sweep_eq_filterMap hbuild
  have hmem (f : Finding) : f ∈ findings ↔ finding? store f.index = some f := by
    rw [hfindings, List.mem_filterMap]
    constructor
    · rintro ⟨i, _, hf⟩
      rwa [hindex i f hf]
    · intro hf
      have hsize := Store.lt_size_of_kind (finding?_eq_some_iff.mp hf).1 (by decide)
      exact ⟨f.index, List.mem_range.mpr hsize, hf⟩
  have hdeepest {i : Nat} {c : Nat × Kind} :=
    Store.deepestCondition?_eq_some_iff hbuild (i := i) (c := c)
  refine ⟨?_, fun f => ?_, fun i g hg hother f hf => ?_⟩
  · rw [hfindings, List.pairwise_filterMap]
    refine List.pairwise_lt_range.imp fun {i j} hij a ha b hb => ?_
    rwa [hindex i a ha, hindex j b hb]
  · rw [hmem, finding?_eq_some_iff]
    refine and_congr_right fun _ => ?_
    constructor
    · rintro ⟨c, hc, hclass, name, hname, hbad, hf⟩
      obtain ⟨g, hg, rfl⟩ := hdeepest.mp hc
      exact ⟨g, hg, hclass, name, hname, hbad, hf.symm⟩
    · rintro ⟨g, hg, hclass, name, hname, hbad, hf⟩
      exact ⟨_, hdeepest.mpr ⟨g, hg, rfl⟩, hclass, name, hname, hbad, hf.symm⟩
  · rintro rfl
    obtain ⟨_, c, hc, hclass, _⟩ := finding?_eq_some_iff.mp ((hmem f).mp hf)
    obtain rfl := Option.some.inj (hc.symm.trans (hdeepest.mpr ⟨g, hg, rfl⟩))
    exact hother hclass

/-- A method of a class with a function in it and a class without a name, which has a method of its
own. Both methods are reported, each for its class, and the function is not. -/
theorem methods_reported_once_nested :
    let source := "<?php class A \x7b function do_it() \x7b function not_me() \x7b \x7d " ++
      "$b = new class \x7b function in_it() \x7b \x7d \x7d; \x7d \x7d"
    let lexemes := Php.settleWords (Php.lex source)
    ∃ store, Store.build? lexemes (Php.outline lexemes) = .ok store ∧
      let findings := (Sweeper.ofRules [rule]).sweep (.ofStore store)
      (findings.Pairwise fun a b => a.index < b.index) ∧
      finding store 7 1 "do_it" ∈ findings ∧ finding store 35 31 "in_it" ∈ findings ∧
      Outline.Innermost (Php.outline lexemes).scopes ⟨7, 13, 48⟩ 15 ∧
      ∀ f ∈ findings, f.index ≠ 15 := by
  intro source lexemes
  obtain ⟨store, hstore, hbuild⟩ := Php.exists_tokenize source
  have hdraft : (Php.draft? source).any (fun s =>
      s.kind 7 = .kwFunction ∧ s.kind 1 = .kwClass ∧ s.declarationName? 7 = some "do_it" ∧
        s.kind 35 = .kwFunction ∧ s.kind 31 = .anonClass ∧
        s.declarationName? 35 = some "in_it") = true := by
    decide +kernel
  have hscopes : (Php.outline lexemes).scopes =
      [⟨1, 5, 50⟩, ⟨7, 13, 48⟩, ⟨15, 21, 23⟩, ⟨31, 33, 45⟩, ⟨35, 41, 43⟩] := by
    decide +kernel
  have hmethod : Outline.Innermost (Php.outline lexemes).scopes ⟨1, 5, 50⟩ 7 := by
    rw [hscopes]
    decide
  have hinner : Outline.Innermost (Php.outline lexemes).scopes ⟨31, 33, 45⟩ 35 := by
    rw [hscopes]
    decide
  have hfunction : Outline.Innermost (Php.outline lexemes).scopes ⟨7, 13, 48⟩ 15 := by
    rw [hscopes]
    decide
  obtain ⟨drafted, hdrafted, hcomputed⟩ := Php.exists_of_draft hdraft
  obtain rfl : drafted = store := Except.ok.inj (hdrafted.symm.trans hstore)
  obtain ⟨hkeyword, hclass, hname, hkeyword', hclass', hname'⟩ := of_decide_eq_true hcomputed
  obtain ⟨hordered, hfound, hnone⟩ := methods_reported_once hbuild
  refine ⟨drafted, hbuild, hordered, ?_, ?_, hfunction, ?_⟩
  · exact (hfound _).mpr ⟨hkeyword, _, hmethod,
      by simp [hclass], "do_it", hname, by decide +kernel, rfl⟩
  · exact (hfound _).mpr ⟨hkeyword', _, hinner,
      by simp [hclass'], "in_it", hname', by decide +kernel, rfl⟩
  · exact hnone 15 _ hfunction (by simp [hkeyword])

end MethodName

end PhpStyle
