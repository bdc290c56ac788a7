import PhpStyle.Proofs.Edit.Admission
import PhpStyle.Proofs.Php.Tokenizing
import PhpStyle.Proofs.Run.Iteration

/-!
# Passes that can be computed

A pass sorts: the pairs of an outline to see that they nest, the scopes to record which of them
enclose a token, and the accepted edits. The outline of PHP code always nests, its scopes are mostly
listed in order already, and edits can be made token by token. What is left computes the text after
a pass.
-/

namespace PhpStyle

/-- A store whose pairs are taken to nest and whose scopes are taken to be listed by their
openers. -/
def Store.draft? (lexemes : List Lexeme) (outline : Outline) : Except StructureError Store := do
  let tokens := (Token.layout lexemes).toArray
  let size := tokens.size
  let brackets ← outline.brackets.foldlM (Outline.claimPair size) (Array.replicate size none)
  let parens ← outline.parens.foldlM (Outline.claimParen size) (Array.replicate size none)
  let scopes ← outline.scopes.foldlM (Outline.claimScope size) (Array.replicate size none)
  let comments ← outline.comments.foldlM (Outline.claimPair size) (Array.replicate size none)
  .ok {
    source := String.join (lexemes.map (·.text))
    tokens, brackets, parens, scopes, comments
    conditions := outline.scopes.foldl (Outline.enclose tokens) (Array.replicate tokens.size []) }

/-- Of scopes listed by their openers, the draft of a store is the store. -/
theorem Store.draft?_of_build? {lexemes : List Lexeme} {outline : Outline} {store : Store}
    (hsorted : outline.scopes.Pairwise fun a b => a.opener ≤ b.opener)
    (hbuild : Store.build? lexemes outline = .ok store) :
    Store.draft? lexemes outline = .ok store := by
  have hconditions (tokens : Array Token) : Outline.conditions tokens outline.scopes =
      outline.scopes.foldl (Outline.enclose tokens) (Array.replicate tokens.size []) := by
    rw [Outline.conditions, List.mergeSort_of_pairwise (by simpa using hsorted)]
  simp only [build?, bind_eq_ok_iff, hconditions] at hbuild
  obtain ⟨brackets, hb, parens, hp, scopes, hs, comments, hc, _, _, hstore⟩ := hbuild
  simp only [draft?, bind_eq_ok_iff]
  exact ⟨brackets, hb, parens, hp, scopes, hs, comments, hc, hstore⟩

namespace Php

/-- The store of a text, if its scopes are listed by their openers. -/
def draft? (source : String) : Option Store :=
  let lexemes := settleWords (lex source)
  if (outline lexemes).scopes.Pairwise fun a b => a.opener ≤ b.opener then
    (Store.draft? lexemes (outline lexemes)).toOption
  else none

/-- What is computed of the draft of a store holds of the store. -/
theorem exists_of_draft {source : String} {p : Store → Bool} (h : (draft? source).any p = true) :
    ∃ store, tokenize source = .ok store ∧ p store = true := by
  obtain ⟨store, hstore, hbuild⟩ := exists_tokenize source
  refine ⟨store, hstore, ?_⟩
  simp only [draft?] at h
  split at h
  · rename_i hsorted
    rw [Store.draft?_of_build? hsorted hbuild] at h
    exact h
  · cases h

/-- The text after one pass of these rules, if the scopes are listed by their openers. -/
def preview (rules : List Rule) (source : String) : Option String :=
  let lexemes := settleWords (lex source)
  if (outline lexemes).scopes.Pairwise fun a b => a.opener ≤ b.opener then
    match Store.draft? lexemes (outline lexemes) with
    | .ok store =>
      some (store.rewrite (Session.grant [] ((Engine.ofRules tokenize rules).findings store)))
    | .error _ => none
  else none

/-- A pass over PHP code: its store is that of the text, and its text that of the accepted edits. -/
theorem exists_pass (rules : List Rule) (pass : Nat) (source : String) :
    ∃ store p, tokenize source = .ok store ∧
      Store.build? (settleWords (lex source)) (outline (settleWords (lex source))) = .ok store ∧
      (Engine.ofRules tokenize rules).runPass pass source = .ok p ∧ p.store = store ∧
      p.commit.source =
        store.rewrite (Session.grant [] ((Engine.ofRules tokenize rules).findings store)) := by
  obtain ⟨store, hstore, hbuild⟩ := exists_tokenize source
  obtain ⟨commit, hcommit, hsource⟩ := Session.commit_proposeAll_eq_rewrite hbuild
    ((Engine.ofRules tokenize rules).findings store)
  exact ⟨store, _, hstore, hbuild, Engine.runPass_eq_ok_iff.mpr
    ⟨store, commit, hstore, (source_of_build hbuild).1, hcommit, rfl⟩, rfl, hsource⟩

/-- Every pass over PHP code succeeds. -/
theorem exists_isPass (rules : List Rule) (source : String) (n : Nat) :
    ∃ p, (Engine.ofRules tokenize rules).IsPass source n p :=
  Engine.exists_runPass buildsEvery_tokenize (n + 1) _

/-- Every run over PHP code gives a report. -/
theorem exists_fix (rules : List Rule) (budget : Nat) (source : String) :
    ∃ report, (Engine.ofRules tokenize rules).fix budget source = .ok report :=
  Engine.exists_fixFrom buildsEvery_tokenize 1 (max budget 1) _

/-- What is computed for a pass is its text. -/
theorem afterPass_of_preview {rules : List Rule} {source text : String}
    (h : preview rules source = some text) :
    (Engine.ofRules tokenize rules).afterPass source = text := by
  obtain ⟨store, p, _, hbuild, hrun, _, hsource⟩ := exists_pass rules 1 source
  simp only [preview] at h
  split at h
  · rename_i hsorted
    rw [Store.draft?_of_build? hsorted hbuild] at h
    rw [Engine.afterPass_of_runPass hrun, hsource]
    exact Option.some.inj h
  · cases h

/-- A run whose first pass is computed, and whose second is computed to change nothing, ends with
the text of the first. -/
theorem source_of_previews {rules : List Rule} {budget : Nat} {source text : String}
    {report : Report} (hfix : (Engine.ofRules tokenize rules).fix budget source = .ok report)
    (hfirst : preview rules source = some text) (hsecond : preview rules text = some text) :
    report.source = text := by
  have hafter := afterPass_of_preview hfirst
  have hfixed : (Engine.ofRules tokenize rules).afterPass
      ((Engine.ofRules tokenize rules).afterPass source) =
        (Engine.ofRules tokenize rules).afterPass source := by
    rw [hafter]
    exact afterPass_of_preview hsecond
  exact (Engine.source_of_fix_of_isFixedPt hfix hfixed).trans hafter

end Php

end PhpStyle
