import PhpStyle.Proofs.Run.Frames
import PhpStyle.Proofs.Run.Preview
import PhpStyle.Proofs.Standard.Layout
import PhpStyle.Standard.Catalogue

/-!
# When the rules of the standard come to rest

A run of the Stefna preset ends as every run does: with the first pass that changes nothing, or with
the budget. Whether there is such a pass is left to the rules, and they do not always come to one. A
constructor without a visibility is not known for one when the line of its closing brace is judged,
and is known for one when its braces are judged: one fix breaks the line between them, and the other
takes the break away.
-/

namespace PhpStyle

open Function (IsFixedPt)

namespace ClosingBrace

/-- A constructor with nothing but whitespace between its braces that the rule does not know for one
by the start of its line. -/
structure Unmarked (s : Store) (i : Nat) (scope : Group) : Prop where
  keyword : s.kind i = .kwFunction
  name : s.declarationName? i = some "__construct"
  owned : s.scope? i = some scope
  blank : ∀ k, scope.opener < k → k < scope.closer → s.kind k = .whitespace
  start : ∃ lineStart check, lineStart? s i = some (lineStart, check) ∧
    mayShareLine s lineStart scope = false

/-- In a scope of whitespace the brace that opens it is the last content. -/
theorem lastContent_of_blank {s : Store} {scope : Group}
    (hblank : ∀ k, scope.opener < k → k < scope.closer → s.kind k = .whitespace) :
    lastContent s scope = scope.opener := by
  cases hfound : (s.prev? scope.closer).bind fun p =>
      s.findPrevious (.except (.oneOf [.inlineHtml, .whitespace, .openTag])) p
        (some scope.opener) with
  | none => rw [lastContent, hfound, Option.getD_none]
  | some j =>
    rw [lastContent, hfound, Option.getD_some]
    obtain ⟨last, hlast, hscan⟩ := Option.bind_eq_some_iff.mp hfound
    have hcloser := Store.prev?_eq_some hlast
    obtain ⟨hle, hj, hcontent, _⟩ := Store.scanDown_eq_some hscan
    rw [Option.getD_some] at hle
    by_contra hne
    have hspace : (s.token j).kind = .whitespace := hblank j (by omega) (by omega)
    simp [TokenTest.except, TokenTest.oneOf, hspace] at hcontent

/-- No layout of such a constructor is left in peace: its braces are parted if they are on one line,
and joined if they are not. -/
theorem exists_fix_of_unmarked (settings : Settings) {s : Store} {i : Nat}
    {scope : Group} (h : Unmarked s i scope) :
    ∃ f ∈ (rule settings).runAt (.ofStore s) i, f.fixable = true ∧
      f.code = if s.sameLine scope.opener scope.closer then "ContentBefore"
        else "ConstructorBrackets" := by
  obtain ⟨lineStart, check, hstart, hshare⟩ := h.start
  have hlast := lastContent_of_blank h.blank
  suffices hfound : ∃ f ∈ findings settings (.ofStore s) i, f.fixable = true ∧
      f.code = if s.sameLine scope.opener scope.closer then "ContentBefore"
        else "ConstructorBrackets" by
    obtain ⟨f, hf, hspec⟩ := hfound
    exact ⟨_, List.mem_map_of_mem hf, hspec⟩
  unfold findings
  simp only [File.ofStore_store, h.owned, hstart, hlast, hshare, h.keyword, h.name, Bool.not_false,
    Bool.and_true, and_self, if_true]
  by_cases hline : s.sameLine scope.opener scope.closer = true
  · rw [if_pos hline, if_pos hline]
    exact ⟨_, List.mem_cons_self, rfl, rfl⟩
  · rw [if_neg hline, if_neg hline]
    have htouch : bracesTouch s scope = false := by simp [bracesTouch, hline]
    have hbody : ((s.between scope.opener scope.closer).any fun p => s.kind p != .whitespace) =
        false := by
      rw [List.any_eq_false]
      intro k hk
      obtain ⟨hlow, hhigh⟩ := Store.mem_between.mp hk
      simp [h.blank k hlow hhigh]
    simp only [constructorFindings, htouch, hbody, Bool.or_self, Bool.false_eq_true, if_false]
    exact ⟨_, List.mem_append_left _ (List.mem_append_right _ List.mem_cons_self), rfl, rfl⟩

end ClosingBrace

namespace Catalogue

/-- The names of the preset are those of all rules of the standard. -/
theorem select_stefnaNames (settings : Settings) :
    select (rules settings) stefnaNames = .ok (rules settings) := by
  have hnames : (rules settings).map (·.name) = stefnaNames := rfl
  have hfind : stefnaNames.find? (fun n => (find? (rules settings) n).isNone) = none := by
    rw [List.find?_eq_none]
    intro n hn
    rw [← hnames] at hn
    obtain ⟨r, hr, rfl⟩ := List.mem_map.mp hn
    have hfound : (find? (rules settings) r.name).isSome = true := by
      rw [find?, List.find?_isSome]
      exact ⟨r, hr, beq_self_eq_true _⟩
    simp [Option.isSome_iff_ne_none.mp hfound]
  have hfilter : (rules settings).filter (fun r => stefnaNames.contains r.name) =
      rules settings := by
    rw [List.filter_eq_self]
    intro r hr
    rw [List.contains_iff_mem, ← hnames]
    exact List.mem_map_of_mem hr
  simp only [select, hfind, hfilter]

/-- The preset chooses all rules of the standard. -/
theorem selectPreset_stefna (settings : Settings) :
    selectPreset (rules settings) "stefna" = .ok (rules settings) := by
  have hpreset : presetNames? "stefna" = some stefnaNames := by decide +kernel
  rw [selectPreset, hpreset]
  exact select_stefnaNames settings

/-- In every pass of a run of the preset there is a fix for every constructor with nothing between
its braces that is not known for one. -/
theorem exists_judged_of_unmarked {settings : Settings} {pass : Nat} {text : String}
    {p : Engine.Pass} (hp : (Engine.ofRules Php.tokenize (rules settings)).runPass pass text =
      .ok p) {i : Nat} {scope : Group} (h : ClosingBrace.Unmarked p.store i scope) :
    ∃ f status, (f, status) ∈ p.judged ∧ f.fixable = true ∧
      f.code = if p.store.sameLine scope.opener scope.closer then "ContentBefore"
        else "ConstructorBrackets" := by
  obtain ⟨f, hf, hspec⟩ := ClosingBrace.exists_fix_of_unmarked settings h
  have hkind : p.store.kind i ∈ (ClosingBrace.rule settings).kinds := by
    simp [h.keyword, ClosingBrace.rule]
  have hsize : i < p.store.size := Store.lt_size_of_kind h.keyword (by decide)
  have hrule : ClosingBrace.rule settings ∈ rules settings := by simp [rules]
  have hfound : f ∈ (Engine.ofRules Php.tokenize (rules settings)).findings p.store :=
    Engine.mem_findings_iff.mpr ⟨i, hsize, _, hrule, hkind, hf⟩
  rw [← Engine.map_fst_judged hp] at hfound
  obtain ⟨⟨f, status⟩, hmem, rfl⟩ := List.mem_map.mp hfound
  exact ⟨f, status, hmem, hspec⟩

/-- The preset chooses all rules of the standard. Every run of it gives a report and ends as runs
do. And no pass of it leaves a constructor without visibility alone that has nothing between its
braces: there is a fix that joins the braces or one that parts them. -/
theorem stefna_run_outcome (source : String) (budget : Nat) :
    selectPreset (rules .stefna) "stefna" = .ok (rules .stefna) ∧
    let engine := Engine.ofRules Php.tokenize (rules .stefna)
    ∃ report, engine.fix budget source = .ok report ∧
      engine.Concludes budget source report.outcome ∧
      ∀ n < report.outcome.passes, ∃ p, engine.IsPass source n p ∧
        ∀ i scope, ClosingBrace.Unmarked p.store i scope →
          ∃ f status, (f, status) ∈ p.judged ∧ f.fixable = true ∧
            f.code = if p.store.sameLine scope.opener scope.closer then "ContentBefore"
              else "ConstructorBrackets" := by
  refine ⟨selectPreset_stefna .stefna, ?_⟩
  intro engine
  obtain ⟨report, hfix⟩ := Php.exists_fix (rules .stefna) budget source
  refine ⟨report, hfix, Engine.concludes_of_fix hfix, fun n _ => ?_⟩
  obtain ⟨p, hp⟩ := Php.exists_isPass (rules .stefna) source n
  exact ⟨p, hp, fun _ _ hunmarked => exists_judged_of_unmarked hp hunmarked⟩

/-- A class whose constructor has no visibility: its braces are joined and parted again in turn, so
the preset uses up its own budget of passes and every other. -/
theorem stefna_joins_and_parts_braces :
    ∃ rules, selectPreset (Catalogue.rules .stefna) "stefna" = .ok rules ∧
      let source := "<?php\nclass A\n\x7b\nfunction __construct(\n$a,\n) \x7b\n\x7d\n\x7d\n"
      let joined := "<?php\nclass A\n\x7b\nfunction __construct(\n$a,\n) \x7b\x7d\n\x7d\n"
      let engine := Engine.ofRules Php.tokenize rules
      engine.afterPass source = joined ∧ engine.afterPass joined = source ∧
      ∀ budget, ∃ report, engine.fix budget source = .ok report ∧
        report.outcome = .didNotConverge (max budget 1) := by
  refine ⟨rules .stefna, selectPreset_stefna .stefna, ?_⟩
  intro source joined engine
  have hjoin : engine.afterPass source = joined := Php.afterPass_of_preview (by decide +kernel)
  have hpart : engine.afterPass joined = source := Php.afterPass_of_preview (by decide +kernel)
  refine ⟨hjoin, hpart, fun budget => ?_⟩
  obtain ⟨report, hfix⟩ := Php.exists_fix (rules .stefna) budget source
  have hcycle : engine.afterPass^[2] source = source := by
    rw [Function.iterate_succ_apply, Function.iterate_one, hjoin, hpart]
  have hchanged : ¬ IsFixedPt engine.afterPass source := fun hfixed =>
    absurd (hjoin.symm.trans hfixed) (by decide)
  exact ⟨report, hfix,
    (Engine.concludes_of_fix hfix).spent_of_cycle 0 2 Nat.two_pos hcycle hchanged⟩

end Catalogue

end PhpStyle
