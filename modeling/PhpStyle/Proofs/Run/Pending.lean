import PhpStyle.Proofs.Run.Budgets
import PhpStyle.Proofs.Run.Preview
import PhpStyle.Proofs.Run.Trajectory
import PhpStyle.Standard.ArrayLiteral

/-!
# Runs that use their budget up

A run learns that its text needs no more fixes from a pass that changes nothing, and the budget pays
for this pass too. So a run that did not converge has changed its text in every pass, and the last
of them may have made the last change. If it has not, there are fixes still to be made. This is
always so if the run is back at a text that it had before.
-/

namespace PhpStyle

/-- Whatever store a tokenizer answers has been built. -/
def Tokenizer.Builds (t : Tokenizer) : Prop :=
  ∀ text store, t text = .ok store → ∃ lexemes outline, Store.build? lexemes outline = .ok store

/-- The tokenizer that takes the whole of a text for one token builds its stores. -/
theorem Tokenizer.builds_whole : Tokenizer.whole.Builds := by
  intro text store hstore
  unfold Tokenizer.whole at hstore
  split at hstore
  · cases hstore
  · rename_i built hbuild
    cases hstore
    exact ⟨_, _, hbuild⟩

namespace Engine

variable {e : Engine} {budget pass passes : Nat} {text source : String} {final : Progress}
    {report : Report} {p : Pass}

/-- A run that did not converge has made its passes, and then found tokens in its text. -/
theorem exists_steps_of_didNotConverge (hfix : e.fix budget source = .ok report)
    (hspent : report.outcome = .didNotConverge passes) :
    ∃ final store, e.Steps 1 { text := source } (passes + 1) final ∧ final.text = report.source ∧
      e.tokenize (passes + 1) report.source = .ok store := by
  obtain ⟨last, final, hsteps, hends⟩ := steps_of_fixFrom hfix
  have hfirst := hsteps.le_total_fixes.1
  cases hends with
  | converged => cases hspent
  | @spent store hstore =>
    have hcount : last - 1 = passes := Outcome.didNotConverge.inj hspent
    obtain rfl : last = passes + 1 := by omega
    exact ⟨final, store, hsteps, rfl, hstore⟩

/-- Behind passes that change the text, a run with a budget for one more ends with a pass that does
not. -/
theorem Steps.fix_of_unchanged (h : e.Steps 1 { text := source } (passes + 1) final)
    (hpass : e.runPass (passes + 1) final.text = .ok p) (hchanged : p.commit.changed = false) :
    ∃ settled, e.fix (passes + 1) source = .ok settled ∧ settled.outcome = .converged (passes + 1) ∧
      settled.source = final.text := by
  have hrun : e.fix (passes + 1) source = e.fixFrom (passes + 1) final 1 := by
    rw [fix, ← h.fixFrom_eq.2 1]
    congr 1
    omega
  rw [hrun, fixFrom, hpass]
  exact ⟨_, if_neg (Bool.eq_false_iff.mp hchanged), rfl, rfl⟩

/-- A run does not converge exactly if every pass that its budget allows changes the text. -/
theorem didNotConverge_iff_changed (hfix : e.fix budget source = .ok report) :
    report.outcome = .didNotConverge passes ↔ passes = max budget 1 ∧
      ∀ n < passes, ∃ p, e.IsPass source n p ∧ p.commit.changed = true := by
  constructor
  · intro hspent
    obtain ⟨final, _, hsteps, _⟩ := exists_steps_of_didNotConverge hfix hspent
    obtain ⟨_, hmade⟩ := hsteps.exists_isPass rfl Nat.one_pos
    rcases outcome_of_fix hfix with ⟨_, _, _, _, hconverged, _⟩ | ⟨hmoves, houtcome, _⟩
    · cases hspent.symm.trans hconverged
    · obtain rfl : passes = max budget 1 := Outcome.didNotConverge.inj (hspent.symm.trans houtcome)
      constructor
      · rfl
      · intro n hn
        obtain ⟨p, hp⟩ := hmade n (by omega) (by omega)
        exact ⟨p, hp, (changed_iff_of_runPass hp).mpr (hmoves n hn)⟩
  · rintro ⟨rfl, hmade⟩
    apply (didNotConverge_iff_of_fix hfix).mpr
    intro n hn
    obtain ⟨p, hp, hchanged⟩ := hmade n hn
    exact (changed_iff_of_runPass hp).mp hchanged

/-- A run does not converge exactly if every pass that its budget allows changes the text. One pass
more does not fail, and it changes the text as well, unless the last pass of the budget settled it:
that is, unless a run with a budget for this pass converges with the same text. And it does change
the text if one of the passes started from it. -/
theorem pending_or_settled_of_didNotConverge {tokenizer : Tokenizer} {rules : List Rule}
    {budget passes : Nat} {source : String} {report : Report}
    (hfix : (ofRules tokenizer rules).fix budget source = .ok report) :
    let engine := ofRules tokenizer rules
    (report.outcome = .didNotConverge passes ↔ passes = max budget 1 ∧
      ∀ n < passes, ∃ p, engine.IsPass source n p ∧ p.commit.changed = true) ∧
    (report.outcome = .didNotConverge passes →
      (tokenizer.Builds → ∃ p, engine.runPass (passes + 1) report.source = .ok p) ∧
      (∀ p, engine.runPass (passes + 1) report.source = .ok p → (p.commit.changed = false ↔
        ∃ settled, engine.fix (passes + 1) source = .ok settled ∧
        settled.outcome = .converged (passes + 1) ∧ settled.source = report.source)) ∧
      ∀ n < passes, engine.afterPass^[n] source = report.source →
        ∃ p, engine.runPass (passes + 1) report.source = .ok p ∧ p.commit.changed = true) := by
  intro engine
  refine ⟨didNotConverge_iff_changed hfix, fun hspent => ?_⟩
  obtain ⟨final, store, hsteps, htext, hstore⟩ := exists_steps_of_didNotConverge hfix hspent
  constructor
  · intro hbuilds
    obtain ⟨lexemes, outline, hbuild⟩ :=
      hbuilds report.source store (tokenize_eq_ok_iff.mp hstore).1
    exact exists_runPass_of_build hstore hbuild
  constructor
  · intro p hpass
    constructor
    · intro hchanged
      rw [← htext] at hpass ⊢
      exact hsteps.fix_of_unchanged hpass hchanged
    · rintro ⟨settled, hsettled, houtcome, _⟩
      obtain ⟨_, hfixed, _⟩ := (converged_iff_of_fix hsettled passes).mp houtcome
      have hsource := source_of_fix hfix
      rw [hspent, Outcome.passes] at hsource
      rw [← hsource] at hfixed
      apply Bool.eq_false_iff.mpr
      intro hchanged
      exact (changed_iff_of_runPass hpass).mp hchanged hfixed
  · intro n hn hback
    obtain ⟨_, hmade⟩ := (didNotConverge_iff_changed hfix).mp hspent
    obtain ⟨p, hp, hchanged⟩ := hmade n hn
    rw [IsPass, hback] at hp
    exact ⟨p, runPass_renumber hp (passes + 1), hchanged⟩

/-- Two fixes that undo each other: the run stops at the text from which it started. -/
theorem pending_of_undone_fix :
    let rule : Rule := ⟨"Rule", "", [.inlineHtml], .anywhere fun file i =>
      let other := if file.store.text i = "a" then "b" else "a"
      [{ code := "Other", index := i, message := "", fix := some [.replace i other] }]⟩
    let engine := ofRules .whole [rule]
    ∃ report p, engine.fix 2 "a" = .ok report ∧ report.outcome = .didNotConverge 2 ∧
      report.source = "a" ∧ (∀ n < 2, ∃ p, engine.IsPass "a" n p ∧ p.commit.changed = true) ∧
      engine.runPass 3 report.source = .ok p ∧ p.commit.changed = true ∧
      ¬ ∃ settled, engine.fix 3 "a" = .ok settled ∧ settled.outcome = .converged 3 ∧
        settled.source = report.source := by
  intro rule engine
  have hfix : engine.fix 2 "a" = .ok {
      outcome := .didNotConverge 2
      source := "a"
      diagnostics := [⟨"Rule", "Other", .error, 1, 1, "", true, .unapplied⟩]
      fixes := [("Rule.Other", 2)]
      passes := [
        ⟨1, 1, 1, [], [], [("Rule.Other", 1)]⟩,
        ⟨2, 1, 1, [], [], [("Rule.Other", 1)]⟩] } := by
    unfold engine rule
    decide +kernel
  obtain ⟨hspent, hleft⟩ := @pending_or_settled_of_didNotConverge .whole [rule] 2 2 "a" _ hfix
  obtain ⟨hsucceeds, hsettled, hback⟩ := hleft rfl
  obtain ⟨p, hp⟩ := hsucceeds Tokenizer.builds_whole
  obtain ⟨p', hp', hchanged⟩ := hback 0 (by decide) rfl
  obtain rfl : p = p' := Except.ok.inj (hp.symm.trans hp')
  refine ⟨_, p, hfix, rfl, rfl, (hspent.mp rfl).2, hp, hchanged, ?_⟩
  rw [← hsettled p hp, hchanged]
  decide

/-- One array literal is all that there is to fix, and one pass is all that the budget allows. The
run does not converge, though a second pass has nothing to do. -/
theorem spent_on_settled_text :
    let engine := ofRules Php.tokenize [ArrayLiteral.rule]
    ∃ report p, engine.fix 1 "<?php\n$a = array(1);\n" = .ok report ∧
      report.outcome = .didNotConverge 1 ∧ report.source = "<?php\n$a = [1];\n" ∧
      engine.runPass 2 report.source = .ok p ∧ p.commit.changed = false := by
  intro engine
  obtain ⟨report, hfix⟩ := Php.exists_fix [ArrayLiteral.rule] 1 "<?php\n$a = array(1);\n"
  have hfirst : engine.afterPass "<?php\n$a = array(1);\n" = "<?php\n$a = [1];\n" :=
    Php.afterPass_of_preview (by decide +kernel)
  have hsecond : engine.afterPass "<?php\n$a = [1];\n" = "<?php\n$a = [1];\n" :=
    Php.afterPass_of_preview (by decide +kernel)
  have hspent : report.outcome = .didNotConverge 1 := by
    apply (didNotConverge_iff_of_fix hfix).mpr
    intro n hn hfixed
    obtain rfl : n = 0 := by omega
    have hsame := hfirst.symm.trans hfixed
    exact absurd hsame (by decide)
  have hsource : report.source = "<?php\n$a = [1];\n" := by
    rw [source_of_fix hfix, hspent]
    exact hfirst
  obtain ⟨p, hp⟩ : ∃ p, engine.runPass 2 report.source = .ok p :=
    exists_runPass Php.buildsEvery_tokenize 2 report.source
  refine ⟨report, p, hfix, hspent, hsource, hp, Bool.eq_false_iff.mpr fun hchanged => ?_⟩
  apply (changed_iff_of_runPass hp).mp hchanged
  rw [hsource]
  exact hsecond

end Engine

end PhpStyle
