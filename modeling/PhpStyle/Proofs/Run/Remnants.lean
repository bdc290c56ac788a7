import PhpStyle.Proofs.Run.Defects
import PhpStyle.Proofs.Run.Frames

/-!
# What a run leaves to be fixed

A run that converged reports a problem that could be fixed for one of two reasons. A fix that it
conflicts with was applied instead; or its own fix was applied in the last pass, and what that pass
applied left the text as it is.
-/

namespace PhpStyle

namespace Engine

variable {e : Engine}

/-- What a run that converged leaves: every diagnostic with a fix conflicted with another, or its
fix was applied in the last pass. -/
theorem EditsOnce.status_of_converged (he : e.EditsOnce) {budget passes : Nat} {source : String}
    {report : Report} (hfix : e.fix budget source = .ok report)
    (hconverged : report.outcome = .converged passes) :
    ∃ p, e.runPass passes report.source = .ok p ∧ p.commit.changed = false ∧
      ∀ d ∈ report.diagnostics, d.fixable = true → d.status = .conflicted ∨
        ∃ f, (f, .applied) ∈ p.judged ∧ d = f.detach p.store .unapplied := by
  have hspotless := he.spotless_of_fix hfix
  obtain ⟨last, final, hsteps, hends⟩ := steps_of_fixFrom hfix
  have haccounts : final.Accounts := hsteps.accounts ⟨.slnil, by simp [turnedDown]⟩
  cases hends with
  | spent => cases hconverged
  | @converged p hpass hchanged =>
    cases hconverged
    refine ⟨p, hpass, hchanged, fun d hd hfixable => ?_⟩
    have hgood := hspotless.diagnostics d hd
    obtain ⟨rest, hrest, hsub⟩ :=
      exists_foldl_addNew Diagnostic.sameProblem p.settled final.rejected
    have hall : d ∈ p.settled ++ rest := hrest ▸ hd
    rcases List.mem_append.mp hall with hsettled | hcarried
    · obtain ⟨⟨f, status⟩, hj, rfl⟩ := List.mem_map.mp hsettled
      obtain ⟨store, commit, _, _, _, rfl⟩ := runPass_eq_ok_iff.mp hpass
      rcases Session.status_cases hj with ⟨hnone, _⟩ | ⟨_, rfl | rfl | rfl⟩
      · simp [Finding.detach, Finding.fixable, hnone] at hfixable
      · exact absurd rfl hgood
      · exact .inl rfl
      · exact .inr ⟨f, hj, rfl⟩
    · exact .inl ((haccounts.status d (haccounts.rejected.mem (hsub.mem hcarried))).resolve_right
        hgood)

/-- A fix without edits is applied. -/
theorem applied_of_nil {pass : Nat} {text : String} {p : Pass} (hpass : e.runPass pass text = .ok p)
    {f : Finding} (hf : f ∈ e.findings p.store) (hfix : f.fix = some []) :
    (f, .applied) ∈ p.judged := by
  rw [← map_fst_judged hpass] at hf
  obtain ⟨⟨f, status⟩, hj, rfl⟩ := List.mem_map.mp hf
  obtain ⟨store, commit, _, _, _, rfl⟩ := runPass_eq_ok_iff.mp hpass
  obtain ⟨s, rfl⟩ := Session.exists_propose_of_mem hj
  rcases s.propose_cases f with
    ⟨hnone, _⟩ | ⟨c, hc, ⟨i, htwice, _⟩ | ⟨_, ⟨e, he, _⟩, _⟩ | ⟨_, _, hanswer⟩⟩
  · cases hfix.symm.trans hnone
  · cases hfix.symm.trans hc
    rw [(Changeset.editedTwice?_eq_none_iff []).mpr List.nodup_nil] at htwice
    cases htwice
  · cases hfix.symm.trans hc
    cases he
  · rwa [hanswer] at hj

/-- A run over a text that no pass changes leaves a fix without edits as one to be made. -/
theorem fix_of_nil {pass : Nat} {text : String} {p : Pass} (hpass : e.runPass pass text = .ok p)
    (hfixed : e.afterPass text = text) {f : Finding} (hf : f ∈ e.findings p.store)
    (hfix : f.fix = some []) (budget : Nat) :
    ∃ report, e.fix budget text = .ok report ∧ report.outcome = .converged 1 ∧
      f.detach p.store .unapplied ∈ report.diagnostics := by
  have hchanged : p.commit.changed = false :=
    Bool.eq_false_iff.mpr fun hchanged => (changed_iff_of_runPass hpass).mp hchanged hfixed
  refine ⟨_, fix_of_unchanged hpass hchanged budget, rfl, ?_⟩
  exact List.mem_map.mpr ⟨_, applied_of_nil hpass hf hfix, by simp⟩

end Engine

end PhpStyle
