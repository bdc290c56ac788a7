import PhpStyle.Proofs.Run.Passes

/-!
# Runs with a larger budget

The budget of a run says how many passes it may make and nothing of what they do. So two runs over
one text make the same passes for as long as both may. A run that stops within its budget stops
there with every larger one, and a run that uses its budget up is the beginning of every longer run.
-/

namespace PhpStyle.Engine

variable {e : Engine} {pass last : Nat} {g final : Progress}

/-- Behind its first passes, a run is a run with the rest of its budget. -/
theorem Steps.fixFrom_eq (h : e.Steps pass g last final) :
    pass ≤ last ∧
      ∀ remaining, e.fixFrom pass g (last - pass + remaining) = e.fixFrom last final remaining := by
  induction h with
  | refl pass g => exact ⟨Nat.le_refl pass, fun remaining => by rw [Nat.sub_self, Nat.zero_add]⟩
  | @step pass last g final p hpass hchanged _ ih =>
    obtain ⟨hle, hrest⟩ := ih
    refine ⟨Nat.le_of_succ_le hle, fun remaining => ?_⟩
    have hcount : last - pass + remaining = last - (pass + 1) + remaining + 1 := by omega
    rw [hcount, ← hrest, fixFrom, hpass]
    exact if_pos hchanged

/-- What a run has gathered grows by the summary of each pass. -/
theorem Steps.exists_passes (h : e.Steps pass g last final) :
    ∃ made, final.passes = g.passes ++ made ∧ made.length = last - pass := by
  induction h with
  | refl pass g => exact ⟨[], by simp⟩
  | @step pass last g final p hpass hchanged hrest ih =>
    obtain ⟨made, hmade, hlength⟩ := ih
    have hle := hrest.fixFrom_eq.1
    refine ⟨p.summary pass :: made, ?_, ?_⟩
    · rw [hmade, Progress.advance, List.append_assoc, List.singleton_append]
    · rw [List.length_cons, hlength]
      omega

/-- Whatever the budget, a report begins with the passes gathered before. -/
theorem passes_prefix_of_fixFrom {remaining : Nat} {report : Report}
    (h : e.fixFrom pass g remaining = .ok report) : g.passes <+: report.passes := by
  obtain ⟨last, final, hsteps, hends⟩ := steps_of_fixFrom h
  obtain ⟨made, hmade, _⟩ := hsteps.exists_passes
  have hreport : report.passes = final.passes := by
    cases hends with
    | converged => rfl
    | spent => rfl
  exact ⟨made, by rw [hreport, hmade]⟩

/-- That a run makes no pass behind this one: it fails, or it changes nothing. -/
def Stops (e : Engine) (pass : Nat) (g : Progress) : Prop :=
  ∀ p, e.runPass pass g.text = .ok p → p.commit.changed = false

/-- Where a run stops, it does not matter how many passes it might still make. -/
theorem Stops.fixFrom_eq (h : e.Stops pass g) (n m : Nat) :
    e.fixFrom pass g (n + 1) = e.fixFrom pass g (m + 1) := by
  rw [fixFrom, fixFrom]
  cases hpass : e.runPass pass g.text with
  | error cause => rfl
  | ok p =>
    have hunchanged : ¬ p.commit.changed = true := Bool.eq_false_iff.mp (h p hpass)
    exact (if_neg hunchanged).trans (if_neg hunchanged).symm

/-- A run makes passes that change the text until it stops or its budget is spent. -/
theorem exists_stop (e : Engine) (pass : Nat) (g : Progress) (remaining : Nat) :
    ∃ last final, e.Steps pass g last final ∧
      (last = pass + remaining ∨ last < pass + remaining ∧ e.Stops last final) := by
  induction remaining generalizing pass g with
  | zero => exact ⟨pass, g, .refl pass g, .inl rfl⟩
  | succ remaining ih =>
    by_cases hstops : e.Stops pass g
    · exact ⟨pass, g, .refl pass g, .inr ⟨by omega, hstops⟩⟩
    · simp only [Stops, not_forall, Bool.not_eq_false] at hstops
      obtain ⟨p, hpass, hchanged⟩ := hstops
      obtain ⟨last, final, hsteps, hlast⟩ := ih (pass + 1) (g.advance pass p)
      refine ⟨last, final, .step hpass hchanged hsteps, ?_⟩
      rw [Nat.add_assoc, Nat.add_comm 1] at hlast
      exact hlast

/-- A run whose budget is spent ends with an error exactly if its text has no tokens. -/
theorem fixFrom_zero_eq_error_iff {error : RunError} :
    e.fixFrom pass g 0 = .error error ↔ e.tokenize pass g.text = .error error := by
  rw [fixFrom]
  cases e.tokenize pass g.text with
  | error cause => simp [bind, Except.bind]
  | ok store => simp [bind, Except.bind]

/-- Where the text has no tokens, a run fails whatever is left of its budget. -/
theorem fixFrom_of_tokenize_error {error : RunError} (h : e.tokenize pass g.text = .error error)
    (remaining : Nat) : e.fixFrom pass g remaining = .error error := by
  cases remaining with
  | zero => exact fixFrom_zero_eq_error_iff.mpr h
  | succ remaining =>
    rw [fixFrom, runPass, h]
    rfl

/-- With its budget spent, a run reports that it did not converge. -/
theorem outcome_of_fixFrom_zero {report : Report} (h : e.fixFrom pass g 0 = .ok report) :
    report.outcome = .didNotConverge (pass - 1) ∧ report.passes = g.passes := by
  obtain ⟨store, _, hreport⟩ := bind_eq_ok_iff.mp h
  cases hreport
  exact ⟨rfl, rfl⟩

/-- Where a run stops, it converges if it does not fail. -/
theorem Stops.outcome (h : e.Stops pass g) {remaining : Nat} {report : Report}
    (hreport : e.fixFrom pass g (remaining + 1) = .ok report) :
    report.outcome = .converged pass := by
  obtain ⟨p, hpass, hok⟩ := bind_eq_ok_iff.mp hreport
  rw [h p hpass, if_neg Bool.false_ne_true] at hok
  cases hok
  rfl

/-- Of two runs over a text, let one have the larger budget. If the other converges or fails, both
end alike: with the same report, or with the same error at the same pass. If it uses its budget up,
it has made as many passes, and they are the first that the longer run reports. -/
theorem fix_of_larger_budget (tokenizer : Tokenizer) (rules : List Rule) (source : String)
    {budget larger : Nat} (hle : budget ≤ larger) :
    let engine := ofRules tokenizer rules
    (∀ report passes, engine.fix budget source = .ok report → report.outcome = .converged passes →
      engine.fix larger source = .ok report) ∧
    (∀ error, engine.fix budget source = .error error → engine.fix larger source = .error error) ∧
    ∀ report passes, engine.fix budget source = .ok report →
    report.outcome = .didNotConverge passes →
      passes = max budget 1 ∧ report.passes.length = passes ∧
        ∀ longer, engine.fix larger source = .ok longer → report.passes <+: longer.passes := by
  intro engine
  obtain ⟨last, final, hsteps, hlast⟩ := exists_stop engine 1 { text := source } (max budget 1)
  obtain ⟨hfirst, hrest⟩ := hsteps.fixFrom_eq
  obtain ⟨made, hmade, hlength⟩ := hsteps.exists_passes
  -- both runs make the passes up to the one at which the shorter run ends
  have hfix (n : Nat) (hn : last ≤ 1 + max n 1) :
      engine.fix n source = engine.fixFrom last final (1 + max n 1 - last) := by
    rw [fix, ← hrest]
    congr 1
    omega
  have hshort := hfix budget (by omega)
  have hlong := hfix larger (by omega)
  rcases hlast with hspent | ⟨hlt, hstops⟩
  · have hnone : 1 + max budget 1 - last = 0 := by omega
    rw [hnone] at hshort
    rw [hshort, hlong]
    refine ⟨fun report passes hreport houtcome => ?_, fun error herror => ?_,
      fun report passes hreport houtcome => ?_⟩
    · cases (outcome_of_fixFrom_zero hreport).1.symm.trans houtcome
    · exact fixFrom_of_tokenize_error (fixFrom_zero_eq_error_iff.mp herror) _
    · obtain ⟨hspentOutcome, hpasses⟩ := outcome_of_fixFrom_zero hreport
      cases hspentOutcome.symm.trans houtcome
      rw [hpasses]
      refine ⟨by omega, ?_, fun longer hlonger => passes_prefix_of_fixFrom hlonger⟩
      rw [hmade, List.nil_append, hlength]
  · obtain ⟨n, hn⟩ : ∃ n, 1 + max budget 1 - last = n + 1 := ⟨max budget 1 - last, by omega⟩
    obtain ⟨m, hm⟩ : ∃ m, 1 + max larger 1 - last = m + 1 := ⟨max larger 1 - last, by omega⟩
    rw [hn] at hshort
    rw [hm, hstops.fixFrom_eq m n, ← hshort] at hlong
    rw [hlong]
    refine ⟨fun report passes hreport _ => hreport, fun error herror => herror,
      fun report passes hreport houtcome => ?_⟩
    cases (hstops.outcome (hshort.symm.trans hreport)).symm.trans houtcome

/-- A run of two passes that would have needed a third one, and the run that has it. -/
theorem fix_of_larger_budget_spent :
    let rule : Rule := ⟨"Rule", "", [.inlineHtml], .anywhere fun file i =>
      if file.store.text i = "a" then
        [{ code := "First", index := i, message := "", fix := some [.replace i "b"] }]
      else if file.store.text i = "b" then
        [{ code := "Second", index := i, message := "", fix := some [.append i "c"] }]
      else []⟩
    let engine := ofRules .whole [rule]
    ∃ report longer, 2 ≤ 3 ∧ engine.fix 2 "a" = .ok report ∧ report.outcome = .didNotConverge 2 ∧
      report.passes.length = 2 ∧ engine.fix 3 "a" = .ok longer ∧ longer.outcome = .converged 3 ∧
      longer.source = "bc" ∧ report.passes <+: longer.passes := by
  intro rule engine
  have hspent : engine.fix 2 "a" = .ok {
      outcome := .didNotConverge 2
      source := "bc"
      diagnostics := []
      fixes := [("Rule.First", 1), ("Rule.Second", 1)]
      passes := [
        ⟨1, 1, 1, [], [], [("Rule.First", 1)]⟩,
        ⟨2, 1, 1, [], [], [("Rule.Second", 1)]⟩] } := by
    unfold engine rule
    decide +kernel
  have hlonger : engine.fix 3 "a" = .ok {
      outcome := .converged 3
      source := "bc"
      diagnostics := []
      fixes := [("Rule.First", 1), ("Rule.Second", 1)]
      passes := [
        ⟨1, 1, 1, [], [], [("Rule.First", 1)]⟩,
        ⟨2, 1, 1, [], [], [("Rule.Second", 1)]⟩] } := by
    unfold engine rule
    decide +kernel
  obtain ⟨_, _, hprefix⟩ := fix_of_larger_budget .whole [rule] "a" (show 2 ≤ 3 by decide)
  obtain ⟨_, hlength, hbegin⟩ := hprefix _ _ hspent rfl
  exact ⟨_, _, by decide, hspent, rfl, hlength, hlonger, rfl, rfl, hbegin _ hlonger⟩

end PhpStyle.Engine
