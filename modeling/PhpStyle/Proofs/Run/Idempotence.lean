import PhpStyle.Proofs.Run.Passes

/-!
# Fixing a text that is fixed

The last pass of a run that converged is the only pass of a run over its result. So that run changes
nothing, and its diagnostics are those that the first run had from its last pass. What the first run
reports behind them was turned down in one of its earlier passes.
-/

namespace PhpStyle.Engine

/-- Elements gathered one after the other stand behind those known, each at most once and in their
order. No two of them count as the same, and none as the same as one known before. -/
theorem exists_foldl_addNew_distinct {α : Type} (same : α → α → Bool) (known new : List α) :
    ∃ rest, new.foldl (addNew same) known = known ++ rest ∧ rest.Sublist new ∧
      (∀ k ∈ known, ∀ r ∈ rest, same k r = false) ∧ rest.Pairwise fun a b => same a b = false := by
  induction new generalizing known with
  | nil => exact ⟨[], by simp, .slnil, by simp, .nil⟩
  | cons a new ih =>
    obtain ⟨rest, hrest, hsub, hknown, hdistinct⟩ := ih (addNew same known a)
    rw [List.foldl_cons, hrest]
    unfold addNew at hknown ⊢
    split at hknown
    · rename_i hany
      exact ⟨rest, by rw [if_pos hany], hsub.cons a, hknown, hdistinct⟩
    · rename_i hany
      rw [if_neg hany, List.append_assoc]
      rw [List.any_eq_true, not_exists] at hany
      refine ⟨a :: rest, rfl, hsub.cons_cons a, fun k hk => ?_,
        .cons (hknown a (by simp)) hdistinct⟩
      have hfirst : same k a = false := Bool.eq_false_iff.mpr fun hsame => hany k ⟨hk, hsame⟩
      exact List.forall_mem_cons.mpr ⟨hfirst, hknown k (List.mem_append_left _ hk)⟩

/-- Gathering new elements keeps the known ones in front and adds some of the new behind. -/
theorem exists_foldl_addNew {α : Type} (same : α → α → Bool) (known new : List α) :
    ∃ rest, new.foldl (addNew same) known = known ++ rest ∧ rest.Sublist new := by
  obtain ⟨rest, hrest, hsub, _⟩ := exists_foldl_addNew_distinct same known new
  exact ⟨rest, hrest, hsub⟩

/-- Findings whose fix was turned down, pass by pass. -/
def turnedDown (passes : List PassSummary) : List Diagnostic :=
  passes.flatMap fun p => p.conflicted ++ p.malformed

/-- What is turned down in one more pass comes behind what was turned down before. -/
theorem turnedDown_append_singleton (passes : List PassSummary) (p : PassSummary) :
    turnedDown (passes ++ [p]) = turnedDown passes ++ (p.conflicted ++ p.malformed) := by
  simp [turnedDown]

/-- The status of a finding whose fix was turned down. -/
def IsTurnedDown (d : Diagnostic) : Prop := d.status = .conflicted ∨ d.status = .malformed

/-- The findings of a status are shown with it. -/
theorem Pass.status_of_mem_withStatus {p : Pass} {status : FixStatus} :
    ∀ d ∈ p.withStatus status, d.status = status := by
  intro d hd
  obtain ⟨j, hj, rfl⟩ := List.mem_map.mp hd
  exact of_decide_eq_true (List.mem_filter.mp hj).2

/-- What a run keeps of rejected findings was turned down in a pass that it keeps a summary of. -/
structure Progress.Accounts (g : Progress) : Prop where
  rejected : g.rejected.Sublist (turnedDown g.passes)
  status : ∀ d ∈ turnedDown g.passes, IsTurnedDown d

/-- What a run has gathered accounts for its passes, with one more as without. -/
theorem Progress.Accounts.advance {g : Progress} (h : g.Accounts) (pass : Nat) (p : Pass) :
    (g.advance pass p).Accounts where
  rejected := by
    obtain ⟨rest, hrest, hsub⟩ := exists_foldl_addNew Diagnostic.sameProblem g.rejected
      (p.withStatus .conflicted ++ p.withStatus .malformed)
    change (List.foldl _ g.rejected _).Sublist (turnedDown (g.passes ++ [p.summary pass]))
    rw [turnedDown_append_singleton]
    exact hrest ▸ h.rejected.append hsub
  status := by
    intro d hd
    change d ∈ turnedDown (g.passes ++ [p.summary pass]) at hd
    rw [turnedDown_append_singleton, List.mem_append, List.mem_append] at hd
    rcases hd with hd | hd | hd
    · exact h.status d hd
    · exact .inl (Pass.status_of_mem_withStatus d hd)
    · exact .inr (Pass.status_of_mem_withStatus d hd)

/-- Every run keeps account of the findings it rejects. -/
theorem Steps.accounts {e : Engine} {pass last : Nat} {g final : Progress}
    (h : e.Steps pass g last final) (hg : g.Accounts) : final.Accounts := by
  induction h with
  | refl => exact hg
  | step _ _ _ ih => exact ih (hg.advance _ _)

/-- A run over the result of a run that converged, whatever the budgets, converges in one pass
without change. Its diagnostics begin those of the first run, and the others were turned down in
passes of the first run. -/
theorem fix_of_converged {tokenizer : Tokenizer} {rules : List Rule} {budget passes : Nat}
    {source : String} {report : Report}
    (hfix : (ofRules tokenizer rules).fix budget source = .ok report)
    (hconverged : report.outcome = .converged passes) (other : Nat) :
    ∃ again rest, (ofRules tokenizer rules).fix other report.source = .ok again ∧
      again.outcome = .converged 1 ∧ again.source = report.source ∧
      again.passes = [] ∧ again.fixes = [] ∧
      report.diagnostics = again.diagnostics ++ rest ∧
      rest.Sublist (turnedDown report.passes) ∧ ∀ d ∈ rest, IsTurnedDown d := by
  obtain ⟨last, final, hsteps, hends⟩ := steps_of_fixFrom hfix
  have haccounts : final.Accounts := hsteps.accounts ⟨.slnil, by simp [turnedDown]⟩
  cases hends with
  | spent => cases hconverged
  | @converged p hpass hchanged =>
    obtain ⟨rest, hrest, hsub⟩ :=
      exists_foldl_addNew Diagnostic.sameProblem p.settled final.rejected
    have hsublist := hsub.trans haccounts.rejected
    exact ⟨_, rest, fix_of_unchanged hpass hchanged other, rfl, rfl, rfl, rfl, hrest, hsublist,
      fun d hd => haccounts.status d (hsublist.mem hd)⟩

/-- A run of two passes that reports a fix turned down in the first, and the run over its result. -/
theorem fix_of_converged_carrying :
    let tokenizer : Tokenizer := fun text =>
      match Store.build? [⟨.inlineHtml, text⟩] {} with
      | .error cause => .error (.badStructure cause)
      | .ok store => .ok store
    let rule : Rule := ⟨"Rule", "", [.inlineHtml], .anywhere fun file i =>
      if file.store.text i = "b" then []
      else [{ code := "First", index := i, message := "", fix := some [.replace i "b"] },
        { code := "Second", index := i, message := "", fix := some [.delete i] }]⟩
    let carried : Diagnostic := ⟨"Rule", "Second", .error, 1, 1, "", true, .conflicted⟩
    ∃ report again rest, (ofRules tokenizer [rule]).fix 5 "a" = .ok report ∧
      report.outcome = .converged 2 ∧ report.source = "b" ∧ report.diagnostics = [carried] ∧
      (ofRules tokenizer [rule]).fix 0 "b" = .ok again ∧ again.outcome = .converged 1 ∧
      [carried] = again.diagnostics ++ rest := by
  intro tokenizer rule carried
  have hfix : (ofRules tokenizer [rule]).fix 5 "a" = .ok {
      outcome := .converged 2
      source := "b"
      diagnostics := [carried]
      fixes := [("Rule.First", 1)]
      passes := [⟨1, 2, 1, [carried], [], [("Rule.First", 1)]⟩] } := by
    unfold tokenizer rule carried
    decide +kernel
  obtain ⟨again, rest, hagain, hone, _, _, _, hrest, _⟩ := fix_of_converged hfix rfl 0
  exact ⟨_, again, rest, hfix, rfl, rfl, rfl, hagain, hone, hrest⟩

end PhpStyle.Engine
