import PhpStyle.Proofs.Run.Rejections

/-!
# What a check finds after a run

A run and a check look at a text in the same way. So the diagnostics of a run begin with those of a
check of its final text, and only what is said of the fixes may differ: a check tries none, and the
last pass of a run that converged has tried them all. Whatever a report shows is still to be done,
and it says whether there is a fix.
-/

namespace PhpStyle

namespace Diagnostic

/-- Two diagnostics agree in everything but what became of the fix. -/
def Agrees (d c : Diagnostic) : Prop := d = { c with status := d.status }

/-- The fix of a finding is still to be made, or there is none, as the status says. -/
def IsLeft (d : Diagnostic) : Prop := d.status ≠ .applied ∧
    (d.fixable = true ↔ d.status ≠ .notFixable)

end Diagnostic

namespace Finding

/-- Diagnostics of one finding agree but for their status. -/
theorem agrees_detach (f : Finding) (store : Store) (status other : FixStatus) :
    (f.detach store status).Agrees (f.detach store other) := rfl

/-- A finding is left if its status is that of a fix not made, and tells whether it has one. -/
theorem isLeft_detach {f : Finding} {status : FixStatus} (store : Store)
    (happlied : status ≠ .applied) (hfix : f.fix = none ↔ status = .notFixable) :
    (f.detach store status).IsLeft := by
  constructor
  · exact happlied
  · change f.fix.isSome = true ↔ status ≠ .notFixable
    rw [Option.isSome_iff_ne_none]
    exact not_congr hfix

end Finding

namespace Engine

variable {e : Engine} {pass last : Nat} {text : String} {g final : Progress} {p : Pass}

/-- A finding is told to have no fix exactly if it has none. -/
theorem fix_eq_none_iff_of_judged (h : e.runPass pass text = .ok p) {j : Finding × FixStatus}
    (hj : j ∈ p.judged) : j.1.fix = none ↔ j.2 = .notFixable := by
  obtain ⟨f, status⟩ := j
  obtain ⟨store, commit, _, _, _, rfl⟩ := runPass_eq_ok_iff.mp h
  rcases Session.status_cases hj with ⟨hnone, rfl⟩ | ⟨⟨c, hc⟩, rfl | rfl | rfl⟩
  · simp [hnone]
  · simp [hc]
  · simp [hc]
  · simp [hc]

/-- What a sweep without fixes shows is left. -/
theorem isLeft_of_mem_diagnostics {store : Store} : ∀ d ∈ e.diagnostics store, d.IsLeft := by
  intro d hd
  obtain ⟨f, _, rfl⟩ := List.mem_map.mp hd
  cases hfix : f.fix with
  | none => apply Finding.isLeft_detach <;> simp [untried, Finding.fixable, hfix]
  | some c => apply Finding.isLeft_detach <;> simp [untried, Finding.fixable, hfix]

/-- A pass that changes nothing leaves all that it found. -/
theorem isLeft_of_mem_settled (h : e.runPass pass text = .ok p) : ∀ d ∈ p.settled, d.IsLeft := by
  intro d hd
  obtain ⟨⟨f, status⟩, hj, rfl⟩ := List.mem_map.mp hd
  apply Finding.isLeft_detach
  · cases status <;> simp
  · rw [fix_eq_none_iff_of_judged h hj]
    cases status <;> simp

/-- What a pass turned down is left. -/
theorem isLeft_of_mem_withStatus (h : e.runPass pass text = .ok p) {status : FixStatus}
    (happlied : status ≠ .applied) : ∀ d ∈ p.withStatus status, d.IsLeft := by
  intro d hd
  obtain ⟨j, hj, rfl⟩ := List.mem_map.mp hd
  obtain ⟨hjudged, hstatus⟩ := List.mem_filter.mp hj
  obtain rfl : j.2 = status := of_decide_eq_true hstatus
  exact Finding.isLeft_detach p.store happlied (fix_eq_none_iff_of_judged h hjudged)

/-- What holds of elements known and of elements new holds of all that is gathered. -/
theorem forall_mem_foldl_addNew {α : Type} {same : α → α → Bool} {P : α → Prop} {known new : List α}
    (hknown : ∀ a ∈ known, P a) (hnew : ∀ a ∈ new, P a) :
    ∀ a ∈ new.foldl (addNew same) known, P a := by
  obtain ⟨rest, hrest, hsub⟩ := exists_foldl_addNew same known new
  rw [hrest]
  intro a ha
  rcases List.mem_append.mp ha with ha | ha
  · exact hknown a ha
  · exact hnew a (hsub.mem ha)

/-- What a run has turned down is left, one more pass included. -/
theorem isLeft_of_mem_advance (hpass : e.runPass pass text = .ok p)
    (hg : ∀ d ∈ g.rejected, d.IsLeft) : ∀ d ∈ (g.advance pass p).rejected, d.IsLeft := by
  apply forall_mem_foldl_addNew hg
  intro d hd
  rcases List.mem_append.mp hd with hd | hd
  · exact isLeft_of_mem_withStatus hpass (by decide) d hd
  · exact isLeft_of_mem_withStatus hpass (by decide) d hd

/-- What a run has turned down is left, whatever passes it makes. -/
theorem Steps.isLeft_of_mem_rejected (h : e.Steps pass g last final)
    (hg : ∀ d ∈ g.rejected, d.IsLeft) : ∀ d ∈ final.rejected, d.IsLeft := by
  induction h with
  | refl => exact hg
  | step hpass _ _ ih => exact ih (isLeft_of_mem_advance hpass hg)

/-- The report of a check of a text. -/
theorem check_of_tokenize {store : Store} (h : e.tokenize pass text = .ok store) :
    e.check text =
      .ok { outcome := .checked, source := text, diagnostics := e.diagnostics store } := by
  have hstore : e.tokenize 1 text = .ok store := tokenize_eq_ok_iff.mpr (tokenize_eq_ok_iff.mp h)
  rw [check, hstore]
  rfl

/-- A pass that changes nothing finds what a check finds. -/
theorem agrees_settled (h : e.runPass pass text = .ok p) :
    List.Forall₂ Diagnostic.Agrees p.settled (e.diagnostics p.store) := by
  rw [Pass.settled, diagnostics, ← map_fst_judged h, List.map_map, List.forall₂_map_left_iff,
    List.forall₂_map_right_iff, List.forall₂_same]
  intro j _
  exact j.1.agrees_detach p.store _ _

/-- The last look of a run at its text is a check, up to what became of the fixes. -/
theorem Ends.exists_check {report : Report} (h : e.Ends pass g report) :
    ∃ checked shown, e.check report.source = .ok checked ∧
      report.diagnostics = g.rejected.foldl (addNew Diagnostic.sameProblem) shown ∧
      List.Forall₂ Diagnostic.Agrees shown checked.diagnostics ∧ (∀ d ∈ shown, d.IsLeft) ∧
      ∀ passes, report.outcome = .didNotConverge passes → shown = checked.diagnostics := by
  cases h with
  | spent hstore =>
    refine ⟨_, _, check_of_tokenize hstore, rfl, ?_, isLeft_of_mem_diagnostics, fun _ _ => rfl⟩
    exact List.forall₂_same.mpr fun d _ => rfl
  | @converged p hpass _ =>
    refine ⟨_, _, check_of_tokenize (tokenize_of_runPass hpass), rfl, agrees_settled hpass,
      isLeft_of_mem_settled hpass, ?_⟩
    intro passes hspent
    cases hspent

/-- The diagnostics of every run begin with those of a check of its final text, in their order and
each the same but for its status; and with the same status, if the run did not converge. No report
of a run or of a check shows a fix as applied, and it shows a problem as fixable exactly if its
status does not deny it a fix. -/
theorem check_begins_run (tokenizer : Tokenizer) (rules : List Rule) :
    let engine := ofRules tokenizer rules
    (∀ budget source report, engine.fix budget source = .ok report →
      (∃ checked shown carried, engine.check report.source = .ok checked ∧
        report.diagnostics = shown ++ carried ∧
        List.Forall₂ (fun d c => d = { c with status := d.status }) shown checked.diagnostics ∧
        ∀ passes, report.outcome = .didNotConverge passes → shown = checked.diagnostics) ∧
      ∀ d ∈ report.diagnostics, d.status ≠ .applied ∧ (d.fixable = true ↔ d.status ≠ .notFixable)) ∧
    ∀ text checked, engine.check text = .ok checked →
      ∀ d ∈ checked.diagnostics, d.status ≠ .applied ∧
      (d.fixable = true ↔ d.status ≠ .notFixable) := by
  intro engine
  constructor
  · intro budget source report hfix
    obtain ⟨last, final, hsteps, hends⟩ := steps_of_fixFrom hfix
    have hrejected : ∀ d ∈ final.rejected, d.IsLeft := hsteps.isLeft_of_mem_rejected (by simp)
    obtain ⟨checked, shown, hcheck, hdiagnostics, hagrees, hleft, hspent⟩ := hends.exists_check
    obtain ⟨carried, hcarried, _⟩ := exists_foldl_addNew Diagnostic.sameProblem shown final.rejected
    constructor
    · exact ⟨checked, shown, carried, hcheck, hdiagnostics.trans hcarried, hagrees, hspent⟩
    · rw [hdiagnostics]
      exact forall_mem_foldl_addNew hleft hrejected
  · intro text checked hcheck
    obtain ⟨store, _, hreport⟩ := bind_eq_ok_iff.mp hcheck
    cases hreport
    exact isLeft_of_mem_diagnostics

/-- A run of two passes, and one that stops behind the first. A fix that the first pass turns down
stands at the end of both reports. In front of it stands what a check finds, and the second pass has
tried two fixes of it in vain. -/
theorem check_begins_run_in_vain :
    let rule : Rule := ⟨"Rule", "", [.inlineHtml], .anywhere fun file i =>
      if file.store.text i = "b" then
        [{ code := "Same", index := i, message := "", fix := some [.replace i "b"] },
          { code := "Later", index := i, message := "", fix := some [.delete i] },
          { code := "Plain", index := i, message := "" }]
      else [{ code := "First", index := i, message := "", fix := some [.replace i "b"] },
        { code := "Second", index := i, message := "", fix := some [.delete i] }]⟩
    let engine := ofRules .whole [rule]
    ∃ checked report spent shown carried left, engine.check "b" = .ok checked ∧
      checked.diagnostics.map (·.status) = [.unapplied, .unapplied, .notFixable] ∧
      engine.fix 5 "a" = .ok report ∧ report.source = "b" ∧
      report.diagnostics.map (·.status) = [.unapplied, .conflicted, .notFixable, .conflicted] ∧
      report.diagnostics = shown ++ carried ∧
      List.Forall₂ (fun d c => d = { c with status := d.status }) shown checked.diagnostics ∧
      (∀ d ∈ report.diagnostics,
        d.status ≠ .applied ∧ (d.fixable = true ↔ d.status ≠ .notFixable)) ∧
      engine.fix 1 "a" = .ok spent ∧ spent.outcome = .didNotConverge 1 ∧
      spent.diagnostics = checked.diagnostics ++ left ∧
      ∀ d ∈ checked.diagnostics, d.status ≠ .applied ∧
      (d.fixable = true ↔ d.status ≠ .notFixable) := by
  intro rule engine
  let same : Diagnostic := ⟨"Rule", "Same", .error, 1, 1, "", true, .unapplied⟩
  let later : Diagnostic := ⟨"Rule", "Later", .error, 1, 1, "", true, .unapplied⟩
  let plain : Diagnostic := ⟨"Rule", "Plain", .error, 1, 1, "", false, .notFixable⟩
  let second : Diagnostic := ⟨"Rule", "Second", .error, 1, 1, "", true, .conflicted⟩
  let passes : List PassSummary := [⟨1, 2, 1, [second], [], [("Rule.First", 1)]⟩]
  have hchecked : engine.check "b" = .ok
      { outcome := .checked, source := "b", diagnostics := [same, later, plain] } := by
    unfold engine rule same later plain
    decide +kernel
  have hfix : engine.fix 5 "a" = .ok {
      outcome := .converged 2
      source := "b"
      diagnostics := [same, { later with status := .conflicted }, plain, second]
      fixes := [("Rule.First", 1)]
      passes } := by
    unfold engine rule same later plain second passes
    decide +kernel
  have hspent : engine.fix 1 "a" = .ok {
      outcome := .didNotConverge 1
      source := "b"
      diagnostics := [same, later, plain, second]
      fixes := [("Rule.First", 1)]
      passes } := by
    unfold engine rule same later plain second passes
    decide +kernel
  obtain ⟨hruns, hchecks⟩ := check_begins_run .whole [rule]
  obtain ⟨⟨checked, shown, carried, hcheck, hdiagnostics, hagrees, _⟩, hleft⟩ := hruns 5 "a" _ hfix
  obtain rfl := Except.ok.inj (hchecked.symm.trans hcheck)
  obtain ⟨⟨again, begun, left, hagain, hbegun, _, hstatuses⟩, _⟩ := hruns 1 "a" _ hspent
  obtain rfl := Except.ok.inj (hchecked.symm.trans hagain)
  rw [hstatuses 1 rfl] at hbegun
  exact ⟨_, _, _, shown, carried, left, hchecked, rfl, hfix, rfl, rfl, hdiagnostics, hagrees, hleft,
    hspent, rfl, hbegun, hchecks "b" _ hchecked⟩

end Engine

end PhpStyle
