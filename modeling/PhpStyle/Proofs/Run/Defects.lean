import PhpStyle.Proofs.Run.Idempotence

/-!
# Runs without defects

A fix is malformed if it edits a token twice, and nothing else is a defect. If no finding of an
engine has such a fix, none of its sessions answers that a fix is malformed, no pass has a defect,
and no run reports either.
-/

namespace PhpStyle

/-- The fix of a finding, if it has one, edits no token twice. -/
def Finding.EditsOnce (f : Finding) : Prop :=
  ∀ c, f.fix = some c → c.targets.Nodup

/-- Whatever the rules of an engine find in its stores edits no token twice. -/
def Engine.EditsOnce (e : Engine) : Prop :=
  ∀ text store, e.tokenizer text = .ok store → ∀ f ∈ e.findings store, f.EditsOnce

/-- A report that speaks of no malformed fix. -/
structure Report.Spotless (r : Report) : Prop where
  defects : r.defects = []
  diagnostics : ∀ d ∈ r.diagnostics, d.status ≠ .malformed
  passes : ∀ p ∈ r.passes, p.malformed = []

namespace Session

/-- The offer of a fix that edits no token twice is not answered by a defect. -/
theorem propose_editsOnce (s : Session) {f : Finding} (h : f.EditsOnce) :
    (s.propose f).1 ≠ .malformed ∧ (s.propose f).2.defects = s.defects := by
  rcases s.propose_cases f with
    ⟨_, hpropose⟩ | ⟨c, hfix, ⟨i, htwice, _⟩ | ⟨_, _, hpropose⟩ | ⟨_, _, hpropose⟩⟩
  · simp [hpropose]
  · rw [c.editedTwice?_eq_none_iff.mpr (h c hfix)] at htwice
    cases htwice
  · simp [hpropose]
  · simp [hpropose]

/-- Findings that edit each token once are never malformed, and leave no defect. -/
theorem proposeAll_editsOnce (s : Session) {findings : List Finding}
    (h : ∀ f ∈ findings, f.EditsOnce) :
    (∀ status ∈ (s.proposeAll findings).1, status ≠ .malformed) ∧
      (s.proposeAll findings).2.defects = s.defects := by
  induction findings generalizing s with
  | nil => simp [proposeAll]
  | cons f rest ih =>
    obtain ⟨hfirst, hrest⟩ := List.forall_mem_cons.mp h
    obtain ⟨hstatus, hdefects⟩ := s.propose_editsOnce hfirst
    obtain ⟨hstatuses, hrest⟩ := ih (s.propose f).2 hrest
    exact ⟨List.forall_mem_cons.mpr ⟨hstatus, hstatuses⟩, hrest.trans hdefects⟩

end Session

namespace Engine

variable {e : Engine}

/-- What a run has gathered speaks of no malformed fix. -/
structure Progress.Spotless (g : Progress) : Prop where
  defects : g.defects = []
  rejected : ∀ d ∈ g.rejected, d.status ≠ .malformed
  passes : ∀ p ∈ g.passes, p.malformed = []

/-- A pass without malformed fixes. -/
structure Pass.Spotless (p : Pass) : Prop where
  defects : p.defects = []
  judged : ∀ j ∈ p.judged, j.2 ≠ .malformed

/-- A pass of rules that edit each token once leaves no defect. -/
theorem EditsOnce.pass (h : e.EditsOnce) {pass : Nat} {text : String} {p : Pass}
    (hpass : e.runPass pass text = .ok p) : p.Spotless := by
  obtain ⟨store, commit, hstore, _, _, rfl⟩ := runPass_eq_ok_iff.mp hpass
  obtain ⟨hstatuses, hdefects⟩ :=
    (Session.blank store).proposeAll_editsOnce (h text store hstore)
  exact ⟨hdefects, fun j hj => hstatuses j.2 (List.of_mem_zip hj).2⟩

namespace Pass.Spotless

variable {p : Pass} (h : p.Spotless)

include h

/-- A spotless pass has no malformed findings to show. -/
theorem withStatus_malformed : p.withStatus .malformed = [] := by
  rw [Pass.withStatus, List.map_eq_nil_iff, List.filter_eq_nil_iff]
  intro j hj
  simpa using h.judged j hj

/-- A spotless pass that changes nothing shows no malformed findings. -/
theorem settled : ∀ d ∈ p.settled, d.status ≠ .malformed := by
  intro d hd
  obtain ⟨j, hj, rfl⟩ := List.mem_map.mp hd
  have hjudged := h.judged j hj
  dsimp only [Finding.detach]
  split
  · simp
  · exact hjudged

/-- A pass without malformed fixes adds none to what was gathered. -/
theorem advance {g : Progress} (hg : g.Spotless) (pass : Nat) : (g.advance pass p).Spotless where
  defects := by
    change p.defects.foldl (addNew (· == ·)) g.defects = []
    rw [h.defects, hg.defects]
    rfl
  rejected := by
    intro d hd
    change d ∈ (p.withStatus .conflicted ++ p.withStatus .malformed).foldl
      (addNew Diagnostic.sameProblem) g.rejected at hd
    rw [h.withStatus_malformed, List.append_nil] at hd
    obtain ⟨rest, hrest, hsub⟩ := exists_foldl_addNew Diagnostic.sameProblem g.rejected
      (p.withStatus .conflicted)
    rw [hrest] at hd
    rcases List.mem_append.mp hd with hd | hd
    · exact hg.rejected d hd
    · rw [Pass.status_of_mem_withStatus d (hsub.mem hd)]
      simp
  passes := by
    intro q hq
    change q ∈ g.passes ++ [p.summary pass] at hq
    rcases List.mem_append.mp hq with hq | hq
    · exact hg.passes q hq
    · rw [List.mem_singleton.mp hq]
      exact h.withStatus_malformed

end Pass.Spotless

/-- Rules that edit each token once keep a run spotless from pass to pass. -/
theorem Steps.spotless (he : e.EditsOnce) {pass last : Nat} {g final : Progress}
    (h : e.Steps pass g last final) (hg : g.Spotless) : final.Spotless := by
  induction h with
  | refl => exact hg
  | step hpass _ _ ih => exact ih ((he.pass hpass).advance hg _)

/-- A spotless run gives a spotless report. -/
theorem Progress.Spotless.report {g : Progress} (h : g.Spotless) (outcome : Outcome)
    {last : List Diagnostic} (hlast : ∀ d ∈ last, d.status ≠ .malformed) {defects : List Defect}
    (hdefects : defects = []) : (g.report outcome last defects).Spotless where
  defects := hdefects
  diagnostics := by
    intro d hd
    change d ∈ g.rejected.foldl (addNew Diagnostic.sameProblem) last at hd
    obtain ⟨rest, hrest, hsub⟩ := exists_foldl_addNew Diagnostic.sameProblem last g.rejected
    rw [hrest] at hd
    rcases List.mem_append.mp hd with hd | hd
    · exact hlast d hd
    · exact h.rejected d (hsub.mem hd)
  passes := h.passes

/-- A fix that is not tried is not malformed. -/
theorem status_of_mem_diagnostics {store : Store} :
    ∀ d ∈ e.diagnostics store, d.status ≠ .malformed := by
  intro d hd
  obtain ⟨f, _, rfl⟩ := List.mem_map.mp hd
  dsimp only [Finding.detach, untried]
  split <;> simp

/-- A check reports no malformed fix. -/
theorem spotless_of_check {text : String} {report : Report} (h : e.check text = .ok report) :
    report.Spotless := by
  obtain ⟨store, _, hreport⟩ := bind_eq_ok_iff.mp h
  cases hreport
  exact ⟨rfl, status_of_mem_diagnostics, by simp⟩

/-- An engine whose fixes edit no token twice reports no malformed fix. -/
theorem EditsOnce.spotless_of_fix (he : e.EditsOnce) {budget : Nat} {text : String}
    {report : Report} (h : e.fix budget text = .ok report) : report.Spotless := by
  obtain ⟨last, final, hsteps, hends⟩ := steps_of_fixFrom h
  have hfinal : final.Spotless := hsteps.spotless he ⟨rfl, by simp, by simp⟩
  cases hends with
  | spent => exact hfinal.report _ status_of_mem_diagnostics hfinal.defects
  | converged hpass =>
    have hp := he.pass hpass
    refine hfinal.report _ hp.settled ?_
    rw [hp.defects, hfinal.defects]
    rfl

end Engine

end PhpStyle
