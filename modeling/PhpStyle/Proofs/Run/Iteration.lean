import Mathlib.Dynamics.FixedPoints.Basic
import PhpStyle.Proofs.Run.Passes

/-!
# Runs as iterated passes

What a pass makes of a text depends on the text alone, so a run applies one function again and
again. It converges exactly if a text that the function does not change is reached within the
budget. If the texts come back to one that is changed, no budget is large enough.
-/

namespace PhpStyle

open Function (IsFixedPt)

/-- A commit says that it changed the text if it did. -/
theorem Session.changed_of_commit {s : Session} {commit : Commit} (h : s.commit = .ok commit) :
    commit.changed = (commit.source != s.store.source) := by
  unfold Session.commit at h
  dsimp only at h
  split at h
  · cases h
  · cases h
    rfl

/-- A point that comes back to itself and meets a fixed point on its way is that fixed point. -/
theorem isFixedPt_of_cycle {α : Type} {f : α → α} {x : α} {period n : Nat} (hperiod : 0 < period)
    (hcycle : f^[period] x = x) (hfixed : IsFixedPt f (f^[n] x)) : IsFixedPt f x := by
  have hreturn : f^[period * n] x = x := by
    rw [Function.iterate_mul]
    exact Function.iterate_fixed hcycle n
  have hle : n ≤ period * n := Nat.le_mul_of_pos_left n hperiod
  have hstay : f^[period * n] x = f^[n] x := by
    obtain ⟨k, hk⟩ : ∃ k, period * n = k + n := ⟨period * n - n, by omega⟩
    rw [hk, Function.iterate_add_apply]
    exact hfixed.iterate k
  rw [← hreturn, hstay]
  exact hfixed

namespace Engine

variable {e : Engine}

/-- The text that one pass makes of a text. A text over which no pass succeeds stays as it is. -/
def afterPass (e : Engine) (text : String) : String :=
  match e.runPass 1 text with
  | .ok p => p.commit.source
  | .error _ => text

/-- The text that a pass makes is the one it commits, whatever its number. -/
theorem afterPass_of_runPass {pass : Nat} {text : String} {p : Pass}
    (h : e.runPass pass text = .ok p) : e.afterPass text = p.commit.source := by
  rw [afterPass, runPass_renumber h 1]

/-- A pass says that it changed its text exactly if it did. -/
theorem changed_iff_of_runPass {pass : Nat} {text : String} {p : Pass}
    (h : e.runPass pass text = .ok p) : p.commit.changed = true ↔ ¬ IsFixedPt e.afterPass text := by
  change _ ↔ ¬ e.afterPass text = text
  rw [afterPass_of_runPass h]
  obtain ⟨store, commit, _, rfl, hcommit, rfl⟩ := runPass_eq_ok_iff.mp h
  have hchanged := Session.changed_of_commit hcommit
  rw [Session.proposeAll_store] at hchanged
  simp only [passOver, hchanged, Session.blank, bne_iff_ne, ne_eq]

/-- How a run of up to `remaining` passes ends, the first of them with a given number: with the
first pass that changes nothing, or changing the text in every pass. -/
theorem outcome_of_fixFrom {pass remaining : Nat} {g : Progress} {report : Report}
    (hpass : 0 < pass) (h : e.fixFrom pass g remaining = .ok report) :
    (∃ n < remaining, IsFixedPt e.afterPass (e.afterPass^[n] g.text) ∧
      (∀ m < n, ¬ IsFixedPt e.afterPass (e.afterPass^[m] g.text)) ∧
      report.outcome = .converged (pass + n) ∧ report.source = e.afterPass^[n] g.text) ∨
    ((∀ n < remaining, ¬ IsFixedPt e.afterPass (e.afterPass^[n] g.text)) ∧
      report.outcome = .didNotConverge (pass + remaining - 1) ∧
      report.source = e.afterPass^[remaining] g.text) := by
  induction remaining generalizing pass g with
  | zero =>
    obtain ⟨store, _, hreport⟩ := bind_eq_ok_iff.mp h
    cases hreport
    exact .inr ⟨by simp, rfl, rfl⟩
  | succ remaining ih =>
    obtain ⟨p, hrun, hreport⟩ := bind_eq_ok_iff.mp h
    have hchanged := changed_iff_of_runPass hrun
    split at hreport
    · rename_i hc
      have hfirst := hchanged.mp hc
      have htext : (g.advance pass p).text = e.afterPass g.text := (afterPass_of_runPass hrun).symm
      have hnumber (n : Nat) : pass + 1 + n = pass + (n + 1) := by omega
      have hmoves {k : Nat}
          (hrest : ∀ m < k, ¬ IsFixedPt e.afterPass (e.afterPass^[m] (e.afterPass g.text))) :
          ∀ m < k + 1, ¬ IsFixedPt e.afterPass (e.afterPass^[m] g.text) := by
        intro m hm
        cases m with
        | zero => exact hfirst
        | succ m => exact hrest m (by omega)
      rcases ih (Nat.succ_pos pass) hreport with
        ⟨n, hn, hfixed, hrest, houtcome, hsource⟩ | ⟨hrest, houtcome, hsource⟩
      · rw [htext] at hfixed hrest hsource
        exact .inl ⟨n + 1, by omega, hfixed, hmoves hrest, hnumber n ▸ houtcome, hsource⟩
      · rw [htext] at hrest hsource
        exact .inr ⟨hmoves hrest, hnumber remaining ▸ houtcome, hsource⟩
    · rename_i hc
      cases hreport
      have hfixed : IsFixedPt e.afterPass g.text := by
        by_contra hnot
        exact hc (hchanged.mpr hnot)
      exact .inl ⟨0, by omega, hfixed, by simp, rfl, rfl⟩

/-- How a run ends: with the first pass that changes nothing, or with the budget. -/
theorem outcome_of_fix {budget : Nat} {source : String} {report : Report}
    (h : e.fix budget source = .ok report) :
    (∃ n < max budget 1, IsFixedPt e.afterPass (e.afterPass^[n] source) ∧
      (∀ m < n, ¬ IsFixedPt e.afterPass (e.afterPass^[m] source)) ∧
      report.outcome = .converged (n + 1) ∧ report.source = e.afterPass^[n] source) ∨
    ((∀ n < max budget 1, ¬ IsFixedPt e.afterPass (e.afterPass^[n] source)) ∧
      report.outcome = .didNotConverge (max budget 1) ∧
      report.source = e.afterPass^[max budget 1] source) := by
  rcases outcome_of_fixFrom Nat.one_pos h with
    ⟨n, hn, hfixed, hrest, houtcome, hsource⟩ | ⟨hall, houtcome, hsource⟩
  · exact .inl ⟨n, hn, hfixed, hrest, Nat.add_comm 1 n ▸ houtcome, hsource⟩
  · exact .inr ⟨hall, by simpa using houtcome, hsource⟩

/-- The final text of a run is that behind all of its passes. -/
theorem source_of_fix {budget : Nat} {source : String} {report : Report}
    (h : e.fix budget source = .ok report) :
    report.source = e.afterPass^[report.outcome.passes] source := by
  rcases outcome_of_fix h with ⟨n, _, hfixed, _, houtcome, hsource⟩ | ⟨_, houtcome, hsource⟩
  · rw [houtcome, hsource, Outcome.passes, Function.iterate_succ_apply', hfixed]
  · rw [houtcome, hsource, Outcome.passes]

/-- Every run makes a pass. -/
theorem passes_pos_of_fix {budget : Nat} {source : String} {report : Report}
    (h : e.fix budget source = .ok report) : 0 < report.outcome.passes := by
  rcases outcome_of_fix h with ⟨n, _, _, _, houtcome, _⟩ | ⟨_, houtcome, _⟩
  · rw [houtcome, Outcome.passes]
    exact Nat.succ_pos n
  · rw [houtcome, Outcome.passes]
    omega

/-- A run whose first pass leads to a text that passes do not change ends with that text. -/
theorem source_of_fix_of_isFixedPt {budget : Nat} {source : String} {report : Report}
    (h : e.fix budget source = .ok report) (hfixed : IsFixedPt e.afterPass (e.afterPass source)) :
    report.source = e.afterPass source := by
  obtain ⟨n, hn⟩ : ∃ n, report.outcome.passes = n + 1 :=
    ⟨report.outcome.passes - 1, by have := passes_pos_of_fix h; omega⟩
  rw [source_of_fix h, hn, Function.iterate_succ_apply]
  exact hfixed.iterate n

/-- A run converges with the first pass that changes nothing, if that lies within the budget. -/
theorem converged_iff_of_fix {budget : Nat} {source : String} {report : Report}
    (h : e.fix budget source = .ok report) (n : Nat) :
    report.outcome = .converged (n + 1) ↔ n < max budget 1 ∧
      IsFixedPt e.afterPass (e.afterPass^[n] source) ∧
      ∀ m < n, ¬ IsFixedPt e.afterPass (e.afterPass^[m] source) := by
  rcases outcome_of_fix h with ⟨k, hk, hfixed, hrest, houtcome, _⟩ | ⟨hall, houtcome, _⟩
  · simp only [houtcome, Outcome.converged.injEq, Nat.add_right_cancel_iff]
    constructor
    · rintro rfl
      exact ⟨hk, hfixed, hrest⟩
    · rintro ⟨_, hfixed', hrest'⟩
      rcases Nat.lt_trichotomy k n with hlt | heq | hlt
      · exact absurd hfixed (hrest' k hlt)
      · exact heq
      · exact absurd hfixed' (hrest n hlt)
  · simp only [houtcome, reduceCtorEq, false_iff]
    rintro ⟨hn, hfixed, _⟩
    exact hall n hn hfixed

/-- A run uses its budget up exactly if every pass within it changes the text. -/
theorem didNotConverge_iff_of_fix {budget : Nat} {source : String} {report : Report}
    (h : e.fix budget source = .ok report) :
    report.outcome = .didNotConverge (max budget 1) ↔
      ∀ n < max budget 1, ¬ IsFixedPt e.afterPass (e.afterPass^[n] source) := by
  rcases outcome_of_fix h with ⟨n, hn, hfixed, _, houtcome, _⟩ | ⟨hall, houtcome, _⟩
  · simp only [houtcome, reduceCtorEq, false_iff]
    exact fun hall => hall n hn hfixed
  · exact ⟨fun _ => hall, fun _ => houtcome⟩

/-- Texts that come back to one that is changed never settle. -/
theorem not_isFixedPt_of_cycle {source : String} {period n : Nat} (hperiod : 0 < period)
    (hcycle : e.afterPass^[period] (e.afterPass^[n] source) = e.afterPass^[n] source)
    (hchanged : ¬ IsFixedPt e.afterPass (e.afterPass^[n] source)) (m : Nat) :
    ¬ IsFixedPt e.afterPass (e.afterPass^[m] source) := by
  intro hfixed
  rcases Nat.le_total n m with hle | hle
  · obtain ⟨k, rfl⟩ : ∃ k, m = k + n := ⟨m - n, by omega⟩
    rw [Function.iterate_add_apply] at hfixed
    exact hchanged (isFixedPt_of_cycle hperiod hcycle hfixed)
  · obtain ⟨k, rfl⟩ : ∃ k, n = k + m := ⟨n - m, by omega⟩
    rw [Function.iterate_add_apply, hfixed.iterate k] at hchanged
    exact hchanged hfixed

/-- A run over texts that come back to one that is changed uses its budget up. -/
theorem didNotConverge_of_cycle {budget : Nat} {source : String} {report : Report}
    (h : e.fix budget source = .ok report) {period n : Nat} (hperiod : 0 < period)
    (hcycle : e.afterPass^[period] (e.afterPass^[n] source) = e.afterPass^[n] source)
    (hchanged : ¬ IsFixedPt e.afterPass (e.afterPass^[n] source)) :
    report.outcome = .didNotConverge (max budget 1) :=
  (didNotConverge_iff_of_fix h).mpr fun m _ => not_isFixedPt_of_cycle hperiod hcycle hchanged m

/-- How a run over a text ends, told by what passes make of its texts: it converges in a pass
exactly if that is the first pass that changes nothing and lies within the budget, and otherwise it
uses the budget up. If the texts come back to one that is changed, it uses up every budget. -/
structure Concludes (e : Engine) (budget : Nat) (source : String) (outcome : Outcome) : Prop where
  converged_iff (n : Nat) : outcome = .converged (n + 1) ↔ n < max budget 1 ∧
    IsFixedPt e.afterPass (e.afterPass^[n] source) ∧
    ∀ m < n, ¬ IsFixedPt e.afterPass (e.afterPass^[m] source)
  spent_iff : outcome = .didNotConverge (max budget 1) ↔
    ∀ n < max budget 1, ¬ IsFixedPt e.afterPass (e.afterPass^[n] source)
  spent_of_cycle (n period : Nat) : 0 < period →
    e.afterPass^[period] (e.afterPass^[n] source) = e.afterPass^[n] source →
    ¬ IsFixedPt e.afterPass (e.afterPass^[n] source) →
    outcome = .didNotConverge (max budget 1)

/-- Every run ends so, whatever its tokenizer and its rules. -/
theorem concludes_of_fix {budget : Nat} {source : String} {report : Report}
    (h : e.fix budget source = .ok report) : e.Concludes budget source report.outcome where
  converged_iff := converged_iff_of_fix h
  spent_iff := didNotConverge_iff_of_fix h
  spent_of_cycle _ _ := didNotConverge_of_cycle h

/-- A pass of a run over a text, counted from zero. -/
def IsPass (e : Engine) (source : String) (n : Nat) (p : Pass) : Prop :=
  e.runPass (n + 1) (e.afterPass^[n] source) = .ok p

end Engine

end PhpStyle
