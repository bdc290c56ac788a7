import PhpStyle.Proofs.Run.Iteration
import PhpStyle.Proofs.Edit.Admission

/-!
# The texts on the way of a run

A pass changes its text only by fixes that it applies, and it counts them. So the number of fixes of
a run tells whether it changed anything. A run that converged did not come back to a text on its
way: from there, it would have gone round for ever.
-/

namespace PhpStyle

namespace Tally

/-- Counting a key raises the total. -/
theorem total_add (t : Tally) (key : String) (n : Nat) : (t.add key n).total = t.total + n := by
  induction t with
  | nil => simp [add, total]
  | cons entry rest ih =>
    obtain ⟨k, m⟩ := entry
    rw [add]
    split
    · simp only [total]
      omega
    split
    · simp only [total]
      omega
    · simp only [total, ih]
      omega

/-- Adding tallies adds their totals. -/
theorem total_addAll (t other : Tally) : (t.addAll other).total = t.total + other.total := by
  induction other generalizing t with
  | nil => rfl
  | cons entry rest ih =>
    have hrest := ih (t.add entry.1 entry.2)
    rw [total_add] at hrest
    simp only [addAll, List.foldl_cons, total] at hrest ⊢
    omega

end Tally

/-- Iterates that reach a fixed point only at the end do not repeat on the way. -/
theorem iterate_ne_of_lt {α : Type} {f : α → α} {x : α} {n : Nat}
    (hfixed : Function.IsFixedPt f (f^[n] x)) (hmoves : ∀ m < n, ¬ Function.IsFixedPt f (f^[m] x))
    {i j : Nat} (hij : i < j) (hj : j ≤ n) : f^[i] x ≠ f^[j] x := by
  intro hsame
  have hcycle : f^[j - i] (f^[i] x) = f^[i] x := by
    rw [← Function.iterate_add_apply, Nat.sub_add_cancel (Nat.le_of_lt hij), hsame]
  have hend : Function.IsFixedPt f (f^[n - i] (f^[i] x)) := by
    rwa [← Function.iterate_add_apply, Nat.sub_add_cancel (by omega)]
  exact hmoves i (by omega) (isFixedPt_of_cycle (by omega) hcycle hend)

/-- A session that accepted nothing leaves its text as it is. -/
theorem Session.source_of_commit_nil {s : Session} (hnone : s.accepted = []) {commit : Commit}
    (h : s.commit = .ok commit) : commit.source = s.store.source := by
  have hsplice := Splice.splice_of_spliced (.done 0 s.store.source.toList)
  rw [String.ofList_toList] at hsplice
  simp only [Session.commit, hnone, List.mergeSort_nil, List.filterMap_nil, hsplice] at h
  cases h
  rfl

namespace Engine

variable {e : Engine} {pass last : Nat} {g final : Progress}

/-- The tally of a pass counts the fixes that it applies. -/
theorem Pass.total_fixes (p : Pass) : p.fixes.total = p.judged.countP fun j => j.2 = .applied := by
  have hcount (judged : List (Finding × FixStatus)) (t : Tally) :
      (judged.foldl (fun t j => t.add j.1.fullCode 1) t).total = t.total + judged.length := by
    induction judged generalizing t with
    | nil => rfl
    | cons j judged ih =>
      rw [List.foldl_cons, ih, Tally.total_add, List.length_cons]
      omega
  rw [fixes, hcount, List.countP_eq_length_filter]
  exact Nat.zero_add _

/-- A pass that changes its text applies a fix. -/
theorem total_fixes_pos {text : String} {p : Pass} (hpass : e.runPass pass text = .ok p)
    (hchanged : p.commit.changed = true) : 0 < p.fixes.total := by
  rw [Pass.total_fixes, List.countP_pos_iff]
  by_contra hnone
  have hunchanged : e.afterPass text ≠ text := (changed_iff_of_runPass hpass).mp hchanged
  rw [afterPass_of_runPass hpass] at hunchanged
  obtain ⟨store, commit, _, rfl, hcommit, rfl⟩ := runPass_eq_ok_iff.mp hpass
  have haccepted := Session.blank_proposeAll_accepted store (e.findings store)
  have hempty : appliedEdits ((e.findings store).zip
      ((Session.blank store).proposeAll (e.findings store)).1) = [] := by
    rw [appliedEdits, List.flatMap_eq_nil_iff]
    intro j hj
    exact if_neg fun happlied => hnone ⟨j, hj, by simpa using happlied⟩
  rw [hempty] at haccepted
  have hsource := Session.source_of_commit_nil haccepted hcommit
  rw [Session.proposeAll_store] at hsource
  exact hunchanged hsource

/-- The passes that change a text apply a fix each, and the summary of each is kept. -/
theorem Steps.le_total_fixes (h : e.Steps pass g last final) :
    pass ≤ last ∧ g.fixes.total + (last - pass) ≤ final.fixes.total ∧
      final.passes.length = g.passes.length + (last - pass) := by
  induction h with
  | refl pass g => simp
  | @step pass last g final p hpass hchanged _ ih =>
    obtain ⟨hle, htotal, hlength⟩ := ih
    have hpos := total_fixes_pos hpass hchanged
    have hadvance : (g.advance pass p).fixes.total = g.fixes.total + p.fixes.total :=
      Tally.total_addAll g.fixes p.fixes
    have hpasses : (g.advance pass p).passes.length = g.passes.length + 1 := List.length_append
    omega

/-- From the start of a run, there is a pass behind exactly if there is a summary, and exactly if a
fix was made. -/
theorem Steps.lt_iff {source : String} (h : e.Steps pass { text := source } last final) :
    (pass < last ↔ final.passes ≠ []) ∧ (final.passes ≠ [] ↔ 0 < final.fixes.total) := by
  obtain ⟨hle, htotal, hlength⟩ := h.le_total_fixes
  rw [List.length_nil, Nat.zero_add] at hlength
  rw [List.ne_nil_iff_length_pos, hlength]
  refine ⟨by omega, fun hpos => by omega, fun hpos => ?_⟩
  cases h with
  | refl => cases hpos
  | step _ _ hrest =>
    have := hrest.le_total_fixes.1
    omega

/-- A pass starts with the text that those in front of it made, and so does the next. -/
theorem text_advance {source : String} {p : Pass} (hpass : e.runPass pass g.text = .ok p)
    (htext : g.text = e.afterPass^[pass - 1] source) (hfirst : 0 < pass) :
    (g.advance pass p).text = e.afterPass^[pass + 1 - 1] source := by
  obtain ⟨k, rfl⟩ : ∃ k, pass = k + 1 := ⟨pass - 1, by omega⟩
  rw [Nat.add_sub_cancel, Function.iterate_succ_apply', ← Nat.add_sub_cancel k 1, ← htext]
  exact (afterPass_of_runPass hpass).symm

/-- The passes on the way are those of the run, and none of them fails. -/
theorem Steps.exists_isPass {source : String} (h : e.Steps pass g last final)
    (htext : g.text = e.afterPass^[pass - 1] source) (hfirst : 0 < pass) :
    final.text = e.afterPass^[last - 1] source ∧
      ∀ n, pass ≤ n + 1 → n + 1 < last → ∃ p, e.IsPass source n p := by
  induction h with
  | refl pass g => exact ⟨htext, fun n hle hlt => absurd hlt (Nat.not_lt.mpr hle)⟩
  | @step pass last g final p hpass _ hrest ih =>
    obtain ⟨hend, hpasses⟩ := ih (text_advance hpass htext hfirst) (Nat.succ_pos pass)
    refine ⟨hend, fun n hle hlt => ?_⟩
    rcases Nat.eq_or_lt_of_le hle with rfl | hlater
    · exact ⟨p, by rw [IsPass, ← Nat.add_sub_cancel n 1, ← htext, Nat.add_sub_cancel]; exact hpass⟩
    · exact hpasses n hlater hlt

/-- A run that converged starts none of its passes with a text that it had before. So it changed its
text exactly if it made more than one pass, exactly if it reports a pass that changed the text, and
exactly if it counts a fix. -/
theorem converged_never_returns {tokenizer : Tokenizer} {rules : List Rule} {budget passes : Nat}
    {source : String} {report : Report}
    (hfix : (ofRules tokenizer rules).fix budget source = .ok report)
    (hconverged : report.outcome = .converged passes) :
    let engine := ofRules tokenizer rules
    (∀ n < passes, ∃ p, engine.IsPass source n p) ∧
    (∀ m n p q, m < n → n < passes → engine.IsPass source m p → engine.IsPass source n q →
      p.store.source ≠ q.store.source) ∧
    (report.changed source = true ↔ 2 ≤ passes) ∧ (2 ≤ passes ↔ report.passes ≠ []) ∧
      (report.passes ≠ [] ↔ 0 < report.fixCount) := by
  intro engine
  obtain ⟨last, final, hsteps, hends⟩ := steps_of_fixFrom hfix
  have hstart : ({ text := source } : Progress).text = engine.afterPass^[1 - 1] source := rfl
  obtain ⟨htext, hbefore⟩ := hsteps.exists_isPass hstart Nat.one_pos
  rcases outcome_of_fix hfix with ⟨count, _, hfixed, hmoves, houtcome, hsource⟩ | ⟨_, hspent, _⟩
  case inr => cases hspent.symm.trans hconverged
  obtain rfl : count + 1 = passes := Outcome.converged.inj (houtcome.symm.trans hconverged)
  cases hends with
  | spent => cases hconverged
  | @converged p hpass _ =>
    obtain rfl : last = count + 1 := Outcome.converged.inj hconverged
    have hdistinct {m n : Nat} (hmn : m < n) (hn : n ≤ count) :
        engine.afterPass^[m] source ≠ engine.afterPass^[n] source :=
          iterate_ne_of_lt hfixed hmoves hmn hn
    refine ⟨fun n hn => ?_, fun m n p q hmn hn hp hq => ?_, ?_, ?_, ?_⟩
    · rcases Nat.lt_succ_iff_lt_or_eq.mp hn with hlt | rfl
      · exact hbefore n (by omega) (by omega)
      · rw [htext, Nat.add_sub_cancel] at hpass
        exact ⟨p, hpass⟩
    · obtain ⟨_, _, _, hm, _, rfl⟩ := runPass_eq_ok_iff.mp hp
      obtain ⟨_, _, _, hn', _, rfl⟩ := runPass_eq_ok_iff.mp hq
      rw [passOver, passOver, hm, hn']
      exact hdistinct hmn (by omega)
    · rw [Report.changed, bne_iff_ne, hsource]
      constructor
      · intro hne
        by_contra hone
        obtain rfl : count = 0 := by omega
        exact hne rfl
      · exact fun htwo => (hdistinct (show 0 < count by omega) (Nat.le_refl count)).symm
    · have hsome := hsteps.lt_iff.1
      rw [Nat.lt_succ_iff] at hsome
      exact Nat.succ_le_succ_iff.trans hsome
    · exact hsteps.lt_iff.2

/-- A run of three passes over three texts. -/
theorem converged_never_returns_chain :
    let rule : Rule := ⟨"Rule", "", [.inlineHtml], .anywhere fun file i =>
      if file.store.text i = "a" then
        [{ code := "First", index := i, message := "", fix := some [.replace i "b"] }]
      else if file.store.text i = "b" then
        [{ code := "Second", index := i, message := "", fix := some [.append i "c"] }]
      else []⟩
    let engine := ofRules .whole [rule]
    ∃ report, engine.fix 5 "a" = .ok report ∧ report.outcome = .converged 3 ∧
      (∀ n < 3, ∃ p, engine.IsPass "a" n p) ∧
      (∀ m n p q, m < n → n < 3 → engine.IsPass "a" m p → engine.IsPass "a" n q →
        p.store.source ≠ q.store.source) ∧
      report.changed "a" = true ∧ report.passes ≠ [] ∧ 0 < report.fixCount := by
  intro rule engine
  have hfix : engine.fix 5 "a" = .ok {
      outcome := .converged 3
      source := "bc"
      diagnostics := []
      fixes := [("Rule.First", 1), ("Rule.Second", 1)]
      passes := [
        ⟨1, 1, 1, [], [], [("Rule.First", 1)]⟩,
        ⟨2, 1, 1, [], [], [("Rule.Second", 1)]⟩] } := by
    unfold engine rule
    decide +kernel
  obtain ⟨hpasses, hdistinct, hchanged, hsome, hcount⟩ := converged_never_returns hfix rfl
  have htwo : 2 ≤ 3 := by decide
  exact ⟨_, hfix, rfl, hpasses, hdistinct, hchanged.mpr htwo, hsome.mp htwo,
    hcount.mp (hsome.mp htwo)⟩

end Engine

end PhpStyle
