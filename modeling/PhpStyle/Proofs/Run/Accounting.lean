import Mathlib.Algebra.GroupWithZero.Nat
import Mathlib.Data.String.Basic
import PhpStyle.Proofs.Edit.Answers
import PhpStyle.Proofs.Run.Budgets
import PhpStyle.Proofs.Run.Trajectory

/-!
# What the numbers of a run say

A run counts its fixes in four places: the session of a pass counts the changesets that it accepts,
the summary of the pass counts applied findings and tallies them by code, and the tally of the run
gathers these tallies. Tallies are maps, so gathering adds count to count, and pass by pass the four
agree.
-/

namespace PhpStyle

namespace Tally

/-- How often a key is counted. -/
def count (t : Tally) (key : String) : Nat := (t.lookup key).getD 0

/-- The entries are sorted by key, and no key occurs twice. -/
def IsMap (t : Tally) : Prop := t.Pairwise fun a b => a.1 < b.1

variable {t other : Tally} {key : String}

/-- The count of a key is that of its first entry. -/
theorem count_cons (k : String) (m : Nat) (rest : Tally) :
    count ((k, m) :: rest) key = if key = k then m else rest.count key := by
  by_cases hkey : key = k
  · subst hkey
    simp [count]
  · rw [count, List.lookup_cons, beq_false_of_ne hkey, if_neg hkey]
    rfl

/-- In front of all keys of a map, nothing is counted. -/
theorem count_eq_zero (h : ∀ entry ∈ t, key < entry.1) : t.count key = 0 := by
  induction t with
  | nil => rfl
  | cons entry rest ih =>
    obtain ⟨hfirst, hrest⟩ := List.forall_mem_cons.mp h
    rw [count_cons, if_neg (ne_of_lt hfirst), ih hrest]

/-- The keys of a tally are those counted before and the new one. -/
theorem key_of_mem_add {n : Nat} {entry : String × Nat} (h : entry ∈ t.add key n) :
    entry.1 = key ∨ ∃ old ∈ t, old.1 = entry.1 := by
  induction t with
  | nil => exact .inl (congrArg Prod.fst (List.mem_singleton.mp h))
  | cons first rest ih =>
    obtain ⟨k, m⟩ := first
    rw [add] at h
    split at h
    · rcases List.mem_cons.mp h with rfl | h
      · exact .inl rfl
      · exact .inr ⟨entry, h, rfl⟩
    split at h
    · rcases List.mem_cons.mp h with rfl | h
      · exact .inr ⟨(k, m), List.mem_cons_self, rfl⟩
      · exact .inr ⟨entry, List.mem_cons_of_mem _ h, rfl⟩
    · rcases List.mem_cons.mp h with rfl | h
      · exact .inr ⟨(k, m), List.mem_cons_self, rfl⟩
      · rcases ih h with heq | ⟨old, hold, heq⟩
        · exact .inl heq
        · exact .inr ⟨old, List.mem_cons_of_mem _ hold, heq⟩

/-- Counting a key leaves each key with one entry. -/
theorem IsMap.add (h : t.IsMap) (key : String) (n : Nat) : (t.add key n).IsMap := by
  induction t with
  | nil => exact List.pairwise_singleton _ _
  | cons first rest ih =>
    obtain ⟨k, m⟩ := first
    obtain ⟨hfirst, hrest⟩ := List.pairwise_cons.mp h
    rw [Tally.add]
    split
    · rename_i hlt
      exact .cons
        (List.forall_mem_cons.mpr ⟨hlt, fun entry hentry => hlt.trans (hfirst entry hentry)⟩) h
    split
    · exact .cons hfirst hrest
    · rename_i hnot hne
      have hlt : k < key := lt_of_le_of_ne (not_lt.mp hnot) (Ne.symm hne)
      refine .cons (fun entry hentry => ?_) (ih hrest)
      rcases key_of_mem_add hentry with heq | ⟨old, hold, heq⟩
      · exact heq ▸ hlt
      · exact heq ▸ hfirst old hold

/-- Counting more of a key changes the count of this key only. -/
theorem count_add (h : t.IsMap) (new : String) (n : Nat) :
    (t.add new n).count key = t.count key + if key = new then n else 0 := by
  induction t with
  | nil => rw [add, count_cons]; simp [count]
  | cons first rest ih =>
    obtain ⟨k, m⟩ := first
    obtain ⟨hfirst, hrest⟩ := List.pairwise_cons.mp h
    rw [add]
    split
    · rename_i hlt
      rw [count_cons]
      split
      · rename_i heq
        have hnone : count ((k, m) :: rest) key = 0 := count_eq_zero <|
          List.forall_mem_cons.mpr ⟨heq ▸ hlt,
            fun entry hentry => heq ▸ hlt.trans (hfirst entry hentry)⟩
        rw [hnone, Nat.zero_add]
      · rfl
    split
    · rename_i heq
      subst heq
      rw [count_cons, count_cons]
      split <;> rfl
    · rename_i hne
      rw [count_cons, count_cons, ih hrest]
      split
      · rename_i heq
        rw [if_neg (heq ▸ Ne.symm hne), Nat.add_zero]
      · rfl

/-- Adding tallies leaves each key with one entry. -/
theorem IsMap.addAll (h : t.IsMap) (other : Tally) : (t.addAll other).IsMap := by
  induction other generalizing t with
  | nil => exact h
  | cons entry rest ih => exact ih (h.add entry.1 entry.2)

/-- Gathered tallies count what each of them counts. -/
theorem count_addAll (h : t.IsMap) (hother : other.IsMap) :
    (t.addAll other).count key = t.count key + other.count key := by
  induction other generalizing t with
  | nil => rfl
  | cons entry rest ih =>
    obtain ⟨k, n⟩ := entry
    obtain ⟨hfirst, hrest⟩ := List.pairwise_cons.mp hother
    have hstep : (t.addAll ((k, n) :: rest)).count key = (t.add k n).count key +
        Tally.count rest key :=
      ih (h.add k n) hrest
    rw [hstep, count_add h, count_cons]
    split
    · rename_i heq
      have hnone : Tally.count rest key = 0 := count_eq_zero fun entry hentry =>
          heq ▸ hfirst entry hentry
      rw [hnone, Nat.add_zero]
    · rw [Nat.add_zero]

end Tally

namespace Engine

variable {e : Engine} {pass last : Nat} {g final : Progress} {text : String} {p : Pass}

namespace Pass

/-- The tally of a pass is a map that counts the applied findings of each code. -/
theorem fixes_spec (p : Pass) : p.fixes.IsMap ∧
    ∀ key, p.fixes.count key = p.judged.countP fun j => j.2 = .applied ∧ j.1.fullCode = key := by
  have htally (judged : List (Finding × FixStatus)) (t : Tally) (ht : t.IsMap) :
      let tally := judged.foldl (fun t j => t.add j.1.fullCode 1) t
      tally.IsMap ∧
      ∀ key, tally.count key = t.count key + judged.countP fun j => j.1.fullCode = key := by
    induction judged generalizing t with
    | nil => exact ⟨ht, fun key => rfl⟩
    | cons j judged ih =>
      obtain ⟨hmap, hcount⟩ := ih _ (ht.add j.1.fullCode 1)
      refine ⟨hmap, fun key => (hcount key).trans ?_⟩
      rw [Tally.count_add ht, List.countP_cons]
      simp only [decide_eq_true_eq, eq_comm (a := key)]
      omega
  obtain ⟨hmap, hcount⟩ := htally (p.judged.filter fun j => j.2 = .applied) [] .nil
  refine ⟨hmap, fun key => (hcount key).trans ?_⟩
  rw [List.countP_filter, Tally.count, List.lookup_nil, Option.getD_none, Nat.zero_add]
  exact List.countP_congr fun j _ => by simp [and_comm]

/-- The findings of one status are as many as were judged so. -/
theorem length_withStatus (p : Pass) (status : FixStatus) :
    (p.withStatus status).length = p.judged.countP fun j => j.2 = status := by
  rw [withStatus, List.length_map, List.countP_eq_length_filter]

/-- No finding has two statuses. -/
theorem counts_le (p : Pass) : (p.judged.countP fun j => j.2 = .applied) +
    (p.withStatus .conflicted).length + (p.withStatus .malformed).length ≤ p.judged.length := by
  rw [length_withStatus, length_withStatus]
  induction p.judged with
  | nil => simp
  | cons j judged ih =>
    simp only [List.countP_cons, List.length_cons]
    cases hstatus : j.2 <;> simp <;> omega

end Pass

/-- What a pass judges are the findings of a sweep, and the session that answers them counts the
answers as the pass does. -/
theorem session_counts (hpass : e.runPass pass text = .ok p) :
    p.judged.length = (e.findings p.store).length ∧
      (p.commit.accepted = p.judged.countP fun j => j.2 = .applied) ∧
      p.commit.conflicts = p.judged.countP fun j => j.2 = .conflicted := by
  obtain ⟨store, commit, _, _, hcommit, rfl⟩ := runPass_eq_ok_iff.mp hpass
  obtain ⟨hfixes, hconflicts, _⟩ := (Session.blank store).proposeAll_counts (e.findings store)
  have hlength := Session.length_proposeAll (Session.blank store) (e.findings store)
  have hstatuses (status : FixStatus) :
      ((e.findings store).zip ((Session.blank store).proposeAll (e.findings store)).1).countP
          (fun j => j.2 = status) =
        ((Session.blank store).proposeAll (e.findings store)).1.count status := by
    have hsnd := List.map_snd_zip (Nat.le_of_eq hlength)
    conv_rhs => rw [← hsnd, List.count, List.countP_map]
    exact List.countP_congr fun j _ => by simp
  have hcounts :
      commit.accepted = ((Session.blank store).proposeAll (e.findings store)).2.fixCount ∧
      commit.conflicts = ((Session.blank store).proposeAll (e.findings store)).2.conflicts := by
    unfold Session.commit at hcommit
    dsimp only at hcommit
    split at hcommit
    · cases hcommit
    · cases hcommit
      exact ⟨rfl, rfl⟩
  simp only [passOver, List.length_zip, hlength, Nat.min_self, hstatuses, hcounts,
    hfixes, hconflicts]
  simp [Session.blank]

/-- What the summary of a pass says of the pass. -/
structure Pass.AccountedBy (e : Engine) (p : Pass) (s : PassSummary) : Prop where
  findings : s.findings = (e.findings p.store).length
  /-- The session has accepted as many changesets as findings are marked as applied. -/
  accepted : s.applied = p.commit.accepted
  /-- The tally counts each applied finding once, under its own code. -/
  tally : s.fixes.IsMap ∧
    ∀ key, s.fixes.count key = p.judged.countP fun j => j.2 = .applied ∧ j.1.fullCode = key
  total : s.applied = s.fixes.total
  conflicts : s.conflicted.length = p.commit.conflicts
  pos : 1 ≤ s.applied
  bounded : s.applied + s.conflicted.length + s.malformed.length ≤ s.findings

/-- The summary of a pass that changed its text accounts for the pass. -/
theorem accountedBy_summary (hpass : e.runPass pass text = .ok p)
    (hchanged : p.commit.changed = true) (number : Nat) : p.AccountedBy e (p.summary number) := by
  obtain ⟨hfindings, haccepted, hconflicts⟩ := session_counts hpass
  have hpos := total_fixes_pos hpass hchanged
  rw [p.total_fixes] at hpos
  exact {
    findings := hfindings
    accepted := haccepted.symm
    tally := p.fixes_spec
    total := p.total_fixes.symm
    conflicts := (p.length_withStatus .conflicted).trans hconflicts.symm
    pos := hpos
    bounded := p.counts_le }

/-- The passes on the way of a run leave their summaries, numbered one after the other, and the
tally of the run gathers theirs. -/
theorem Steps.exists_summaries {source : String} (h : e.Steps pass g last final)
    (htext : g.text = e.afterPass^[pass - 1] source) (hfirst : 0 < pass) (hmap : g.fixes.IsMap) :
    ∃ made, final.passes = g.passes ++ made ∧ made.map (·.pass) = List.range' pass (last - pass) ∧
      (∀ s ∈ made, ∃ p, e.IsPass source (s.pass - 1) p ∧ p.AccountedBy e s) ∧
      final.fixes.IsMap ∧ (∀ key,
        final.fixes.count key = g.fixes.count key + (made.map fun s => s.fixes.count key).sum) ∧
      final.fixes.total = g.fixes.total + (made.map fun s => s.fixes.total).sum := by
  induction h with
  | refl pass g => exact ⟨[], by simp [hmap]⟩
  | @step pass last g final p hpass hchanged hrest ih =>
    obtain ⟨made, hmade, hnumbers, hpasses, hfinal, hcount, htotal⟩ :=
      ih (text_advance hpass htext hfirst) (Nat.succ_pos pass) (hmap.addAll p.fixes)
    have hle := hrest.fixFrom_eq.1
    have hlength : last - pass = last - (pass + 1) + 1 := by omega
    refine ⟨p.summary pass :: made, ?_, ?_, ?_, hfinal, fun key => ?_, ?_⟩
    · rw [hmade, Progress.advance, List.append_assoc, List.singleton_append]
    · rw [List.map_cons, hnumbers, hlength, List.range'_succ]
      rfl
    · refine List.forall_mem_cons.mpr ⟨⟨p, ?_, accountedBy_summary hpass hchanged pass⟩, hpasses⟩
      change e.runPass (pass - 1 + 1) (e.afterPass^[pass - 1] source) = .ok p
      rw [Nat.sub_add_cancel hfirst, ← htext]
      exact hpass
    · have hgather : (g.advance pass p).fixes.count key = g.fixes.count key + p.fixes.count key :=
        Tally.count_addAll hmap p.fixes_spec.1
      rw [hcount, hgather, List.map_cons, List.sum_cons, Nat.add_assoc]
      rfl
    · have hgather : (g.advance pass p).fixes.total = g.fixes.total + p.fixes.total :=
        Tally.total_addAll g.fixes p.fixes
      rw [htotal, hgather, List.map_cons, List.sum_cons, Nat.add_assoc]
      rfl

/-- The numbers of a report agree. Its summaries are numbered from one on, as many as the passes
before the last if the run converged, and as many as the budget allows if it did not. Each accounts
for its pass: it counts the accepted changesets, of which there is one at least, tallies them by
code, and does not count more answers than findings. The tally of the run is the pointwise sum of
theirs, and the number of fixes is the sum of what was applied. -/
theorem fix_accounts {tokenizer : Tokenizer} {rules : List Rule} {budget : Nat} {source : String}
    {report : Report} (hfix : (ofRules tokenizer rules).fix budget source = .ok report) :
    let engine := ofRules tokenizer rules
    (∃ n, report.passes.map (·.pass) = List.range' 1 n ∧
      (report.outcome = .converged (n + 1) ∨
        report.outcome = .didNotConverge n ∧ n = max budget 1)) ∧
    (∀ s ∈ report.passes, ∃ p, engine.IsPass source (s.pass - 1) p ∧ p.AccountedBy engine s) ∧
    report.fixes.IsMap ∧
    (∀ key, report.fixes.count key = (report.passes.map fun s => s.fixes.count key).sum) ∧
    report.fixCount = (report.passes.map (·.applied)).sum := by
  intro engine
  obtain ⟨last, final, hsteps, hends⟩ := steps_of_fixFrom hfix
  have hstart : ({ text := source } : Progress).text = engine.afterPass^[1 - 1] source := rfl
  obtain ⟨made, hmade, hnumbers, hpasses, hmap, hcount, htotal⟩ :=
    hsteps.exists_summaries hstart Nat.one_pos .nil
  have hfirst := hsteps.fixFrom_eq.1
  have hreport : report.passes = made ∧ report.fixes = final.fixes := by
    rw [List.nil_append] at hmade
    cases hends with
    | converged => exact ⟨hmade, rfl⟩
    | spent => exact ⟨hmade, rfl⟩
  obtain ⟨rfl, hfixes⟩ := hreport
  refine ⟨⟨last - 1, hnumbers, ?_⟩, hpasses, hfixes ▸ hmap, fun key => ?_, ?_⟩
  · rcases outcome_of_fix hfix with ⟨n, _, _, _, houtcome, _⟩ | ⟨_, houtcome, _⟩
    · cases hends with
      | spent => cases houtcome
      | converged => exact .inl (congrArg Outcome.converged (Nat.sub_add_cancel hfirst).symm)
    · cases hends with
      | converged => cases houtcome
      | spent => exact .inr ⟨rfl, Outcome.didNotConverge.inj houtcome⟩
  · rw [hfixes, hcount]
    exact Nat.zero_add _
  · have htotals : (report.passes.map fun s => s.fixes.total) = report.passes.map (·.applied) :=
      List.map_congr_left fun s hs => (hpasses s hs).choose_spec.2.total.symm
    rw [Report.fixCount, hfixes, htotal, htotals]
    exact Nat.zero_add _

/-- A run of two passes, with two fixes of one code in the first and one that is turned down. -/
theorem fix_accounts_of_two :
    let rule : Rule := ⟨"Rule", "", [.inlineHtml], .anywhere fun file i =>
      if file.store.text i = "a" then
        [{ code := "First", index := i, message := "", fix := some [.replace i "b"] },
          { code := "First", index := i, message := "", fix := some [] },
          { code := "Other", index := i, message := "", fix := some [.delete i] }]
      else if file.store.text i = "b" then
        [{ code := "Second", index := i, message := "", fix := some [.append i "c"] }]
      else []⟩
    let engine := ofRules .whole [rule]
    ∃ report, engine.fix 5 "a" = .ok report ∧ report.outcome = .converged 3 ∧
      report.passes.map (·.pass) = [1, 2] ∧ report.passes.map (·.applied) = [2, 1] ∧
      (∀ s ∈ report.passes, ∃ p, engine.IsPass "a" (s.pass - 1) p ∧ p.AccountedBy engine s) ∧
      report.fixes = [("Rule.First", 2), ("Rule.Second", 1)] ∧ report.fixes.IsMap ∧
      (∀ key, report.fixes.count key = (report.passes.map fun s => s.fixes.count key).sum) ∧
      report.fixCount = (report.passes.map (·.applied)).sum := by
  intro rule engine
  have hfix : engine.fix 5 "a" = .ok {
      outcome := .converged 3
      source := "bc"
      diagnostics := [⟨"Rule", "Other", .error, 1, 1, "", true, .conflicted⟩]
      fixes := [("Rule.First", 2), ("Rule.Second", 1)]
      passes := [⟨1, 3, 2, [⟨"Rule", "Other", .error, 1, 1, "", true, .conflicted⟩], [],
        [("Rule.First", 2)]⟩, ⟨2, 1, 1, [], [], [("Rule.Second", 1)]⟩] } := by
    unfold engine rule
    decide +kernel
  obtain ⟨_, hpasses, hmap, hcount, htotal⟩ := fix_accounts hfix
  exact ⟨_, hfix, rfl, rfl, rfl, hpasses, rfl, hmap, hcount, htotal⟩

end Engine

end PhpStyle
