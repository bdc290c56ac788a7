import Mathlib.Algebra.BigOperators.Group.List.Basic
import Mathlib.Algebra.GroupWithZero.Nat
import PhpStyle.Command.Run

/-!
# The code with which a run ends

The counts of a summary add up over the files, so a count is positive as soon as one file alone
makes it so, and no file hides what another one leaves behind. What is taken off the findings in a
check are the ones with a fix, and the rest are those without. A run therefore ends with the worst
of the codes that its files would give alone.
-/

namespace PhpStyle

namespace Output

/-- The number of findings of a file that have no fix. -/
def Answer.unfixable : Answer → Nat
  | .error _ => 0
  | .report _ r => r.diagnostics.countP fun d => !d.fixable

/-- The worst of some codes: one over two, and two over zero. -/
def worstCode (codes : List Nat) : Nat := if 1 ∈ codes then 1 else if 2 ∈ codes then 2 else 0

namespace Status

/-- The code is one for a failure and for nothing else. -/
theorem code_eq_one_iff {status : Status} : status.code = 1 ↔ status = .failed := by
  cases status <;> decide

/-- The code is two for fixable findings and for nothing else. -/
theorem code_eq_two_iff {status : Status} : status.code = 2 ↔ status = .fixable := by
  cases status <;> decide

end Status

/-- The order of the codes does not matter. -/
theorem worstCode_of_perm {codes others : List Nat} (h : codes.Perm others) :
    worstCode others = worstCode codes := by
  simp only [worstCode, h.mem_iff]

namespace Summary

/-- A count that is, over any files, the sum of what they count alone. -/
def Adds (count : Summary → Nat) : Prop :=
  ∀ answers, count (ofAnswers answers) = (answers.map fun a => count (ofAnswers [a])).sum

/-- A count that each file moves on by what it counts alone adds up. -/
theorem adds_of_step {count : Summary → Nat} (hzero : count {} = 0)
    (hstep : ∀ s a, count (s.add a) = count s + count (ofAnswers [a])) : Adds count := by
  intro answers
  have hfold (s : Summary) :
      count (answers.foldl add s) = count s + (answers.map fun a => count (ofAnswers [a])).sum := by
    induction answers generalizing s with
    | nil => simp
    | cons a answers ih =>
      rw [List.foldl_cons, ih, hstep, List.map_cons, List.sum_cons, Nat.add_assoc]
  rw [ofAnswers, hfold, hzero, Nat.zero_add]

/-- Errors add up over files. -/
theorem adds_errors : Adds errors := by
  apply adds_of_step rfl
  rintro s (_ | _) <;> simp [ofAnswers, add]

/-- Findings add up over files. -/
theorem adds_findings : Adds findings := by
  apply adds_of_step rfl
  rintro s (_ | _) <;> simp [ofAnswers, add]

/-- Fixable findings add up over files. -/
theorem adds_fixable : Adds fixable := by
  apply adds_of_step rfl
  rintro s (_ | _) <;> simp [ofAnswers, add]

/-- Files that do not converge add up over files. -/
theorem adds_notConverged : Adds notConverged := by
  apply adds_of_step rfl
  rintro s (_ | _) <;> simp [ofAnswers, add]

/-- Some file alone makes a count positive that is positive over all of them. -/
theorem Adds.pos_iff {count : Summary → Nat} (h : Adds count) (answers : List Answer) :
    0 < count (ofAnswers answers) ↔ ∃ a ∈ answers, 0 < count (ofAnswers [a]) := by
  rw [h, List.sum_pos_iff_exists_pos_nat]
  simp

/-- Of the findings over some files, those have no fix that have none in their file. -/
theorem findings_eq (answers : List Answer) :
    (ofAnswers answers).findings = (ofAnswers answers).fixable +
    (answers.map Answer.unfixable).sum := by
  have halone (a : Answer) : (ofAnswers [a]).findings = (ofAnswers [a]).fixable + a.unfixable := by
    cases a with
    | error => rfl
    | report before r =>
      simp only [ofAnswers, List.foldl_cons, List.foldl_nil, add, Nat.zero_add, Report.fixableCount,
        Answer.unfixable]
      rw [r.diagnostics.length_eq_countP_add_countP (p := (·.fixable))]
      simp
  rw [adds_findings, adds_fixable, ← List.sum_map_add]
  exact congrArg List.sum (List.map_congr_left fun a _ => halone a)

/-- What a check leaves behind are the findings without a fix. -/
theorem remaining_check (answers : List Answer) :
    (ofAnswers answers).remaining .check = (answers.map Answer.unfixable).sum := by
  rw [remaining, findings_eq, Nat.add_sub_cancel_left]

/-- Findings that remain add up over files, in either mode. -/
theorem adds_remaining (mode : Mode) : Adds (remaining · mode) := by
  intro answers
  cases mode with
  | check => simp [remaining_check]
  | fix => exact adds_findings answers

/-- A run fails if a file has an error, a finding remains or a file does not converge. -/
theorem status_eq_failed_iff {s : Summary} {mode : Mode} :
    s.status mode = .failed ↔ 0 < s.errors ∨ 0 < s.remaining mode ∨ 0 < s.notConverged := by
  unfold status
  split
  · simp_all [or_assoc]
  split
  · simp_all
  · simp_all

/-- A run ends with fixable findings if it does not fail, only checks and has found such. -/
theorem status_eq_fixable_iff {s : Summary} {mode : Mode} :
    s.status mode = .fixable ↔ s.status mode ≠ .failed ∧ mode = .check ∧ 0 < s.fixable := by
  unfold status
  split
  · simp
  split
  · simp_all
  · simp_all

/-- Over some files there is a failure exactly if one file fails alone. -/
theorem status_ofAnswers_eq_failed_iff {mode : Mode} {answers : List Answer} :
    (ofAnswers answers).status mode = .failed ↔
      ∃ a ∈ answers, (ofAnswers [a]).status mode = .failed := by
  simp only [status_eq_failed_iff, adds_errors.pos_iff answers,
    (adds_remaining mode).pos_iff answers, adds_notConverged.pos_iff answers,
    and_or_left, exists_or]

/-- Over some files fixes are left to apply exactly if there is no failure and some file alone
leaves fixes. -/
theorem status_ofAnswers_eq_fixable_iff {mode : Mode} {answers : List Answer} :
    (ofAnswers answers).status mode = .fixable ↔
      (ofAnswers answers).status mode ≠ .failed ∧
      ∃ a ∈ answers, (ofAnswers [a]).status mode = .fixable := by
  rw [status_eq_fixable_iff, adds_fixable.pos_iff]
  refine and_congr_right fun hnot => ?_
  have halone (a : Answer) (ha : a ∈ answers) :
      (ofAnswers [a]).status mode = .fixable ↔ mode = .check ∧ 0 < (ofAnswers [a]).fixable := by
    have hnone : (ofAnswers [a]).status mode ≠ .failed := fun h =>
      hnot (status_ofAnswers_eq_failed_iff.mpr ⟨a, ha, h⟩)
    rw [status_eq_fixable_iff, and_iff_right hnone]
  constructor
  · rintro ⟨hmode, a, ha, hpos⟩
    exact ⟨a, ha, (halone a ha).mpr ⟨hmode, hpos⟩⟩
  · rintro ⟨a, ha, hfixable⟩
    obtain ⟨hmode, hpos⟩ := (halone a ha).mp hfixable
    exact ⟨hmode, a, ha, hpos⟩

/-- The code over some files is the worst of what they give alone. -/
theorem code_ofAnswers (mode : Mode) (answers : List Answer) :
    ((ofAnswers answers).status mode).code =
      worstCode (answers.map fun a => ((ofAnswers [a]).status mode).code) := by
  have hone : 1 ∈ answers.map (fun a => ((ofAnswers [a]).status mode).code) ↔
      (ofAnswers answers).status mode = .failed := by
    rw [status_ofAnswers_eq_failed_iff]
    simp only [List.mem_map, Status.code_eq_one_iff]
  have htwo : 2 ∈ answers.map (fun a => ((ofAnswers [a]).status mode).code) ↔
      ∃ a ∈ answers, (ofAnswers [a]).status mode = .fixable := by
    simp only [List.mem_map, Status.code_eq_two_iff]
  by_cases hfailed : (ofAnswers answers).status mode = .failed
  · rw [worstCode, if_pos (hone.mpr hfailed), hfailed]
    rfl
  rw [worstCode, if_neg (mt hone.mp hfailed)]
  by_cases hfixable : (ofAnswers answers).status mode = .fixable
  · rw [if_pos (htwo.mpr (status_ofAnswers_eq_fixable_iff.mp hfixable).2), hfixable]
    rfl
  · have hnone : 2 ∉ answers.map (fun a => ((ofAnswers [a]).status mode).code) := fun h =>
      hfixable (status_ofAnswers_eq_fixable_iff.mpr ⟨hfailed, htwo.mp h⟩)
    rw [if_neg hnone]
    cases hstatus : (ofAnswers answers).status mode with
    | clean => rfl
    | fixable => exact absurd hstatus hfixable
    | failed => exact absurd hstatus hfailed

end Summary

end Output

namespace Command

open Output

variable {m : Type → Type} [Monad m]

/-- What a run records for its files, in the order of their paths. -/
def Plan.answers (p : Plan) (files : FileAccess m) (r : Request) (c : Config) :
    m (List FileAnswer) := do
  let (paths, _) ← gather files c r.paths
  let read ← (paths.mergeSort Path.le).mapM (p.readFile files)
  read.mapM (p.writeFile files)

/-- The code of a run is that of the summary over what it records. -/
theorem Plan.code_run [LawfulMonad m] (p : Plan) (files : FileAccess m) (r : Request) (c : Config)
    (prints : List Print) : Ending.code <$> p.run files r c prints =
      (fun answers => ((Summary.ofAnswers (answers.map (·.answer))).status p.mode).code) <$>
        p.answers files r c := by
  simp [Plan.run, Plan.answers]

/-- Whatever is recorded for some files, at least as many findings are counted as findings with a
fix, and without these the ones that have no fix are left. In a check and when fixes are applied the
code is one if it is for some file alone, else two if it is for some file alone, and else zero, in
whatever order the files come. Every run ends with this code of what it records for its files. -/
theorem ends_with_worst_code (mode : Mode) (answers : List Answer) :
    let summary := Summary.ofAnswers answers
    (summary.fixable ≤ summary.findings ∧
      summary.findings - summary.fixable = (answers.map Answer.unfixable).sum) ∧
    (summary.status mode).code = worstCode
    (answers.map fun a => ((Summary.ofAnswers [a]).status mode).code) ∧
    (∀ others, answers.Perm others →
      ((Summary.ofAnswers others).status mode).code = (summary.status mode).code) ∧
    ∀ (m : Type → Type) [Monad m] [LawfulMonad m] (p : Plan) (files : FileAccess m) (r : Request)
    (c : Config) (prints : List Print), Ending.code <$> p.run files r c prints =
        (fun recorded =>
          worstCode (recorded.map fun f => ((Summary.ofAnswers [f.answer]).status p.mode).code)) <$>
          p.answers files r c := by
  intro summary
  have hle : summary.fixable ≤ summary.findings := Nat.le.intro (Summary.findings_eq answers).symm
  refine ⟨⟨hle, Summary.remaining_check answers⟩, Summary.code_ofAnswers mode answers,
    fun others hperm => ?_, fun m _ _ p files r c prints => ?_⟩
  · rw [Summary.code_ofAnswers, Summary.code_ofAnswers]
    exact worstCode_of_perm (hperm.map _)
  · rw [Plan.code_run]
    congr 1
    funext recorded
    rw [Summary.code_ofAnswers, List.map_map]
    rfl

/-- A file with a finding that has a fix, and one with a finding that has none: the first alone
gives two, the second one, and both together give one, in either order. -/
theorem ends_with_worst_code_of_two :
    let report (fixable : Bool) : Report :=
      { outcome := .checked, source := "<?php"
        diagnostics := [⟨"R", "C", .error, 1, 1, "m", fixable, .unapplied⟩] }
    let first := Answer.report "<?php" (report true)
    let second := Answer.report "<?php" (report false)
    let code (answers : List Answer) := ((Summary.ofAnswers answers).status .check).code
    code [first] = 2 ∧ code [second] = 1 ∧ [first, second].Perm [second, first] ∧
      code [first, second] = 1 ∧ code [second, first] = 1 := by
  intro report first second code
  have hfirst : code [first] = 2 := by decide
  have hsecond : code [second] = 1 := by decide
  obtain ⟨_, hcode, hperm, _⟩ := ends_with_worst_code .check [first, second]
  have hboth : code [first, second] = 1 := hcode.trans (by decide)
  exact ⟨hfirst, hsecond, .swap second first [], hboth,
    (hperm _ (.swap second first [])).trans hboth⟩

end Command

end PhpStyle
