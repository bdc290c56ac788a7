import PhpStyle.Proofs.Edit.Admission
import PhpStyle.Proofs.Edit.Visible
import PhpStyle.Proofs.Php.Tokenizing
import PhpStyle.Proofs.Run.Iteration
import PhpStyle.Proofs.Run.Sweeping

/-!
# What a run leaves of the visible characters

If the fixes of some rules never bring a visible character in, a run with these rules only takes
visible characters away. It takes none exactly if no pass of it applies a fix that does, and then
the visible characters are the same after every pass.
-/

namespace PhpStyle

/-- The findings that a pass judges are those in its store. -/
theorem Engine.map_fst_judged {e : Engine} {pass : Nat} {text : String} {p : Pass}
    (h : e.runPass pass text = .ok p) : p.judged.map (·.1) = e.findings p.store := by
  obtain ⟨store, commit, _, _, _, rfl⟩ := runPass_eq_ok_iff.mp h
  exact List.map_fst_zip (by rw [Session.length_proposeAll])

namespace Php

variable {rules : List Rule} {pass : Nat} {text : String} {p : Engine.Pass}

/-- A pass over PHP code looks at the store of its text, and rewrites every token by the one applied
edit of it. -/
theorem pass_spec (h : (Engine.ofRules tokenize rules).runPass pass text = .ok p) :
    Sound p.store ∧ p.store.source = text ∧
      ((appliedEdits p.judged).map (·.target)).Nodup ∧
      (Engine.ofRules tokenize rules).afterPass text = p.store.rewrite (appliedEdits p.judged) ∧
      ∀ f, (f, .applied) ∈ p.judged →
        f ∈ (Engine.ofRules tokenize rules).findings p.store ∧ ∃ c, f.fix = some c := by
  have hafter := Engine.afterPass_of_runPass h
  obtain ⟨store, commit, hstore, hsource, hcommit, rfl⟩ := Engine.runPass_eq_ok_iff.mp h
  obtain ⟨found, hfound, hbuild⟩ := exists_tokenize text
  have heq : found = store := Except.ok.inj (hfound.symm.trans hstore)
  subst heq
  obtain ⟨commit', hcommit', htext⟩ := Session.commit_proposeAll hbuild
    ((Engine.ofRules tokenize rules).findings found)
  have hsame : commit' = commit := Except.ok.inj (hcommit'.symm.trans hcommit)
  subst hsame
  have hnodup := Session.blank_proposeAll_nodup found
      ((Engine.ofRules tokenize rules).findings found)
  rw [Session.blank_proposeAll_accepted] at hnodup
  exact ⟨sound_of_build hbuild, hsource, hnodup, hafter.trans htext, fun f hf =>
    ⟨(List.of_mem_zip hf).1, Session.exists_fix_of_applied hf⟩⟩

/-- Rules whose fixes bring no visible character in. A fix takes one away exactly if its finding is
of the sort that loses content. -/
def Erasing (rules : List Rule) (Loses : Store → Finding → Prop) : Prop :=
  ∀ s, Sound s → ∀ rule ∈ rules, ∀ i, ∀ f ∈ rule.runAt (.ofStore s) i, ∀ c, f.fix = some c →
    (∀ e ∈ c, e.Erases s) ∧ ((∀ e ∈ c, e.target < s.size → e.Keeps s) ↔ ¬ Loses s f)

variable {Loses : Store → Finding → Prop}

/-- A pass of such rules leaves a part of the visible characters, and all of them exactly if it
applies no fix that loses content. -/
theorem Erasing.visible_afterPass (hrules : Erasing rules Loses)
    (h : (Engine.ofRules tokenize rules).runPass pass text = .ok p) :
    (Text.visible ((Engine.ofRules tokenize rules).afterPass text)).Sublist (Text.visible text) ∧
      (Text.visible ((Engine.ofRules tokenize rules).afterPass text) = Text.visible text ↔
        ∀ f, (f, .applied) ∈ p.judged → ¬ Loses p.store f) := by
  obtain ⟨hsound, hsource, hnodup, hafter, hfound⟩ := pass_spec h
  have hfix {f : Finding} {c : Changeset} (hf : (f, .applied) ∈ p.judged) (hc : f.fix = some c) :
      (∀ e ∈ c, e.Erases p.store) ∧
        ((∀ e ∈ c, e.target < p.store.size → e.Keeps p.store) ↔ ¬ Loses p.store f) := by
    obtain ⟨i, _, rule, hrule, _, hmem⟩ := Engine.mem_findings_iff.mp (hfound f hf).1
    exact hrules p.store hsound rule hrule i f hmem c hc
  have herases : ∀ e ∈ appliedEdits p.judged, e.Erases p.store := by
    intro e he
    obtain ⟨f, c, hf, hc, hmem⟩ := mem_appliedEdits.mp he
    exact (hfix hf hc).1 e hmem
  rw [hafter, ← hsource]
  refine ⟨visible_rewrite_sublist hsound herases, ?_⟩
  rw [visible_rewrite_eq_iff hsound hnodup herases]
  constructor
  · intro hkeeps f hf
    obtain ⟨c, hc⟩ := (hfound f hf).2
    exact (hfix hf hc).2.mp fun e he => hkeeps e (mem_appliedEdits.mpr ⟨f, c, hf, hc, he⟩)
  · intro hnone e he
    obtain ⟨f, c, hf, hc, hmem⟩ := mem_appliedEdits.mp he
    exact (hfix hf hc).2.mpr (hnone f hf) e hmem

end Php

section Iterating

variable {next : String → String}
  (herases : ∀ text, (Text.visible (next text)).Sublist (Text.visible text))

include herases

/-- No number of steps shows more than the source, if none of them shows more than its text. -/
theorem visible_iterate_sublist (source : String) (n : Nat) :
    (Text.visible (next^[n] source)).Sublist (Text.visible source) := by
  induction n with
  | zero => exact .refl _
  | succ n ih =>
    rw [Function.iterate_succ_apply']
    exact (herases _).trans ih

/-- Of texts that only lose visible characters, the last has all of them exactly if every step keeps
them. -/
theorem visible_iterate_eq_iff (source : String) (n : Nat) :
    Text.visible (next^[n] source) = Text.visible source ↔
      ∀ m < n, Text.visible (next (next^[m] source)) = Text.visible (next^[m] source) := by
  induction n with
  | zero => simp
  | succ n ih =>
    rw [Function.iterate_succ_apply']
    constructor
    · intro heq
      have hbefore : Text.visible (next^[n] source) = Text.visible source :=
        (visible_iterate_sublist herases source n).antisymm (heq ▸ herases _)
      intro m hm
      rcases Nat.eq_or_lt_of_le (Nat.le_of_lt_succ hm) with rfl | hm
      · rw [heq, hbefore]
      · exact ih.mp hbefore m hm
    · intro hall
      rw [hall n (Nat.lt_succ_self n)]
      exact ih.mpr fun m hm => hall m (Nat.lt_succ_of_lt hm)

end Iterating

namespace Php

/-- What a run with such rules leaves: the visible characters are the same after every pass up to
the last exactly if they are in the final text, and exactly if no pass applies a fix that loses
content. -/
theorem Erasing.visible_of_fix {rules : List Rule} {Loses : Store → Finding → Prop}
    (hrules : Erasing rules Loses) {budget : Nat} {source : String} {report : Report}
    (hfix : (Engine.ofRules tokenize rules).fix budget source = .ok report) :
    let engine := Engine.ofRules tokenize rules
    (Text.visible report.source = Text.visible source ↔
      ∀ n ≤ report.outcome.passes,
        Text.visible (engine.afterPass^[n] source) = Text.visible source) ∧
    (Text.visible report.source = Text.visible source ↔
      ∀ n < report.outcome.passes, ∀ p, engine.IsPass source n p →
        ∀ f, (f, .applied) ∈ p.judged → ¬ Loses p.store f) := by
  intro engine
  have hexists (pass : Nat) (text : String) : ∃ p, engine.runPass pass text = .ok p :=
    Engine.exists_runPass buildsEvery_tokenize pass text
  have herases (text : String) : (Text.visible (engine.afterPass text)).Sublist
      (Text.visible text) := by
    obtain ⟨p, hp⟩ := hexists 1 text
    exact (hrules.visible_afterPass hp).1
  have hsteps := visible_iterate_eq_iff herases source
  rw [Engine.source_of_fix hfix]
  constructor
  · constructor
    · intro heq n hn
      exact (hsteps n).mpr fun m hm => (hsteps _).mp heq m (Nat.lt_of_lt_of_le hm hn)
    · exact fun hall => hall _ (Nat.le_refl _)
  · rw [hsteps]
    refine forall_congr' fun n => imp_congr_right fun _ => ?_
    constructor
    · intro heq p hp
      exact (hrules.visible_afterPass hp).2.mp heq
    · intro hnone
      obtain ⟨p, hp⟩ := hexists (n + 1) (engine.afterPass^[n] source)
      exact (hrules.visible_afterPass hp).2.mpr (hnone p hp)

end Php

end PhpStyle
