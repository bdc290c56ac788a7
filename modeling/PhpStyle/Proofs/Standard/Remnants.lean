import PhpStyle.Proofs.Run.Remnants
import PhpStyle.Proofs.Standard.Braces

/-!
# Fixes of the standard that have no effect

Every fix of the standard changes the text, apart from five kinds of fixes that look for blanks
where a comment or a long token stands. So whatever a run that converged leaves to be fixed
conflicted with another fix, or was fixed in vain together with all else that its last pass fixed;
and if nothing else was, its finding is of one of the five kinds.
-/

namespace PhpStyle

open Php (Exact)
open Finding

namespace Catalogue

/-- Whatever a rule of the catalogue finds at a token that it looks at has a fix that changes the
text, or none, or is one of the few findings whose fix may leave the text as it is. -/
theorem Provides.changes_or_idles {rule : Rule} (hrule : Provides rule) {s : Store} (hs : Exact s)
    {i : Nat} (hkind : s.kind i ∈ rule.kinds) :
    ∀ f ∈ rule.runAt (.ofStore s) i, f.Changes s ∨ f.Idles s := by
  have hnamed : ∀ name (f : Finding), f.Changes s ∨ f.Idles s →
      { f with rule := name }.Changes s ∨ { f with rule := name }.Idles s := fun _ _ h => h
  obtain ⟨settings, hmem⟩ := hrule
  simp only [rules, generalRules, List.cons_append, List.nil_append, List.mem_cons,
    List.not_mem_nil, or_false] at hmem
  rcases hmem with rfl | rfl | rfl | rfl | rfl | rfl | rfl | rfl | rfl | rfl | rfl | rfl | rfl | rfl
  · have htag : s.kind i = .openTag := by simpa [FileHeader.rule] using hkind
    exact forall_runAt_anywhere hnamed fun f hf => .inl (FileHeader.findings_changes hs htag f hf)
  · have harray : s.kind i = .kwArray := by simpa [ArrayLiteral.rule] using hkind
    exact forall_runAt_anywhere hnamed fun f hf =>
      .inl (ArrayLiteral.findings_changes hs harray f hf)
  · exact forall_runAt_anywhere hnamed fun f hf => .inl (BracePlacement.findings_changes hs f hf)
  · have hi : i < s.size := by
      refine Store.lt_size_of_kind_ne fun hnone => ?_
      simp [TryCatch.rule, hnone] at hkind
    exact forall_runAt_anywhere hnamed fun f hf => .inl (TryCatch.findings_changes hs hi f hf)
  · exact forall_runAt_anywhere hnamed fun f hf => .inl (Continuation.findings_changes f hf)
  · exact forall_runAt_anywhere hnamed (Condition.lenientFindings_changes_or_idles hs)
  · exact forall_runAt_anywhere hnamed fun f hf => .inl (ClosingBrace.findings_changes hs f hf)
  · exact forall_runAt_anywhere hnamed fun f hf => .inl (TrailingComma.findings_changes hs f hf)
  · exact forall_runAt_anywhere hnamed (Declaration.findings_changes_or_idles hs)
  · have htag : s.kind i = .docOpen := by simpa [DocComment.rule] using hkind
    exact forall_runAt_anywhere hnamed fun f hf => .inl (DocComment.findings_changes hs htag f hf)
  · exact fun f hf => .inl (changes_of_none (MethodName.fix_eq_none f hf))
  · have htag : s.kind i = .docOpen := by simpa [DocLayout.rule] using hkind
    have hi : i < s.size := Store.lt_size_of_kind htag (by decide)
    exact forall_runAt_anywhere hnamed fun f hf => .inl (DocLayout.findings_changes hs hi f hf)
  · exact forall_runAt_anywhere hnamed (Condition.strictFindings_changes_or_idles hs)
  · exact forall_runAt_anywhere hnamed (BraceBelow.findings_changes_or_idles hs)

/-- If a pass that leaves its text as it is applies a single fix, then so does this fix. -/
theorem rewrite_of_only {rules : List Rule} {pass : Nat} {text : String} {p : Engine.Pass}
    (hpass : (Engine.ofRules Php.tokenize rules).runPass pass text = .ok p)
    (hsame : p.store.rewrite (appliedEdits p.judged) = p.store.source) {f : Finding}
    (hf : (f, .applied) ∈ p.judged) (honly : ∀ g, (g, .applied) ∈ p.judged → g = f)
    (hf' : f.EditsOnce) {c : Changeset} (hc : f.fix = some c) :
    p.store.rewrite c = p.store.source := by
  obtain ⟨_, _, hnodup, _, _⟩ := Php.pass_spec hpass
  rw [← hsame]
  refine Store.rewrite_congr _ (fun e => ?_) (hf' c hc) hnodup
  rw [mem_appliedEdits]
  constructor
  · exact fun he => ⟨f, c, hf, hc, he⟩
  · rintro ⟨g, c', hg, hc', he⟩
    obtain rfl := honly g hg
    obtain rfl : c = c' := Option.some.inj (hc.symm.trans hc')
    exact he

/-- In the store of every text, the fix of a rule of the catalogue changes the text, whatever the
settings, or its finding is of the few behind a comment or a long token. So whatever a run with
rules of the catalogue that converged leaves to be fixed, in any order and with any budget,
conflicted with another fix or was fixed in its last pass, and all that this pass fixed leaves the
text as it is. If it fixed nothing else, the finding is of the few. -/
theorem fixes_change_or_idle (source : String) :
    ∃ store, Php.tokenize source = .ok store ∧
      (∀ rule, Provides rule → ∀ i, store.kind i ∈ rule.kinds →
        ∀ f ∈ rule.runAt (.ofStore store) i, f.Changes store ∨ f.Idles store) ∧
      ∀ chosen : List Rule, (∀ rule ∈ chosen, Provides rule) → ∀ budget,
        let engine := Engine.ofRules Php.tokenize chosen
        ∃ report, engine.fix budget source = .ok report ∧
          ∀ passes, report.outcome = .converged passes →
            ∃ p, engine.runPass passes report.source = .ok p ∧ p.store.source = report.source ∧
              p.store.rewrite (appliedEdits p.judged) = report.source ∧
              ∀ d ∈ report.diagnostics, d.fixable = true → d.status = .conflicted ∨
                ∃ f, (f, .applied) ∈ p.judged ∧ d = f.detach p.store .unapplied ∧
                  (f.Changes p.store ∨ f.Idles p.store) ∧
                  ((∀ g, (g, .applied) ∈ p.judged → g = f) → f.Idles p.store) := by
  obtain ⟨store, hstore, hbuild⟩ := Php.exists_tokenize source
  refine ⟨store, hstore, fun rule hrule i hkind => ?_, fun chosen hchosen budget => ?_⟩
  · exact hrule.changes_or_idles (Php.exact_of_build hbuild) hkind
  intro engine
  obtain ⟨report, hfix⟩ := Php.exists_fix chosen budget source
  refine ⟨report, hfix, fun passes hconverged => ?_⟩
  have honce : engine.EditsOnce := editsOnce_ofRules hchosen
  obtain ⟨p, hpass, hchanged, hleft⟩ := honce.status_of_converged hfix hconverged
  obtain ⟨_, hsource, _, hafter, hfound⟩ := Php.pass_spec hpass
  have hfixed : engine.afterPass report.source = report.source := by
    by_contra hnot
    rw [(Engine.changed_iff_of_runPass hpass).mpr hnot] at hchanged
    cases hchanged
  have hsame : p.store.rewrite (appliedEdits p.judged) = report.source := hafter.symm.trans hfixed
  refine ⟨p, hpass, hsource, hsame, fun d hd hfixable => ?_⟩
  rcases hleft d hd hfixable with hconflicted | ⟨f, hf, rfl⟩
  · exact .inl hconflicted
  right
  obtain ⟨last, p', _, hlast, hpass', rfl, _⟩ := Php.exists_pass chosen passes report.source
  obtain rfl : p = p' := Except.ok.inj (hpass.symm.trans hpass')
  obtain ⟨hmem, c, hc⟩ := hfound f hf
  obtain ⟨i, _, rule, hrule, hkind, hmem⟩ := Engine.mem_findings_iff.mp hmem
  have hsplit := (hchosen rule hrule).changes_or_idles (Php.exact_of_build hlast) hkind f hmem
  refine ⟨f, hf, rfl, hsplit, fun honly => hsplit.resolve_left fun hchanges => ?_⟩
  have hedits := (hchosen rule hrule).editsOnce (Php.sound_of_build hlast) hkind f hmem
  exact hchanges c hc (rewrite_of_only hpass (hsame.trans hsource.symm) hf honly hedits hc)

/-- The last expression is a heredoc that goes on over the lines which the rule misses: a fix is
offered, and it does nothing. -/
theorem fix_without_effect :
    let engine := Engine.ofRules Php.tokenize [Condition.rule .stefna]
    let source := "<?php\n if (\n<<<A\n\nA) \x7b\n\x7d\n"
    ∃ report d, engine.fix Engine.defaultBudget source = .ok report ∧
      report.outcome = .converged 1 ∧ report.source = source ∧ d ∈ report.diagnostics ∧
      d.code = "CloseParenthesisLine" ∧ d.fixable = true ∧ d.status = .unapplied := by
  intro engine source
  have hfixed : engine.afterPass source = source := Php.afterPass_of_preview (by decide +kernel)
  obtain ⟨store, p, hstore, _, hpass, rfl, _⟩ := Php.exists_pass [Condition.rule .stefna] 1 source
  obtain ⟨store, hdraft, hfound⟩ : ∃ store, Php.tokenize source = .ok store ∧
      ((engine.findings store).any fun f =>
        f.code == "CloseParenthesisLine" && f.fix == some []) = true :=
    Php.exists_of_draft (by decide +kernel)
  obtain rfl : p.store = store := Except.ok.inj (hstore.symm.trans hdraft)
  obtain ⟨f, hf, hspec⟩ := List.any_eq_true.mp hfound
  simp only [Bool.and_eq_true, beq_iff_eq] at hspec
  obtain ⟨hcode, hfix⟩ := hspec
  obtain ⟨report, hrun, houtcome, hd⟩ :=
    Engine.fix_of_nil hpass hfixed hf hfix Engine.defaultBudget
  have hsource : report.source = source :=
    (Engine.source_of_fix_of_isFixedPt hrun (congrArg engine.afterPass hfixed)).trans hfixed
  refine ⟨report, _, hrun, houtcome, hsource, hd, hcode, ?_, rfl⟩
  simp [Finding.detach, Finding.fixable, hfix]

end Catalogue

end PhpStyle
