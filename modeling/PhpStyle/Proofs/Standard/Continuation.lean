import PhpStyle.Proofs.Run.Routing
import PhpStyle.Proofs.Standard.BracePlacement
import PhpStyle.Standard.Catalogue

/-!
# Keywords behind closing braces

Of a keyword that shares a line with the brace in front of it, one rule says what pattern was
expected, and another one breaks the line. They look for the brace in two ways, the first for the
last token of code and the second for the last closing brace, and the second looks at more keywords.
So it leaves nothing unmended that the first reports.
-/

namespace PhpStyle

open Php (tokenize)

namespace Catalogue

/-- A rule of the standard is known by its name. -/
theorem eq_of_name {settings : Settings} {a b : Rule} (ha : a ∈ rules settings)
    (hb : b ∈ rules settings) (h : a.name = b.name) : a = b := by
  have hnames : (rules settings).map (·.name) = stefnaNames := rfl
  have hnodup : ((rules settings).map (·.name)).Nodup := by
    rw [hnames]
    decide
  exact List.inj_on_of_nodup_map hnodup ha hb h

/-- What is found under the name of a rule at a token, that rule finds there. -/
theorem mem_sweepToken_iff {settings : Settings} {rule : Rule} (hrule : rule ∈ rules settings)
    {file : File} {i : Nat} {f : Finding} :
    f ∈ (Sweeper.ofRules (rules settings)).sweepToken file i ∧ f.rule = rule.name ↔
      f ∈ rule.adds file i := by
  rw [Sweeper.sweepToken_eq_flatMap, List.mem_flatMap]
  constructor
  · rintro ⟨⟨found, hfound, hf⟩, hname⟩
    have hsame : found.name = rule.name := (Rule.rule_of_mem_adds hf).symm.trans hname
    rwa [eq_of_name hfound hrule hsame] at hf
  · exact fun hf => ⟨⟨rule, hrule, hf⟩, Rule.rule_of_mem_adds hf⟩

/-- What a rule finds that looks at tokens anywhere, all rules find together. -/
theorem mem_sweepToken_of_anywhere {settings : Settings} {rule : Rule}
    {run : File → Nat → List Finding} (hrule : rule ∈ rules settings)
    (hcheck : rule.check = .anywhere run) {file : File} {i : Nat} {found : Finding}
    (hkind : file.store.kind i ∈ rule.kinds) (hfound : found ∈ run file i) :
    { found with rule := rule.name } ∈ (Sweeper.ofRules (rules settings)).sweepToken file i := by
  have hadds := (Rule.mem_adds_iff_of_anywhere hcheck).mpr ⟨hkind, found, hfound, rfl⟩
  exact ((mem_sweepToken_iff hrule).mpr hadds).1

end Catalogue

namespace Continuation

variable {s : Store} {b i : Nat} {f : Finding}

/-- A keyword is reported if it crowds a brace. -/
theorem mem_keywordFindings_iff : f ∈ keywordFindings s i ↔ ∃ b, Crowds s b i ∧ f = {
    code := "ContinuationNotOnNewLine", index := i
    message := "Expected \"\x7dEOL" ++ Text.lower (s.text i) ++ "\"; found \"" ++
      showLineBreaks (s.textBetween b i) ++ "\"" } := by
  simp only [keywordFindings, List.mem_map, Option.mem_toList, Option.filter_eq_some_iff,
    Bool.and_eq_true, beq_iff_eq]
  refine exists_congr fun b => and_congr ?_ eq_comm
  constructor
  · rintro ⟨hprev, hbrace, hline⟩
    split at hprev
    · rename_i hkeyword
      exact ⟨hkeyword, hprev, hbrace, beq_iff_eq.mp hline⟩
    · cases hprev
  · intro h
    rw [if_pos h.keyword]
    exact ⟨h.behind, h.brace, beq_iff_eq.mpr h.line⟩

/-- Both rules look at the keywords that go on a control structure. -/
theorem mem_kinds_of_continues (settings : Settings) {kind : Kind} (h : continues kind = true) :
    kind ∈ rule.kinds ∧ kind ∈ (BracePlacement.rule settings).kinds := by
  rcases continues_eq_true_iff.mp h with rfl | rfl | rfl <;> simp [rule, BracePlacement.rule]

/-- The rule tells of other things under another code. -/
theorem code_ne_of_mem_braceFindings (h : f ∈ braceFindings s i) :
    f.code ≠ "ContinuationNotOnNewLine" := by
  unfold braceFindings at h
  split at h
  · cases h
  · obtain ⟨_, _, rfl⟩ := List.mem_map.mp h
    simp

/-- At a token the rule reports a keyword only if there is a brace that it crowds. -/
theorem crowds_of_mem_sweepToken {settings : Settings}
    (hf : f ∈ (Sweeper.ofRules (Catalogue.rules settings)).sweepToken (.ofStore s) i)
    (hname : f.rule = rule.name) (hcode : f.code = "ContinuationNotOnNewLine") :
    f.index = i ∧ f.fix = none ∧ ∃ b, Crowds s b i := by
  have hrule : rule ∈ Catalogue.rules settings := by simp [Catalogue.rules]
  have hadds := (Catalogue.mem_sweepToken_iff hrule).mp ⟨hf, hname⟩
  obtain ⟨_, found, hfound, rfl⟩ := (Rule.mem_adds_iff_of_anywhere rfl).mp hadds
  rcases List.mem_append.mp hfound with hfound | hfound
  · obtain ⟨b, hb, rfl⟩ := mem_keywordFindings_iff.mp hfound
    exact ⟨rfl, rfl, b, hb⟩
  · exact (code_ne_of_mem_braceFindings hfound hcode).elim

/-- A keyword that crowds a brace is reported. -/
theorem Crowds.exists_report (h : Crowds s b i) (settings : Settings) :
    ∃ f ∈ (Sweeper.ofRules (Catalogue.rules settings)).sweepToken (.ofStore s) i,
      f.rule = rule.name ∧ f.code = "ContinuationNotOnNewLine" ∧ f.index = i := by
  have hrule : rule ∈ Catalogue.rules settings := by simp [Catalogue.rules]
  obtain ⟨found, hfound, hcode, hindex⟩ : ∃ f ∈ keywordFindings s i,
      f.code = "ContinuationNotOnNewLine" ∧ f.index = i :=
    ⟨_, mem_keywordFindings_iff.mpr ⟨b, h, rfl⟩, rfl, rfl⟩
  have hkind := (mem_kinds_of_continues settings h.keyword).1
  exact ⟨_, Catalogue.mem_sweepToken_of_anywhere hrule rfl hkind (List.mem_append_left _ hfound),
    rfl, hcode, hindex⟩

/-- A keyword that crowds a brace has the other rule break the line behind the brace. -/
theorem Crowds.exists_break (h : Crowds s b i) (settings : Settings) :
    ∃ g ∈ (Sweeper.ofRules (Catalogue.rules settings)).sweepToken (.ofStore s) i,
      g.rule = (BracePlacement.rule settings).name ∧ g.code = "BracketBeforeControlStatement" ∧
      g.index = b ∧ g.fix =
        some (BracePlacement.breakBehind (.ofStore s) ((File.ofStore s).newline settings) b) := by
  have hrule : BracePlacement.rule settings ∈ Catalogue.rules settings := by simp [Catalogue.rules]
  obtain ⟨found, hfound, hcode, hindex, hfix⟩ :
      ∃ f ∈ BracePlacement.braceFindings settings (.ofStore s) i,
        f.code = "BracketBeforeControlStatement" ∧ f.index = b ∧ f.fix =
        some (BracePlacement.breakBehind (.ofStore s) ((File.ofStore s).newline settings) b) :=
    ⟨_, (BracePlacement.mem_braceFindings_iff h.lt_size).mpr ⟨b, h.precedes, rfl⟩, rfl, rfl, rfl⟩
  have hkind := (mem_kinds_of_continues settings h.keyword).2
  exact ⟨_, Catalogue.mem_sweepToken_of_anywhere hrule rfl hkind (List.mem_append_left _ hfound),
    rfl, hcode, hindex, hfix⟩

/-- Under all settings the rules of the standard find in a PHP text the keywords that go on a
control structure and have a closing brace in front of them on their line. Together with each of
these they find, at the same keyword, the brace itself, with a fix that breaks the line behind it.
So if a check reports no brace, it reports no keyword. -/
theorem keyword_found_with_brace (settings : Settings) (source : String) :
    ∃ store, tokenize source = .ok store ∧
      let engine := Engine.ofRules tokenize (Catalogue.rules settings)
      let found i := engine.sweeper.sweepToken (.ofStore store) i
      (∀ i, (∃ f ∈ engine.findings store, f.rule = "Stefna.ControlStructures.ElseCatch" ∧
          f.code = "ContinuationNotOnNewLine" ∧ f.index = i) ↔ ∃ b, Crowds store b i) ∧
      (∀ f ∈ engine.findings store, f.rule = "Stefna.ControlStructures.ElseCatch" →
        f.code = "ContinuationNotOnNewLine" → f ∈ found f.index ∧ f.fix = none ∧
          ∃ b, Crowds store b f.index ∧ ∃ g ∈ found f.index, g ∈ engine.findings store ∧
            g.rule = "Stefna.ControlStructures.BracketPlacement" ∧
            g.code = "BracketBeforeControlStatement" ∧ g.index = b ∧ g.fix =
              some (BracePlacement.breakBehind (.ofStore store)
                ((File.ofStore store).newline settings) b)) ∧
      ∃ report, engine.check source = .ok report ∧
        ((∀ d ∈ report.diagnostics, d.rule ≠ "Stefna.ControlStructures.BracketPlacement") →
          ∀ d ∈ report.diagnostics, ¬ (d.rule = "Stefna.ControlStructures.ElseCatch" ∧
            d.code = "ContinuationNotOnNewLine")) := by
  obtain ⟨store, hstore, hbuild⟩ := Php.exists_tokenize source
  have hread : (Engine.ofRules tokenize (Catalogue.rules settings)).tokenize 1 source = .ok store :=
    Engine.tokenize_eq_ok_iff.mpr ⟨hstore, (Php.source_of_build hbuild).1⟩
  refine ⟨store, hstore, ?_⟩
  intro engine found
  have hfound (f : Finding) (hf : f ∈ engine.findings store) (hrule : f.rule = rule.name)
      (hcode : f.code = "ContinuationNotOnNewLine") : f ∈ found f.index ∧ f.fix = none ∧
        ∃ b, Crowds store b f.index ∧ ∃ g ∈ found f.index, g ∈ engine.findings store ∧
          g.rule = (BracePlacement.rule settings).name ∧ g.code = "BracketBeforeControlStatement" ∧
          g.index = b ∧ g.fix = some (BracePlacement.breakBehind (.ofStore store)
            ((File.ofStore store).newline settings) b) := by
    obtain ⟨i, hi, hsweep⟩ := Engine.mem_findings_iff_mem_sweepToken.mp hf
    obtain ⟨rfl, hnone, b, hb⟩ := crowds_of_mem_sweepToken hsweep hrule hcode
    obtain ⟨g, hg, hspec⟩ := hb.exists_break settings
    exact ⟨hsweep, hnone, b, hb, g, hg, Engine.mem_findings_iff_mem_sweepToken.mpr ⟨_, hi, hg⟩,
      hspec⟩
  refine ⟨fun i => ⟨?_, ?_⟩, hfound, _, Engine.check_of_tokenize hread, fun hsilent d hd => ?_⟩
  · rintro ⟨f, hf, hrule, hcode, rfl⟩
    obtain ⟨_, _, b, hb, _⟩ := hfound f hf hrule hcode
    exact ⟨b, hb⟩
  · rintro ⟨b, hb⟩
    obtain ⟨f, hf, hspec⟩ := hb.exists_report settings
    exact ⟨f, Engine.mem_findings_iff_mem_sweepToken.mpr ⟨i, hb.lt_size, hf⟩, hspec⟩
  · rintro ⟨hrule, hcode⟩
    obtain ⟨f, hf, rfl⟩ := List.mem_map.mp hd
    obtain ⟨_, _, b, _, g, _, hg, hname, _⟩ := hfound f hf hrule hcode
    exact hsilent _ (List.mem_map_of_mem hg) hname

/-- A brace and a comment in front of an `else`: the finding at the keyword and the one at the
brace. -/
theorem else_found_with_brace :
    ∃ store, tokenize "<?php if ($a) \x7b \x7d /* b */ else \x7b \x7d" = .ok store ∧
      let found :=
        (Engine.ofRules tokenize (Catalogue.rules .stefna)).sweeper.sweepToken (.ofStore store) 13
      (∃ f ∈ found, f.rule = "Stefna.ControlStructures.ElseCatch" ∧
        f.code = "ContinuationNotOnNewLine" ∧ f.index = 13) ∧
      ∃ g ∈ found, g.rule = "Stefna.ControlStructures.BracketPlacement" ∧
        g.code = "BracketBeforeControlStatement" ∧ g.index = 9 ∧ g.fixable = true := by
  have hdraft : (Php.draft? "<?php if ($a) \x7b \x7d /* b */ else \x7b \x7d").any (fun s =>
      s.kind 13 = .kwElse ∧ s.prevCode? 13 = some 9 ∧ s.kind 9 = .closeCurly ∧
        s.line 9 = s.line 13) = true := by
    decide +kernel
  obtain ⟨store, hstore, hcomputed⟩ := Php.exists_of_draft hdraft
  obtain ⟨hkeyword, hprev, hbrace, hline⟩ := of_decide_eq_true hcomputed
  have hcrowds : Crowds store 9 13 := ⟨by rw [hkeyword]; rfl, hprev, hbrace, hline⟩
  obtain ⟨again, hagain, hiff, hfound, _⟩ :=
    keyword_found_with_brace .stefna "<?php if ($a) \x7b \x7d /* b */ else \x7b \x7d"
  obtain rfl : again = store := Except.ok.inj (hagain.symm.trans hstore)
  obtain ⟨f, hf, hrule, hcode, hindex⟩ := (hiff 13).mpr ⟨9, hcrowds⟩
  obtain ⟨hkept, _, b, hb, g, hg, _, hname, hbreak, hat, hfix⟩ := hfound f hf hrule hcode
  rw [hindex] at hkept hb hg
  obtain rfl : b = 9 := Option.some.inj (hb.behind.symm.trans hprev)
  refine ⟨again, hstore, ⟨f, hkept, hrule, hcode, hindex⟩, g, hg, hname, hbreak, hat, ?_⟩
  rw [Finding.fixable, hfix]
  rfl

end Continuation

end PhpStyle
