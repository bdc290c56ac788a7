import PhpStyle.Proofs.Run.Frames
import PhpStyle.Proofs.Run.Preview
import PhpStyle.Proofs.Standard.MendingComments

/-!
# What a run makes of line breaks

A text with line breaks of one kind shows this kind to every pass over it, as long as it has a line
break at all. So a pass writes breaks of the right kind, and the text keeps its kind exactly if no
fix tears a break that two tokens share: one that clears the lines at the end of a documentation
comment, of which the last token is a blank with the carriage return of a break whose line feed
stands in the next token.
-/

namespace PhpStyle

open Php (Breaking)

namespace File

/-- The first line break of a text with one style is of that style. -/
theorem firstLineBreak?_of_uniform {style : LineEnding} {cs : List Char} (h : style.Uniform cs) :
    ∀ text, firstLineBreak? cs = some text → text = style.text := by
  fun_induction firstLineBreak? cs with
  | case1 => rintro _ ⟨⟩
  | case2 =>
    rintro _ ⟨⟩
    cases style with
    | lf => exact absurd List.mem_cons_self h
    | crlf => rfl
  | case3 rest =>
    rintro _ ⟨⟩
    cases style with
    | lf => rfl
    | crlf => cases h [] rest rfl
  | case4 c rest hcrlf hfeed ih =>
    refine ih (h.of_cons fun hreturn hhead => ?_)
    obtain ⟨more, rfl⟩ := List.head?_eq_some_iff.mp hhead
    exact hcrlf more hreturn rfl

/-- A text without a first line break has none. -/
theorem not_mem_of_firstLineBreak? {cs : List Char} (h : firstLineBreak? cs = none) :
    '\n' ∉ cs := by
  fun_induction firstLineBreak? cs with
  | case1 => simp
  | case2 => cases h
  | case3 => cases h
  | case4 c rest hcrlf hfeed ih =>
    rw [List.mem_cons, not_or]
    exact ⟨fun heq => hfeed heq.symm, ih h⟩

/-- The line break that rules write is that of the text, if the text shows one or the settings name
the same. -/
theorem newline_of_uniform {style : LineEnding} {settings : Settings} {s : Store}
    (huniform : style.Uniform s.source.toList)
    (hshows : '\n' ∈ s.source.toList ∨ settings.lineEnding = style) :
    (File.ofStore s).newline settings = style.text := by
  rw [newline]
  cases hbreak : (File.ofStore s).lineBreak? with
  | some text => exact firstLineBreak?_of_uniform huniform text hbreak
  | none =>
    rw [Option.getD_none, hshows.resolve_left (not_mem_of_firstLineBreak? hbreak)]

end File

/-- An edit that mixes no line breaks among some targets mixes none among more. -/
theorem Edit.Mends.mono {style : LineEnding} {s : Store} {targets more : List Nat} {e : Edit}
    (h : e.Mends style s targets) (hsub : targets ⊆ more) : e.Mends style s more where
  uniform := h.uniform
  first hcut := hsub (h.first hcut)
  second i heq hcut := hsub (h.second i heq hcut)
  visible hcontent hclose := (h.visible hcontent hclose).imp_right (@hsub _)

namespace Php

variable {rules : List Rule} {pass : Nat} {text : String} {p : Engine.Pass}

/-- A pass reads a store that breaks no lines apart but in documentation comments. -/
theorem breaking_of_runPass (h : (Engine.ofRules tokenize rules).runPass pass text = .ok p) :
    Breaking p.store := by
  obtain ⟨store, p', _, hbuild, hrun, hsame, _⟩ := exists_pass rules pass text
  obtain rfl : p' = p := Except.ok.inj (hrun.symm.trans h)
  exact hsame ▸ breaking_of_build hbuild

end Php

namespace Catalogue

/-- A pass with rules of the catalogue leaves a text with the kind of line breaks that it has
exactly if it applies no fix that tears one. Only the fix for blank lines at the end of a
documentation comment may. -/
theorem uniform_afterPass_iff {settings : Settings} {chosen : List Rule}
    (hchosen : ∀ rule ∈ chosen, rule ∈ rules settings ++ generalRules settings) {pass : Nat}
    {text : String} {p : Engine.Pass}
    (h : (Engine.ofRules Php.tokenize chosen).runPass pass text = .ok p) {style : LineEnding}
    (huniform : style.Uniform text.toList)
    (hshows : (Engine.ofRules Php.tokenize chosen).afterPass text ≠ text →
      '\n' ∈ text.toList ∨ settings.lineEnding = style) :
    style.Uniform ((Engine.ofRules Php.tokenize chosen).afterPass text).toList ↔
      ∀ f, (f, .applied) ∈ p.judged → f.code = "SpacingAfter" → ¬ f.TearsBreak p.store := by
  have hs := Php.breaking_of_runPass h
  obtain ⟨_, hsource, hnodup, hafter, hfound⟩ := Php.pass_spec h
  by_cases hbreak : '\n' ∈ text.toList ∨ settings.lineEnding = style
  case neg =>
    -- without a line break there is none to tear, and the pass changes nothing
    have hsame := Decidable.of_not_not (mt hshows hbreak)
    refine ⟨fun _ f _ _ ⟨c, i, _, hcut, _⟩ => hbreak (.inl ?_), fun _ => hsame.symm ▸ huniform⟩
    rw [← hsource, Store.toList_source hs.exact.sound]
    exact List.mem_flatMap.mpr ⟨i + 1, List.mem_range.mpr (Store.lt_size_of_cutsBreak hs hcut),
      List.mem_of_head? hcut.2⟩
  rw [← hsource] at huniform hbreak
  have hnewline : style.Uniform ((File.ofStore p.store).newline settings).toList := by
    rw [File.newline_of_uniform huniform hbreak]
    exact .text style
  have hjudged : ∀ f, (f, .applied) ∈ p.judged →
      f.Mends style p.store ∨ ∃ last count, f.Trims p.store last count := by
    intro f hf
    obtain ⟨i, _, rule, hrule, hkind, hmem⟩ := Engine.mem_findings_iff.mp (hfound f hf).1
    exact mends_or_trims (hchosen rule hrule) hs huniform hnewline hkind f hmem
  rw [hafter]
  constructor
  · intro hkept f hf _ htears
    exact not_uniform_of_tearsBreak hs huniform hnodup hjudged hf htears hkept
  · intro hnone
    refine Store.uniform_rewrite hs huniform hnodup fun e he => ?_
    obtain ⟨f, c, hf, hc, hmem⟩ := mem_appliedEdits.mp he
    have hmends : f.Mends style p.store := by
      rcases hjudged f hf with hmends | ⟨last, count, htrims⟩
      · exact hmends
      · exact htrims.mends hs (hnone f hf htrims.code)
    refine (hmends c hc e hmem).mono fun k hk => ?_
    obtain ⟨e', he', rfl⟩ := List.mem_map.mp hk
    exact List.mem_map_of_mem (mem_appliedEdits.mpr ⟨f, c, hf, hc, he'⟩)

/-- Every run with rules of the catalogue, under all settings and every budget, gives a report. Let
the line breaks of the text be of one kind, and let every pass that changes a text start from one
that shows a line break, unless the settings name the same kind. Then the texts of the run keep this
kind to the last exactly if no pass applies a fix that clears lines at the end of a documentation
comment and tears a line break. -/
theorem passes_keep_line_endings_iff (settings : Settings) (names : List String) (budget : Nat)
    (source : String) :
    let engine := Engine.ofRules Php.tokenize
      ((rules settings ++ generalRules settings).filter fun rule => names.contains rule.name)
    ∃ report, engine.fix budget source = .ok report ∧
      report.source = engine.afterPass^[report.outcome.passes] source ∧
      ∀ style : LineEnding, style.Uniform source.toList →
        (∀ n < report.outcome.passes,
          engine.afterPass (engine.afterPass^[n] source) ≠ engine.afterPass^[n] source →
            '\n' ∈ (engine.afterPass^[n] source).toList ∨ settings.lineEnding = style) →
        ((∀ n ≤ report.outcome.passes, style.Uniform (engine.afterPass^[n] source).toList) ↔
          ∀ n < report.outcome.passes, ∀ p, engine.IsPass source n p →
            ∀ f, (f, .applied) ∈ p.judged → f.code = "SpacingAfter" → ¬ f.TearsBreak p.store) := by
  intro engine
  obtain ⟨report, hfix⟩ := Php.exists_fix _ budget source
  refine ⟨report, hfix, Engine.source_of_fix hfix, fun style huniform hshows => ?_⟩
  have hstep {n : Nat} (hn : n < report.outcome.passes) {p : Engine.Pass}
      (hp : engine.IsPass source n p)
      (hbefore : style.Uniform (engine.afterPass^[n] source).toList) :=
    uniform_afterPass_iff (fun rule hrule => List.mem_of_mem_filter hrule) hp hbefore (hshows n hn)
  constructor
  · intro hall n hn p hp
    have hnext := hall (n + 1) hn
    rw [Function.iterate_succ_apply'] at hnext
    exact (hstep hn hp (hall n (Nat.le_of_lt hn))).mp hnext
  · intro hnone n hn
    induction n with
    | zero => exact huniform
    | succ n ih =>
      obtain ⟨p, hp⟩ := Php.exists_isPass _ source n
      rw [Function.iterate_succ_apply']
      exact (hstep hn hp (ih (Nat.le_of_lt hn))).mpr (hnone n hn p hp)

/-- The blank behind the last star of a comment is cleared with the carriage return behind it, and
the line feed stays. -/
theorem fix_tears_break :
    let engine := Engine.ofRules Php.tokenize [DocComment.rule .stefna]
    let source := "<?php\r\n/**\r\n * Foo\r\n * \r\n */\r\nfunction f() \x7b\x7d\r\n"
    ∃ report, engine.fix Engine.defaultBudget source = .ok report ∧
      report.source = "<?php\r\n/**\r\n * Foo\n */\r\nfunction f() \x7b\x7d\r\n" ∧
      LineEnding.crlf.Uniform source.toList ∧
      ∀ style : LineEnding, ¬ style.Uniform report.source.toList := by
  intro engine source
  obtain ⟨report, hfix⟩ := Php.exists_fix [DocComment.rule .stefna] Engine.defaultBudget source
  have hsource : report.source = "<?php\r\n/**\r\n * Foo\n */\r\nfunction f() \x7b\x7d\r\n" :=
    Php.source_of_previews hfix (by decide +kernel) (by decide +kernel)
  refine ⟨report, hfix, hsource, by decide, fun style => ?_⟩
  rw [hsource]
  cases style <;> decide

/-- The pass that joins the braces takes the only line break, so the next one writes that of the
settings. -/
theorem fix_writes_ending_of_settings :
    let engine := Engine.ofRules Php.tokenize [ClosingBrace.rule .stefna]
    let source := "<?php function __construct() \x7b\r\n\x7d"
    ∃ report, engine.fix Engine.defaultBudget source = .ok report ∧
      report.source = "<?php function __construct() \x7b\n\x7d" ∧
      LineEnding.crlf.Uniform source.toList ∧ ¬ LineEnding.crlf.Uniform report.source.toList := by
  intro engine source
  obtain ⟨report, hfix⟩ := Php.exists_fix [ClosingBrace.rule .stefna] Engine.defaultBudget source
  let joined := "<?php function __construct() \x7b\x7d"
  let parted := "<?php function __construct() \x7b\n\x7d"
  have hfirst : engine.afterPass source = joined := Php.afterPass_of_preview (by decide +kernel)
  have hpart : engine.afterPass joined = parted := Php.afterPass_of_preview (by decide +kernel)
  have hjoin : engine.afterPass parted = joined := Php.afterPass_of_preview (by decide +kernel)
  have hcycle : engine.afterPass^[2] joined = joined := by
    rw [Function.iterate_succ_apply, Function.iterate_one, hpart, hjoin]
  have hchanged : ¬ Function.IsFixedPt engine.afterPass joined := fun hfixed =>
    absurd (hpart.symm.trans hfixed) (by decide)
  have hmoves (n : Nat) : ¬ Function.IsFixedPt engine.afterPass (engine.afterPass^[n] source) := by
    refine Engine.not_isFixedPt_of_cycle (n := 1) Nat.two_pos ?_ ?_ n
    · rw [Function.iterate_one, hfirst, hcycle]
    · rwa [Function.iterate_one, hfirst]
  have hend : engine.afterPass^[50] source = parted := by
    have hback := Function.iterate_fixed hcycle 24
    rw [← Function.iterate_mul] at hback
    rw [Function.iterate_succ_apply, hfirst, Function.iterate_succ_apply']
    exact (congrArg engine.afterPass hback).trans hpart
  have hsource : report.source = parted := by
    rcases Engine.outcome_of_fix hfix with ⟨n, _, hfixed, _⟩ | ⟨_, _, hsource⟩
    · exact absurd hfixed (hmoves n)
    · exact hsource.trans hend
  refine ⟨report, hfix, hsource, by decide, ?_⟩
  rw [hsource]
  decide

end Catalogue

end PhpStyle
