import PhpStyle.Proofs.Run.Frames
import PhpStyle.Proofs.Run.Preview
import PhpStyle.Proofs.Standard.Layout
import PhpStyle.Standard.Condition

/-!
# What fixes of conditions leave

The fixes of the two rules for conditions put blanks in and take whitespace away, all but one. To
indent a closing parenthesis, the token in front of it is replaced, in the belief that it is the
indentation. If a string ends there, the string is lost. Nothing else is ever lost.
-/

namespace PhpStyle.Condition

open Text (isBlank visible)

/-- A fix that puts the indentation of a closing parenthesis in place of a token that goes on over
the end of its line: a string, a heredoc or a command in backticks. -/
def OverwritesText (s : Store) (f : Finding) : Prop :=
  f.code = "CloseParenthesisIndent" ∧
    ∃ i indent, f.fix = some [.replace i indent] ∧ (s.kind i).isWrapping = true

/-- A fix of layout, or one that puts the indentation of a closing parenthesis in place of a token
that goes on over the end of its line. -/
def LayoutOrClose (s : Store) (f : Finding) : Prop :=
  f.OnlyLayout s ∨ f.code = "CloseParenthesisIndent" ∧ ∃ k indent,
    f.fix = some [.replace k indent] ∧ isBlank indent = true ∧ (s.kind k).isWrapping = true

section

variable {s : Store} {i : Nat} {g : Group} {newline : String} {style : IndentStyle}

/-- The blank behind an opening parenthesis is layout. -/
theorem openBlank_onlyLayout : ∀ f ∈ openBlank s g, f.OnlyLayout s := by
  unfold openBlank
  dsimp only
  split
  · rename_i h
    simp only [List.mem_singleton]
    rintro _ rfl
    exact Finding.onlyLayout_of_singleton rfl ⟨h.1, rfl⟩
  · simp

/-- The blank in front of a closing parenthesis is layout. -/
theorem closeBlank_onlyLayout : ∀ f ∈ closeBlank s newline g, f.OnlyLayout s := by
  unfold closeBlank
  dsimp only
  split
  · rename_i h
    simp only [List.mem_singleton]
    rintro _ rfl
    exact Finding.onlyLayout_of_singleton rfl ⟨h.2.1, rfl⟩
  · simp

/-- The first line of a condition is broken by edits of layout. -/
theorem firstLine_onlyLayout {next : Nat} {stop : Option Nat} (hnewline : isBlank newline = true)
    (hnext : s.nextVisible? g.opener stop = some next) :
    ∀ f ∈ firstLine s newline g next, f.OnlyLayout s := by
  obtain ⟨_, _, _, hblank⟩ := Store.nextVisible?_eq_some hnext
  unfold firstLine
  split
  · simp
  · simp only [List.mem_singleton]
    rintro _ rfl c ⟨⟩ e he
    rcases List.mem_append.mp he with he | he
    · obtain ⟨k, hk, rfl⟩ := List.mem_map.mp he
      have hbetween : k ∈ s.between g.opener next := by
        split at hk
        · exact (List.takeWhile_sublist _).mem hk
        · cases hk
      obtain ⟨hlow, hhigh⟩ := Store.mem_between.mp hbetween
      exact hblank k hlow hhigh
    · obtain rfl := List.mem_singleton.mp he
      exact hnewline

/-- The lines of a condition are indented by edits of layout. -/
theorem lineIndents_onlyLayout {required : Nat} :
    ∀ f ∈ lineIndents s style g required, f.OnlyLayout s := by
  intro f hf
  obtain ⟨k, _, hfinding⟩ := List.mem_filterMap.mp hf
  obtain ⟨found, hfound, rfl⟩ := Option.map_eq_some_iff.mp hfinding
  refine Finding.onlyLayout_of_singleton rfl ?_
  split
  · exact style.isBlank_pad required
  · rename_i hne
    refine ⟨?_, style.isBlank_pad required⟩
    by_contra hkind
    unfold missingIndent? at hfound
    dsimp only at hfound
    split at hfound
    · cases hfound
    · have hzero : (if (s.token k).kind = .whitespace then (s.token k).length else 0) = 0 :=
        if_neg hkind
      rw [hzero] at hfound
      split at hfound
      · exact hne (Option.some.inj hfound).symm
      · cases hfound

/-- Behind the last expression there is nothing but whitespace up to the closing parenthesis. -/
theorem lastExpression_spec (hlt : g.opener < g.closer) :
    g.opener ≤ lastExpression s g ∧ lastExpression s g < g.closer ∧
      ∀ k, lastExpression s g < k → k < g.closer → s.kind k = .whitespace := by
  unfold lastExpression
  cases hprev : s.prevVisible? g.closer (some g.opener) with
  | some prev =>
    obtain ⟨hle, hprevlt, _, hblank⟩ := Store.prevVisible?_eq_some hprev
    exact ⟨hle, hprevlt, hblank⟩
  | none =>
    have hblank := Store.prevVisible?_eq_none hprev
    exact ⟨Nat.le_refl _, hlt, fun k hk => hblank k (Nat.le_of_lt hk)⟩

/-- A closing parenthesis gets its own line by an edit of layout. -/
theorem closeLine_onlyLayout (hnewline : isBlank newline = true) (hlt : g.opener < g.closer) :
    ∀ f ∈ closeLine s newline g (lastExpression s g), f.OnlyLayout s := by
  obtain ⟨_, _, hblank⟩ := lastExpression_spec (s := s) hlt
  unfold closeLine
  split
  · simp
  · simp only [List.mem_singleton]
    rintro _ rfl c ⟨⟩ e he
    split at he
    · obtain rfl := List.mem_singleton.mp he
      exact hnewline
    · obtain ⟨k, hk, rfl⟩ := List.mem_map.mp he
      have hbetween := (List.takeWhile_sublist _).mem (List.mem_of_mem_filter hk)
      obtain ⟨hlow, hhigh⟩ := Store.mem_between.mp hbetween
      exact hblank k hlow hhigh

/-- A closing parenthesis is joined to what stands before it by an edit of layout. -/
theorem joinClose_onlyLayout {prev : Nat} : ∀ f ∈ joinClose s g prev, f.OnlyLayout s := by
  unfold joinClose
  dsimp only
  split
  · simp only [List.mem_singleton]
    rintro _ rfl c hc e he
    obtain ⟨k, hk, rfl⟩ := Option.map_eq_some_iff.mp hc
    obtain rfl := List.mem_singleton.mp he
    obtain ⟨_, _, hkind, _⟩ := Store.scanDown_eq_some hk
    exact ⟨beq_iff_eq.mp hkind, rfl⟩
  · simp

/-- A token in front of a closing parenthesis on a line of its own, with columns between, that is no
whitespace goes on over the end of its line. -/
theorem isWrapping_before_close (hs : Php.Sound s) (hg : s.paren? i = some g)
    (hline : ¬ s.sameLine g.closer (lastExpression s g) = true) (hindent : s.indentOf g.closer ≠ 0)
    (hkind : s.kind (g.closer - 1) ≠ .whitespace) : (s.kind (g.closer - 1)).isWrapping = true := by
  obtain ⟨hlt, _, hclose⟩ := hs.paren i g hg
  obtain ⟨hle, hlast, hblank⟩ := lastExpression_spec (s := s) hlt
  have hsize : g.closer < s.size := Store.lt_size_of_kind hclose (by decide)
  have hprev : lastExpression s g = g.closer - 1 := by
    by_contra hne
    exact hkind (hblank _ (by omega) (by omega))
  have hnext : g.closer - 1 + 1 = g.closer := by omega
  refine hs.isWrapping_of_line_ne (by omega) ?_ ?_
  · rw [hnext]
    intro heq
    apply hline
    rw [hprev, Store.sameLine, heq]
    exact beq_self_eq_true _
  · rw [hnext]
    intro hcolumn
    simp [Store.indentOf, hcolumn] at hindent

/-- The indentation of a closing parenthesis is layout, or takes the place of a token that runs over
lines. -/
theorem closeIndent_cases (hs : Php.Sound s) (hg : s.paren? i = some g) {first : Nat} {f : Finding}
    (hf : f ∈ closeIndent s style g first (lastExpression s g)) : LayoutOrClose s f := by
  unfold closeIndent at hf
  dsimp only at hf
  split at hf
  · cases hf
  · rename_i hnot
    rw [not_or] at hnot
    obtain rfl := List.mem_singleton.mp hf
    have hpad := style.isBlank_pad (s.indentOf first)
    by_cases hbefore : s.indentOf g.closer ≠ 0 ∧ 0 < g.closer
    · by_cases hkind : s.kind (g.closer - 1) = .whitespace
      · simp only [if_pos hbefore]
        exact .inl (Finding.onlyLayout_of_singleton rfl ⟨hkind, hpad⟩)
      · right
        refine ⟨rfl, g.closer - 1, style.pad (s.indentOf first), ?_, hpad, ?_⟩
        · simp only [if_pos hbefore]
        · exact isWrapping_before_close hs hg hnot.1 hbefore.1 hkind
    · simp only [if_neg hbefore]
      exact .inl (Finding.onlyLayout_of_singleton rfl hpad)

end

/-- What the strict rule finds is fixed by layout, or by the indentation of a closing
parenthesis. -/
theorem strictFindings_cases {settings : Settings} {s : Store} (hs : Php.Sound s) {i : Nat}
    {f : Finding} (hf : f ∈ strictFindings settings (.ofStore s) i) : LayoutOrClose s f := by
  have hnewline := File.isBlank_newline settings s
  unfold strictFindings at hf
  dsimp only [File.ofStore_store] at hf
  split at hf
  · cases hf
  · rename_i g hg
    obtain ⟨hlt, _, _⟩ := hs.paren i g hg
    split at hf
    · rcases List.mem_append.mp hf with hf | hf
      · exact .inl (openBlank_onlyLayout f hf)
      · exact .inl (closeBlank_onlyLayout f hf)
    · split at hf
      · cases hf
      · rename_i next hnext
        simp only [List.mem_append] at hf
        rcases hf with ((hf | hf) | hf) | hf
        · exact .inl (firstLine_onlyLayout hnewline hnext f hf)
        · exact .inl (lineIndents_onlyLayout f hf)
        · exact .inl (closeLine_onlyLayout hnewline hlt f hf)
        · exact closeIndent_cases hs hg hf

/-- What the lenient rule finds is fixed by layout, or by the indentation of a closing
parenthesis. -/
theorem lenientFindings_cases {settings : Settings} {s : Store} (hs : Php.Sound s) {i : Nat}
    {f : Finding} (hf : f ∈ lenientFindings settings (.ofStore s) i) : LayoutOrClose s f := by
  unfold lenientFindings at hf
  dsimp only [File.ofStore_store] at hf
  split at hf
  · cases hf
  · rename_i g hg
    split at hf
    · exact strictFindings_cases hs hf
    · split at hf
      · cases hf
      · split at hf
        · exact strictFindings_cases hs hf
        · simp only [singleExpression, List.mem_append] at hf
          rcases hf with (hf | hf) | hf
          · exact .inl (lineIndents_onlyLayout f hf)
          · exact .inl (joinClose_onlyLayout f hf)
          · exact closeIndent_cases hs hg hf

/-- The fixes of the rules for conditions bring no visible character in, and take some away exactly
if they put an indentation in place of a token that goes on over the end of its line. -/
theorem erasing (settings : Settings) {rule : Rule}
    (hrule : rule = Condition.rule settings ∨ rule = strictRule settings) :
    Php.Erasing [rule] OverwritesText := by
  intro s hs r hr i f hf c hc
  obtain rfl := List.mem_singleton.mp hr
  have hcases : LayoutOrClose s f := by
    obtain ⟨found, hfound, rfl⟩ := List.mem_map.mp hf
    rcases hrule with rfl | rfl
    · exact lenientFindings_cases (f := found) hs hfound
    · exact strictFindings_cases (f := found) hs hfound
  rcases hcases with hlayout | ⟨hcode, k, indent, hfix, hblank, hwraps⟩
  · have hkeeps := hlayout.keeps hs hc
    refine ⟨fun e he => (hkeeps e he).erases, fun _ => ?_, fun _ e he _ => hkeeps e he⟩
    rintro ⟨_, k, indent, hfix, hwraps⟩
    have hkind := (hlayout _ hfix _ List.mem_cons_self).1
    rw [show (Edit.replace k indent).target = k from rfl] at hkind
    rw [hkind] at hwraps
    cases hwraps
  · rw [hfix] at hc
    cases hc
    refine ⟨fun e he => ?_, fun hkeeps => ?_, fun hnot => ?_⟩
    · obtain rfl := List.mem_singleton.mp he
      exact Edit.erases_of_replace hblank
    · have hsame := hkeeps _ List.mem_cons_self (Store.lt_size_of_isWrapping hwraps)
      have hnone := hsame.symm.trans (Text.visible_eq_nil_iff.mpr hblank)
      exact absurd hnone (hs.visible_ne_nil_of_isWrapping hwraps)
    · exact absurd ⟨hcode, k, indent, hfix, hwraps⟩ hnot

/-- A run with one of the rules for conditions gives a report, under all settings and every budget.
It leaves the visible characters of the text as they are exactly if none of its passes applies a fix
that puts the indentation of a closing parenthesis in place of a string, a heredoc or a command in
backticks. -/
theorem fix_keeps_visible_iff (settings : Settings) (strict : Bool) (budget : Nat)
    (source : String) :
    let engine :=
      Engine.ofRules Php.tokenize [if strict then strictRule settings else Condition.rule settings]
    ∃ report, engine.fix budget source = .ok report ∧
      (visible report.source = visible source ↔
        ∀ n < report.outcome.passes, ∀ p, engine.IsPass source n p →
          ∀ f, (f, .applied) ∈ p.judged → ¬ OverwritesText p.store f) := by
  intro engine
  obtain ⟨report, hfix⟩ := Php.exists_fix
    [if strict then strictRule settings else Condition.rule settings] budget source
  have hrules : Php.Erasing [if strict then strictRule settings else Condition.rule settings]
      OverwritesText := by
    refine erasing settings ?_
    cases strict
    · exact .inl rfl
    · exact .inr rfl
  exact ⟨report, hfix, (hrules.visible_of_fix hfix).2⟩

/-- A string over two lines in front of a closing parenthesis is lost. -/
theorem fix_loses_string :
    let engine := Engine.ofRules Php.tokenize [Condition.rule .stefna]
    let source := "<?php if ($a == \"x\ny\") \x7b\n\x7d\n"
    ∃ report, engine.fix Engine.defaultBudget source = .ok report ∧
      report.source = "<?php if ($a ==) \x7b\n\x7d\n" ∧ visible report.source ≠ visible source := by
  intro engine source
  obtain ⟨report, hfix⟩ := Php.exists_fix [Condition.rule .stefna] Engine.defaultBudget source
  have hsource : report.source = "<?php if ($a ==) \x7b\n\x7d\n" :=
    Php.source_of_previews hfix (by decide +kernel) (by decide +kernel)
  refine ⟨report, hfix, hsource, ?_⟩
  rw [hsource]
  decide

end PhpStyle.Condition
