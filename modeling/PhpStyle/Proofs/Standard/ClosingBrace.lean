import PhpStyle.Proofs.Run.Frames
import PhpStyle.Proofs.Run.Preview
import PhpStyle.Proofs.Standard.Layout
import PhpStyle.Standard.ClosingBrace

/-!
# What fixes of closing braces leave

The fixes of the rule for closing braces put blanks in and take whitespace away, all but one. To
take columns out of the indentation of a closing brace, the end of the token in front of its line's
content is cut off. That token may be text outside PHP, or a string that ends on the line, and then
content is cut.
-/

namespace PhpStyle.ClosingBrace

open Text (isBlank visible)

/-- A fix that cuts visible characters off the end of a text outside PHP, or of a token that goes on
over the end of its line. -/
def CutsContent (s : Store) (f : Finding) : Prop :=
  f.code = "Indent" ∧ ∃ i kept cut, f.fix = some [.replace i kept] ∧ s.text i = kept ++ cut ∧
    isBlank cut = false ∧ (s.kind i = .inlineHtml ∨ (s.kind i).isWrapping = true)

/-- A fix of layout, or one that cuts the end of whitespace, of text outside PHP or of a token that
goes on over the end of its line. -/
def LayoutOrCut (s : Store) (f : Finding) : Prop :=
  f.OnlyLayout s ∨ f.code = "Indent" ∧ ∃ i kept cut, f.fix = some [.replace i kept] ∧
    s.text i = kept ++ cut ∧
    (s.kind i = .whitespace ∨ s.kind i = .inlineHtml ∨ (s.kind i).isWrapping = true)

section

variable {s : Store} {i : Nat} {scope : Group} {newline : String}

/-- Promoted properties are parted by edits of layout. -/
theorem promotions_onlyLayout (hnewline : isBlank newline = true) {occupied tokens : List Nat} :
    ∀ f ∈ promotions s newline occupied tokens, f.OnlyLayout s := by
  induction tokens generalizing occupied with
  | nil => simp [promotions]
  | cons p rest ih =>
    rw [promotions]
    split
    · exact List.forall_mem_cons.mpr ⟨Finding.onlyLayout_of_singleton rfl hnewline, ih⟩
    · exact ih

/-- Braces are joined and properties parted by edits of layout. -/
theorem constructorFindings_onlyLayout (hnewline : isBlank newline = true) :
    ∀ f ∈ constructorFindings s newline i scope, f.OnlyLayout s := by
  intro f hf
  unfold constructorFindings at hf
  dsimp only at hf
  rcases List.mem_append.mp hf with hf | hf
  · split at hf
    · cases hf
    · exact promotions_onlyLayout hnewline f hf
  · split at hf
    · cases hf
    · rename_i hbody
      obtain rfl := List.mem_singleton.mp hf
      rintro c ⟨⟩ e he
      obtain ⟨k, hk, rfl⟩ := List.mem_map.mp he
      simp only [Bool.or_eq_true, not_or, List.any_eq_true, bne_iff_ne] at hbody
      have hkind : s.kind k = .whitespace := by
        by_contra hne
        exact hbody.2 ⟨k, hk, hne⟩
      exact ⟨hkind, rfl⟩

/-- In front of the first content of a line that does not start in the first column stands
whitespace, text outside PHP, or a token that goes on over the end of its line. -/
theorem kind_before_firstContent (hs : Php.Sound s) (hclose : s.kind i = .closeCurly) {p : Nat}
    (hp : p + 1 = s.firstContent i) (hcolumn : (s.token (p + 1)).column ≠ 1) :
    s.kind p = .whitespace ∨ s.kind p = .inlineHtml ∨ (s.kind p).isWrapping = true := by
  have hsize : i < s.size := Store.lt_size_of_kind hclose (by decide)
  have htest : TokenTest.except (.oneOf [.whitespace, .inlineHtml]) (s.token i) = true := by
    rw [TokenTest.except, TokenTest.oneOf, show (s.token i).kind = .closeCurly from hclose]
    rfl
  obtain ⟨first, hfirst⟩ := Store.exists_findFirstOnLine htest
  have hcontent : s.firstContent i = first := by rw [Store.firstContent, hfirst]; rfl
  obtain ⟨hle, _, hline, hbefore⟩ := Store.findFirstOnLine_eq_some hfirst
  rw [hcontent] at hp
  subst hp
  rcases hbefore p rfl with hlower | hfails
  · exact .inr (.inr (hs.isWrapping_of_line_ne (by omega) (by omega) hcolumn))
  · simp only [TokenTest.except, TokenTest.oneOf, Bool.not_eq_false', List.contains_iff_mem,
      List.mem_cons, List.not_mem_nil, or_false] at hfails
    exact hfails.imp_right .inl

/-- The indentation of a closing brace is layout, or cuts off what stands in front of it in template
text. -/
theorem indentFindings_cases (hs : Php.Sound s) {settings : Settings} {lineStart closer : Nat}
    (hclose : s.kind closer = .closeCurly) {f : Finding}
    (hf : f ∈ indentFindings settings s lineStart closer) : LayoutOrCut s f := by
  unfold indentFindings at hf
  dsimp only at hf
  split at hf
  · cases hf
  · rename_i hne
    obtain rfl := List.mem_singleton.mp hf
    by_cases hlt : s.indentOf (s.firstContent closer) < s.indentOf lineStart
    · simp only [if_pos hlt]
      exact .inl (Finding.onlyLayout_of_singleton rfl (settings.indent.isBlank_pad _))
    · simp only [if_neg hlt]
      cases hprev : s.prev? (s.firstContent closer) with
      | none =>
        left
        rintro c ⟨⟩
      | some p =>
        right
        have hp := (Store.prev?_eq_some hprev).symm
        have hcolumn : (s.token (p + 1)).column ≠ 1 := by
          intro hone
          rw [← hp, Store.indentOf, hone] at hne hlt
          omega
        exact ⟨rfl, p, _, _, rfl, Text.take_append_drop (s.text p) _,
          kind_before_firstContent hs hclose hp hcolumn⟩

end

/-- What the rule finds is fixed by layout, or by a cut in template text. -/
theorem findings_cases {settings : Settings} {s : Store} (hs : Php.Sound s) {i : Nat} {f : Finding}
    (hf : f ∈ findings settings (.ofStore s) i) : LayoutOrCut s f := by
  have hnewline := File.isBlank_newline settings s
  unfold findings at hf
  dsimp only [File.ofStore_store] at hf
  split at hf
  · cases hf
  · rename_i scope hscope
    obtain ⟨_, _, hclose⟩ := hs.scope i scope hscope
    split at hf
    · cases hf
    · split at hf
      · obtain rfl := List.mem_singleton.mp hf
        exact .inl (Finding.onlyLayout_of_singleton rfl hnewline)
      · rcases List.mem_append.mp hf with hf | hf
        · split at hf
          · exact .inl (constructorFindings_onlyLayout hnewline f hf)
          · cases hf
        · split at hf
          · exact indentFindings_cases hs hclose hf
          · cases hf

/-- Whether a fix that cuts the end of a token off cuts content is a matter of what it cuts. -/
theorem cutsContent_iff {s : Store} (hs : Php.Sound s) {f : Finding} (hcode : f.code = "Indent")
    {k : Nat} {kept cut : String} (hfix : f.fix = some [.replace k kept])
    (htext : s.text k = kept ++ cut)
    (hkind : s.kind k = .whitespace ∨ s.kind k = .inlineHtml ∨ (s.kind k).isWrapping = true) :
    CutsContent s f ↔ isBlank cut = false := by
  constructor
  · rintro ⟨_, k', kept', cut', hfix', htext', hcut, _⟩
    cases hfix.symm.trans hfix'
    have hsame := congrArg String.toList (htext.symm.trans htext')
    rw [String.toList_append, String.toList_append] at hsame
    rwa [String.toList_inj.mp (List.append_cancel_left hsame)]
  · intro hcut
    refine ⟨hcode, k, kept, cut, hfix, htext, hcut, hkind.resolve_left fun hwhite => ?_⟩
    have hblank := hs.isBlank_of_whitespace hwhite
    rw [htext, Text.isBlank_append, hcut, Bool.and_false] at hblank
    cases hblank

/-- The fixes of the rule for closing braces bring no visible character in, and take some away
exactly if they cut content. -/
theorem erasing (settings : Settings) : Php.Erasing [rule settings] CutsContent := by
  intro s hs r hr i f hf c hc
  obtain rfl := List.mem_singleton.mp hr
  have hcases : LayoutOrCut s f := by
    obtain ⟨found, hfound, rfl⟩ := List.mem_map.mp hf
    exact findings_cases (f := found) hs hfound
  rcases hcases with hlayout | ⟨hcode, k, kept, cut, hfix, htext, hkind⟩
  · have hkeeps := hlayout.keeps hs hc
    refine ⟨fun e he => (hkeeps e he).erases, fun _ => ?_, fun _ e he _ => hkeeps e he⟩
    rintro ⟨_, k, kept, cut, hfix, _, _, hkind⟩
    have hblank : s.kind k = .whitespace := (hlayout _ hfix _ List.mem_cons_self).1
    simp [hblank, Kind.isWrapping] at hkind
  · have hsize : k < s.size := by
      rcases hkind with hwhite | hhtml | hwraps
      · exact Store.lt_size_of_kind hwhite (by decide)
      · exact Store.lt_size_of_kind hhtml (by decide)
      · exact Store.lt_size_of_isWrapping hwraps
    rw [hfix] at hc
    cases hc
    rw [cutsContent_iff hs hcode hfix htext hkind, Bool.not_eq_false, List.forall_mem_singleton,
      List.forall_mem_singleton, Edit.keeps_cut_iff htext]
    exact ⟨Edit.erases_of_cut htext, fun h => h hsize, fun h _ => h⟩

/-- A run with the rule for closing braces gives a report, under all settings and every budget. The
visible characters are those of the source after every one of its passes exactly if none of them
applies a fix that cuts content off the end of a text outside PHP, a string, a heredoc or a command
in backticks. -/
theorem passes_keep_visible_iff (settings : Settings) (budget : Nat) (source : String) :
    let engine := Engine.ofRules Php.tokenize [rule settings]
    ∃ report, engine.fix budget source = .ok report ∧
      report.source = engine.afterPass^[report.outcome.passes] source ∧
      ((∀ n ≤ report.outcome.passes, visible (engine.afterPass^[n] source) = visible source) ↔
        ∀ n < report.outcome.passes, ∀ p, engine.IsPass source n p →
          ∀ f, (f, .applied) ∈ p.judged → ¬ CutsContent p.store f) := by
  intro engine
  obtain ⟨report, hfix⟩ := Php.exists_fix [rule settings] budget source
  obtain ⟨hevery, happlied⟩ := (erasing settings).visible_of_fix hfix
  exact ⟨report, hfix, Engine.source_of_fix hfix, hevery.symm.trans happlied⟩

/-- The end of a template's line in front of a closing brace is cut off. -/
theorem fix_cuts_template :
    let engine := Engine.ofRules Php.tokenize [rule .stefna]
    let source := "<?php if ($a) \x7b ?>\nab<?php \x7d"
    ∃ report, engine.fix Engine.defaultBudget source = .ok report ∧
      report.source = "<?php if ($a) \x7b ?>\n<?php \x7d" ∧
      visible report.source ≠ visible source := by
  intro engine source
  obtain ⟨report, hfix⟩ := Php.exists_fix [rule .stefna] Engine.defaultBudget source
  have hsource : report.source = "<?php if ($a) \x7b ?>\n<?php \x7d" :=
    Php.source_of_previews hfix (by decide +kernel) (by decide +kernel)
  refine ⟨report, hfix, hsource, ?_⟩
  rw [hsource]
  decide

end PhpStyle.ClosingBrace
