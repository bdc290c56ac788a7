import PhpStyle.Proofs.Run.Preview
import PhpStyle.Proofs.Run.Rearranging
import PhpStyle.Proofs.Standard.Layout
import PhpStyle.Standard.FunctionHead

/-!
# What fixes of function heads leave

The fixes of the two rules for the brace of a function put blanks in, take whitespace away and bring
the brace back behind the declaration. Two of them go wrong. The indentation of a brace is put in
place of the token in front of it, whatever that is: a comment is lost, and so is a string that ends
there. And the parentheses of a `use` list are looked for past the brace: if they are found there,
it moves on across code.
-/

namespace PhpStyle

open Text (isBlank visible)

namespace BraceBelow

variable {settings : Settings} {s : Store} {newline : String} {i brace prev : Nat}

/-- A brace is put on the next line by edits of layout. -/
theorem onSameLine_onlyLayout (hs : Php.Sound s) (hnewline : isBlank newline = true) :
    ∀ f ∈ onSameLine s newline brace, f.OnlyLayout s := by
  simp only [onSameLine, List.mem_singleton]
  rintro _ rfl c ⟨⟩ e he
  rcases List.mem_cons.mp he with rfl | he
  · have hindent :
        isBlank (if s.kind (s.lineStart brace) = .whitespace then s.text (s.lineStart brace)
        else "") = true := by
      split
      · rename_i hkind
        exact hs.isBlank_of_whitespace hkind
      · rfl
    change isBlank (newline ++ _) = true
    rw [Text.isBlank_append, hnewline, hindent]
    rfl
  · split at he
    · rename_i hkind
      obtain rfl := List.mem_singleton.mp he
      exact ⟨hkind, rfl⟩
    · cases he

/-- A brace that stands too far below is moved up by edits of layout. -/
theorem tooFarBelow_onlyLayout {closer : Nat} (hnewline : isBlank newline = true) :
    ∀ f ∈ tooFarBelow s newline closer prev brace, f.OnlyLayout s := by
  simp only [tooFarBelow, List.mem_singleton]
  rintro _ rfl c hc e he
  dsimp only at hc
  split at hc
  · rename_i honly
    obtain ⟨_, _, _, hblank⟩ := Store.prevVisible?_eq_some honly
    cases hc
    obtain ⟨p, hp, hedit⟩ := List.mem_filterMap.mp he
    obtain ⟨hlow, hhigh⟩ := Store.mem_between.mp hp
    split at hedit
    · rename_i hline
      cases hedit
      have hne : p ≠ brace := by
        rintro rfl
        simp [Store.sameLine] at hline
      exact ⟨hblank p hlow (by omega), rfl⟩
    · split at hedit
      · cases hedit
        exact hnewline
      · cases hedit
  · cases hc

/-- What follows an opening brace is put on the next line by an edit of layout. -/
theorem contentBehind_onlyLayout {scope : Group} (hnewline : isBlank newline = true) :
    ∀ f ∈ contentBehind s newline scope, f.OnlyLayout s := by
  unfold contentBehind
  dsimp only
  split
  · simp
  · split
    · simp only [List.mem_singleton]
      rintro _ rfl
      exact Finding.onlyLayout_of_singleton rfl hnewline
    · simp

/-- The token in front of a brace that stands on the line below its declaration, but not in the
first column: whitespace, a comment that shows, or a token that goes on over the end of its line. -/
theorem before_brace_cases (hs : Php.Sound s) (hbrace : s.kind brace = .openCurly) {closer : Nat}
    (hcloser : s.kind closer = .closeParen)
    (hdistance : s.line brace - s.line ((s.prevCodeDownTo? brace closer).getD closer) = 1)
    (hcolumn : s.indentOf brace ≠ 0) :
    s.kind (brace - 1) = .whitespace ∨
      (s.kind (brace - 1)).isComment = true ∧ visible (s.text (brace - 1)) ≠ [] ∨
      (s.kind (brace - 1)).isWrapping = true := by
  have hsize : brace < s.size := Store.lt_size_of_kind hbrace (by decide)
  have hcloserSize : closer < s.size := Store.lt_size_of_kind hcloser (by decide)
  have hlt : closer < brace := by
    by_contra hge
    cases hprev : s.prevCodeDownTo? brace closer with
    | some prev =>
      obtain ⟨hle, hprevlt, _⟩ := Store.prevCodeDownTo?_eq_some hprev
      omega
    | none =>
      rw [hprev, Option.getD_none] at hdistance
      have hle := hs.line_le (Nat.le_of_not_lt hge) hcloserSize
      omega
  have hnext : brace - 1 + 1 = brace := by omega
  have hfirst : (s.token (brace - 1 + 1)).column ≠ 1 := by
    rw [hnext]
    intro hcolumn'
    simp [Store.indentOf, hcolumn'] at hcolumn
  by_cases hspace : s.kind (brace - 1) = .whitespace
  · exact .inl hspace
  by_cases hcomment : (s.kind (brace - 1)).isComment = true
  · refine .inr (.inl ⟨hcomment, hs.visible_ne_nil_of_isComment (by omega) hcomment ?_ hfirst⟩)
    rw [hnext, hbrace]
    rfl
  · refine .inr (.inr (hs.isWrapping_of_line_ne (by omega) ?_ hfirst))
    have hcode : (s.kind (brace - 1)).isTrivia = false := by simp [Kind.isTrivia, hspace, hcomment]
    have hprev : (s.prevCodeDownTo? brace closer).getD closer = brace - 1 := by
      cases hprev : s.prevCodeDownTo? brace closer with
      | some prev =>
        obtain ⟨_, hprevlt, _, htrivia⟩ := Store.prevCodeDownTo?_eq_some hprev
        by_contra hne
        rw [Option.getD_some] at hne
        simp [htrivia (brace - 1) (by omega) (by omega)] at hcode
      | none =>
        simp [Store.prevCodeDownTo?_eq_none hprev (brace - 1) (by omega) (by omega)] at hcode
    rw [hprev] at hdistance
    rw [hnext]
    omega

/-- The indentation of a brace is layout, or it takes the place of a comment or of a token that runs
over lines. -/
theorem indentFindings_shifts (hs : Php.Sound s) (hbrace : s.kind brace = .openCurly) {closer : Nat}
    (hcloser : s.kind closer = .closeParen)
    (hdistance : s.line brace - s.line ((s.prevCodeDownTo? brace closer).getD closer) = 1) :
    ∀ f ∈ indentFindings settings s i brace, f.Shifts s := by
  unfold indentFindings
  dsimp only
  split
  · simp
  · simp only [List.mem_singleton]
    rintro _ rfl
    have hpad := settings.indent.isBlank_pad (s.indentOf (s.firstVisible i))
    by_cases hcolumn : s.indentOf brace = 0
    · simp only [if_pos hcolumn]
      exact .inl (Finding.onlyLayout_of_singleton rfl hpad)
    · simp only [if_neg hcolumn]
      rcases before_brace_cases hs hbrace hcloser hdistance hcolumn with hspace | hlost
      · exact .inl (Finding.onlyLayout_of_singleton rfl ⟨hspace, hpad⟩)
      · exact .inr (.inr ⟨_, _, rfl, hpad, hlost⟩)

/-- What the rule for the brace of a named function finds. -/
theorem findings_shifts (hs : Php.Sound s) :
    ∀ f ∈ findings settings (.ofStore s) i, f.Shifts s := by
  have hnewline := File.isBlank_newline settings s
  intro f hf
  unfold findings at hf
  dsimp only [File.ofStore_store] at hf
  split at hf
  · rename_i scope parens hscope hparens
    obtain ⟨_, hbrace, _⟩ := hs.scope i scope hscope
    obtain ⟨_, _, hcloser⟩ := hs.paren i parens hparens
    split at hf
    · cases hf
    · rcases List.mem_append.mp hf with hf | hf
      · rcases List.mem_append.mp hf with hf | hf
        · split at hf
          · exact .inl (onSameLine_onlyLayout hs hnewline f hf)
          · split at hf
            · exact .inl (tooFarBelow_onlyLayout hnewline f hf)
            · cases hf
        · exact .inl (contentBehind_onlyLayout hnewline f hf)
      · split at hf
        · rename_i hdistance
          exact indentFindings_shifts hs hbrace hcloser hdistance f hf
        · cases hf
  · cases hf

end BraceBelow

namespace Declaration

variable {settings : Settings} {s : Store} {newline : String} {i : Nat}

/-- A closing parenthesis gets its own line by an edit of layout. -/
theorem closeLine_onlyLayout {g : Group} (hnewline : isBlank newline = true) :
    ∀ f ∈ closeLine s newline g, f.OnlyLayout s := by
  unfold closeLine
  split
  · simp
  · split
    · simp
    · simp only [List.mem_singleton]
      rintro _ rfl
      exact Finding.onlyLayout_of_singleton rfl hnewline

/-- The blank in front of a brace is layout. -/
theorem braceBlank_onlyLayout {before : Nat} : ∀ f ∈ braceBlank s before, f.OnlyLayout s := by
  unfold braceBlank
  dsimp only
  generalize hlength : (if s.kind before = .whitespace then (s.text before).utf8ByteSize else 0) =
    length
  intro f hf
  split at hf
  · cases hf
  · obtain rfl := List.mem_singleton.mp hf
    refine Finding.onlyLayout_of_singleton rfl ?_
    split
    · exact rfl
    · rename_i hne
      refine ⟨?_, rfl⟩
      by_contra hkind
      exact hne (hlength.symm.trans (if_neg hkind))

/-- What is known of the closing parenthesis behind which a brace belongs. -/
theorem closer_spec (hs : Php.Sound s) {parens : Group} (hparens : s.paren? i = some parens) :
    s.kind ((useParens? s i parens.closer).getD parens).closer = .closeParen := by
  cases huse : useParens? s i parens.closer with
  | none => exact (hs.paren i parens hparens).2.2
  | some use =>
    simp only [useParens?, Option.bind_eq_bind, Option.bind_eq_some_iff] at huse
    obtain ⟨_, _, _, _, _, _, opener, _, g, hg, heq⟩ := huse
    cases heq
    exact (hs.paren opener g hg).2.2

section

variable (hs : Php.Sound s) {closer brace : Nat} (hcloser : s.kind closer = .closeParen)
  (hbrace : s.kind brace = .openCurly)

include hcloser

include hs in
/-- In front of a brace on a later line than the last visible token there is whitespace only. -/
theorem blank_before_brace
    (hline : s.line ((s.prevVisible? brace (some closer)).getD closer) < s.line brace) :
    (s.prevVisible? brace (some closer)).getD closer < brace ∧
      ∀ k, (s.prevVisible? brace (some closer)).getD closer < k → k < brace →
        s.kind k = .whitespace := by
  cases hprev : s.prevVisible? brace (some closer) with
  | some prev =>
    obtain ⟨_, hlt, _, hblank⟩ := Store.prevVisible?_eq_some hprev
    exact ⟨hlt, hblank⟩
  | none =>
    rw [hprev, Option.getD_none] at hline
    rw [Option.getD_none]
    have hblank := Store.prevVisible?_eq_none hprev
    have hsize : closer < s.size := Store.lt_size_of_kind hcloser (by decide)
    refine ⟨?_, fun k hk => hblank k (Nat.le_of_lt hk)⟩
    by_contra hge
    exact absurd (hs.line_le (Nat.le_of_not_lt hge) hsize) (Nat.not_le_of_lt hline)

include hbrace

/-- The end of a declaration is code, and between it and the brace there is none. If the brace comes
first, it is the closing parenthesis. -/
theorem raisesBrace_of_edits {rest : Changeset} (htake : Edit.replace brace "" ∈ rest)
    (hothers : ∀ e ∈ rest, e = .replace brace "" ∨ e.IsLayout s) :
    RaisesBrace s ((s.prevCodeDownTo? brace closer).getD closer) brace rest := by
  cases hprev : s.prevCodeDownTo? brace closer with
  | some prev =>
    obtain ⟨_, hlt, hcode, htrivia⟩ := Store.prevCodeDownTo?_eq_some hprev
    exact ⟨htake, hothers, hbrace, hcode, htrivia, fun hon => absurd hon (Nat.lt_asymm hlt)⟩
  | none =>
    have htrivia := Store.prevCodeDownTo?_eq_none hprev
    exact ⟨htake, hothers, hbrace, by rw [Option.getD_none, hcloser]; rfl,
      fun k hk => htrivia k (Nat.le_of_lt hk), fun _ => hcloser⟩

include hs

/-- The edits that raise a brace move it behind the end of the declaration, and take whitespace
away. -/
theorem raiseBrace_spec :
    let prev := (s.prevCodeDownTo? brace closer).getD closer
    let lastVisible := (s.prevVisible? brace (some closer)).getD closer
    ∃ rest, raiseBrace s prev lastVisible brace = .append prev " \x7b" :: rest ∧
      RaisesBrace s prev brace rest := by
  intro prev lastVisible
  unfold raiseBrace
  dsimp only
  split
  · rename_i halone
    obtain ⟨hline, hbelow⟩ := halone
    obtain ⟨next, hnext, _⟩ := (Option.any_eq_true _ _).mp hbelow
    obtain ⟨hlow, hbefore⟩ := blank_before_brace hs hcloser hline
    obtain ⟨hhigh, _, _, hbehind⟩ := Store.nextVisible?_eq_some hnext
    rw [hnext, Option.getD_some]
    refine ⟨_, rfl, raisesBrace_of_edits hcloser hbrace ?_ fun e he => ?_⟩
    · have hmem : brace ∈ s.between lastVisible next := Store.mem_between.mpr ⟨hlow, hhigh⟩
      exact List.mem_map_of_mem (List.mem_filter.mpr ⟨hmem, by simp [Store.sameLine]⟩)
    · obtain ⟨k, hk, rfl⟩ := List.mem_map.mp he
      obtain ⟨hlast, hk⟩ := Store.mem_between.mp (List.mem_of_mem_filter hk)
      rcases Nat.lt_trichotomy k brace with hlt | rfl | hgt
      · exact .inr ⟨hbefore k hlast hlt, rfl⟩
      · exact .inl rfl
      · exact .inr ⟨hbehind k hgt hk, rfl⟩
  · refine ⟨_, rfl, raisesBrace_of_edits hcloser hbrace List.mem_cons_self fun e he => ?_⟩
    rcases List.mem_cons.mp he with rfl | he
    · exact .inl rfl
    · split at he
      · rename_i hgap
        obtain rfl := List.mem_singleton.mp he
        obtain ⟨next, hnext, hgap⟩ := (Option.any_eq_true _ _).mp hgap
        obtain ⟨hlt, _, _, hbehind⟩ := Store.nextVisible?_eq_some hnext
        have hne : next ≠ brace + 1 := by simpa using (Bool.and_eq_true_iff.mp hgap).2
        exact .inr ⟨hbehind (brace + 1) (Nat.lt_succ_self brace) (by omega), rfl⟩
      · cases he

end

/-- A brace is raised to the line of its parenthesis if it is moved at all. -/
theorem braceLine_shifts (hs : Php.Sound s) {closer brace : Nat}
    (hcloser : s.kind closer = .closeParen) (hbrace : s.kind brace = .openCurly) :
    ∀ f ∈ braceLine s closer brace, f.Shifts s := by
  simp only [braceLine, List.mem_singleton]
  rintro _ rfl
  obtain ⟨rest, hraise, hspec⟩ := raiseBrace_spec hs hcloser hbrace
  split
  · exact .inl nofun
  · exact .inr (.inl ⟨_, rest, congrArg some hraise, hspec⟩)

/-- The fixes for a head of several lines shift braces and layout. -/
theorem multiLine_shifts (hs : Php.Sound s) (hnewline : isBlank newline = true) {parens : Group}
    (hparens : s.paren? i = some parens) : ∀ f ∈ multiLine s newline i parens, f.Shifts s := by
  have hlists : ∀ f ∈ closeLine s newline parens ++
      (useParens? s i parens.closer).toList.flatMap (closeLine s newline), f.Shifts s := by
    intro f hf
    rcases List.mem_append.mp hf with hf | hf
    · exact .inl (closeLine_onlyLayout hnewline f hf)
    · obtain ⟨use, _, hf⟩ := List.mem_flatMap.mp hf
      exact .inl (closeLine_onlyLayout hnewline f hf)
  intro f hf
  unfold multiLine at hf
  dsimp only at hf
  split at hf
  · exact hlists f hf
  · rename_i scope hscope
    rcases List.mem_append.mp hf with hf | hf
    · exact hlists f hf
    · split at hf
      · exact .inl (braceBlank_onlyLayout f hf)
      · exact braceLine_shifts hs (closer_spec hs hparens) (hs.scope i scope hscope).2.1 f hf

/-- The fixes for a head of one line shift braces and layout. -/
theorem singleLine_shifts (hs : Php.Sound s) :
    ∀ f ∈ singleLine settings (.ofStore s) i, f.Shifts s := by
  intro f hf
  unfold singleLine at hf
  dsimp only [File.ofStore_store] at hf
  split at hf
  · exact BraceBelow.findings_shifts hs f hf
  · split at hf
    · cases hf
    · split at hf
      · rename_i hspace
        obtain rfl := List.mem_singleton.mp hf
        exact .inl (Finding.onlyLayout_of_singleton rfl ⟨hspace.2, rfl⟩)
      · exact BraceBelow.findings_shifts hs f hf

/-- What the rule for declarations of functions finds. -/
theorem findings_shifts (hs : Php.Sound s) :
    ∀ f ∈ findings settings (.ofStore s) i, f.Shifts s := by
  intro f hf
  unfold findings at hf
  dsimp only [File.ofStore_store] at hf
  split at hf
  · cases hf
  · rename_i parens hparens
    split at hf
    · exact multiLine_shifts hs (File.isBlank_newline settings s) hparens f hf
    · exact singleLine_shifts hs f hf

/-- Whatever the rule for declarations of functions finds shifts, and so does what the rule for the
brace of a named function finds. -/
theorem shifting (settings : Settings) (below : Bool) :
    Php.Shifting [if below then BraceBelow.rule settings else rule settings] := by
  intro s hs r hr i f hf
  obtain rfl := List.mem_singleton.mp hr
  cases below
  · obtain ⟨found, hfound, rfl⟩ := List.mem_map.mp hf
    exact findings_shifts hs found hfound
  · obtain ⟨found, hfound, rfl⟩ := List.mem_map.mp hf
    exact BraceBelow.findings_shifts hs found hfound

/-- A run with one of the rules for the brace of a function gives a report, under all settings and
every budget. In each of its passes the accepted edits keep the code and the comments exactly if no
applied fix puts the indentation of a brace in place of a comment or of a string, a heredoc or a
command in backticks, and none moves a brace on. -/
theorem passes_keep_code_iff (settings : Settings) (below : Bool) (budget : Nat) (source : String) :
    let engine := Engine.ofRules Php.tokenize
      [if below then BraceBelow.rule settings else rule settings]
    ∃ report, engine.fix budget source = .ok report ∧
      ∀ n < report.outcome.passes, ∃ p, engine.IsPass source n p ∧
        p.store.source = engine.afterPass^[n] source ∧
        p.store.rewrite (appliedEdits p.judged) = engine.afterPass^[n + 1] source ∧
        (KeepsCode p.store (appliedEdits p.judged) ↔
          ∀ f, (f, .applied) ∈ p.judged → ¬ f.CoversContent p.store ∧ ¬ f.MovesBraceOn) := by
  intro engine
  have hrules := shifting settings below
  obtain ⟨report, hfix⟩ := Php.exists_fix _ budget source
  refine ⟨report, hfix, fun n _ => ?_⟩
  obtain ⟨p, hp⟩ := Php.exists_isPass _ source n
  obtain ⟨_, hsource, _, hafter, _⟩ := Php.pass_spec hp
  refine ⟨p, hp, hsource, ?_, hrules.keepsCode_iff hp⟩
  rw [Function.iterate_succ_apply', ← hafter]

/-- A comment in front of a brace is lost when the brace is indented. -/
theorem fix_drops_comment :
    let engine := Engine.ofRules Php.tokenize [rule .stefna]
    let source := "<?php\nfunction foo()\n/* c */\x7b\n\x7d\n"
    ∃ report p, engine.fix Engine.defaultBudget source = .ok report ∧
      report.source = "<?php\nfunction foo()\n\x7b\n\x7d\n" ∧
      0 < report.outcome.passes ∧ engine.IsPass source 0 p ∧
      ¬ KeepsCode p.store (appliedEdits p.judged) := by
  intro engine source
  obtain ⟨report, hfix⟩ := Php.exists_fix [rule .stefna] Engine.defaultBudget source
  have hfirst : Php.preview [rule .stefna] source = some "<?php\nfunction foo()\n\x7b\n\x7d\n" := by
    decide +kernel
  have hsource := Php.source_of_previews hfix hfirst (by decide +kernel)
  obtain ⟨p, hp⟩ := Php.exists_isPass [rule .stefna] source 0
  refine ⟨report, p, hfix, hsource, Engine.passes_pos_of_fix hfix, hp, fun hkeeps => ?_⟩
  obtain ⟨hsound, hstore, _, hrewrite, _⟩ := Php.pass_spec hp
  have hlength := (hkeeps.visible_perm hsound).length_eq
  rw [← hrewrite, hstore, Function.iterate_zero_apply, Php.afterPass_of_preview hfirst] at hlength
  revert hlength
  decide

end Declaration

end PhpStyle
