import Mathlib.Order.Bounds.Basic
import PhpStyle.Proofs.Run.Pending

/-!
# Texts that stop a run

A run trusts its tokenizer with nothing: at every pass, and once more behind a spent budget, the
tokens have to spell the text of that pass. A text whose tokens do not is refused, and the run stops
with it. Nothing else stops a run without a report, since the fixes that were accepted can always be
applied to a store that was built.
-/

namespace PhpStyle

namespace Tokenizer

/-- The tokens of a text spell it. -/
def Spells (t : Tokenizer) (text : String) : Prop :=
  ∃ store, t text = .ok store ∧ store.source = text

/-- Why a text cannot be used: it has no tokens, or they spell another text, which departs from it
behind the longest beginning that the bytes of both have in common. -/
inductive Refuses (t : Tokenizer) (text : String) : TokenizeError → Prop
  | fails {cause : TokenizeError} (herror : t text = .error cause) : Refuses t text cause
  | differs {store : Store} {offset : Nat} (hstore : t text = .ok store)
      (hother : store.source ≠ text) (hoffset : IsGreatest
        {n | ∃ common, common <+: Engine.bytes store.source ∧ common <+: Engine.bytes text ∧
          common.length = n} offset) :
      Refuses t text (.differs offset)

end Tokenizer

namespace Engine

variable {α : Type}

/-- Lists that begin with different elements, if with any, have nothing in common but the empty
beginning. -/
theorem isGreatest_zero {as bs : List α} (h : ∀ a ∈ as.head?, a ∉ bs.head?) :
    IsGreatest {n | ∃ common, common <+: as ∧ common <+: bs ∧ common.length = n} 0 := by
  refine ⟨⟨[], List.nil_prefix, List.nil_prefix, rfl⟩, ?_⟩
  rintro n ⟨common, ⟨_, rfl⟩, ⟨_, rfl⟩, rfl⟩
  cases common with
  | nil => exact Nat.le_refl 0
  | cons a common => exact absurd rfl (h a rfl)

/-- The common length of two lists is the length of the longest beginning of both. -/
theorem isGreatest_commonLength [DecidableEq α] (as bs : List α) :
    IsGreatest {n | ∃ common, common <+: as ∧ common <+: bs ∧ common.length = n}
      (commonLength as bs) := by
  fun_induction commonLength as bs with
  | case1 as a bs ih =>
    obtain ⟨⟨common, hleft, hright, hlength⟩, hlongest⟩ := ih
    refine ⟨⟨a :: common, ?_, ?_, by rw [List.length_cons, hlength]⟩, ?_⟩
    · exact List.cons_prefix_cons.mpr ⟨rfl, hleft⟩
    · exact List.cons_prefix_cons.mpr ⟨rfl, hright⟩
    rintro n ⟨other, hleft', hright', rfl⟩
    cases other with
    | nil => exact Nat.zero_le _
    | cons b other =>
      have hshorter := (List.cons_prefix_cons.mp hleft').2
      have hshorter' := (List.cons_prefix_cons.mp hright').2
      exact Nat.succ_le_succ (hlongest ⟨other, hshorter, hshorter', rfl⟩)
  | case2 a as b bs hne => exact isGreatest_zero (by simp [Ne.symm hne])
  | case3 as bs hnone =>
    apply isGreatest_zero
    cases as with
    | nil => simp
    | cons a as =>
      cases bs with
      | nil => simp
      | cons b bs => exact absurd rfl (hnone a as b bs rfl)

end Engine

namespace Tokenizer

variable {t : Tokenizer} {text : String} {cause : TokenizeError}

/-- A text that is not spelled is refused for some reason. -/
theorem exists_refuses_of_not_spells (h : ¬ t.Spells text) : ∃ cause, t.Refuses text cause := by
  cases htokens : t text with
  | error cause => exact ⟨cause, .fails htokens⟩
  | ok store =>
    have hother : store.source ≠ text := fun hsame => h ⟨store, htokens, hsame⟩
    exact ⟨_, .differs htokens hother (Engine.isGreatest_commonLength _ _)⟩

/-- A text that is refused is not spelled by its tokens. -/
theorem Refuses.not_spells (h : t.Refuses text cause) : ¬ t.Spells text := by
  rintro ⟨store, hstore, hsource⟩
  cases h with
  | fails herror => cases herror.symm.trans hstore
  | differs hstore' hother =>
    cases hstore'.symm.trans hstore
    exact hother hsource

end Tokenizer

namespace Engine

variable {e : Engine} {pass remaining : Nat} {source text : String} {error : RunError}
    {g : Progress}

/-- The guard lets the tokens of a text pass exactly if they spell it, and else says why not. -/
theorem tokenize_eq_error_iff :
    e.tokenize pass text = .error error ↔ ∃ cause, e.tokenizer.Refuses text cause ∧
      error = .tokenize pass cause := by
  have hgreatest (store : Store) := isGreatest_commonLength (bytes store.source) (bytes text)
  unfold tokenize
  constructor
  · intro h
    split at h
    · rename_i cause htokens
      cases h
      exact ⟨cause, .fails htokens, rfl⟩
    · rename_i store htokens
      split at h
      · cases h
      · rename_i hother
        cases h
        exact ⟨_, .differs htokens hother (hgreatest store), rfl⟩
  · rintro ⟨cause, hrefuses, rfl⟩
    cases hrefuses with
    | fails herror => rw [herror]
    | @differs store offset hstore hother hoffset =>
      simp only [hstore, if_neg hother, hoffset.unique (hgreatest store)]

/-- The text that passes over a text have made of it before one of them, if each of them changed its
text. Whether tokens spell their text is not asked here. -/
inductive Reaches (e : Engine) (source : String) : Nat → String → Prop
  | start : Reaches e source 1 source
  | pass {pass : Nat} {text : String} {store : Store} {commit : Commit}
      (hbefore : Reaches e source pass text) (htokens : e.tokenizer text = .ok store)
      (hcommit : ((Session.blank store).proposeAll (e.findings store)).2.commit = .ok commit)
      (hchanged : commit.changed = true) : Reaches e source (pass + 1) commit.source

/-- Passes are counted from one. -/
theorem Reaches.pos (h : e.Reaches source pass text) : 0 < pass := by
  cases h with
  | start => exact Nat.one_pos
  | pass => exact Nat.succ_pos _

/-- Before a pass there is one text. -/
theorem Reaches.unique {other : String} (h : e.Reaches source pass text)
    (hother : e.Reaches source pass other) : text = other := by
  induction h generalizing other with
  | start =>
    cases hother with
    | start => rfl
    | pass hbefore => exact absurd hbefore.pos (Nat.lt_irrefl 0)
  | @pass pass text store commit hbefore htokens hcommit hchanged ih =>
    cases hother with
    | start => exact absurd hbefore.pos (Nat.lt_irrefl 0)
    | pass hbefore' htokens' hcommit' =>
      obtain rfl := ih hbefore'
      cases htokens.symm.trans htokens'
      cases hcommit.symm.trans hcommit'
      rfl

/-- A text before a later pass comes from one that each pass on the way there has changed. -/
theorem Reaches.exists_next {later : Nat} {final : String} (h : e.Reaches source later final)
    (hbefore : e.Reaches source pass text) (hlt : pass < later) :
    ∃ next, e.Reaches source (pass + 1) next := by
  induction h with
  | start => exact absurd hbefore.pos (by omega)
  | @pass last text store commit hlast htokens hcommit hchanged ih =>
    rcases Nat.lt_or_eq_of_le (Nat.le_of_lt_succ hlt) with hearlier | rfl
    · exact ih hearlier
    · exact ⟨commit.source, .pass hlast htokens hcommit hchanged⟩

/-- A pass over a text that is reached reaches the next one, if it changes the text. -/
theorem reaches_of_runPass {p : Pass} (hreaches : e.Reaches source pass text)
    (hpass : e.runPass pass text = .ok p) (hchanged : p.commit.changed = true) :
    e.Reaches source (pass + 1) p.commit.source := by
  obtain ⟨store, commit, htokens, _, hcommit, rfl⟩ := runPass_eq_ok_iff.mp hpass
  exact .pass hreaches htokens hcommit hchanged

/-- A pass that is followed by another changed its text. -/
theorem changed_of_reaches {p : Pass} {next : String} (hreaches : e.Reaches source pass text)
    (hpass : e.runPass pass text = .ok p) (hnext : e.Reaches source (pass + 1) next) :
    p.commit.changed = true := by
  obtain ⟨store, commit, htokens, _, hcommit, rfl⟩ := runPass_eq_ok_iff.mp hpass
  cases hnext with
  | start => exact absurd hreaches.pos (Nat.lt_irrefl 0)
  | pass hbefore htokens' hcommit' hchanged =>
    obtain rfl := hbefore.unique hreaches
    cases htokens.symm.trans htokens'
    cases hcommit.symm.trans hcommit'
    exact hchanged

/-- Tokens spell every text before a pass. -/
def SpellsBefore (e : Engine) (source : String) (pass : Nat) : Prop :=
  ∀ earlier text, earlier < pass → e.Reaches source earlier text → e.tokenizer.Spells text

/-- That a run stops at a pass for a reason: this pass is the first whose text is refused. -/
structure StopsAt (e : Engine) (source : String) (pass : Nat) (cause : TokenizeError) : Prop where
  refused : ∃ text, e.Reaches source pass text ∧ e.tokenizer.Refuses text cause
  spelled : e.SpellsBefore source pass

/-- If a text is not spelled, there is a first one that is refused. -/
theorem Reaches.exists_stopsAt (hreaches : e.Reaches source pass text)
    (htext : ¬ e.tokenizer.Spells text) :
    ∃ first cause, first ≤ pass ∧ e.StopsAt source first cause := by
  induction pass using Nat.strong_induction_on generalizing text with
  | _ pass ih =>
    by_cases hspelled : e.SpellsBefore source pass
    · obtain ⟨cause, hrefuses⟩ := Tokenizer.exists_refuses_of_not_spells htext
      exact ⟨pass, cause, Nat.le_refl pass, ⟨text, hreaches, hrefuses⟩, hspelled⟩
    · simp only [SpellsBefore, not_forall] at hspelled
      obtain ⟨earlier, other, hlt, hother, hlost⟩ := hspelled
      obtain ⟨first, cause, hle, hstops⟩ := ih earlier hlt hother hlost
      exact ⟨first, cause, by omega, hstops⟩

section First

variable {last : Nat} {cause : TokenizeError} (hspelled : e.SpellsBefore source pass)

include hspelled

/-- No text is asked for behind the one that a run stops at. -/
theorem SpellsBefore.le (hstops : e.StopsAt source last cause) : pass ≤ last := by
  obtain ⟨text, hreaches, hrefuses⟩ := hstops.refused
  by_contra hlt
  exact hrefuses.not_spells (hspelled last text (by omega) hreaches)

/-- If the texts of all passes so far are spelled and so is the next, one more is. -/
theorem SpellsBefore.succ (hreaches : e.Reaches source pass text)
    (htext : e.tokenizer.Spells text) : e.SpellsBefore source (pass + 1) := by
  intro earlier other hlt hother
  rcases Nat.lt_or_eq_of_le (Nat.le_of_lt_succ hlt) with hbefore | rfl
  · exact hspelled earlier other hbefore hother
  · exact hreaches.unique hother ▸ htext

/-- A run stops at the first text that is not spelled, for the reason for which this text is
refused. -/
theorem SpellsBefore.stopsAt_iff (hreaches : e.Reaches source pass text)
    (htext : ¬ e.tokenizer.Spells text) :
    e.StopsAt source last cause ↔ last = pass ∧ e.tokenizer.Refuses text cause := by
  constructor
  · intro hstops
    have hnotLater : ¬ pass < last := fun hlt => htext (hstops.spelled pass text hlt hreaches)
    obtain rfl : pass = last := Nat.le_antisymm (hspelled.le hstops) (Nat.le_of_not_lt hnotLater)
    obtain ⟨other, hother, hrefuses⟩ := hstops.refused
    exact ⟨rfl, hreaches.unique hother ▸ hrefuses⟩
  · rintro ⟨rfl, hrefuses⟩
    exact ⟨⟨text, hreaches, hrefuses⟩, hspelled⟩

end First

/-- A check fails with the cause for which its text is refused, and with nothing else. -/
theorem check_eq_error_iff :
    e.check source = .error error ↔ ∃ cause, e.tokenizer.Refuses source cause ∧
      error = .tokenize 1 cause := by
  rw [← tokenize_eq_error_iff, check]
  cases e.tokenize 1 source with
  | error cause => simp [bind, Except.bind]
  | ok store => simp [bind, Except.bind]

/-- At the first text that is not spelled, a run stops whatever is left of its budget. -/
theorem SpellsBefore.fixFrom_eq_error_iff_of_not_spells (hspelled : e.SpellsBefore source pass)
    (hreaches : e.Reaches source pass g.text) (htext : ¬ e.tokenizer.Spells g.text) :
    e.fixFrom pass g remaining = .error error ↔
      ∃ last cause, last ≤ pass + remaining ∧ e.StopsAt source last cause ∧
      error = .tokenize last cause := by
  obtain ⟨cause, hrefuses⟩ := Tokenizer.exists_refuses_of_not_spells htext
  have hfails {cause : TokenizeError} (hrefuses : e.tokenizer.Refuses g.text cause) :
      e.fixFrom pass g remaining = .error (.tokenize pass cause) :=
    fixFrom_of_tokenize_error (tokenize_eq_error_iff.mpr ⟨cause, hrefuses, rfl⟩) remaining
  constructor
  · intro herror
    cases (hfails hrefuses).symm.trans herror
    exact ⟨pass, cause, Nat.le_add_right pass remaining,
      (hspelled.stopsAt_iff hreaches htext).mpr ⟨rfl, hrefuses⟩, rfl⟩
  · rintro ⟨last, cause, _, hstops, rfl⟩
    obtain ⟨rfl, hrefuses⟩ := (hspelled.stopsAt_iff hreaches htext).mp hstops
    exact hfails hrefuses

/-- If all texts before a pass are spelled, a run stops from there on exactly with the first text
that is refused: at one of the passes that it may still make, or behind them. -/
theorem SpellsBefore.fixFrom_eq_error_iff (hspelled : e.SpellsBefore source pass)
    (hbuilds : e.tokenizer.Builds) (hreaches : e.Reaches source pass g.text) :
    e.fixFrom pass g remaining = .error error ↔
      ∃ last cause, last ≤ pass + remaining ∧ e.StopsAt source last cause ∧
      error = .tokenize last cause := by
  induction remaining generalizing pass g with
  | zero =>
    by_cases htext : e.tokenizer.Spells g.text
    case neg => exact hspelled.fixFrom_eq_error_iff_of_not_spells hreaches htext
    have hnext := hspelled.succ hreaches htext
    obtain ⟨store, hstore⟩ := htext
    rw [fixFrom_zero_eq_error_iff, tokenize_eq_ok_iff.mpr hstore]
    constructor
    · intro herror
      cases herror
    · rintro ⟨last, cause, hle, hstops, _⟩
      exact absurd (hnext.le hstops) (by omega)
  | succ remaining ih =>
    by_cases htext : e.tokenizer.Spells g.text
    case neg => exact hspelled.fixFrom_eq_error_iff_of_not_spells hreaches htext
    have hnext := hspelled.succ hreaches htext
    obtain ⟨store, htokens, hsource⟩ := htext
    obtain ⟨lexemes, outline, hbuild⟩ := hbuilds g.text store htokens
    have hstore : e.tokenize pass g.text = .ok store := tokenize_eq_ok_iff.mpr ⟨htokens, hsource⟩
    obtain ⟨p, hpass⟩ := exists_runPass_of_build hstore hbuild
    rw [fixFrom, hpass]
    by_cases hchanged : p.commit.changed = true
    · have hrest := ih (g := g.advance pass p) hnext (reaches_of_runPass hreaches hpass hchanged)
      have hcount : pass + 1 + remaining = pass + (remaining + 1) := by omega
      rw [hcount] at hrest
      exact (Eq.congr_left (if_pos hchanged)).trans hrest
    · -- the pass converges, and no text is reached behind it
      constructor
      · intro herror
        cases (if_neg hchanged).symm.trans herror
      · rintro ⟨last, cause, _, hstops, _⟩
        obtain ⟨text, hlast, _⟩ := hstops.refused
        obtain ⟨next, hreached⟩ := hlast.exists_next hreaches (hnext.le hstops)
        exact absurd (changed_of_reaches hreaches hpass hreached) hchanged

/-- A result is a success if it is no error. -/
theorem exists_ok_iff {ε α : Type} {result : Except ε α} :
    (∃ value, result = .ok value) ↔ ∀ error, result ≠ .error error := by
  cases result with
  | error cause => simp
  | ok value => simp

/-- A run with a tokenizer that may lose what it likes fails exactly with the first text that is
refused: it names its pass, the one look behind a spent budget included, and the reason. A report is
given exactly if tokens spell every text that the run looks at. No edit ever makes it fail. -/
theorem runs_stop_at_refused_text {tokenizer : Tokenizer} (hbuilds : tokenizer.Builds)
    (rules : List Rule) (budget : Nat) (source : String) :
    let engine := ofRules tokenizer rules
    (∀ pass cause, engine.check source ≠ .error (.edit pass cause) ∧
      engine.fix budget source ≠ .error (.edit pass cause)) ∧
    (∀ error, engine.check source = .error error ↔
      ∃ cause, tokenizer.Refuses source cause ∧ error = .tokenize 1 cause) ∧
    ((∃ report, engine.check source = .ok report) ↔ tokenizer.Spells source) ∧
    (∀ error, engine.fix budget source = .error error ↔
      ∃ pass cause, pass ≤ max budget 1 + 1 ∧ engine.StopsAt source pass cause ∧
      error = .tokenize pass cause) ∧ ((∃ report, engine.fix budget source = .ok report) ↔
      ∀ pass text, pass ≤ max budget 1 + 1 → engine.Reaches source pass text →
      tokenizer.Spells text) := by
  intro engine
  have hstart : engine.SpellsBefore source 1 := fun earlier text hlt hreaches =>
      absurd hreaches.pos (by omega)
  have hfix (error : RunError) : engine.fix budget source = .error error ↔
      ∃ pass cause, pass ≤ max budget 1 + 1 ∧ engine.StopsAt source pass cause ∧
      error = .tokenize pass cause := by
    rw [Nat.add_comm]
    exact hstart.fixFrom_eq_error_iff hbuilds .start
  refine ⟨fun pass cause => ⟨fun herror => ?_, fun herror => ?_⟩, fun error => check_eq_error_iff,
    ?_, hfix, ?_⟩
  · obtain ⟨_, _, hsame⟩ := check_eq_error_iff.mp herror
    cases hsame
  · obtain ⟨_, _, _, _, hsame⟩ := (hfix _).mp herror
    cases hsame
  · rw [exists_ok_iff]
    constructor
    · intro hnone
      by_contra htext
      obtain ⟨cause, hrefuses⟩ := Tokenizer.exists_refuses_of_not_spells htext
      exact hnone _ (check_eq_error_iff.mpr ⟨cause, hrefuses, rfl⟩)
    · intro htext error herror
      obtain ⟨cause, hrefuses, _⟩ := check_eq_error_iff.mp herror
      exact hrefuses.not_spells htext
  · rw [exists_ok_iff]
    constructor
    · intro hnone pass text hle hreaches
      by_contra htext
      obtain ⟨first, cause, hfirst, hstops⟩ := hreaches.exists_stopsAt htext
      exact hnone _ ((hfix _).mpr ⟨first, cause, by omega, hstops, rfl⟩)
    · intro hall error herror
      obtain ⟨pass, cause, hle, hstops, _⟩ := (hfix error).mp herror
      obtain ⟨text, hreaches, hrefuses⟩ := hstops.refused
      exact hrefuses.not_spells (hall pass text hle hreaches)

/-- A tokenizer loses the letter that the first pass makes, for one that begins with the same
byte. -/
theorem runs_stop_at_refused_text_mid_character :
    let tokenizer : Tokenizer := fun text => Tokenizer.whole (if text = "é" then "è" else text)
    let rule : Rule := ⟨"Rule", "", [.inlineHtml], .anywhere fun file i =>
      if file.store.text i = "a" then
        [{ code := "Accent", index := i, message := "", fix := some [.replace i "é"] }]
      else []⟩
    let engine := ofRules tokenizer [rule]
    tokenizer.Builds ∧ (∃ report, engine.check "a" = .ok report) ∧
      engine.fix 5 "a" = .error (.tokenize 2 (.differs 1)) ∧ engine.StopsAt "a" 2 (.differs 1) ∧
      ¬ ∃ report, engine.fix 1 "a" = .ok report := by
  intro tokenizer rule engine
  have hbuilds : tokenizer.Builds := fun text store hstore => Tokenizer.builds_whole _ store hstore
  have hfix : engine.fix 5 "a" = .error (.tokenize 2 (.differs 1)) := by
    unfold engine tokenizer rule
    decide +kernel
  obtain ⟨_, _, hcheck, herror, _⟩ := runs_stop_at_refused_text hbuilds [rule] 5 "a"
  obtain ⟨pass, cause, _, hstops, hsame⟩ := (herror _).mp hfix
  cases hsame
  obtain ⟨text, hreaches, hrefuses⟩ := hstops.refused
  obtain ⟨_, _, _, _, hreport⟩ := runs_stop_at_refused_text hbuilds [rule] 1 "a"
  refine ⟨hbuilds, hcheck.mpr (hstops.spelled 1 "a" (by decide) .start), hfix, hstops,
    fun hreported => ?_⟩
  exact hrefuses.not_spells (hreport.mp hreported 2 text (by decide) hreaches)

end Engine

end PhpStyle
