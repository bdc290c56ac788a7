import PhpStyle.Proofs.Edit.Rewriting
import PhpStyle.Run.Engine

/-!
# The passes of a run

A run that fixes is a row of passes that change the text, followed by one that does not or by the
end of the budget. What a pass does depends on its text alone, and if the tokenizer builds a store
of every text, every pass and so every run succeeds.
-/

namespace PhpStyle

/-- A tokenizer that builds a store of every text. -/
def Tokenizer.BuildsEvery (t : Tokenizer) : Prop :=
  ∀ text, ∃ store, t text = .ok store ∧ store.source = text ∧
    ∃ lexemes outline, Store.build? lexemes outline = .ok store

/-- Takes the whole of a text for one token. -/
def Tokenizer.whole : Tokenizer := fun text =>
  match Store.build? [⟨.inlineHtml, text⟩] {} with
  | .error cause => .error (.badStructure cause)
  | .ok store => .ok store

namespace Engine

variable {e : Engine}

/-- A text is tokenized at a pass if its tokens spell it. -/
theorem tokenize_eq_ok_iff {pass : Nat} {text : String} {store : Store} :
    e.tokenize pass text = .ok store ↔ e.tokenizer text = .ok store ∧ store.source = text := by
  unfold tokenize
  cases e.tokenizer text with
  | error cause => simp
  | ok found =>
    simp only [Except.ok.injEq]
    split
    · rename_i hsource
      simp only [Except.ok.injEq]
      exact ⟨fun h => ⟨h, h ▸ hsource⟩, fun h => h.1⟩
    · rename_i hsource
      simp only [reduceCtorEq, false_iff]
      rintro ⟨rfl, h⟩
      exact hsource h

/-- What a pass does with a store. -/
def passOver (e : Engine) (store : Store) (commit : Commit) : Pass :=
  let offered := (Session.blank store).proposeAll (e.findings store)
  ⟨store, (e.findings store).zip offered.1, offered.2.defects, commit⟩

/-- A pass succeeds if the tokens spell the text and the accepted fixes can be applied; its number
does not matter for what it does. -/
theorem runPass_eq_ok_iff {pass : Nat} {text : String} {p : Pass} :
    e.runPass pass text = .ok p ↔ ∃ store commit, e.tokenizer text = .ok store ∧
      store.source = text ∧
      ((Session.blank store).proposeAll (e.findings store)).2.commit = .ok commit ∧
      p = e.passOver store commit := by
  simp only [runPass, passOver, Session.blank, bind_eq_ok_iff, tokenize_eq_ok_iff]
  refine exists_congr fun store => ?_
  generalize Session.proposeAll ⟨store, [], 0, 0, []⟩ (e.findings store) = offered
  obtain ⟨statuses, session⟩ := offered
  cases session.commit with
  | error cause => simp
  | ok commit =>
    simp only [Except.ok.injEq, exists_and_left, and_assoc]
    constructor
    · rintro ⟨htokens, hsource, rfl⟩
      exact ⟨htokens, hsource, commit, rfl, rfl⟩
    · rintro ⟨htokens, hsource, _, rfl, rfl⟩
      exact ⟨htokens, hsource, rfl⟩

/-- A pass does the same under another number. -/
theorem runPass_renumber {pass : Nat} {text : String} {p : Pass} (h : e.runPass pass text = .ok p)
    (other : Nat) : e.runPass other text = .ok p :=
  runPass_eq_ok_iff.mpr (runPass_eq_ok_iff.mp h)

/-- The store of a pass is that of its text. -/
theorem tokenize_of_runPass {pass : Nat} {text : String} {p : Pass}
    (h : e.runPass pass text = .ok p) : e.tokenize pass text = .ok p.store := by
  obtain ⟨store, commit, hstore, hsource, _, rfl⟩ := runPass_eq_ok_iff.mp h
  exact tokenize_eq_ok_iff.mpr ⟨hstore, hsource⟩

/-- Over the tokens of a store that was built, a pass succeeds. -/
theorem exists_runPass_of_build {pass : Nat} {text : String} {store : Store} {lexemes : List Lexeme}
    {outline : Outline} (hstore : e.tokenize pass text = .ok store)
    (hbuild : Store.build? lexemes outline = .ok store) : ∃ p, e.runPass pass text = .ok p := by
  obtain ⟨htokens, hsource⟩ := tokenize_eq_ok_iff.mp hstore
  obtain ⟨commit, hcommit, _⟩ := Session.commit_proposeAll hbuild (e.findings store)
  exact ⟨_, runPass_eq_ok_iff.mpr ⟨store, commit, htokens, hsource, hcommit, rfl⟩⟩

/-- From what was gathered before one pass to what was gathered before another, every pass between
them changes the text. -/
inductive Steps (e : Engine) : Nat → Progress → Nat → Progress → Prop
  | refl (pass : Nat) (g : Progress) : Steps e pass g pass g
  | step {pass last : Nat} {g final : Progress} {p : Pass} (hpass : e.runPass pass g.text = .ok p)
      (hchanged : p.commit.changed = true)
      (hrest : Steps e (pass + 1) (g.advance pass p) last final) : Steps e pass g last final

/-- How a run ends behind the passes that change the text: with a pass that does not, or with the
budget and one more look at the text. -/
inductive Ends (e : Engine) (pass : Nat) (g : Progress) : Report → Prop
  | converged {p : Pass} (hpass : e.runPass pass g.text = .ok p)
      (hchanged : p.commit.changed = false) :
      Ends e pass g (g.report (.converged pass) p.settled
        (p.defects.foldl (addNew (· == ·)) g.defects))
  | spent {store : Store} (hstore : e.tokenize pass g.text = .ok store) :
      Ends e pass g (g.report (.didNotConverge (pass - 1)) (e.diagnostics store) g.defects)

/-- A run with a report makes passes that change the text, and then ends. -/
theorem steps_of_fixFrom {pass remaining : Nat} {g : Progress} {report : Report}
    (h : e.fixFrom pass g remaining = .ok report) :
    ∃ last final, e.Steps pass g last final ∧ e.Ends last final report := by
  induction remaining generalizing pass g with
  | zero =>
    obtain ⟨store, hstore, hreport⟩ := bind_eq_ok_iff.mp h
    cases hreport
    exact ⟨pass, g, .refl pass g, .spent hstore⟩
  | succ remaining ih =>
    obtain ⟨p, hpass, hreport⟩ := bind_eq_ok_iff.mp h
    split at hreport
    · rename_i hchanged
      obtain ⟨last, final, hsteps, hends⟩ := ih hreport
      exact ⟨last, final, .step hpass hchanged hsteps, hends⟩
    · rename_i hchanged
      cases hreport
      exact ⟨pass, g, .refl pass g, .converged hpass (Bool.eq_false_iff.mpr hchanged)⟩

/-- A run whose first pass changes nothing ends with it, however large its budget. -/
theorem fix_of_unchanged {pass : Nat} {text : String} {p : Pass} (h : e.runPass pass text = .ok p)
    (hchanged : p.commit.changed = false) (budget : Nat) :
    e.fix budget text = .ok {
      outcome := .converged 1
      source := text
      diagnostics := p.settled
      defects := p.defects.foldl (addNew (· == ·)) [] } := by
  obtain ⟨remaining, hbudget⟩ : ∃ remaining, max budget 1 = remaining + 1 :=
    ⟨max budget 1 - 1, by omega⟩
  rw [fix, hbudget, fixFrom]
  refine bind_eq_ok_iff.mpr ⟨p, runPass_renumber h 1, ?_⟩
  simp [hchanged, Progress.report]

section Total

variable (htotal : e.tokenizer.BuildsEvery)

include htotal

/-- A tokenizer that builds a store of every text has tokens for every pass. -/
theorem exists_tokenize_of_total (pass : Nat) (text : String) :
    ∃ store, e.tokenize pass text = .ok store := by
  obtain ⟨store, hstore, hsource, _⟩ := htotal text
  exact ⟨store, tokenize_eq_ok_iff.mpr ⟨hstore, hsource⟩⟩

/-- With such a tokenizer every pass succeeds. -/
theorem exists_runPass (pass : Nat) (text : String) : ∃ p, e.runPass pass text = .ok p := by
  obtain ⟨store, hstore, hsource, lexemes, outline, hbuild⟩ := htotal text
  exact exists_runPass_of_build (tokenize_eq_ok_iff.mpr ⟨hstore, hsource⟩) hbuild

/-- With such a tokenizer every run gives a report. -/
theorem exists_fixFrom (pass remaining : Nat) (g : Progress) :
    ∃ report, e.fixFrom pass g remaining = .ok report := by
  induction remaining generalizing pass g with
  | zero =>
    obtain ⟨store, hstore⟩ := exists_tokenize_of_total htotal pass g.text
    exact ⟨_, bind_eq_ok_iff.mpr ⟨store, hstore, rfl⟩⟩
  | succ remaining ih =>
    obtain ⟨p, hpass⟩ := exists_runPass htotal pass g.text
    by_cases hchanged : p.commit.changed = true
    · obtain ⟨report, hreport⟩ := ih (pass + 1) (g.advance pass p)
      exact ⟨report, bind_eq_ok_iff.mpr ⟨p, hpass, by simp [hchanged, hreport]⟩⟩
    · exact ⟨_, bind_eq_ok_iff.mpr ⟨p, hpass, if_neg hchanged⟩⟩

/-- A check of a text gives a report if the tokenizer builds a store of it. -/
theorem exists_check (text : String) : ∃ report, e.check text = .ok report := by
  obtain ⟨store, hstore⟩ := exists_tokenize_of_total htotal 1 text
  exact ⟨_, bind_eq_ok_iff.mpr ⟨store, hstore, rfl⟩⟩

end Total

end Engine

end PhpStyle
