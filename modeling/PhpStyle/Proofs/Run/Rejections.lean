import PhpStyle.Proofs.Run.Defects
import PhpStyle.Proofs.Run.Frames

/-!
# What becomes of rejected findings

A finding whose fix was turned down in some pass is not lost: the report shows its problem, either
because the last sweep found it again or behind what that sweep found. A malformed fix leaves a
defect of its rule as well. Along a run both follow from what a pass adds to the gathered findings
and defects, which only ever grow.
-/

namespace PhpStyle

namespace Diagnostic

/-- Two diagnostics show the same problem if rule, code and message agree, wherever they stand. -/
theorem sameProblem_iff {a b : Diagnostic} :
    a.sameProblem b = true ↔ a.rule = b.rule ∧ a.code = b.code ∧ a.message = b.message := by
  simp [sameProblem, and_assoc]

/-- A diagnostic shows its own problem. -/
@[simp] theorem sameProblem_refl (d : Diagnostic) : d.sameProblem d = true := by simp [sameProblem]

/-- Diagnostics that show the problem of a third show the same one. -/
theorem sameProblem_trans {a b c : Diagnostic} (hab : a.sameProblem b = true)
    (hbc : b.sameProblem c = true) : a.sameProblem c = true := by
  obtain ⟨hrule, hcode, hmessage⟩ := sameProblem_iff.mp hab
  obtain ⟨hrule', hcode', hmessage'⟩ := sameProblem_iff.mp hbc
  exact sameProblem_iff.mpr ⟨hrule.trans hrule', hcode.trans hcode', hmessage.trans hmessage'⟩

/-- A problem is among diagnostics, at whatever position. -/
def Among (d : Diagnostic) (shown : List Diagnostic) : Prop := ∃ s ∈ shown, s.sameProblem d = true

/-- The rule that found a problem is blamed for it by one of the defects. -/
def BlamedIn (d : Diagnostic) (defects : List Defect) : Prop :=
  ∃ defect ∈ defects, defect.rule = d.rule ∧ defect.code = d.code

/-- Further defects leave a rule blamed. -/
theorem BlamedIn.mono {d : Diagnostic} {defects more : List Defect} (h : d.BlamedIn defects)
    (hsub : defects ⊆ more) : d.BlamedIn more := by
  obtain ⟨defect, hdefect, hblamed⟩ := h
  exact ⟨defect, hsub hdefect, hblamed⟩

end Diagnostic

namespace Engine

section Gathering

variable {α : Type} {same : α → α → Bool}

/-- What is known stays known when new elements are gathered. -/
theorem subset_foldl_addNew (known new : List α) : known ⊆ new.foldl (addNew same) known := by
  obtain ⟨rest, hrest, _⟩ := exists_foldl_addNew same known new
  exact hrest ▸ List.subset_append_left known rest

/-- Of every element gathered there is one that counts as the same. -/
theorem exists_same_foldl_addNew (hrefl : ∀ a, same a a = true) {new : List α} {a : α}
    (ha : a ∈ new) (known : List α) : ∃ k ∈ new.foldl (addNew same) known, same k a = true := by
  induction new generalizing known with
  | nil => cases ha
  | cons b new ih =>
    rcases List.mem_cons.mp ha with rfl | ha
    · obtain ⟨k, hk, hsame⟩ : ∃ k ∈ addNew same known a, same k a = true := by
        unfold addNew
        split
        · rename_i hany
          exact List.any_eq_true.mp hany
        · exact ⟨a, by simp, hrefl a⟩
      exact ⟨k, subset_foldl_addNew _ new hk, hsame⟩
    · exact ih ha (addNew same known b)

end Gathering

end Engine

namespace Session

/-- An offer keeps the defects there are. -/
theorem defects_subset_propose (s : Session) (f : Finding) :
    s.defects ⊆ (s.propose f).2.defects := by
  rcases s.propose_cases f with ⟨_, h⟩ | ⟨_, _, ⟨i, _, h⟩ | ⟨_, _, h⟩ | ⟨_, _, h⟩⟩
  · simp [h]
  · simp [h]
  · simp [h]
  · simp [h]

/-- Offers one after the other keep the defects there are. -/
theorem defects_subset_proposeAll (s : Session) (findings : List Finding) :
    s.defects ⊆ (s.proposeAll findings).2.defects := by
  induction findings generalizing s with
  | nil => exact List.Subset.refl s.defects
  | cons f rest ih => exact List.Subset.trans (s.defects_subset_propose f) (ih (s.propose f).2)

/-- A malformed fix leaves a defect under its rule and code. -/
theorem exists_defect_of_propose {s : Session} {f : Finding} (h : (s.propose f).1 = .malformed) :
    ∃ defect ∈ (s.propose f).2.defects, defect.rule = f.rule ∧ defect.code = f.code := by
  rcases s.propose_cases f with ⟨_, hf⟩ | ⟨_, _, ⟨i, _, hf⟩ | ⟨_, _, hf⟩ | ⟨_, _, hf⟩⟩
  · cases (congrArg Prod.fst hf).symm.trans h
  · exact ⟨twiceEdited s.store f i, by simp [hf], rfl, rfl⟩
  · cases (congrArg Prod.fst hf).symm.trans h
  · cases (congrArg Prod.fst hf).symm.trans h

/-- Every offer that is answered as malformed leaves a defect. -/
theorem exists_defect_of_malformed (s : Session) {findings : List Finding} {f : Finding}
    (h : (f, .malformed) ∈ findings.zip (s.proposeAll findings).1) :
    ∃ defect ∈ (s.proposeAll findings).2.defects, defect.rule = f.rule ∧ defect.code = f.code := by
  induction findings generalizing s with
  | nil => simp at h
  | cons first rest ih =>
    rcases List.mem_cons.mp h with heq | h
    · obtain ⟨rfl, hstatus⟩ := Prod.mk.inj heq
      obtain ⟨defect, hdefect, hblamed⟩ := exists_defect_of_propose hstatus.symm
      exact ⟨defect, (s.propose f).2.defects_subset_proposeAll rest hdefect, hblamed⟩
    · exact ih (s.propose first).2 h

end Session

namespace Engine

variable {e : Engine} {pass last : Nat} {text : String} {g final : Progress} {p : Pass}

/-- A pass blames the rule of every fix that it finds malformed. -/
theorem blamedIn_of_runPass (h : e.runPass pass text = .ok p) {j : Finding × FixStatus}
    (hj : j ∈ p.judged) (hstatus : j.2 = .malformed) (status : FixStatus) :
    (j.1.detach p.store status).BlamedIn p.defects := by
  obtain ⟨store, commit, _, _, _, rfl⟩ := runPass_eq_ok_iff.mp h
  obtain ⟨f, _⟩ := j
  cases hstatus
  exact (Session.blank store).exists_defect_of_malformed hj

/-- A problem among diagnostics is still among them, and among others, once they are gathered. -/
theorem among_foldl_addNew {d : Diagnostic} {known new : List Diagnostic}
    (h : d.Among known ∨ d.Among new) :
    d.Among (new.foldl (addNew Diagnostic.sameProblem) known) := by
  rcases h with ⟨s, hs, hsame⟩ | ⟨s, hs, hsame⟩
  · exact ⟨s, subset_foldl_addNew known new hs, hsame⟩
  · obtain ⟨k, hk, hknown⟩ := exists_same_foldl_addNew Diagnostic.sameProblem_refl hs known
    exact ⟨k, hk, Diagnostic.sameProblem_trans hknown hsame⟩

/-- Every new defect is gathered, as a defect counts as the same as itself only. -/
theorem new_subset_foldl_addNew (known new : List Defect) :
    new ⊆ new.foldl (addNew (· == ·)) known := by
  intro defect hdefect
  have hrefl (a : Defect) : (fun a b : Defect => a == b) a a = true := beq_self_eq_true a
  obtain ⟨k, hk, hsame⟩ := exists_same_foldl_addNew hrefl hdefect known
  exact eq_of_beq hsame ▸ hk

/-- A run has kept the problem of every finding listed as turned down, and a defect if it was
malformed. -/
structure Progress.Records (g : Progress) : Prop where
  conflicted : ∀ s ∈ g.passes, ∀ d ∈ s.conflicted, d.status = .conflicted
  malformed : ∀ s ∈ g.passes, ∀ d ∈ s.malformed, d.status = .malformed
  kept : ∀ d ∈ turnedDown g.passes, d.Among g.rejected
  blamed : ∀ s ∈ g.passes, ∀ d ∈ s.malformed, d.BlamedIn g.defects

/-- A pass lists what it turns down by status, adds its problems to those kept, and its defects to
those gathered. -/
theorem Progress.Records.advance (h : g.Records) (hpass : e.runPass pass text = .ok p) :
    (g.advance pass p).Records where
  conflicted := List.forall_mem_append.mpr
    ⟨h.conflicted, List.forall_mem_singleton.mpr Pass.status_of_mem_withStatus⟩
  malformed := List.forall_mem_append.mpr
    ⟨h.malformed, List.forall_mem_singleton.mpr Pass.status_of_mem_withStatus⟩
  kept := by
    change ∀ d ∈ turnedDown (g.passes ++ [p.summary pass]), d.Among _
    rw [turnedDown_append_singleton, List.forall_mem_append]
    refine ⟨fun d hd => among_foldl_addNew (.inl (h.kept d hd)), fun d hd => ?_⟩
    exact among_foldl_addNew (.inr ⟨d, hd, d.sameProblem_refl⟩)
  blamed := by
    refine List.forall_mem_append.mpr ⟨fun s hs d hd => ?_,
      List.forall_mem_singleton.mpr fun d hd => ?_⟩
    · exact (h.blamed s hs d hd).mono (subset_foldl_addNew g.defects p.defects)
    · obtain ⟨j, hj, rfl⟩ := List.mem_map.mp hd
      obtain ⟨hjudged, hstatus⟩ := List.mem_filter.mp hj
      have hblamed := blamedIn_of_runPass hpass hjudged (of_decide_eq_true hstatus) j.2
      exact hblamed.mono (new_subset_foldl_addNew g.defects p.defects)

/-- What is recorded stays recorded from pass to pass. -/
theorem Steps.records (h : e.Steps pass g last final) (hg : g.Records) : final.Records := by
  induction h with
  | refl => exact hg
  | step hpass _ _ ih => exact ih (hg.advance hpass)

/-- Diagnostics that are the findings in a store, in their order, each with some status. -/
def Shows (e : Engine) (store : Store) (shown : List Diagnostic) : Prop :=
  List.Forall₂ (fun f d => ∃ status, d = f.detach store status) (e.findings store) shown

/-- A sweep without fixes shows the findings. -/
theorem shows_diagnostics (store : Store) : e.Shows store (e.diagnostics store) := by
  unfold Shows diagnostics
  rw [List.forall₂_map_right_iff]
  exact List.forall₂_same.mpr fun f _ => ⟨untried f, rfl⟩

/-- A pass that changes nothing shows what it found. -/
theorem shows_settled (h : e.runPass pass text = .ok p) : e.Shows p.store p.settled := by
  unfold Shows Pass.settled
  rw [← map_fst_judged h, List.forall₂_map_left_iff, List.forall₂_map_right_iff]
  exact List.forall₂_same.mpr fun j _ => ⟨_, rfl⟩

/-- Every run shows what its last sweep finds in the final text, and gathers the defects of its
passes. -/
theorem Ends.exists_sweep {report : Report} (h : e.Ends pass g report) :
    ∃ store shown, e.tokenizer report.source = .ok store ∧ e.Shows store shown ∧
      report.diagnostics = g.rejected.foldl (addNew Diagnostic.sameProblem) shown ∧
      report.passes = g.passes ∧ g.defects ⊆ report.defects ∧
      ∀ d ∈ shown, d.status = .malformed → d.BlamedIn report.defects := by
  cases h with
  | spent hstore =>
    rename_i store
    refine ⟨store, e.diagnostics store, (tokenize_eq_ok_iff.mp hstore).1,
      shows_diagnostics store, rfl, rfl, List.Subset.refl _, fun d hd hstatus => ?_⟩
    exact absurd hstatus (status_of_mem_diagnostics d hd)
  | converged hpass =>
    rename_i p _
    have hstore : e.tokenizer g.text = .ok p.store :=
      (tokenize_eq_ok_iff.mp (tokenize_of_runPass hpass)).1
    refine ⟨p.store, p.settled, hstore, shows_settled hpass, rfl, rfl, subset_foldl_addNew _ _,
      fun d hd hstatus => ?_⟩
    obtain ⟨j, hj, rfl⟩ := List.mem_map.mp hd
    have hmalformed : j.2 = .malformed := by
      dsimp only [Finding.detach] at hstatus
      split at hstatus
      · cases hstatus
      · exact hstatus
    exact (blamedIn_of_runPass hpass hj hmalformed _).mono (new_subset_foldl_addNew _ _)

/-- A report loses no finding whose fix was turned down. The problem of each is among the
diagnostics. These begin with the findings of the last sweep; each one behind them was listed by a
pass, with its status, and no two of those are the same problem. And every malformed finding is
blamed on its rule in a defect. -/
theorem rejections_reported {tokenizer : Tokenizer} {rules : List Rule} {budget : Nat}
    {source : String} {report : Report}
    (hfix : (ofRules tokenizer rules).fix budget source = .ok report) :
    (∀ p ∈ report.passes, ∀ d ∈ p.conflicted ++ p.malformed,
      ∃ shown ∈ report.diagnostics, shown.sameProblem d = true) ∧
    (∃ store shown carried, tokenizer report.source = .ok store ∧
      report.diagnostics = shown ++ carried ∧ (ofRules tokenizer rules).Shows store shown ∧
      (∀ d ∈ carried, ∃ p ∈ report.passes,
        d ∈ p.conflicted ∧ d.status = .conflicted ∨ d ∈ p.malformed ∧ d.status = .malformed) ∧
      (∀ d ∈ shown, ∀ c ∈ carried, d.sameProblem c = false) ∧
      carried.Pairwise fun a b => a.sameProblem b = false) ∧
    (∀ p ∈ report.passes, ∀ d ∈ p.malformed,
      ∃ defect ∈ report.defects, defect.rule = d.rule ∧ defect.code = d.code) ∧
    ∀ d ∈ report.diagnostics, d.status = .malformed →
      ∃ defect ∈ report.defects, defect.rule = d.rule ∧ defect.code = d.code := by
  obtain ⟨last, final, hsteps, hends⟩ := steps_of_fixFrom hfix
  have haccounts : final.Accounts := hsteps.accounts ⟨.slnil, by simp [turnedDown]⟩
  have hrecords : final.Records :=
    hsteps.records ⟨by simp, by simp, by simp [turnedDown], by simp⟩
  obtain ⟨store, shown, hstore, hshows, hdiagnostics, hpasses, hdefects, hblamed⟩ :=
    hends.exists_sweep
  obtain ⟨carried, hcarried, hsub, happart, hdistinct⟩ :=
    exists_foldl_addNew_distinct Diagnostic.sameProblem shown final.rejected
  rw [← hdiagnostics] at hcarried
  have hlisted : ∀ d ∈ carried, ∃ p ∈ report.passes,
      d ∈ p.conflicted ∧ d.status = .conflicted ∨ d ∈ p.malformed ∧ d.status = .malformed := by
    intro d hd
    obtain ⟨p, hp, hlist⟩ := List.mem_flatMap.mp (haccounts.rejected.mem (hsub.mem hd))
    refine ⟨p, hpasses ▸ hp, ?_⟩
    rcases List.mem_append.mp hlist with hlist | hlist
    · exact .inl ⟨hlist, hrecords.conflicted p hp d hlist⟩
    · exact .inr ⟨hlist, hrecords.malformed p hp d hlist⟩
  have hmalformed : ∀ p ∈ report.passes, ∀ d ∈ p.malformed, d.BlamedIn report.defects := by
    rw [hpasses]
    exact fun p hp d hd => (hrecords.blamed p hp d hd).mono hdefects
  refine ⟨fun p hp d hd => ?_,
    ⟨store, shown, carried, hstore, hcarried, hshows, hlisted, happart, hdistinct⟩, hmalformed,
    fun d hd hstatus => ?_⟩
  · rw [hpasses] at hp
    rw [hdiagnostics]
    exact among_foldl_addNew (.inr (hrecords.kept d (List.mem_flatMap.mpr ⟨p, hp, hd⟩)))
  · rw [hcarried] at hd
    rcases List.mem_append.mp hd with hd | hd
    · exact hblamed d hd hstatus
    · obtain ⟨p, hp, ⟨_, hconflicted⟩ | ⟨hlist, _⟩⟩ := hlisted d hd
      · cases hconflicted.symm.trans hstatus
      · exact hmalformed p hp d hlist

/-- A run whose only pass with fixes turns two of them down for good. -/
theorem rejections_reported_of_two :
    let rule : Rule := ⟨"Rule", "", [.inlineHtml], .anywhere fun file i =>
      if file.store.text i = "b" then []
      else [{ code := "First", index := i, message := "", fix := some [.replace i "b"] },
        { code := "Second", index := i, message := "", fix := some [.delete i] },
        { code := "Third", index := i, message := "", fix := some [.delete i, .delete i] }]⟩
    let engine := ofRules .whole [rule]
    let second : Diagnostic := ⟨"Rule", "Second", .error, 1, 1, "", true, .conflicted⟩
    let third : Diagnostic := ⟨"Rule", "Third", .error, 1, 1, "", true, .malformed⟩
    ∃ report, engine.fix 5 "a" = .ok report ∧ report.outcome = .converged 2 ∧
      report.passes.map (fun p => (p.conflicted, p.malformed)) = [([second], [third])] ∧
      report.diagnostics = [second, third] ∧
      (∃ shown ∈ report.diagnostics, shown.sameProblem second = true) ∧
      ∃ defect ∈ report.defects, defect.rule = "Rule" ∧ defect.code = "Third" := by
  intro rule engine second third
  let twice : Finding := ⟨"Rule", "Third", .error, 0, "", some [.delete 0, .delete 0]⟩
  let findings : List Finding := [⟨"Rule", "First", .error, 0, "", some [.replace 0 "b"]⟩,
    ⟨"Rule", "Second", .error, 0, "", some [.delete 0]⟩, twice]
  let commit : Commit := ⟨"b", true, 1, 1⟩
  let offered (store : Store) : Session :=
    ⟨store, [.replace 0 "b"], 1, 1, [Session.twiceEdited store twice 0]⟩
  let pass (store : Store) : Pass :=
    ⟨store, findings.zip [.applied, .conflicted, .malformed], (offered store).defects, commit⟩
  let report : Report := {
    outcome := .converged 2
    source := "b"
    diagnostics := [second, third]
    fixes := [("Rule.First", 1)]
    passes := [⟨1, 3, 1, [second], [third], [("Rule.First", 1)]⟩]
    defects := [⟨"Rule", "Third", 1, 1, "changeset edits token 0 more than once"⟩] }
  have hfix : engine.fix 5 "a" = .ok report := by
    have hcomputed : (engine.tokenizer "a").toOption.any fun store => decide (
        store.source = "a" ∧ engine.findings store = findings ∧
        (offered store).commit = .ok commit ∧
        engine.fixFrom 2 (Progress.advance { text := "a" } 1 (pass store)) 4 = .ok report) := by
      unfold engine rule pass offered commit findings twice report second third
      decide +kernel
    -- the kernel does not sort edits, so what becomes of the offers is spelled out
    have hanswers (store : Store) : (Session.blank store).proposeAll findings =
        ([.applied, .conflicted, .malformed], offered store) := by
      have hone (e : Edit) : Changeset.editedTwice? [e] = none := by
        rw [Changeset.editedTwice?, Changeset.targets, List.map_singleton, List.mergeSort_singleton]
        rfl
      have htwo : Changeset.editedTwice? [.delete 0, .delete 0] = some 0 := by
        rw [Changeset.editedTwice?, List.mergeSort_of_pairwise (by decide)]
        rfl
      simp only [findings, twice, Session.proposeAll, Session.propose, Session.blank, hone, htwo]
      rfl
    cases htokens : engine.tokenizer "a" with
    | error cause =>
      rw [htokens] at hcomputed
      cases hcomputed
    | ok store =>
      rw [htokens] at hcomputed
      obtain ⟨hsource, hfindings, hcommit, hrest⟩ := of_decide_eq_true hcomputed
      have hpass : engine.runPass 1 "a" = .ok (pass store) := by
        refine runPass_eq_ok_iff.mpr ⟨store, commit, htokens, hsource, ?_, ?_⟩
        · rw [hfindings, hanswers]
          exact hcommit
        · rw [passOver, hfindings, hanswers]
      rw [fix, show max 5 1 = 4 + 1 from rfl, fixFrom, hpass]
      exact hrest
  obtain ⟨hshown, _, hblamed, _⟩ := rejections_reported hfix
  have hlisted : second ∈ [second] ++ [third] := by simp
  exact ⟨_, hfix, rfl, rfl, rfl, hshown _ (.head _) second hlisted,
    hblamed _ (.head _) third (.head _)⟩

end Engine

end PhpStyle
