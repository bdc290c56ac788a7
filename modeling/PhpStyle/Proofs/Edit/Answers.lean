import PhpStyle.Proofs.Edit.Admission

/-!
# How offers are answered

What is answered to an offer depends on its own fix and on the edits accepted before it. So a fix
that is turned down might as well not have been offered: all others are answered as before, and the
same text is committed. What it leaves behind is a count, or a defect.
-/

namespace PhpStyle

/-- No fix that was applied edits one of the tokens that a changeset edits. -/
def Changeset.IsFree (c : Changeset) (judged : List (Finding × FixStatus)) : Prop :=
  ∀ f taken, (f, .applied) ∈ judged → f.fix = some taken → taken.targets.Disjoint c.targets

namespace Session

/-- The defects that the offer of a finding leaves: one if its fix edits a token twice. -/
def defectsOf (store : Store) (f : Finding) : List Defect :=
  ((f.fix.bind Changeset.editedTwice?).map (twiceEdited store f)).toList

variable {s t : Session} {f : Finding} {findings : List Finding} {store : Store}

/-- The answer to an offer, told by the fix and by what is accepted already. -/
theorem propose_status (s : Session) (f : Finding) :
    ((s.propose f).1 = .notFixable ↔ f.fix = none) ∧
    ((s.propose f).1 = .malformed ↔ ∃ c, f.fix = some c ∧ ¬ c.targets.Nodup) ∧
    ((s.propose f).1 = .applied ↔
      ∃ c, f.fix = some c ∧ c.targets.Nodup ∧ (s.accepted.map (·.target)).Disjoint c.targets) ∧
    ((s.propose f).1 = .conflicted ↔
      ∃ c, f.fix = some c ∧ c.targets.Nodup ∧
      ¬ (s.accepted.map (·.target)).Disjoint c.targets) := by
  have hfree (c : Changeset) : (s.accepted.map (·.target)).Disjoint c.targets ↔
      ∀ e ∈ c, ¬ s.claims e.target = true := by
    simp only [claims_iff, Changeset.targets, List.disjoint_right, List.forall_mem_map]
  rcases s.propose_cases f with
    ⟨hfix, h⟩ | ⟨c, hfix, ⟨i, htwice, h⟩ | ⟨hnodup, ⟨e, he, hclaimed⟩, h⟩ | ⟨hnodup, hnone, h⟩⟩
  · simp [h, hfix]
  · have hnot : ¬ c.targets.Nodup := by
      rw [← Changeset.editedTwice?_eq_none_iff, htwice]
      simp
    simp [h, hfix, hnot]
  · have hnot : ¬ (s.accepted.map (·.target)).Disjoint c.targets :=
      fun hdisjoint => (hfree c).mp hdisjoint e he hclaimed
    simp [h, hfix, hnodup, hnot]
  · have hdisjoint := (hfree c).mpr hnone
    simp [h, hfix, hnodup, hdisjoint]

/-- An offer counts for one of the two numbers of a session, or for none. -/
theorem propose_counts (s : Session) (f : Finding) :
    (s.propose f).2.fixCount = s.fixCount + (if (s.propose f).1 == .applied then 1 else 0) ∧
      (s.propose f).2.conflicts = s.conflicts + (if (s.propose f).1 == .conflicted then 1 else 0) ∧
      (s.propose f).2.defects = s.defects ++ defectsOf s.store f := by
  rcases s.propose_cases f with
    ⟨hfix, h⟩ | ⟨c, hfix, ⟨i, htwice, h⟩ | ⟨hnodup, _, h⟩ | ⟨hnodup, _, h⟩⟩
  · simp [h, defectsOf, hfix]
  · simp [h, defectsOf, hfix, htwice]
  · simp [h, defectsOf, hfix, c.editedTwice?_eq_none_iff.mpr hnodup]
  · simp [h, defectsOf, hfix, c.editedTwice?_eq_none_iff.mpr hnodup]

/-- A fix leaves a defect exactly if it is malformed. -/
theorem defectsOf_ne_nil_iff :
    defectsOf store f ≠ [] ↔ ∃ c, f.fix = some c ∧ ¬ c.targets.Nodup := by
  simp [defectsOf, ← Changeset.editedTwice?_eq_none_iff]

/-- What is not applied leaves the accepted edits as they are. -/
theorem accepted_of_not_applied (h : (s.propose f).1 ≠ .applied) :
    (s.propose f).2.accepted = s.accepted := by
  rw [propose_accepted, appliedEdits]
  simp [h]

/-- The answer hangs on the accepted edits only. -/
theorem propose_congr (h : s.accepted = t.accepted) (f : Finding) :
    (s.propose f).1 = (t.propose f).1 ∧ (s.propose f).2.accepted = (t.propose f).2.accepted := by
  have hstatus : (s.propose f).1 = (t.propose f).1 := by
    obtain ⟨hnone, hmalformed, happlied, hconflicted⟩ := t.propose_status f
    rw [← h] at happlied hconflicted
    obtain ⟨hnone', hmalformed', happlied', hconflicted'⟩ := s.propose_status f
    cases hanswer : (s.propose f).1 with
    | notFixable => exact (hnone.mpr (hnone'.mp hanswer)).symm
    | malformed => exact (hmalformed.mpr (hmalformed'.mp hanswer)).symm
    | applied => exact (happlied.mpr (happlied'.mp hanswer)).symm
    | conflicted => exact (hconflicted.mpr (hconflicted'.mp hanswer)).symm
    | unapplied =>
      rcases s.propose_cases f with ⟨_, h⟩ | ⟨_, _, ⟨_, _, h⟩ | ⟨_, _, h⟩ | ⟨_, _, h⟩⟩ <;>
        simp [h] at hanswer
  exact ⟨hstatus, by rw [propose_accepted, propose_accepted, hstatus, h]⟩

/-- Offers are answered by the accepted edits alone. -/
theorem proposeAll_congr (h : s.accepted = t.accepted) (findings : List Finding) :
    (s.proposeAll findings).1 = (t.proposeAll findings).1 ∧
      (s.proposeAll findings).2.accepted = (t.proposeAll findings).2.accepted := by
  induction findings generalizing s t with
  | nil => exact ⟨rfl, h⟩
  | cons f rest ih =>
    obtain ⟨hstatus, haccepted⟩ := propose_congr h f
    obtain ⟨hstatuses, hrest⟩ := ih haccepted
    exact ⟨by simp only [proposeAll, hstatus, hstatuses], hrest⟩

/-- Offers in two rows are offers in one. -/
theorem proposeAll_append (s : Session) (before after : List Finding) :
    s.proposeAll (before ++ after) =
      ((s.proposeAll before).1 ++ ((s.proposeAll before).2.proposeAll after).1,
        ((s.proposeAll before).2.proposeAll after).2) := by
  induction before generalizing s with
  | nil => rfl
  | cons f before ih => simp only [List.cons_append, proposeAll, ih]

/-- What a session has counted after a row of offers. -/
theorem proposeAll_counts (s : Session) (findings : List Finding) :
    (s.proposeAll findings).2.fixCount = s.fixCount + (s.proposeAll findings).1.count .applied ∧
      (s.proposeAll findings).2.conflicts = s.conflicts +
      (s.proposeAll findings).1.count .conflicted ∧
      (s.proposeAll findings).2.defects = s.defects ++ findings.flatMap (defectsOf s.store) := by
  induction findings generalizing s with
  | nil => simp [proposeAll]
  | cons f rest ih =>
    obtain ⟨hfixes, hconflicts, hdefects⟩ := s.propose_counts f
    obtain ⟨hfixes', hconflicts', hdefects'⟩ := ih (s.propose f).2
    refine ⟨?_, ?_, ?_⟩
    · simp only [proposeAll, hfixes', hfixes, List.count_cons]
      omega
    · simp only [proposeAll, hconflicts', hconflicts, List.count_cons]
      omega
    · simp only [proposeAll, hdefects', hdefects, propose_store, List.flatMap_cons,
        List.append_assoc]

/-- The accepted edits leave a changeset free exactly if the applied fixes do. -/
theorem disjoint_accepted_iff (findings : List Finding) (c : Changeset) :
    (((blank store).proposeAll findings).2.accepted.map (·.target)).Disjoint c.targets ↔
      c.IsFree (findings.zip ((blank store).proposeAll findings).1) := by
  rw [blank_proposeAll_accepted]
  constructor
  · intro hdisjoint f taken hf htaken i hi
    obtain ⟨e, he, rfl⟩ := List.mem_map.mp hi
    exact hdisjoint (List.mem_map.mpr ⟨e, mem_appliedEdits.mpr ⟨f, taken, hf, htaken, he⟩, rfl⟩)
  · intro hfree i hi
    obtain ⟨e, he, rfl⟩ := List.mem_map.mp hi
    obtain ⟨f, taken, hf, htaken, he⟩ := mem_appliedEdits.mp he
    exact hfree f taken hf htaken (List.mem_map.mpr ⟨e, he, rfl⟩)

/-- The committed text hangs on the store and the accepted edits. -/
theorem source_of_commit_congr (hstore : s.store = t.store) (h : s.accepted = t.accepted) :
    s.commit.map (·.source) = t.commit.map (·.source) := by
  simp only [commit, hstore, h]
  generalize splice t.store.source _ = spliced
  cases spliced <;> rfl

/-- If a finding that is not applied is left out and all others are answered as with it, then
nothing is missing from what the session has counted but what this finding left: a conflict or its
defects. -/
theorem counts_of_left_out {before after : List Finding} {earlier later : List FixStatus}
    {status : FixStatus}
    (hoffered : ((blank store).proposeAll (before ++ f :: after)).1 = earlier ++ status :: later)
    (hspared : ((blank store).proposeAll (before ++ after)).1 = earlier ++ later)
    (hleft : status ≠ .applied) :
    let offered := ((blank store).proposeAll (before ++ f :: after)).2
    let spared := ((blank store).proposeAll (before ++ after)).2
    spared.fixCount = offered.fixCount ∧
      offered.conflicts = spared.conflicts + (if status = .conflicted then 1 else 0) ∧
      spared.defects = before.flatMap (defectsOf store) ++ after.flatMap (defectsOf store) ∧
      offered.defects = before.flatMap (defectsOf store) ++
      (defectsOf store f ++ after.flatMap (defectsOf store)) := by
  intro offered spared
  obtain ⟨hfixes, hconflicts, hdefects⟩ := (blank store).proposeAll_counts (before ++ f :: after)
  obtain ⟨hfixes', hconflicts', hdefects'⟩ := (blank store).proposeAll_counts (before ++ after)
  rw [hoffered, List.count_append, List.count_cons] at hfixes hconflicts
  rw [hspared, List.count_append] at hfixes' hconflicts'
  rw [List.flatMap_append, List.flatMap_cons] at hdefects
  rw [List.flatMap_append] at hdefects'
  refine ⟨?_, ?_, hdefects', hdefects⟩
  · rw [beq_false_of_ne hleft, if_neg Bool.false_ne_true] at hfixes
    exact hfixes'.trans hfixes.symm
  · rw [hconflicts, hconflicts']
    simp only [beq_iff_eq]
    omega

/-- Each of a row of offers is answered by its own fix and by those applied before it: without a fix
it is not fixable, with two edits of one token malformed, and else it is applied exactly if it edits
no token that a fix applied before it edits, and conflicted otherwise. Had one that was not applied
been left out, all others would have been answered as they were, and the same text committed. It
leaves nothing but one more conflict or a defect. -/
theorem offers_answered_in_turn (store : Store) (before after : List Finding) (f : Finding) :
    let offered := (blank store).proposeAll (before ++ f :: after)
    let spared := (blank store).proposeAll (before ++ after)
    ∃ earlier status later, offered.1 = earlier ++ status :: later ∧
      earlier.length = before.length ∧ later.length = after.length ∧
      (status = .notFixable ↔ f.fix = none) ∧
      (status = .malformed ↔ ∃ c, f.fix = some c ∧ ¬ c.targets.Nodup) ∧
      (status = .applied ↔ ∃ c, f.fix = some c ∧ c.targets.Nodup ∧ c.IsFree (before.zip earlier)) ∧
      (status = .conflicted ↔ ∃ c, f.fix = some c ∧ c.targets.Nodup ∧
        ¬ c.IsFree (before.zip earlier)) ∧ (status ≠ .applied →
        spared.1 = earlier ++ later ∧
        spared.2.commit.map (·.source) = offered.2.commit.map (·.source) ∧
        spared.2.accepted = offered.2.accepted ∧ spared.2.fixCount = offered.2.fixCount ∧
        offered.2.conflicts = spared.2.conflicts + (if status = .conflicted then 1 else 0) ∧
        spared.2.defects = before.flatMap (defectsOf store) ++ after.flatMap (defectsOf store) ∧
        offered.2.defects =
          before.flatMap (defectsOf store) ++
          (defectsOf store f ++ after.flatMap (defectsOf store)) ∧
        (defectsOf store f ≠ [] ↔ status = .malformed)) := by
  intro offered spared
  let session := ((blank store).proposeAll before).2
  obtain ⟨hnone, hmalformed, happlied, hconflicted⟩ := session.propose_status f
  simp only [session, disjoint_accepted_iff] at happlied hconflicted
  have hoffered : offered = (((blank store).proposeAll before).1 ++
      (session.propose f).1 :: ((session.propose f).2.proposeAll after).1,
        ((session.propose f).2.proposeAll after).2) :=
    proposeAll_append (blank store) before (f :: after)
  have hspared : spared = (((blank store).proposeAll before).1 ++ (session.proposeAll after).1,
      (session.proposeAll after).2) := proposeAll_append (blank store) before after
  refine ⟨((blank store).proposeAll before).1, (session.propose f).1,
    ((session.propose f).2.proposeAll after).1, by
      rw [hoffered], length_proposeAll _ _, length_proposeAll _ _, hnone, hmalformed, happlied,
          hconflicted, fun hleft => ?_⟩
  -- the offers behind it meet the same accepted edits with the finding as without it
  obtain ⟨hstatuses, haccepted⟩ := proposeAll_congr (accepted_of_not_applied hleft) after
  have hanswers : spared.1 = ((blank store).proposeAll before).1 ++
      ((session.propose f).2.proposeAll after).1 := by
    rw [hspared, hstatuses]
  have hedits : spared.2.accepted = offered.2.accepted := by
    rw [hspared, hoffered]
    exact haccepted.symm
  have hstores : spared.2.store = offered.2.store := by rw [proposeAll_store, proposeAll_store]
  obtain ⟨hfixes, hconflicts, hdefects, hdefects'⟩ :=
    counts_of_left_out (congrArg Prod.fst hoffered) hanswers hleft
  exact ⟨hanswers, source_of_commit_congr hstores hedits, hedits, hfixes, hconflicts,
    hdefects, hdefects', defectsOf_ne_nil_iff.trans hmalformed.symm⟩

/-- A fix for two tokens, one of which is taken, does not keep the other from a later fix. -/
theorem offers_answered_in_turn_conflicted :
    let fix (changeset : Changeset) : Finding :=
      { code := "Code", index := 0, message := "message", fix := some changeset }
    let both := fix [.delete 1, .delete 0]
    ∃ store, Store.build? [⟨.variable, "$a"⟩, ⟨.semicolon, ";"⟩] {} = .ok store ∧
      ((blank store).proposeAll [fix [.append 0 "b"], both, fix [.insert 1 "c"]]).1 =
        [.applied, .conflicted, .applied] ∧
      ((blank store).proposeAll [fix [.append 0 "b"], fix [.insert 1 "c"]]).1 =
        [.applied, .applied] ∧
      ((blank store).proposeAll [fix [.append 0 "b"], fix [.insert 1 "c"]]).2.commit.map
          (·.source) =
        ((blank store).proposeAll [fix [.append 0 "b"], both, fix [.insert 1 "c"]]).2.commit.map
          (·.source) := by
  intro fix both
  obtain ⟨store, hbuild⟩ :=
    (Store.exists_build?_iff [⟨.variable, "$a"⟩, ⟨.semicolon, ";"⟩] {}).mpr
      (Outline.wellFormed_empty _)
  have hfree (c : Changeset) (h : c.targets.Nodup) : c.editedTwice? = none :=
    (Changeset.editedTwice?_eq_none_iff c).mpr h
  have hanswers : ((blank store).proposeAll [fix [.append 0 "b"], both, fix [.insert 1 "c"]]).1 =
      [.applied, .conflicted, .applied] := by
    simp [fix, both, proposeAll, propose, blank, claims, hfree, Changeset.targets, Edit.insert,
      Edit.append, Edit.delete]
  obtain ⟨earlier, status, later, hsplit, hearlier, _, _, _, _, _, hleft⟩ :=
    offers_answered_in_turn store [fix [.append 0 "b"]] [fix [.insert 1 "c"]] both
  obtain ⟨first, rfl⟩ := List.length_eq_one_iff.mp hearlier
  obtain ⟨rfl, rfl, rfl⟩ : .applied = first ∧ .conflicted = status ∧ [.applied] = later := by
    simpa using hanswers.symm.trans hsplit
  obtain ⟨hothers, hsource, _⟩ := hleft (by decide)
  exact ⟨store, hbuild, hanswers, hothers, hsource⟩

end Session

end PhpStyle
