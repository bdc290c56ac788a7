import PhpStyle.Proofs.Edit.Rewriting

/-!
# Which offers are accepted

Offers are accepted greedily: in their order, each exactly if it edits no token twice and none that
an accepted one edits. Said in this way, the accepted edits can be computed without sorting.
-/

namespace PhpStyle

namespace Changeset

/-- Whether a changeset edits distinct tokens, none of which is edited already. -/
def fitsBeside (c : Changeset) (accepted : List Edit) : Bool :=
  c.targets.Nodup && c.all fun e => accepted.all fun a => a.target != e.target

/-- A changeset fits beside accepted edits if its targets are distinct and not taken. -/
theorem fitsBeside_iff {c : Changeset} {accepted : List Edit} :
    c.fitsBeside accepted = true ↔ c.targets.Nodup ∧
      ∀ e ∈ c, e.target ∉ accepted.map (·.target) := by
  simp [fitsBeside]

end Changeset

namespace Session

/-- The accepted edits after further findings are offered. -/
def grant (accepted : List Edit) : List Finding → List Edit
  | [] => accepted
  | f :: rest =>
    match f.fix with
    | some c => if c.fitsBeside accepted then grant (accepted ++ c) rest else grant accepted rest
    | none => grant accepted rest

/-- An offer accepts what is granted beside the edits there are. -/
theorem propose_accepted_eq_grant (s : Session) (f : Finding) :
    (s.propose f).2.accepted = grant s.accepted [f] := by
  rcases s.propose_cases f with ⟨hfix, h⟩ | ⟨c, hfix, hcases⟩
  · simp [h, grant, hfix]
  · simp only [grant, hfix, Changeset.fitsBeside_iff, ← s.claims_iff]
    rcases hcases with ⟨i, htwice, h⟩ | ⟨_, ⟨e, he, hclaimed⟩, h⟩ | ⟨hnodup, hfree, h⟩
    · have hnot : ¬ c.targets.Nodup := by
        rw [← Changeset.editedTwice?_eq_none_iff, htwice]
        simp
      simp [h, hnot]
    · have hnot : ¬ ∀ e ∈ c, ¬ s.claims e.target = true := fun hall => hall e he hclaimed
      simp only [h, hnot, and_false, if_false]
    · simp only [h, hnodup, true_and]
      rw [if_pos hfree]

/-- The accepted edits of a session after a row of offers. -/
theorem proposeAll_accepted_eq_grant (s : Session) (findings : List Finding) :
    (s.proposeAll findings).2.accepted = grant s.accepted findings := by
  induction findings generalizing s with
  | nil => rfl
  | cons f rest ih =>
    have hsplit (accepted : List Edit) : grant accepted (f :: rest) =
        grant (grant accepted [f]) rest := by
      simp only [grant]
      split
      · split <;> rfl
      · rfl
    rw [hsplit, ← propose_accepted_eq_grant, ← ih]
    rfl

/-- What is accepted stays accepted. -/
theorem subset_grant (accepted : List Edit) (findings : List Finding) :
    accepted ⊆ grant accepted findings := by
  induction findings generalizing accepted with
  | nil => exact List.Subset.refl _
  | cons f rest ih =>
    rw [grant]
    split
    · split
      · exact List.Subset.trans (List.subset_append_left _ _) (ih _)
      · exact ih _
    · exact ih _

/-- What is accepted is accepted with the rest of its fix. -/
theorem exists_of_mem_grant {accepted : List Edit} {findings : List Finding} {e : Edit}
    (he : e ∈ grant accepted findings) :
    e ∈ accepted ∨ ∃ f ∈ findings, ∃ c, f.fix = some c ∧ e ∈ c ∧ c ⊆ grant accepted findings := by
  induction findings generalizing accepted with
  | nil => exact .inl he
  | cons f rest ih =>
    have hlater {accepted : List Edit} (h : ∃ g ∈ rest, ∃ c,
        g.fix = some c ∧ e ∈ c ∧ c ⊆ grant accepted rest) :
        ∃ g ∈ f :: rest, ∃ c, g.fix = some c ∧ e ∈ c ∧ c ⊆ grant accepted rest := by
      obtain ⟨g, hg, hfix⟩ := h
      exact ⟨g, List.mem_cons_of_mem _ hg, hfix⟩
    rw [grant] at he ⊢
    split at he
    · rename_i c hc
      split at he
      · rename_i hfits
        rw [if_pos hfits]
        rcases ih he with he | hrest
        · refine (List.mem_append.mp he).imp_right fun hmem =>
            ⟨f, List.mem_cons_self, c, hc, hmem, ?_⟩
          exact List.Subset.trans (List.subset_append_right _ _) (subset_grant _ _)
        · exact .inr (hlater hrest)
      · rename_i hfits
        rw [if_neg hfits]
        exact (ih he).imp_right hlater
    · exact (ih he).imp_right hlater

/-- A fix that is turned down, although it edits no token twice, has a token that is edited. -/
theorem exists_target_mem_grant (accepted : List Edit) {findings : List Finding} {f : Finding}
    {c : Changeset} (hf : f ∈ findings) (hc : f.fix = some c) (honce : c.targets.Nodup)
    (hne : c ≠ []) : ∃ e ∈ c, e.target ∈ (grant accepted findings).map (·.target) := by
  induction findings generalizing accepted with
  | nil => cases hf
  | cons first rest ih =>
    rw [grant]
    rcases List.mem_cons.mp hf with rfl | hf
    · rw [hc]
      dsimp only
      split
      · obtain ⟨e, he⟩ := List.exists_mem_of_ne_nil c hne
        exact ⟨e, he, List.mem_map_of_mem (subset_grant _ _ (List.mem_append_right _ he))⟩
      · rename_i hfits
        rw [Changeset.fitsBeside_iff, not_and, not_forall] at hfits
        obtain ⟨e, he⟩ := hfits honce
        obtain ⟨hmem, htaken⟩ := Classical.not_imp.mp he
        obtain ⟨a, ha, htarget⟩ := List.mem_map.mp (Decidable.not_not.mp htaken)
        exact ⟨e, hmem, htarget ▸ List.mem_map_of_mem (subset_grant _ _ ha)⟩
    · split
      · split
        · exact ih _ hf
        · exact ih _ hf
      · exact ih _ hf

/-- If fixes that edit a token in common are one and the same, then the edits of all fixes are
made. -/
theorem mem_grant_iff {findings : List Finding}
    (honce : ∀ f ∈ findings, ∀ c, f.fix = some c → c.targets.Nodup)
    (hsame : ∀ f ∈ findings, ∀ c, f.fix = some c → ∀ f' ∈ findings, ∀ c', f'.fix = some c' →
      ∀ e ∈ c, ∀ e' ∈ c', e.target = e'.target → c = c') {e : Edit} :
    e ∈ grant [] findings ↔ ∃ f ∈ findings, ∃ c, f.fix = some c ∧ e ∈ c := by
  constructor
  · intro he
    rcases exists_of_mem_grant he with hnone | ⟨f, hf, c, hc, hmem, _⟩
    · cases hnone
    · exact ⟨f, hf, c, hc, hmem⟩
  · rintro ⟨f, hf, c, hc, he⟩
    obtain ⟨e', he', htaken⟩ := exists_target_mem_grant [] hf hc (honce f hf c hc)
      (List.ne_nil_of_mem he)
    obtain ⟨a, ha, htarget⟩ := List.mem_map.mp htaken
    rcases exists_of_mem_grant ha with hnone | ⟨g, hg, d, hd, had, hall⟩
    · cases hnone
    · obtain rfl := hsame f hf c hc g hg d hd e' he' a had htarget.symm
      exact hall he

/-- If each fix is one edit and the token tells which, then all the edits are made. -/
theorem mem_grant_singletons_iff {findings : List Finding}
    (hone : ∀ f ∈ findings, ∀ c, f.fix = some c → ∃ e, c = [e])
    (hsame : ∀ f ∈ findings, ∀ f' ∈ findings, ∀ e e', f.fix = some [e] → f'.fix = some [e'] →
      e.target = e'.target → e = e') {e : Edit} :
    e ∈ grant [] findings ↔ ∃ f ∈ findings, f.fix = some [e] := by
  rw [mem_grant_iff]
  · constructor
    · rintro ⟨f, hf, c, hc, he⟩
      obtain ⟨e', rfl⟩ := hone f hf c hc
      obtain rfl := List.mem_singleton.mp he
      exact ⟨f, hf, hc⟩
    · rintro ⟨f, hf, hc⟩
      exact ⟨f, hf, [e], hc, List.mem_singleton_self e⟩
  · intro f hf c hc
    obtain ⟨e, rfl⟩ := hone f hf c hc
    exact List.nodup_singleton e.target
  · intro f hf c hc f' hf' c' hc' a ha a' ha' htarget
    obtain ⟨e, rfl⟩ := hone f hf c hc
    obtain ⟨e', rfl⟩ := hone f' hf' c' hc'
    obtain rfl := List.mem_singleton.mp ha
    obtain rfl := List.mem_singleton.mp ha'
    rw [hsame f hf f' hf' a a' hc hc' htarget]

/-- What is granted to findings has each target once. -/
theorem nodup_grant (store : Store) (findings : List Finding) :
    ((grant [] findings).map (·.target)).Nodup := by
  have h := blank_proposeAll_nodup store findings
  rwa [proposeAll_accepted_eq_grant] at h

/-- A session of a built store commits to the text in which the accepted edits are made. -/
theorem commit_proposeAll_eq_rewrite {lexemes : List Lexeme} {outline : Outline} {store : Store}
    (hbuild : Store.build? lexemes outline = .ok store) (findings : List Finding) :
    ∃ commit, ((blank store).proposeAll findings).2.commit = .ok commit ∧
      commit.source = store.rewrite (grant [] findings) := by
  obtain ⟨commit, hcommit, hsource⟩ := commit_proposeAll hbuild findings
  rw [← blank_proposeAll_accepted, proposeAll_accepted_eq_grant] at hsource
  exact ⟨commit, hcommit, hsource⟩

/-- Every finding gets a status. -/
@[simp] theorem length_proposeAll (s : Session) (findings : List Finding) :
    (s.proposeAll findings).1.length = findings.length := by
  induction findings generalizing s with
  | nil => rfl
  | cons f rest ih => exact congrArg (· + 1) (ih _)

/-- The status of a finding is the answer to its offer at some point. -/
theorem exists_propose_of_mem {s : Session} {findings : List Finding} {f : Finding}
    {status : FixStatus} (h : (f, status) ∈ findings.zip (s.proposeAll findings).1) : ∃ s' :
    Session, (s'.propose f).1 = status := by
  induction findings generalizing s with
  | nil => cases h
  | cons first rest ih =>
    have hzip : (first :: rest).zip (s.proposeAll (first :: rest)).1 =
        (first, (s.propose first).1) :: rest.zip ((s.propose first).2.proposeAll rest).1 := rfl
    rw [hzip] at h
    rcases List.mem_cons.mp h with heq | hmem
    · obtain ⟨rfl, hstatus⟩ := Prod.mk.inj heq
      exact ⟨s, hstatus.symm⟩
    · exact ih hmem

/-- A finding with a fix has it applied or turned down, and one without has it neither. -/
theorem status_cases {s : Session} {findings : List Finding} {f : Finding} {status : FixStatus}
    (h : (f, status) ∈ findings.zip (s.proposeAll findings).1) :
    f.fix = none ∧ status = .notFixable ∨
      (∃ c, f.fix = some c) ∧ (status = .malformed ∨ status = .conflicted ∨ status = .applied) := by
  obtain ⟨s', rfl⟩ := exists_propose_of_mem h
  rcases s'.propose_cases f with ⟨hfix, h⟩ | ⟨c, hfix, ⟨_, _, h⟩ | ⟨_, _, h⟩ | ⟨_, _, h⟩⟩
  · exact .inl ⟨hfix, by rw [h]⟩
  · exact .inr ⟨⟨c, hfix⟩, .inl (by rw [h])⟩
  · exact .inr ⟨⟨c, hfix⟩, .inr (.inl (by rw [h]))⟩
  · exact .inr ⟨⟨c, hfix⟩, .inr (.inr (by rw [h]))⟩

/-- Only a finding with a fix has its fix applied. -/
theorem exists_fix_of_applied {s : Session} {findings : List Finding} {f : Finding}
    (h : (f, .applied) ∈ findings.zip (s.proposeAll findings).1) : ∃ c, f.fix = some c := by
  rcases status_cases h with ⟨_, hnone⟩ | ⟨hfix, _⟩
  · cases hnone
  · exact hfix

end Session

/-- The edits of applied fixes are the edits of fixes that are applied. -/
theorem mem_appliedEdits {judged : List (Finding × FixStatus)} {e : Edit} :
    e ∈ appliedEdits judged ↔ ∃ f c, (f, .applied) ∈ judged ∧ f.fix = some c ∧ e ∈ c := by
  simp only [appliedEdits, List.mem_flatMap]
  constructor
  · rintro ⟨⟨f, status⟩, hmem, he⟩
    dsimp only at he
    split at he
    · rename_i happlied
      subst happlied
      cases hfix : f.fix with
      | none => simp [hfix] at he
      | some c => exact ⟨f, c, hmem, hfix, by simpa [hfix] using he⟩
    · cases he
  · rintro ⟨f, c, hmem, hfix, he⟩
    exact ⟨_, hmem, by simpa [hfix] using he⟩

/-- If no token has two edits, an edit belongs to one applied fix only. -/
theorem applied_unique {judged : List (Finding × FixStatus)}
    (hnodup : ((appliedEdits judged).map (·.target)).Nodup) {f f' : Finding} {c c' : Changeset}
    {e e' : Edit} (hf : (f, .applied) ∈ judged) (hf' : (f', .applied) ∈ judged)
    (hc : f.fix = some c) (hc' : f'.fix = some c') (he : e ∈ c) (he' : e' ∈ c')
    (htarget : e.target = e'.target) : f = f' := by
  rw [appliedEdits, List.map_flatMap, List.nodup_flatMap] at hnodup
  by_contra hne
  have hpairs : (f, FixStatus.applied) ≠ (f', .applied) := fun heq => hne (congrArg Prod.fst heq)
  have hdisjoint :=
    @List.Pairwise.forall _ _ _ ⟨fun _ _ => List.disjoint_symm⟩ hnodup.2 _ hf _ hf' hpairs
  refine hdisjoint (a := e.target) ?_ ?_
  · simpa [hc] using ⟨e, he, rfl⟩
  · simpa [hc'] using ⟨e', he', htarget.symm⟩

end PhpStyle
