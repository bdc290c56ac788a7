import PhpStyle.Edit.Session

/-!
# What becomes of offered fixes

A session answers every offer in one of four ways, and only an applied fix leaves edits behind.
Whatever is offered, no two accepted edits have the same target, and the accepted edits are those of
the applied fixes in the order in which they came.
-/

namespace PhpStyle

namespace Changeset

/-- In a sorted list no element stands next to its equal exactly if none stands there twice. -/
theorem firstTwin?_eq_none_iff {l : List Nat} (hsorted : l.Pairwise (· ≤ ·)) :
    firstTwin? l = none ↔ l.Nodup := by
  fun_induction firstTwin? l with
  | case1 a rest =>
    simp
  | case2 a b rest hne ih =>
    obtain ⟨hfirst, hrest⟩ := List.pairwise_cons.mp hsorted
    obtain ⟨hsecond, _⟩ := List.pairwise_cons.mp hrest
    have hnot : a ∉ b :: rest := by
      intro hmem
      rcases List.mem_cons.mp hmem with heq | hmem
      · exact hne heq
      · have := hfirst b List.mem_cons_self
        have := hsecond a hmem
        omega
    rw [ih hrest, List.nodup_cons (a := a)]
    exact ⟨fun h => ⟨hnot, h⟩, fun h => h.2⟩
  | case3 l hshort =>
    match l with
    | [] => simp
    | [a] => simp
    | a :: b :: rest => exact absurd rfl (hshort a b rest)

/-- A changeset edits no token twice exactly if its targets are distinct. -/
theorem editedTwice?_eq_none_iff (c : Changeset) : c.editedTwice? = none ↔ c.targets.Nodup := by
  have hperm := List.mergeSort_perm c.targets (fun a b => decide (a ≤ b))
  have hsorted := @List.pairwise_mergeSort Nat (fun a b => decide (a ≤ b))
    (fun a b c => by simpa using Nat.le_trans)
    (fun a b => by simpa using Nat.le_total a b) c.targets
  rw [editedTwice?, firstTwin?_eq_none_iff (by simpa using hsorted), hperm.nodup_iff]

end Changeset

/-- The edits of the applied fixes, in the order of their findings. -/
def appliedEdits (judged : List (Finding × FixStatus)) : List Edit :=
  judged.flatMap fun j => if j.2 = .applied then j.1.fix.getD [] else []

namespace Session

/-- The session of a store before any offer. -/
def blank (store : Store) : Session := ⟨store, [], 0, 0, []⟩

/-- A session claims the targets of the edits that it has accepted. -/
theorem claims_iff (s : Session) (i : Nat) :
    s.claims i = true ↔ i ∈ s.accepted.map (·.target) := by
  simp [claims]

/-- The four answers to an offer, each with what it leaves behind. -/
theorem propose_cases (s : Session) (f : Finding) :
    (f.fix = none ∧ s.propose f = (.notFixable, s)) ∨
    ∃ changeset, f.fix = some changeset ∧
      ((∃ i, changeset.editedTwice? = some i ∧ s.propose f =
          (.malformed, { s with defects := s.defects ++ [twiceEdited s.store f i] })) ∨
        (changeset.targets.Nodup ∧ (∃ e ∈ changeset, s.claims e.target = true) ∧
          s.propose f = (.conflicted, { s with conflicts := s.conflicts + 1 })) ∨
        (changeset.targets.Nodup ∧ (∀ e ∈ changeset, ¬ s.claims e.target = true) ∧
          s.propose f = (.applied,
            { s with accepted := s.accepted ++ changeset, fixCount := s.fixCount + 1 }))) := by
  cases hfix : f.fix with
  | none => exact .inl ⟨rfl, by simp only [propose, hfix]⟩
  | some changeset =>
    refine .inr ⟨changeset, rfl, ?_⟩
    cases htwice : changeset.editedTwice? with
    | some i => exact .inl ⟨i, rfl, by simp only [propose, hfix, htwice]⟩
    | none =>
      have hnodup := changeset.editedTwice?_eq_none_iff.mp htwice
      by_cases hclaimed : changeset.any fun e => s.claims e.target
      · refine .inr (.inl ⟨hnodup, by simpa using hclaimed, ?_⟩)
        simp only [propose, hfix, htwice, if_pos hclaimed]
      · refine .inr (.inr ⟨hnodup, by simpa using hclaimed, ?_⟩)
        simp only [propose, hfix, htwice, if_neg hclaimed]

/-- An offer adds the edits of its fix if the fix is applied, and none otherwise. -/
theorem propose_accepted (s : Session) (f : Finding) :
    (s.propose f).2.accepted = s.accepted ++ appliedEdits [(f, (s.propose f).1)] := by
  rcases s.propose_cases f with ⟨_, h⟩ | ⟨changeset, hfix, ⟨i, _, h⟩ | ⟨_, _, h⟩ | ⟨_, _, h⟩⟩
  · simp [h, appliedEdits]
  · simp [h, appliedEdits]
  · simp [h, appliedEdits]
  · simp [h, hfix, appliedEdits]

/-- An offer leaves the store as it is. -/
@[simp] theorem propose_store (s : Session) (f : Finding) : (s.propose f).2.store = s.store := by
  rcases s.propose_cases f with ⟨_, h⟩ | ⟨changeset, _, ⟨i, _, h⟩ | ⟨_, _, h⟩ | ⟨_, _, h⟩⟩ <;>
    rw [h]

/-- An offer keeps the targets of the accepted edits distinct. -/
theorem propose_nodup {s : Session} (hs : (s.accepted.map (·.target)).Nodup) (f : Finding) :
    ((s.propose f).2.accepted.map (·.target)).Nodup := by
  rcases s.propose_cases f with ⟨_, h⟩ | ⟨changeset, _, ⟨i, _, h⟩ | ⟨_, _, h⟩ | ⟨hnew, hfree, h⟩⟩
  · rwa [h]
  · rwa [h]
  · rwa [h]
  · rw [h, List.map_append]
    refine List.nodup_append.mpr ⟨hs, hnew, ?_⟩
    intro i hi j hj hij
    obtain ⟨e, he, rfl⟩ := List.mem_map.mp hj
    exact hfree e he ((s.claims_iff e.target).mpr (hij ▸ hi))

/-- Offers leave the store as it is. -/
@[simp] theorem proposeAll_store (s : Session) (findings : List Finding) :
    (s.proposeAll findings).2.store = s.store := by
  induction findings generalizing s with
  | nil => rfl
  | cons f rest ih => simp only [proposeAll, ih, propose_store]

/-- Offers one after the other leave no token with two edits, if there is none to start with. -/
theorem proposeAll_nodup {s : Session} (hs : (s.accepted.map (·.target)).Nodup)
    (findings : List Finding) : ((s.proposeAll findings).2.accepted.map (·.target)).Nodup := by
  induction findings generalizing s with
  | nil => exact hs
  | cons f rest ih => exact ih (propose_nodup hs f)

/-- What is accepted in the end are the edits there were and those of the findings that were
applied. -/
theorem proposeAll_accepted (s : Session) (findings : List Finding) :
    (s.proposeAll findings).2.accepted =
      s.accepted ++ appliedEdits (findings.zip (s.proposeAll findings).1) := by
  induction findings generalizing s with
  | nil => simp [proposeAll, appliedEdits]
  | cons f rest ih =>
    have hsplit (statuses : List FixStatus) :
        appliedEdits ((f :: rest).zip ((s.propose f).1 :: statuses)) =
          appliedEdits [(f, (s.propose f).1)] ++ appliedEdits (rest.zip statuses) := by
      simp [appliedEdits]
    simp only [proposeAll, ih, propose_accepted, hsplit, List.append_assoc]

/-- A session that starts with nothing accepts at most one edit for each token. -/
theorem blank_proposeAll_nodup (store : Store) (findings : List Finding) :
    (((blank store).proposeAll findings).2.accepted.map (·.target)).Nodup :=
  proposeAll_nodup (s := blank store) .nil findings

/-- Offers to a blank session: the accepted edits are those of the applied fixes. -/
theorem blank_proposeAll_accepted (store : Store) (findings : List Finding) :
    ((blank store).proposeAll findings).2.accepted =
      appliedEdits (findings.zip ((blank store).proposeAll findings).1) := by
  rw [proposeAll_accepted]
  rfl

end Session

end PhpStyle
