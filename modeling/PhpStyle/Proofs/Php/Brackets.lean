import Mathlib.Data.List.Nodup
import PhpStyle.Php.Structure
import PhpStyle.Proofs.Store.Nesting

/-!
# How brackets pair

While brackets are paired, the open ones lie on the stack with falling indexes, all in front of what
is still to come. It follows that a pair joins an opener with a closer behind it that fits, and that
of two pairs the one that closes later either encloses the other or lies behind it.
-/

namespace PhpStyle

/-- Tokens that open or close a bracketed group. -/
def Kind.isBracket (k : Kind) : Bool := k.opensGroup || k.closesGroup

/-- What closes a group opens none. -/
theorem Kind.opensGroup_of_closesGroup {k : Kind} (h : k.closesGroup = true) :
    k.opensGroup = false := by
  cases k <;> first | rfl | cases h

/-- Trivia are no brackets. -/
theorem Kind.isBracket_of_isTrivia {k : Kind} (h : k.isTrivia = true) : k.isBracket = false := by
  cases k <;> first | rfl | cases h

namespace Php.Brackets

/-- A stack of open brackets with the brackets still to come: it holds openers only, innermost
first. -/
structure Pending (stack : List (Nat × Kind)) (rest : List (Kind × Nat)) : Prop where
  opens : ∀ a ∈ stack, a.2.opensGroup
  falling : stack.Pairwise fun a b => b.1 < a.1
  rising : rest.Pairwise fun a b => a.2 < b.2
  before : ∀ a ∈ stack, ∀ x ∈ rest, a.1 < x.2

/-- A pair joins an opener, from the stack or yet to come, with a closer that fits it. -/
def Joins (stack : List (Nat × Kind)) (rest : List (Kind × Nat)) (p : Nat × Nat) : Prop :=
  ∃ opener closer, ((p.1, opener) ∈ stack ∨ (opener, p.1) ∈ rest ∧ opener.opensGroup) ∧
    (closer, p.2) ∈ rest ∧ closer.closesGroup ∧ fits closer opener

/-- The second pair closes later, and encloses the first or lies behind it. -/
def Apart (p q : Nat × Nat) : Prop := p.2 < q.2 ∧ (q.1 < p.1 ∨ p.2 < q.1)

/-- A closing bracket takes the innermost opener that it fits and gives up those inside it, none of
which is a brace. -/
theorem closeIn_eq_some {closer : Kind} {stack outer : List (Nat × Kind)} {i : Nat}
    (h : closeIn closer stack = some (i, outer)) :
    ∃ inner opener, stack = inner ++ (i, opener) :: outer ∧ fits closer opener ∧
      ∀ a ∈ inner, fits closer a.2 = false ∧ a.2 ≠ .openCurly := by
  fun_induction closeIn closer stack with
  | case1 => cases h
  | case2 j opener outer hfits =>
    cases h
    exact ⟨[], opener, rfl, hfits, by simp⟩
  | case3 => cases h
  | case4 j opener rest hfits hcurly ih =>
    obtain ⟨inner, found, rfl, hfound, hinner⟩ := ih h
    refine ⟨(j, opener) :: inner, found, rfl, hfound, fun a ha => ?_⟩
    rcases List.mem_cons.mp ha with rfl | ha
    · exact ⟨by simpa using hfits, hcurly⟩
    · exact hinner a ha

namespace Pending

variable {stack inner outer : List (Nat × Kind)} {rest : List (Kind × Nat)} {kind : Kind} {i : Nat}

/-- A bracket that changes nothing can be passed over. -/
theorem skip (h : Pending stack ((kind, i) :: rest)) : Pending stack rest where
  opens := h.opens
  falling := h.falling
  rising := h.rising.of_cons
  before a ha x hx := h.before a ha x (List.mem_cons_of_mem _ hx)

/-- An opening bracket is put on the stack. -/
theorem push (h : Pending stack ((kind, i) :: rest)) (hopen : kind.opensGroup) :
    Pending ((i, kind) :: stack) rest where
  opens := List.forall_mem_cons.mpr ⟨hopen, h.opens⟩
  falling := .cons (fun a ha => h.before a ha (kind, i) List.mem_cons_self) h.falling
  rising := h.rising.of_cons
  before := by
    intro a ha x hx
    rcases List.mem_cons.mp ha with rfl | ha
    · exact List.rel_of_pairwise_cons h.rising hx
    · exact h.skip.before a ha x hx

/-- A closing bracket takes its opener off the stack, and all openers above it. -/
theorem pop {opener : Nat × Kind} (h : Pending (inner ++ opener :: outer) rest) :
    Pending outer rest where
  opens a ha := h.opens a (by simp [ha])
  falling := (List.pairwise_append.mp h.falling).2.1.of_cons
  rising := h.rising
  before a ha := h.before a (by simp [ha])

end Pending

/-- A pair that joins brackets still to come joins them with one more in front. -/
theorem Joins.skip {stack : List (Nat × Kind)} {rest : List (Kind × Nat)} {p : Nat × Nat}
    (h : Joins stack rest p) (x : Kind × Nat) : Joins stack (x :: rest) p := by
  obtain ⟨opener, closer, hopener, hcloser, hrest⟩ := h
  refine ⟨opener, closer, ?_, List.mem_cons_of_mem x hcloser, hrest⟩
  exact hopener.imp_right fun h => ⟨List.mem_cons_of_mem x h.1, h.2⟩

/-- Every pair opens before it closes and joins brackets that fit. -/
theorem joins_of_mem_pairFrom {stack : List (Nat × Kind)} {rest : List (Kind × Nat)}
    (h : Pending stack rest) : ∀ p ∈ pairFrom stack rest, p.1 < p.2 ∧ Joins stack rest p := by
  fun_induction pairFrom stack rest with
  | case1 => simp
  | case2 stack kind i rest hopen ih =>
    intro p hp
    obtain ⟨hlt, opener, closer, hopener, hcloser, hfits⟩ := ih (h.push hopen) p hp
    refine ⟨hlt, opener, closer, ?_, List.mem_cons_of_mem _ hcloser, hfits⟩
    rcases hopener with hopener | ⟨hopener, hopens⟩
    · rcases List.mem_cons.mp hopener with heq | hmem
      · cases heq
        exact .inr ⟨List.mem_cons_self, hopen⟩
      · exact .inl hmem
    · exact .inr ⟨List.mem_cons_of_mem _ hopener, hopens⟩
  | case3 stack kind i rest _ hclose j outer hfound ih =>
    obtain ⟨inner, opener, rfl, hfits, _⟩ := closeIn_eq_some hfound
    have hmem : (j, opener) ∈ inner ++ (j, opener) :: outer := by simp
    intro p hp
    rcases List.mem_cons.mp hp with rfl | hp
    · exact ⟨h.before _ hmem _ List.mem_cons_self, opener, kind, .inl hmem, List.mem_cons_self,
        hclose, hfits⟩
    · obtain ⟨hlt, hjoins⟩ := ih h.pop.skip p hp
      obtain ⟨opener, closer, hopener, hrest⟩ := hjoins.skip (kind, i)
      exact ⟨hlt, opener, closer, hopener.imp_left (by simp +contextual), hrest⟩
  | case4 stack kind i rest _ _ _ ih =>
    exact fun p hp => ⟨(ih h.skip p hp).1, (ih h.skip p hp).2.skip _⟩
  | case5 stack kind i rest _ _ ih =>
    exact fun p hp => ⟨(ih h.skip p hp).1, (ih h.skip p hp).2.skip _⟩

/-- Pairs are listed as they close, and each encloses the ones before it or lies behind them. -/
theorem pairFrom_pairwise {stack : List (Nat × Kind)} {rest : List (Kind × Nat)}
    (h : Pending stack rest) : (pairFrom stack rest).Pairwise Apart := by
  fun_induction pairFrom stack rest with
  | case1 => exact .nil
  | case2 _ _ _ _ hopen ih => exact ih (h.push hopen)
  | case3 stack kind i rest _ _ j outer hfound ih =>
    obtain ⟨inner, opener, rfl, _, _⟩ := closeIn_eq_some hfound
    have hrest : Pending outer rest := h.pop.skip
    have hlater : ∀ x ∈ rest, i < x.2 := fun x hx => List.rel_of_pairwise_cons h.rising hx
    have houter : ∀ a ∈ outer, a.1 < j := fun a ha =>
      List.rel_of_pairwise_cons (List.pairwise_append.mp h.falling).2.1 ha
    refine .cons (fun q hq => ?_) (ih hrest)
    obtain ⟨_, _, _, hopener, hcloser, _⟩ := joins_of_mem_pairFrom hrest q hq
    refine ⟨hlater _ hcloser, ?_⟩
    rcases hopener with hmem | ⟨hmem, _⟩
    · exact .inl (houter _ hmem)
    · exact .inr (hlater _ hmem)
  | case4 _ _ _ _ _ _ _ ih => exact ih h.skip
  | case5 _ _ _ _ _ _ ih => exact ih h.skip

/-- With nothing on the stack all brackets are to come. -/
theorem pending_zipIdx (kinds : List Kind) : Pending [] kinds.zipIdx where
  opens := by simp
  falling := .nil
  rising := by
    have h := List.pairwise_lt_range' (s := 0) (n := kinds.length)
    rw [← List.zipIdx_map_snd, List.pairwise_map] at h
    exact h
  before := by simp

/-- A pair joins an opening bracket of the file with a closing one behind it that fits. -/
theorem mem_pair {kinds : List Kind} {p : Nat × Nat} (h : p ∈ pair kinds) :
    p.1 < p.2 ∧ ∃ opener closer, kinds[p.1]? = some opener ∧ kinds[p.2]? = some closer ∧
      opener.opensGroup ∧ closer.closesGroup ∧ fits closer opener := by
  obtain ⟨hlt, opener, closer, hopener, hcloser, hcloses, hfits⟩ :=
    joins_of_mem_pairFrom (pending_zipIdx kinds) p h
  have hopener := hopener.resolve_left (List.not_mem_nil)
  exact ⟨hlt, opener, closer, List.mem_zipIdx_iff_getElem?.mp hopener.1,
    List.mem_zipIdx_iff_getElem?.mp hcloser, hopener.2, hcloses, hfits⟩

/-- A pair closes within the list. -/
theorem lt_length_of_mem_pair {kinds : List Kind} {p : Nat × Nat} (h : p ∈ pair kinds) :
    p.2 < kinds.length := by
  obtain ⟨_, _, _, _, hcloser, _⟩ := mem_pair h
  exact (List.getElem?_eq_some_iff.mp hcloser).1

/-- The pairs of a list are apart: the later one encloses the earlier or lies behind it. -/
theorem pair_pairwise (kinds : List Kind) : (pair kinds).Pairwise Apart :=
  pairFrom_pairwise (pending_zipIdx kinds)

/-- Of two pairs, the one that closes later encloses the other or lies behind it. -/
theorem apart_of_mem_pair {kinds : List Kind} {p q : Nat × Nat} (hp : p ∈ pair kinds)
    (hq : q ∈ pair kinds) : p = q ∨ Apart p q ∨ Apart q p := by
  have hsymm : Std.Symm fun p q => p = q ∨ Apart p q ∨ Apart q p :=
    ⟨fun _ _ h => h.imp Eq.symm Or.symm⟩
  have h := (pair_pairwise kinds).imp (S := fun p q => p = q ∨ Apart p q ∨ Apart q p)
    fun hapart => .inr (.inl hapart)
  exact h.forall_of_forall (fun _ _ => .inl rfl) hp hq

/-- Two pairs that open apart have no end in common. -/
theorem ends_ne {kinds : List Kind} {p q : Nat × Nat} (hp : p ∈ pair kinds) (hq : q ∈ pair kinds)
    (hne : p.1 ≠ q.1) : p.1 ≠ q.2 ∧ p.2 ≠ q.1 ∧ p.2 ≠ q.2 := by
  have hp' := (mem_pair hp).1
  have hq' := (mem_pair hq).1
  rcases apart_of_mem_pair hp hq with rfl | ⟨hlater, hside⟩ | ⟨hlater, hside⟩ <;> omega

/-- An opening bracket has one partner. -/
theorem closer_unique {kinds : List Kind} {p : Nat × Nat} {closer : Nat} (hp : p ∈ pair kinds)
    (hcloser : (p.1, closer) ∈ pair kinds) : p.2 = closer := by
  have hlt := (mem_pair hp).1
  have hlt' := (mem_pair hcloser).1
  rcases apart_of_mem_pair hp hcloser with heq | ⟨_, hside⟩ | ⟨_, hside⟩
  · exact congrArg Prod.snd heq
  · dsimp only at hside
    omega
  · dsimp only at hside hlt'
    omega

/-- Pairs that lie apart have no end in common. -/
theorem nodup_ends {pairs : List (Nat × Nat)} (hlt : ∀ p ∈ pairs, p.1 < p.2)
    (happart : pairs.Pairwise Apart) : (pairs.flatMap fun p => [p.1, p.2]).Nodup := by
  refine List.nodup_flatMap.mpr ⟨fun p hp => ?_, happart.imp_of_mem ?_⟩
  · have := hlt p hp
    simp
    omega
  · intro p q hp hq ⟨hlater, hside⟩
    have := hlt p hp
    have := hlt q hq
    simp
    omega

/-- No bracket belongs to two pairs. -/
theorem nodup_ends_pair (kinds : List Kind) : ((pair kinds).flatMap fun p => [p.1, p.2]).Nodup :=
  nodup_ends (fun _ hp => (mem_pair hp).1) (pair_pairwise kinds)

/-- No two pairs cross. -/
theorem not_crosses_pair {kinds : List Kind} {p q : Nat × Nat} (hp : p ∈ pair kinds)
    (hq : q ∈ pair kinds) : ¬ Outline.Crosses p q := by
  rintro ⟨hopens, hinside, hcloses⟩
  rcases apart_of_mem_pair hp hq with rfl | ⟨hlater, hside⟩ | ⟨hlater, hside⟩
  · omega
  · omega
  · omega

/-- A table holds at an index what it held before or what was entered there. -/
private theorem join_setIfInBounds {table : Array (Option Nat)} {i k value j : Nat}
    (h : (table.setIfInBounds k (some value))[i]?.join = some j) :
    table[i]?.join = some j ∨ k = i ∧ value = j := by
  rw [Array.getElem?_setIfInBounds] at h
  split at h
  · rename_i heq
    split at h
    · exact .inr ⟨heq, by simpa using h⟩
    · cases h
  · exact .inl h

/-- What the table of partners holds, it has from a pair. -/
theorem mem_of_partners {size : Nat} {pairs : List (Nat × Nat)} {i j : Nat}
    (h : (partners size pairs)[i]?.join = some j) : (i, j) ∈ pairs ∨ (j, i) ∈ pairs := by
  unfold partners at h
  generalize hblank : Array.replicate size (none : Option Nat) = table at h
  have hfold : table[i]?.join = some j ∨ (i, j) ∈ pairs ∨ (j, i) ∈ pairs := by
    clear hblank
    induction pairs generalizing table with
    | nil => exact .inl h
    | cons p pairs ih =>
      rcases ih _ h with hentered | hrest
      · rcases join_setIfInBounds hentered with hopener | ⟨rfl, rfl⟩
        · rcases join_setIfInBounds hopener with hold | ⟨rfl, rfl⟩
          · exact .inl hold
          · exact .inr (.inl List.mem_cons_self)
        · exact .inr (.inr List.mem_cons_self)
      · exact .inr (hrest.imp (List.mem_cons_of_mem p) (List.mem_cons_of_mem p))
  refine hfold.resolve_left ?_
  subst hblank
  rw [Array.getElem?_replicate]
  split <;> simp

end Php.Brackets

end PhpStyle
