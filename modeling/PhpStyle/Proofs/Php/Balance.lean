import PhpStyle.Proofs.Php.Brackets

/-!
# Brackets of unbalanced code

A closing bracket gives up the open ones inside its partner, so stray brackets could in principle
spoil the pairs of a whole file. They do not: no brace is ever given up, the braces pair as if the
other brackets were absent, and a pair of any kind holds whole pairs of braces only. In a balanced
stretch nothing is given up at all, whatever stands around it.
-/

namespace PhpStyle.Php.Brackets

/-- The bracket that closes the group an opening bracket begins. -/
def closerOf : Kind → Option Kind
  | .openCurly => some .closeCurly
  | .openParen => some .closeParen
  | .openSquare | .attribute => some .closeSquare
  | _ => none

/-- Opening and closing braces. -/
def isBrace (k : Kind) : Bool := k == .openCurly || k == .closeCurly

/-- Match braces with a stack of open ones: each closing brace takes the innermost, if there is
any. -/
def matchBraces : List Nat → List (Kind × Nat) → List (Nat × Nat)
  | _, [] => []
  | stack, (.openCurly, i) :: rest => matchBraces (i :: stack) rest
  | [], _ :: rest => matchBraces [] rest
  | opener :: outer, (_, i) :: rest => (opener, i) :: matchBraces outer rest

/-- The open braces of a stack. -/
def openBraces (stack : List (Nat × Kind)) :
    List Nat := (stack.filter fun a => a.2 = .openCurly).map (·.1)

/-- Kinds whose brackets all close in the order in which they open. -/
inductive Balanced : List Kind → Prop
  | nil : Balanced []
  | plain {k : Kind} {rest : List Kind} (hplain : k.isBracket = false) (hrest : Balanced rest) :
      Balanced (k :: rest)
  | group {opener closer : Kind} {inner behind : List Kind}
      (hcloser : closerOf opener = some closer)
      (hinner : Balanced inner) (hbehind : Balanced behind) :
      Balanced (opener :: (inner ++ closer :: behind))

/-- Two indexes hold an opening bracket and the one that closes its group, with balanced code
between. -/
def Encloses (kinds : List Kind) (i j : Nat) : Prop :=
  ∃ front opener inner closer behind, kinds = front ++ opener :: (inner ++ closer :: behind) ∧
    closerOf opener = some closer ∧ Balanced inner ∧ i = front.length ∧ j = i + inner.length + 1

/-- A closing bracket fits the openers whose groups it closes. -/
theorem closerOf_eq_some_iff {opener closer : Kind} :
    closerOf opener = some closer ↔ closer.closesGroup = true ∧ fits closer opener = true := by
  constructor
  · intro h
    unfold closerOf at h
    split at h <;> cases h <;> exact ⟨rfl, rfl⟩
  · rintro ⟨hcloses, hfits⟩
    cases closer with
    | closeCurly => rw [eq_of_beq (show (opener == Kind.openCurly) = true from hfits)]; rfl
    | closeParen => rw [eq_of_beq (show (opener == Kind.openParen) = true from hfits)]; rfl
    | closeSquare =>
      rcases Bool.or_eq_true_iff.mp
        (show (opener == Kind.openSquare || opener == Kind.attribute) = true from hfits) with h | h
      · rw [eq_of_beq h]; rfl
      · rw [eq_of_beq h]; rfl
    | _ => cases hcloses

/-- What has a closer opens a group. -/
theorem opensGroup_of_closerOf {opener closer : Kind} (h : closerOf opener = some closer) :
    opener.opensGroup = true := by
  unfold closerOf at h
  split at h <;> first | rfl | cases h

/-! ## Braces -/

section braces

variable {stack : List (Nat × Kind)} {rest : List (Kind × Nat)} {i : Nat}

/-- A kind is no brace if it is neither of the two. -/
theorem isBrace_eq_false {k : Kind} (hopens : k ≠ .openCurly) (hcloses : k ≠ .closeCurly) :
    isBrace k = false := by
  simp [isBrace, hopens, hcloses]

/-- A closing brace finds a partner as long as a brace is open. -/
theorem closeIn_closeCurly_ne_none (h : (i, .openCurly) ∈ stack) :
    closeIn .closeCurly stack ≠ none := by
  fun_induction closeIn Kind.closeCurly stack with
  | case1 => cases h
  | case2 => simp
  | case3 j outer hfits => cases hfits rfl
  | case4 j opener outer hfits hcurly ih =>
    rcases List.mem_cons.mp h with heq | houter
    · cases heq
      exact absurd rfl hcurly
    · exact ih houter

/-- An opening bracket goes on the stack of braces if it is one. -/
theorem matchBraces_open {kind : Kind} (hopen : kind.opensGroup = true) :
    matchBraces (openBraces stack) (((kind, i) :: rest).filter fun x => isBrace x.1) =
      matchBraces (openBraces ((i, kind) :: stack)) (rest.filter fun x => isBrace x.1) := by
  by_cases hcurly : kind = .openCurly
  · subst hcurly
    simp [openBraces, isBrace, matchBraces]
  · have hbrace : isBrace kind = false := by
      apply isBrace_eq_false hcurly
      rintro rfl
      cases hopen
    simp [openBraces, hcurly, hbrace]

/-- A closing bracket whose partner lies under brackets that are no braces closes a brace if it is
one. -/
theorem matchBraces_close {inner outer : List (Nat × Kind)} {opener closer : Kind} {j : Nat}
    (hcloser : closerOf opener = some closer) (hinner : ∀ a ∈ inner, a.2 ≠ .openCurly) :
    matchBraces (openBraces (inner ++ (j, opener) :: outer)) (((closer, i) :: rest).filter fun x =>
      isBrace x.1) = (if opener = .openCurly then [(j, i)] else []) ++
        matchBraces (openBraces outer) (rest.filter fun x => isBrace x.1) := by
  have hnone : inner.filter (fun a => a.2 = .openCurly) = [] :=
    List.filter_eq_nil_iff.mpr fun a ha => by simpa using hinner a ha
  by_cases hcurly : opener = .openCurly
  · subst hcurly
    cases hcloser
    simp [openBraces, hnone, isBrace, matchBraces]
  · have hbrace : isBrace closer = false := by
      unfold closerOf at hcloser
      split at hcloser
      · exact absurd rfl hcurly
      all_goals cases hcloser <;> rfl
    simp [openBraces, hnone, hcurly, hbrace]

/-- A closing bracket without a partner changes nothing, and if it is a brace then none is open. -/
theorem matchBraces_stray {kind : Kind} (hcloses : kind.closesGroup = true)
    (hfound : closeIn kind stack = none) :
    matchBraces (openBraces stack) (((kind, i) :: rest).filter fun x => isBrace x.1) =
      matchBraces (openBraces stack) (rest.filter fun x => isBrace x.1) := by
  by_cases hcurly : kind = .closeCurly
  · subst hcurly
    have hnone : stack.filter (fun a => a.2 = .openCurly) = [] := by
      apply List.filter_eq_nil_iff.mpr
      rintro ⟨j, opener⟩ ha hopener
      rw [decide_eq_true_eq] at hopener
      subst hopener
      exact closeIn_closeCurly_ne_none ha hfound
    simp [openBraces, hnone, isBrace, matchBraces]
  · have hbrace : isBrace kind = false := by
      apply isBrace_eq_false _ hcurly
      rintro rfl
      cases hcloses
    simp [hbrace]

/-- Braces pair as if they were alone. -/
theorem filter_pairFrom {kinds : List Kind} (hstack : ∀ a ∈ stack, kinds[a.1]? = some a.2)
    (hrest : ∀ x ∈ rest, kinds[x.2]? = some x.1) :
    (pairFrom stack rest).filter (fun p => kinds[p.1]? = some .openCurly) =
      matchBraces (openBraces stack) (rest.filter fun x => isBrace x.1) := by
  fun_induction pairFrom stack rest with
  | case1 => simp [matchBraces]
  | case2 stack kind i rest hopen ih =>
    obtain ⟨hkind, hrest⟩ := List.forall_mem_cons.mp hrest
    rw [ih (List.forall_mem_cons.mpr ⟨hkind, hstack⟩) hrest, matchBraces_open hopen]
  | case3 stack kind i rest _ hcloses j outer hfound ih =>
    obtain ⟨inner, opener, rfl, hfits, hinner⟩ := closeIn_eq_some hfound
    have hj : kinds[j]? = some opener := hstack (j, opener) (by simp)
    have hpairs := ih (fun a ha => hstack a (by simp [ha])) (List.forall_mem_cons.mp hrest).2
    rw [matchBraces_close (closerOf_eq_some_iff.mpr ⟨hcloses, hfits⟩) fun a ha => (hinner a ha).2,
      List.filter_cons, hpairs, hj]
    by_cases hcurly : opener = .openCurly <;> simp [hcurly]
  | case4 stack kind i rest _ hcloses hfound ih =>
    rw [ih hstack (List.forall_mem_cons.mp hrest).2, matchBraces_stray hcloses hfound]
  | case5 stack kind i rest hopen hcloses ih =>
    have hbrace : isBrace kind = false := by
      apply isBrace_eq_false
      · rintro rfl
        exact hopen rfl
      · rintro rfl
        exact hcloses rfl
    rw [ih hstack (List.forall_mem_cons.mp hrest).2, List.filter_cons, hbrace]
    rfl

/-- An open brace closes before any bracket that is open outside it. -/
theorem closes_of_mem_stack (hpending : Pending stack rest) (hmem : (i, .openCurly) ∈ stack)
    {p : Nat × Nat} (hp : p ∈ pairFrom stack rest) (hlt : p.1 < i) :
    ∃ j < p.2, (i, j) ∈ pairFrom stack rest := by
  fun_induction pairFrom stack rest with
  | case1 => cases hp
  | case2 stack kind k rest hopen ih =>
    exact ih (hpending.push hopen) (List.mem_cons_of_mem _ hmem) hp
  | case3 stack kind k rest _ _ opened outer hfound ih =>
    obtain ⟨inner, opener, rfl, _, hinner⟩ := closeIn_eq_some hfound
    have houter := hpending.pop.skip
    -- What is given up is no brace, so the brace is the one that closes here or lies outside it.
    have hplace : opened = i ∨ (i, .openCurly) ∈ outer ∧ i < opened := by
      rcases List.mem_append.mp hmem with hinside | hmem
      · exact absurd rfl (hinner _ hinside).2
      · rcases List.mem_cons.mp hmem with heq | hmem
        · exact .inl (congrArg Prod.fst heq).symm
        · have hfalling := (List.pairwise_append.mp hpending.falling).2.1
          exact .inr ⟨hmem, List.rel_of_pairwise_cons hfalling hmem⟩
    rcases List.mem_cons.mp hp with rfl | hp
    · rcases hplace with rfl | ⟨_, hfirst⟩
      · exact absurd hlt (Nat.lt_irrefl _)
      · exact absurd hlt (Nat.lt_asymm hfirst)
    · rcases hplace with rfl | ⟨hmem, _⟩
      · refine ⟨k, ?_, List.mem_cons_self⟩
        obtain ⟨_, _, _, _, hcloser, _⟩ := joins_of_mem_pairFrom houter p hp
        exact List.rel_of_pairwise_cons hpending.rising hcloser
      · obtain ⟨j, hj, hpair⟩ := ih houter hmem hp
        exact ⟨j, hj, List.mem_cons_of_mem _ hpair⟩
  | case4 stack kind k rest _ _ _ ih => exact ih hpending.skip hmem hp
  | case5 stack kind k rest _ _ ih => exact ih hpending.skip hmem hp

/-- A brace that opens inside a pair closes inside it. -/
theorem closes_of_mem_rest (hpending : Pending stack rest) (hmem : (.openCurly, i) ∈ rest)
    {p : Nat × Nat} (hp : p ∈ pairFrom stack rest) (hopens : p.1 < i) (hcloses : i < p.2) :
    ∃ j < p.2, (i, j) ∈ pairFrom stack rest := by
  fun_induction pairFrom stack rest with
  | case1 => cases hp
  | case2 stack kind k rest hopen ih =>
    rcases List.mem_cons.mp hmem with heq | hmem
    · cases heq
      exact closes_of_mem_stack (hpending.push hopen) List.mem_cons_self hp hopens
    · exact ih (hpending.push hopen) hmem hp
  | case3 stack kind k rest hopen _ opened outer hfound ih =>
    obtain ⟨inner, opener, rfl, _, _⟩ := closeIn_eq_some hfound
    have hmem : (.openCurly, i) ∈ rest := by
      rcases List.mem_cons.mp hmem with heq | hmem
      · cases heq
        exact absurd rfl hopen
      · exact hmem
    rcases List.mem_cons.mp hp with rfl | hp
    · have hlater : k < i := List.rel_of_pairwise_cons hpending.rising hmem
      exact absurd hcloses (Nat.lt_asymm hlater)
    · obtain ⟨j, hj, hpair⟩ := ih hpending.pop.skip hmem hp
      exact ⟨j, hj, List.mem_cons_of_mem _ hpair⟩
  | case4 stack kind k rest hopen _ _ ih =>
    rcases List.mem_cons.mp hmem with heq | hmem
    · cases heq
      exact absurd rfl hopen
    · exact ih hpending.skip hmem hp
  | case5 stack kind k rest hopen _ ih =>
    rcases List.mem_cons.mp hmem with heq | hmem
    · cases heq
      exact absurd rfl hopen
    · exact ih hpending.skip hmem hp

end braces

/-! ## Balanced stretches -/

/-- Pairing goes on behind any front with the stack that the front leaves. -/
theorem exists_pairFrom_append (front rest : List (Kind × Nat)) (stack : List (Nat × Kind)) :
    ∃ pairs left, pairFrom stack (front ++ rest) = pairs ++ pairFrom left rest := by
  fun_induction pairFrom stack front with
  | case1 stack => exact ⟨[], stack, rfl⟩
  | case2 stack kind i front hopen ih =>
    obtain ⟨pairs, left, heq⟩ := ih
    exact ⟨pairs, left, by rw [List.cons_append, pairFrom, if_pos hopen, heq]⟩
  | case3 stack kind i front hopen hcloses opener outer hfound ih =>
    obtain ⟨pairs, left, heq⟩ := ih
    refine ⟨(opener, i) :: pairs, left, ?_⟩
    rw [List.cons_append, pairFrom, if_neg hopen, if_pos hcloses, hfound, List.cons_append, ← heq]
  | case4 stack kind i front hopen hcloses hfound ih =>
    obtain ⟨pairs, left, heq⟩ := ih
    exact ⟨pairs, left,
      by rw [List.cons_append, pairFrom, if_neg hopen, if_pos hcloses, hfound, ← heq]⟩
  | case5 stack kind i front hopen hcloses ih =>
    obtain ⟨pairs, left, heq⟩ := ih
    exact ⟨pairs, left, by rw [List.cons_append, pairFrom, if_neg hopen, if_neg hcloses, heq]⟩

/-- A closer is paired with the opener on top of the stack. -/
theorem pairFrom_closer {opener closer : Kind} (h : closerOf opener = some closer)
    (stack : List (Nat × Kind)) (rest : List (Kind × Nat)) (i j : Nat) :
    pairFrom ((i, opener) :: stack) ((closer, j) :: rest) = (i, j) :: pairFrom stack rest := by
  obtain ⟨hcloses, hfits⟩ := closerOf_eq_some_iff.mp h
  have hopens : closer.opensGroup = false := Kind.opensGroup_of_closesGroup hcloses
  simp [pairFrom, closeIn, hopens, hcloses, hfits]

/-- Kinds without brackets are balanced. -/
theorem Balanced.of_forall {ks : List Kind} (h : ∀ k ∈ ks, k.isBracket = false) : Balanced ks := by
  induction ks with
  | nil => exact .nil
  | cons k ks ih =>
    obtain ⟨hk, hks⟩ := List.forall_mem_cons.mp h
    exact .plain hk (ih hks)

/-- A balanced stretch leaves the stack as it found it. -/
theorem Balanced.exists_pairFrom {ks : List Kind} (h : Balanced ks) (stack : List (Nat × Kind))
    (n : Nat) (rest : List (Kind × Nat)) :
    ∃ pairs, pairFrom stack (ks.zipIdx n ++ rest) = pairs ++ pairFrom stack rest := by
  induction h generalizing stack n rest with
  | nil => exact ⟨[], rfl⟩
  | @plain k ks hplain _ ih =>
    obtain ⟨pairs, heq⟩ := ih stack (n + 1) rest
    obtain ⟨hopens, hcloses⟩ := Bool.or_eq_false_iff.mp hplain
    refine ⟨pairs, ?_⟩
    rw [List.zipIdx_cons, List.cons_append, pairFrom, hopens, hcloses]
    exact heq
  | @group opener closer inner behind hcloser _ _ ihinner ihbehind =>
    obtain ⟨within, hwithin⟩ := ihinner ((n, opener) :: stack) (n + 1)
      ((closer, n + 1 + inner.length) :: (behind.zipIdx (n + 1 + inner.length + 1) ++ rest))
    obtain ⟨pairs, heq⟩ := ihbehind stack (n + 1 + inner.length + 1) rest
    refine ⟨within ++ (n, n + 1 + inner.length) :: pairs, ?_⟩
    rw [List.zipIdx_cons, List.cons_append, pairFrom, if_pos (opensGroup_of_closerOf hcloser),
      List.zipIdx_append, List.append_assoc, List.zipIdx_cons, List.cons_append, hwithin,
      pairFrom_closer hcloser, heq, List.append_assoc, List.cons_append]

/-- Brackets around balanced code are a pair, whatever surrounds them. -/
theorem mem_pair_of_encloses {kinds : List Kind} {i j : Nat} (h : Encloses kinds i j) :
    (i, j) ∈ pair kinds := by
  obtain ⟨front, opener, inner, closer, behind, rfl, hcloser, hinner, rfl, rfl⟩ := h
  obtain ⟨before, stack, hbefore⟩ := exists_pairFrom_append front.zipIdx
    ((opener :: (inner ++ closer :: behind)).zipIdx front.length) []
  obtain ⟨within, hwithin⟩ := hinner.exists_pairFrom ((front.length, opener) :: stack)
    (front.length + 1) ((closer :: behind).zipIdx (front.length + 1 + inner.length))
  have hlength : front.length + inner.length + 1 = front.length + 1 + inner.length :=
    Nat.add_right_comm ..
  rw [pair, List.zipIdx_append, Nat.zero_add, hbefore, List.zipIdx_cons, pairFrom,
    if_pos (opensGroup_of_closerOf hcloser), List.zipIdx_append, hwithin, List.zipIdx_cons,
    pairFrom_closer hcloser, hlength]
  simp

/-- What a bracket encloses stays enclosed with kinds in front and behind. -/
theorem Encloses.within {ks : List Kind} {i j : Nat} (h : Encloses ks i j)
    (front behind : List Kind) :
    Encloses (front ++ (ks ++ behind)) (front.length + i) (front.length + j) := by
  obtain ⟨before, opener, inner, closer, after, rfl, hcloser, hinner, rfl, rfl⟩ := h
  refine ⟨front ++ before, opener, inner, closer, after ++ behind, ?_, hcloser, hinner, ?_, ?_⟩
  · simp
  · simp
  · simp only [Nat.add_assoc]

/-- In balanced code every bracket has a partner with balanced code between. -/
theorem Balanced.exists_encloses {ks : List Kind} (h : Balanced ks) {i : Nat} {k : Kind}
    (hi : ks[i]? = some k) (hk : k.isBracket = true) : ∃ j, Encloses ks i j ∨ Encloses ks j i := by
  induction h generalizing i with
  | nil => simp at hi
  | @plain plain ks hplain _ ih =>
    cases i with
    | zero =>
      cases hi
      rw [hplain] at hk
      cases hk
    | succ i =>
      obtain ⟨j, hj⟩ := ih hi
      have hshift {a b : Nat} (h : Encloses ks a b) : Encloses (plain :: ks) (a + 1) (b + 1) := by
        have := h.within [plain] []
        simpa [Nat.add_comm] using this
      exact ⟨j + 1, hj.imp hshift hshift⟩
  | @group opener closer inner behind hcloser hinner _ ihinner ihbehind =>
    have hwhole : Encloses (opener :: (inner ++ closer :: behind)) 0 (inner.length + 1) :=
      ⟨[], opener, inner, closer, behind, rfl, hcloser, hinner, rfl, by simp⟩
    have hinside {a b : Nat} (h : Encloses inner a b) :
        Encloses (opener :: (inner ++ closer :: behind)) (1 + a) (1 + b) :=
      h.within [opener] (closer :: behind)
    have houtside {a b : Nat} (h : Encloses behind a b) :
        Encloses (opener :: (inner ++ closer :: behind)) (inner.length + 2 + a)
          (inner.length + 2 + b) := by
      have := h.within (opener :: (inner ++ [closer])) []
      simpa using this
    rcases Nat.lt_trichotomy i (inner.length + 1) with hlt | rfl | hgt
    · cases i with
      | zero => exact ⟨_, .inl hwhole⟩
      | succ i =>
        rw [List.getElem?_cons_succ, List.getElem?_append_left (by omega)] at hi
        obtain ⟨j, hj⟩ := ihinner hi
        rw [Nat.add_comm i 1]
        exact ⟨1 + j, hj.imp hinside hinside⟩
    · exact ⟨_, .inr hwhole⟩
    · obtain ⟨i, rfl⟩ : ∃ a, i = inner.length + 2 + a := ⟨i - (inner.length + 2), by omega⟩
      have hbehind : behind[i]? = some k := by
        rw [show inner.length + 2 + i = (inner.length + 1 + i) +
          1 by omega, List.getElem?_cons_succ, List.getElem?_append_right (by omega),
          show inner.length + 1 + i - inner.length = i + 1 by omega, List.getElem?_cons_succ] at hi
        exact hi
      obtain ⟨j, hj⟩ := ihbehind hbehind
      exact ⟨_, hj.imp houtside houtside⟩

/-- In balanced code the pairs are the brackets with balanced code between. -/
theorem Balanced.mem_pair_iff {kinds : List Kind} (h : Balanced kinds) {i j : Nat} :
    (i, j) ∈ pair kinds ↔ Encloses kinds i j := by
  constructor
  · intro hpair
    obtain ⟨_, opener, _, hopener, _, hopens, _⟩ := mem_pair hpair
    have hbracket : opener.isBracket = true := by simp [Kind.isBracket, hopens]
    obtain ⟨partner, hcloses | hopened⟩ := h.exists_encloses hopener hbracket
    · obtain rfl : j = partner := closer_unique hpair (mem_pair_of_encloses hcloses)
      exact hcloses
    · have hother := mem_pair_of_encloses hopened
      have hlt : partner < i := (mem_pair hother).1
      have hends := ends_ne hpair hother (Nat.ne_of_gt hlt)
      exact absurd rfl hends.1
  · exact mem_pair_of_encloses

/-! ## Recovery -/

/-- A brace that opens inside a pair is closed inside it. -/
theorem exists_closer_inside {kinds : List Kind} {i j k : Nat} (hpair : (i, j) ∈ pair kinds)
    (hopens : i < k) (hcloses : k < j) (hk : kinds[k]? = some .openCurly) :
    ∃ l, k < l ∧ l < j ∧ (k, l) ∈ pair kinds := by
  obtain ⟨l, hl, hinside⟩ := closes_of_mem_rest (pending_zipIdx kinds)
      (List.mem_zipIdx_iff_getElem?.mpr hk) hpair hopens hcloses
  exact ⟨l, (mem_pair hinside).1, hl, hinside⟩

/-- A bracket that is closed inside a pair is opened inside it. -/
theorem opener_inside {kinds : List Kind} {i j k l : Nat} (hpair : (i, j) ∈ pair kinds)
    (hopens : i < k) (hcloses : k < j) (hinside : (l, k) ∈ pair kinds) : i < l := by
  rcases apart_of_mem_pair hinside hpair with heq | ⟨_, hside⟩ | ⟨hlater, _⟩
  · have : k = j := congrArg Prod.snd heq
    omega
  · dsimp only at hside
    omega
  · dsimp only at hlater
    omega

/-- The pairs of any file nest, in the order in which they close, and join brackets that belong
together. Braces pair as if they were alone, a pair holds whole pairs of braces only, and in
balanced code each bracket is paired with its partner. -/
theorem pair_recovers (kinds : List Kind) :
    (pair kinds).Pairwise Apart ∧
    (∀ i j, (i, j) ∈ pair kinds → i < j ∧ ∃ opener closer,
      kinds[i]? = some opener ∧ kinds[j]? = some closer ∧ closerOf opener = some closer) ∧
    (pair kinds).filter (fun p => kinds[p.1]? = some .openCurly) =
      matchBraces [] (kinds.zipIdx.filter fun x => isBrace x.1) ∧
    (∀ i j k, (i, j) ∈ pair kinds → i < k → k < j →
      (kinds[k]? = some .openCurly → ∃ l, k < l ∧ l < j ∧ (k, l) ∈ pair kinds) ∧
      (kinds[k]? = some .closeCurly → ∀ l, (l, k) ∈ pair kinds → i < l)) ∧
    (Balanced kinds →
      (∀ i k, kinds[i]? = some k → k.isBracket = true →
        ∃ j, (i, j) ∈ pair kinds ∨ (j, i) ∈ pair kinds) ∧
      ∀ i j, (i, j) ∈ pair kinds ↔ Encloses kinds i j) := by
  refine ⟨pair_pairwise kinds, ?_, ?_, ?_, ?_⟩
  · intro i j hpair
    obtain ⟨hlt, opener, closer, hopener, hcloser, _, hcloses, hfits⟩ := mem_pair hpair
    exact ⟨hlt, opener, closer, hopener, hcloser, closerOf_eq_some_iff.mpr ⟨hcloses, hfits⟩⟩
  · have hrest : ∀ x ∈ kinds.zipIdx, kinds[x.2]? = some x.1 := fun x hx =>
      List.mem_zipIdx_iff_getElem?.mp hx
    exact filter_pairFrom (by simp) hrest
  · intro i j k hpair hopens hcloses
    constructor
    · exact fun hk => exists_closer_inside hpair hopens hcloses hk
    · exact fun _ l hinside => opener_inside hpair hopens hcloses hinside
  · intro hbalanced
    constructor
    · intro i k hi hk
      obtain ⟨j, hj⟩ := hbalanced.exists_encloses hi hk
      exact ⟨j, hj.imp mem_pair_of_encloses mem_pair_of_encloses⟩
    · exact fun i j => hbalanced.mem_pair_iff

/-- In `([{](})` the braces pair across the stray brackets, inside the outer pair; and in
`#[()]` both pairs have balanced code between. -/
theorem pair_recovers_stray :
    (∃ l, 2 < l ∧ l < 6 ∧ (2, l) ∈ pair [.openParen, .openSquare, .openCurly, .closeSquare,
      .openParen, .closeCurly, .closeParen]) ∧
    (∀ l, (l, 5) ∈ pair [.openParen, .openSquare, .openCurly, .closeSquare, .openParen,
      .closeCurly, .closeParen] → 0 < l) ∧
    Encloses [.attribute, .openParen, .closeParen, .closeSquare] 0 3 := by
  obtain ⟨_, _, _, hstray, _⟩ := pair_recovers [.openParen, .openSquare, .openCurly, .closeSquare,
    .openParen, .closeCurly, .closeParen]
  obtain ⟨_, _, _, _, hbalanced⟩ :=
    pair_recovers [.attribute, .openParen, .closeParen, .closeSquare]
  refine ⟨?_, ?_, ?_⟩
  · exact (hstray 0 6 2 (by decide) (by decide) (by decide)).1 rfl
  · exact (hstray 0 6 5 (by decide) (by decide) (by decide)).2 rfl
  · have hinner : Balanced (.openParen :: ([] ++ .closeParen :: [])) := .group rfl .nil .nil
    have hwhole : Balanced (.attribute :: ([.openParen, .closeParen] ++ .closeSquare :: [])) :=
      .group rfl hinner .nil
    exact ((hbalanced hwhole).2 0 3).mp (by decide)

end PhpStyle.Php.Brackets
