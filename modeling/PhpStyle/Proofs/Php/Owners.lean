import Mathlib.Data.Option.Basic
import PhpStyle.Proofs.Php.Brackets

/-!
# Owners of parentheses and braces

Which keyword owns parentheses is found backwards from their opener. Forwards, only one parenthesis
can be reached from a keyword, so no keyword owns two. Scopes are found forwards, token by token,
and each leaves the braces alone that an earlier one has taken.
-/

namespace PhpStyle.Php.Skeleton

variable {s : Skeleton} {test : Kind → Bool} {i j : Nat}

/-- A token of any kind that the structure knows is in the file. -/
theorem lt_size_of_kind_ne (h : s.kind i ≠ .unknown) : i < s.kinds.size := by
  by_contra hout
  exact h (by rw [kind, Array.getElem?_eq_none (by omega), Option.getD_none])

section Scans

/-- Scanning down finds the nearest token before a place that passes a test. -/
theorem scanDown_eq_some_iff : s.scanDown test i = some j ↔
    j < i ∧ test (s.kind j) = true ∧ ∀ k, j < k → k < i → test (s.kind k) = false := by
  induction i with
  | zero => simp [scanDown]
  | succ i ih =>
    rw [scanDown]
    split
    · rename_i htest
      simp only [Option.some.injEq]
      constructor
      · rintro rfl
        exact ⟨by omega, htest, fun k _ _ => by omega⟩
      · rintro ⟨hlt, _, hbetween⟩
        by_contra hne
        have h := hbetween i (by omega) (by omega)
        simp [htest] at h
    · rename_i htest
      rw [ih]
      constructor
      · rintro ⟨hlt, hj, hbetween⟩
        refine ⟨by omega, hj, fun k hjk hk => ?_⟩
        by_cases heq : k = i
        · simpa [heq] using htest
        · exact hbetween k hjk (by omega)
      · rintro ⟨hlt, hj, hbetween⟩
        have hne : j ≠ i := by
          rintro rfl
          exact htest hj
        exact ⟨by omega, hj, fun k hjk hk => hbetween k hjk (by omega)⟩

/-- Scanning up finds the nearest token from a place on that passes a test. -/
theorem scanUp_eq_some_iff {count : Nat} : s.scanUp test i count = some j ↔
    i ≤ j ∧ j < i + count ∧ test (s.kind j) = true ∧
      ∀ k, i ≤ k → k < j → test (s.kind k) = false := by
  induction count generalizing i with
  | zero =>
    simp only [scanUp, reduceCtorEq, false_iff]
    omega
  | succ count ih =>
    rw [scanUp]
    split
    · rename_i htest
      simp only [Option.some.injEq]
      constructor
      · rintro rfl
        exact ⟨by omega, by omega, htest, fun k _ _ => by omega⟩
      · rintro ⟨hle, _, _, hbetween⟩
        by_contra hne
        have h := hbetween i (by omega) (by omega)
        simp [htest] at h
    · rename_i htest
      rw [ih]
      constructor
      · rintro ⟨hle, hlt, hj, hbetween⟩
        refine ⟨by omega, by omega, hj, fun k hik hk => ?_⟩
        by_cases heq : k = i
        · simpa [heq] using htest
        · exact hbetween k (by omega) hk
      · rintro ⟨hle, hlt, hj, hbetween⟩
        have hne : j ≠ i := by
          rintro rfl
          exact htest hj
        exact ⟨by omega, by omega, hj, fun k hik hk => hbetween k (by omega) hk⟩

/-- The search behind a token finds the nearest one behind it that passes a test. -/
theorem after?_eq_some_iff : s.after? test i = some j ↔
    i < j ∧ j < s.kinds.size ∧ test (s.kind j) = true ∧
      ∀ k, i < k → k < j → test (s.kind k) = false := by
  rw [after?, scanUp_eq_some_iff]
  constructor
  · rintro ⟨hle, hlt, hj, hbetween⟩
    exact ⟨by omega, by omega, hj, fun k hik hk => hbetween k (by omega) hk⟩
  · rintro ⟨hlt, hsize, hj, hbetween⟩
    exact ⟨by omega, by omega, hj, fun k hik hk => hbetween k (by omega) hk⟩

/-- The token of code before another is asked for its kind. -/
theorem prevCodeIf?_eq_some_iff : s.prevCodeIf? test i = some j ↔
    s.prevCode? i = some j ∧ test (s.kind j) = true := by
  rw [prevCodeIf?, Option.filter_eq_some_iff]

/-- The token of code before another stands before it. -/
theorem lt_of_prevCode? (h : s.prevCode? i = some j) : j < i :=
  (scanDown_eq_some_iff.mp h).1

/-- The token of code behind another stands behind it. -/
theorem lt_of_nextCode? (h : s.nextCode? i = some j) : i < j :=
  (after?_eq_some_iff.mp h).1

/-- From the code before a token of code, that token is the next. -/
theorem nextCode?_of_prevCode? (h : s.prevCode? i = some j) (hcode : (s.kind i).isTrivia = false)
    (hsize : i < s.kinds.size) : s.nextCode? j = some i := by
  obtain ⟨hlt, _, hbetween⟩ := scanDown_eq_some_iff.mp h
  refine after?_eq_some_iff.mpr ⟨hlt, hsize, by simp [hcode], hbetween⟩

end Scans

section Parentheses

/-- The parenthesis that a keyword can own: the next code, not counting an `&` and then a name. -/
def parenBehind? (s : Skeleton) (owner : Nat) : Option Nat := do
  let first ← s.nextCode? owner
  let name ← if s.kind first = .bitwiseAnd then s.nextCode? first else some first
  if s.kind name = .openParen then some name else s.nextCode? name

/-- A token that is no bracket owns parentheses behind it to which the way leads back from it. -/
def Owns (s : Skeleton) (owner opener : Nat) : Prop :=
  (s.kind owner).isBracket = false ∧ owner < opener ∧ s.parenBehind? owner = some opener

/-- No bracket owns parentheses. -/
theorem isBracket_of_ownsParens {k : Kind} (h : ownsParens k = true) : k.isBracket = false := by
  cases k <;> first | rfl | cases h

section

variable {owner first prev opener : Nat}

/-- A token owns the parentheses right behind it. -/
theorem owns_of_next (hkind : (s.kind owner).isBracket = false) (hopen : s.kind opener = .openParen)
    (hnext : s.nextCode? owner = some opener) : s.Owns owner opener :=
  ⟨hkind, lt_of_nextCode? hnext, by simp [parenBehind?, hnext, hopen]⟩

/-- A token owns the parentheses behind an `&`. -/
theorem owns_of_reference (hkind : (s.kind owner).isBracket = false)
    (hopen : s.kind opener = .openParen) (href : s.kind first = .bitwiseAnd)
    (hfirst : s.nextCode? owner = some first) (hnext : s.nextCode? first = some opener) :
    s.Owns owner opener := by
  have := lt_of_nextCode? hfirst
  have := lt_of_nextCode? hnext
  exact ⟨hkind, by omega, by simp [parenBehind?, hfirst, href, hnext, hopen]⟩

/-- A function owns the parentheses behind its name. -/
theorem owns_of_name (hkind : (s.kind owner).isBracket = false) (hname : s.kind prev = .identifier)
    (hfirst : s.nextCode? owner = some prev) (hnext : s.nextCode? prev = some opener) :
    s.Owns owner opener := by
  have := lt_of_nextCode? hfirst
  have := lt_of_nextCode? hnext
  exact ⟨hkind, by omega, by simp [parenBehind?, hfirst, hname, hnext]⟩

/-- A function owns the parentheses behind an `&` and its name. -/
theorem owns_of_referenced_name (hkind : (s.kind owner).isBracket = false)
    (href : s.kind first = .bitwiseAnd) (hname : s.kind prev = .identifier)
    (hfirst : s.nextCode? owner = some first) (hsecond : s.nextCode? first = some prev)
    (hnext : s.nextCode? prev = some opener) : s.Owns owner opener := by
  have := lt_of_nextCode? hfirst
  have := lt_of_nextCode? hsecond
  have := lt_of_nextCode? hnext
  exact ⟨hkind, by omega, by simp [parenBehind?, hfirst, href, hsecond, hname, hnext]⟩

/-- The function found in front of a name owns the parentheses behind the name. -/
theorem owns_of_functionOfName? (hname : s.kind prev = .identifier) (hin : prev < s.kinds.size)
    (hnext : s.nextCode? prev = some opener) (h : s.functionOfName? prev = some owner) :
    s.Owns owner opener := by
  unfold functionOfName? at h
  obtain ⟨hback, howner⟩ := prevCodeIf?_eq_some_iff.mp h
  have hkind : (s.kind owner).isBracket = false := by
    rw [beq_iff_eq.mp howner]
    rfl
  cases href : s.prevCodeIf? (· == .bitwiseAnd) prev with
  | none =>
    rw [href, Option.getD_none] at hback
    exact owns_of_name hkind hname (nextCode?_of_prevCode? hback (by rw [hname]; rfl) hin) hnext
  | some first =>
    rw [href, Option.getD_some] at hback
    obtain ⟨hfirst, href⟩ := prevCodeIf?_eq_some_iff.mp href
    have href := beq_iff_eq.mp href
    have hsecond := nextCode?_of_prevCode? hfirst (by rw [hname]; rfl) hin
    have hlt := lt_of_prevCode? hfirst
    exact owns_of_referenced_name hkind href hname
      (nextCode?_of_prevCode? hback (by rw [href]; rfl) (by omega)) hsecond hnext

/-- Parentheses belong to their own opener or to a token that owns them. -/
theorem parenOwner_cases (hopen : s.kind opener = .openParen) :
    s.parenOwner opener = opener ∨ s.Owns (s.parenOwner opener) opener := by
  unfold parenOwner
  cases hprev : s.prevCode? opener with
  | none => exact .inl rfl
  | some prev =>
    have hsize : opener < s.kinds.size := lt_size_of_kind_ne (by simp [hopen])
    have hnext : s.nextCode? prev = some opener :=
      nextCode?_of_prevCode? hprev (by rw [hopen]; rfl) hsize
    have hin : prev < s.kinds.size := Nat.lt_trans (lt_of_nextCode? hnext) hsize
    dsimp only
    split
    · rename_i howns
      exact .inr (owns_of_next (isBracket_of_ownsParens howns) hopen hnext)
    · split
      · rename_i hkind
        cases s.prevCodeIf? (· == Kind.closeParen) prev with
        | none => exact .inl rfl
        | some _ => exact .inr (owns_of_next (by simp [hkind]; rfl) hopen hnext)
      · rename_i href
        cases hfound : s.prevCodeIf? (fun k => k == Kind.closure || k == Kind.kwFn) prev with
        | none => exact .inl rfl
        | some owner =>
          obtain ⟨hback, howner⟩ := prevCodeIf?_eq_some_iff.mp hfound
          have hkind : (s.kind owner).isBracket = false := by
            rw [Bool.or_eq_true, beq_iff_eq, beq_iff_eq] at howner
            rcases howner with h | h <;> rw [h] <;> rfl
          have hfirst := nextCode?_of_prevCode? hback (by rw [href]; rfl) hin
          exact .inr (owns_of_reference hkind hopen href hfirst hnext)
      · rename_i hname
        cases hfound : s.functionOfName? prev with
        | none => exact .inl rfl
        | some owner => exact .inr (owns_of_functionOfName? hname hin hnext hfound)
      · exact .inl rfl

/-- No token owns two parentheses. -/
theorem Owns.opener_unique {a b : Nat} (ha : s.Owns owner a) (hb : s.Owns owner b) : a = b :=
  Option.some.inj (ha.2.2.symm.trans hb.2.2)

end

end Parentheses

section Scopes

variable {taken : List Nat}

/-- A paired brace that no scope has taken. -/
def IsFree (s : Skeleton) (taken : List Nat) (i : Nat) : Prop :=
  s.kind i = .openCurly ∧ (s.partner? i).isSome ∧ i ∉ taken

/-- A brace is free if no scope has taken it. -/
theorem freeCurly?_eq_some_iff : s.freeCurly? taken i = some j ↔ i = j ∧ s.IsFree taken j := by
  unfold freeCurly? IsFree
  split <;> rename_i h <;> simp only [List.contains_iff_mem] at h
  · simp only [Option.some.injEq]
    exact ⟨fun heq => ⟨heq, heq ▸ h⟩, fun h => h.1⟩
  · simp only [reduceCtorEq, false_iff]
    rintro ⟨rfl, hfree⟩
    exact h hfree

/-- The block found from a token on opens there or behind it, with a free brace. -/
theorem blockFrom?_eq_some (h : s.blockFrom? taken i = some j) : i ≤ j ∧ s.IsFree taken j := by
  fun_induction s.blockFrom? taken i with
  | case1 i =>
    obtain ⟨rfl, hfree⟩ := freeCurly?_eq_some_iff.mp h
    exact ⟨Nat.le_refl _, hfree⟩
  | case5 i _ _ closer _ hlt ih
  | case8 i _ _ closer _ hlt ih
  | case11 i _ _ closer _ hlt ih =>
    obtain ⟨hle, hfree⟩ := ih h
    exact ⟨by omega, hfree⟩
  | case14 i _ _ _ _ _ _ _ _ ih =>
    obtain ⟨hle, hfree⟩ := ih h
    exact ⟨by omega, hfree⟩
  | case2 | case3 | case4 | case6 | case7 | case9 | case10 | case12 | case13 | case15 => cases h

/-- What a table of partners promises: the partner of an opening bracket lies behind it. -/
def PartnersBehind (s : Skeleton) : Prop :=
  ∀ i j, (s.kind i).opensGroup = true → s.partner? i = some j → i < j

/-- No bracket owns a scope. -/
theorem isBracket_of_scopeOpener? {owner : Nat} (h : s.scopeOpener? taken owner = some j) :
    (s.kind owner).isBracket = false := by
  have hnone (k : Kind) : k.isBracket = true → isBare k = false ∧ hasCondition k = false ∧
      ¬ (k = .kwFunction ∨ k = .closure) ∧ k ≠ .kwNamespace ∧ k.isClassLike = false := by
    cases k <;> decide
  by_contra hbracket
  obtain ⟨hbare, hcondition, hfunction, hnamespace, hclass⟩ :=
    hnone (s.kind owner) (Bool.not_eq_false _ |>.mp hbracket)
  simp [scopeOpener?, hbare, hcondition, hfunction, hnamespace, hclass] at h

/-- The brace of a scope lies behind its owner and is free. -/
theorem scopeOpener?_eq_some {owner : Nat} (hbehind : s.PartnersBehind)
    (h : s.scopeOpener? taken owner = some j) : owner < j ∧ s.IsFree taken j := by
  unfold scopeOpener? at h
  dsimp only [Option.bind_eq_bind] at h
  split at h
  · obtain ⟨next, hnext, h⟩ := Option.bind_eq_some_iff.mp h
    obtain ⟨rfl, hfree⟩ := freeCurly?_eq_some_iff.mp h
    exact ⟨lt_of_nextCode? hnext, hfree⟩
  · split at h
    · simp only [blockPastParens?, Option.bind_eq_some_iff, Option.guard_eq_some',
        freeCurly?_eq_some_iff] at h
      obtain ⟨opener, hopener, _, hparen, block, ⟨closer, hcloser, hblock⟩, rfl, hfree⟩ := h
      have := lt_of_nextCode? hopener
      have := hbehind opener closer (by rw [hparen]; rfl) hcloser
      have := lt_of_nextCode? hblock
      exact ⟨by omega, hfree⟩
    · split at h
      · simp only [Option.bind_eq_some_iff] at h
        obtain ⟨opener, hopener, closer, hcloser, hblock⟩ := h
        obtain ⟨hlt, _, hparen, _⟩ := after?_eq_some_iff.mp hopener
        have := hbehind opener closer (by rw [beq_iff_eq.mp hparen]; rfl) hcloser
        obtain ⟨hle, hfree⟩ := blockFrom?_eq_some hblock
        exact ⟨by omega, hfree⟩
      · split at h
        · simp only [Option.bind_eq_some_iff] at h
          obtain ⟨next, hnext, _, _, h⟩ := h
          split at h
          · obtain ⟨rfl, hfree⟩ := freeCurly?_eq_some_iff.mp h
            exact ⟨lt_of_nextCode? hnext, hfree⟩
          · exact blockFrom?_eq_some h
        · split at h
          · split at h
            · cases h
            · exact blockFrom?_eq_some h
          · cases h

/-- What is found for a scope: a keyword in front of a paired brace. -/
structure Found (s : Skeleton) (g : Group) : Prop where
  owner : (s.kind g.owner).isBracket = false
  behind : g.owner < g.opener
  opener : s.kind g.opener = .openCurly
  closer : s.partner? g.opener = some g.closer

/-- A scope that is found has a free brace, and its tokens stand where they are looked for. -/
theorem scope?_eq_some {owner : Nat} {g : Group} (hbehind : s.PartnersBehind)
    (h : s.scope? taken owner = some g) : g.owner = owner ∧ g.opener ∉ taken ∧ s.Found g := by
  simp only [scope?, Option.bind_eq_bind, Option.bind_eq_some_iff, Option.some.injEq] at h
  obtain ⟨opener, hopener, closer, hcloser, rfl⟩ := h
  obtain ⟨hlt, hkind, _, htaken⟩ := scopeOpener?_eq_some hbehind hopener
  exact ⟨rfl, htaken, isBracket_of_scopeOpener? hopener, hlt, hkind, hcloser⟩

/-- Every scope is found for one of the owners and with a brace not taken before. -/
theorem mem_scopesFrom (hbehind : s.PartnersBehind) {owners : List Nat} :
    ∀ g ∈ s.scopesFrom taken owners, g.owner ∈ owners ∧ g.opener ∉ taken ∧ s.Found g := by
  induction owners generalizing taken with
  | nil => simp [scopesFrom]
  | cons owner owners ih =>
    intro g hg
    rw [scopesFrom] at hg
    split at hg
    · rename_i first hfirst
      rcases List.mem_cons.mp hg with rfl | hg
      · obtain ⟨howner, hrest⟩ := scope?_eq_some hbehind hfirst
        exact ⟨by simp [howner], hrest⟩
      · obtain ⟨howner, htaken, hfound⟩ := ih g hg
        exact ⟨List.mem_cons_of_mem owner howner, fun h => htaken (List.mem_cons_of_mem _ h),
          hfound⟩
    · obtain ⟨howner, hrest⟩ := ih g hg
      exact ⟨List.mem_cons_of_mem owner howner, hrest⟩

/-- No two scopes share an owner or a brace. -/
theorem scopesFrom_pairwise (hbehind : s.PartnersBehind) {owners : List Nat}
    (hnodup : owners.Nodup) :
    (s.scopesFrom taken owners).Pairwise fun a b => a.owner ≠ b.owner ∧ a.opener ≠ b.opener := by
  induction owners generalizing taken with
  | nil => exact .nil
  | cons owner owners ih =>
    obtain ⟨hnot, hnodup⟩ := List.nodup_cons.mp hnodup
    rw [scopesFrom]
    split
    · rename_i first hfirst
      refine .cons (fun g hg => ?_) (ih hnodup)
      obtain ⟨howner, _⟩ := scope?_eq_some hbehind hfirst
      obtain ⟨hmem, htaken, _⟩ := mem_scopesFrom hbehind g hg
      refine ⟨fun heq => hnot ?_, fun heq => htaken ?_⟩
      · rwa [← howner, heq]
      · simp [heq]
    · exact ih hnodup

end Scopes

end PhpStyle.Php.Skeleton
