import Mathlib.Data.List.Perm.Basic
import PhpStyle.Proofs.Store.Nesting
import PhpStyle.Proofs.Token.Layout

/-!
# Which outlines are accepted

An outline is well formed for a file if every pair lies in the file and opens before it closes,
every owner stands in front, no family uses a token twice, and no two pairs cross. This file proves
that a store is built exactly for the well-formed outlines, and what its tokens and its source are.
-/

namespace PhpStyle

/-- A computation with two steps succeeds exactly if the first does, and the second on its
result. -/
theorem bind_eq_ok_iff {ε α β : Type} {x : Except ε α} {f : α → Except ε β} {b : β} :
    (x >>= f) = .ok b ↔ ∃ a, x = .ok a ∧ f a = .ok b := by
  cases x <;> simp [bind, Except.bind]

namespace Group

/-- The tokens that a group uses: its owner and its two ends, a shared one once. -/
def tokens (g : Group) : List Nat :=
  if g.owner = g.opener then [g.opener, g.closer] else [g.owner, g.opener, g.closer]

/-- The tokens of a group are its owner, its opener and its closer. -/
theorem mem_tokens_iff {g : Group} {i : Nat} :
    i ∈ g.tokens ↔ i = g.owner ∨ i = g.opener ∨ i = g.closer := by
  unfold tokens
  split
  · rename_i hself
    simp [hself]
  · simp

/-- A group lies in a file of this size with its owner in front. -/
def Fits (size : Nat) (g : Group) : Prop :=
  g.owner ≤ g.opener ∧ g.opener < g.closer ∧ g.closer < size

instance (size : Nat) (g : Group) : Decidable (g.Fits size) :=
  inferInstanceAs (Decidable (g.owner ≤ g.opener ∧ g.opener < g.closer ∧ g.closer < size))

/-- The tokens of a group that fits stand in the store. -/
theorem Fits.lt_of_mem_tokens {size : Nat} {g : Group} (h : g.Fits size) {i : Nat}
    (hi : i ∈ g.tokens) : i < size := by
  obtain ⟨howner, hopener, hcloser⟩ := h
  rcases mem_tokens_iff.mp hi with rfl | rfl | rfl <;> omega

end Group

namespace Outline

/-- An outline that fits a file of this size. -/
structure WellFormed (size : Nat) (o : Outline) : Prop where
  brackets_fit : ∀ p ∈ o.brackets, p.1 < p.2 ∧ p.2 < size
  parens_fit : ∀ g ∈ o.parens, g.Fits size
  scopes_fit : ∀ g ∈ o.scopes, g.Fits size
  comments_fit : ∀ p ∈ o.comments, p.1 < p.2 ∧ p.2 < size
  brackets_once : (o.brackets.flatMap fun p => [p.1, p.2]).Nodup
  parens_once : (o.parens.flatMap Group.tokens).Nodup
  scopes_once : (o.scopes.flatMap Group.tokens).Nodup
  comments_once : (o.comments.flatMap fun p => [p.1, p.2]).Nodup
  nested : ∀ a ∈ o.intervals, ∀ b ∈ o.intervals, ¬ Crosses a b

/-- An outline without pairs fits every file. -/
theorem wellFormed_empty (size : Nat) : WellFormed size {} := by
  constructor <;> simp [intervals]

section Entering

variable {α β : Type}

/-- Enter values one after the other. -/
def enter (slots : Slots α) (entries : List (Nat × α)) : Except StructureError (Slots α) :=
  entries.foldlM (fun acc e => claim acc e.1 e.2) slots

/-- A slot is claimed if it is there and free. -/
theorem claim_eq_ok_iff {slots r : Slots α} {i : Nat} {value : α} :
    claim slots i value = .ok r ↔
      slots[i]? = some none ∧ slots.setIfInBounds i (some value) = r := by
  unfold claim
  split
  · rename_i h
    simp [h]
  · rename_i h
    exact ⟨fun hok => (by cases hok), fun hok => (h hok.1).elim⟩

/-- With no entries nothing is claimed. -/
theorem enter_nil (slots : Slots α) : enter slots [] = .ok slots := rfl

/-- Entries are claimed one after the other. -/
theorem enter_cons (slots : Slots α) (i : Nat) (value : α) (entries : List (Nat × α)) :
    enter slots ((i, value) :: entries) = claim slots i value >>= fun acc => enter acc entries :=
  List.foldlM_cons

/-- Entries put together are claimed first those and then these. -/
theorem enter_append (slots : Slots α) (a b : List (Nat × α)) :
    enter slots (a ++ b) = enter slots a >>= fun acc => enter acc b :=
  List.foldlM_append

/-- Values can be entered exactly if their tokens are distinct and free. -/
theorem exists_enter_iff (slots : Slots α) (entries : List (Nat × α)) :
    (∃ r, enter slots entries = .ok r) ↔
      (entries.map (·.1)).Nodup ∧ ∀ i ∈ entries.map (·.1), slots[i]? = some none := by
  induction entries generalizing slots with
  | nil => simp [enter_nil]
  | cons e entries ih =>
    have hstep : (∃ r, enter slots (e :: entries) = .ok r) ↔
        slots[e.1]? = some none ∧
          ∃ r, enter (slots.setIfInBounds e.1 (some e.2)) entries = .ok r := by
      rw [enter_cons]
      simp only [bind_eq_ok_iff, claim_eq_ok_iff]
      constructor
      · rintro ⟨r, acc, ⟨hfree, rfl⟩, hrest⟩
        exact ⟨hfree, r, hrest⟩
      · rintro ⟨hfree, r, hrest⟩
        exact ⟨r, _, ⟨hfree, rfl⟩, hrest⟩
    have hother (i : Nat) (hne : e.1 ≠ i) :
        (slots.setIfInBounds e.1 (some e.2))[i]? = slots[i]? := by
      simp [hne]
    rw [hstep, ih, List.map_cons, List.nodup_cons]
    constructor
    · rintro ⟨hfree, hnodup, hrest⟩
      have hnot : e.1 ∉ entries.map (·.1) := by
        intro hmem
        have h := hrest e.1 hmem
        simp [Array.getElem?_setIfInBounds] at h
      refine ⟨⟨hnot, hnodup⟩, fun i hi => ?_⟩
      rcases List.mem_cons.mp hi with rfl | hi
      · exact hfree
      · have hne : e.1 ≠ i := fun h => hnot (h ▸ hi)
        rw [← hother i hne]
        exact hrest i hi
    · rintro ⟨⟨hnot, hnodup⟩, hall⟩
      refine ⟨hall e.1 List.mem_cons_self, hnodup, fun i hi => ?_⟩
      have hne : e.1 ≠ i := fun h => hnot (h ▸ hi)
      rw [hother i hne]
      exact hall i (List.mem_cons_of_mem _ hi)

/-- Values can be entered for a file without any exactly if their tokens are distinct and in the
file. -/
theorem exists_enter_blank_iff (size : Nat) (entries : List (Nat × α)) :
    (∃ r, enter (Array.replicate size none) entries = .ok r) ↔
      (entries.map (·.1)).Nodup ∧ ∀ i ∈ entries.map (·.1), i < size := by
  rw [exists_enter_iff]
  refine and_congr_right fun _ => forall_congr' fun i => imp_congr_right fun _ => ?_
  rw [Array.getElem?_replicate]
  split <;> simp [*]

/-- A step that checks an item and enters what it says, done for a whole family. -/
theorem foldlM_eq_ok_iff {step : Slots α → β → Except StructureError (Slots α)} {Fits : β → Prop}
    {entries : β → List (Nat × α)}
    (hstep : ∀ slots x r, step slots x = .ok r ↔ Fits x ∧ enter slots (entries x) = .ok r)
    (slots : Slots α) (xs : List β) (r : Slots α) :
    xs.foldlM step slots = .ok r ↔ (∀ x ∈ xs, Fits x) ∧
      enter slots (xs.flatMap entries) = .ok r := by
  induction xs generalizing slots with
  | nil => simp [enter_nil, pure, Except.pure]
  | cons x xs ih =>
    rw [List.foldlM_cons, List.flatMap_cons, enter_append]
    simp only [bind_eq_ok_iff, hstep, ih, List.forall_mem_cons]
    constructor
    · rintro ⟨acc, ⟨hx, hfirst⟩, hxs, hrest⟩
      exact ⟨⟨hx, hxs⟩, acc, hfirst, hrest⟩
    · rintro ⟨⟨hx, hxs⟩, acc, hfirst, hrest⟩
      exact ⟨acc, ⟨hx, hfirst⟩, hxs, hrest⟩

end Entering

/-- An index is accepted if it is below the size. -/
theorem checkIndex_eq_ok_iff {size i : Nat} {u : Unit} : checkIndex size i = .ok u ↔ i < size := by
  unfold checkIndex
  split <;> simp [*]

/-- A pair is accepted if it is in order and stands in the store, and both of its slots are free. -/
theorem claimPair_eq_ok_iff (size : Nat) (slots : Slots Nat) (p : Nat × Nat) (r : Slots Nat) :
    claimPair size slots p = .ok r ↔
      (p.1 < p.2 ∧ p.2 < size) ∧ enter slots [(p.1, p.2), (p.2, p.1)] = .ok r := by
  obtain ⟨opener, closer⟩ := p
  simp only [claimPair, bind_eq_ok_iff, checkIndex_eq_ok_iff, exists_const]
  by_cases hle : closer ≤ opener
  · have hnot : ¬ opener < closer := by omega
    simp [hle, hnot]
  · have hlt : opener < closer := by omega
    have hfirst (h : closer < size) : opener < size := Nat.lt_trans hlt h
    simp [hle, hlt, enter_cons, enter_nil, bind_eq_ok_iff, and_iff_right_of_imp hfirst, ← and_assoc]

/-- A group is accepted if its tokens are in order and stand in the store. -/
theorem checkGroup_eq_ok_iff {size : Nat} {g : Group} {u : Unit} :
    checkGroup size g = .ok u ↔ g.Fits size := by
  simp only [checkGroup, bind_eq_ok_iff, checkIndex_eq_ok_iff, exists_const, Group.Fits]
  by_cases hle : g.closer ≤ g.opener
  · have hnot : ¬ g.opener < g.closer := by omega
    simp [hle, hnot]
  · rw [if_neg hle]
    by_cases hafter : g.opener < g.owner
    · have hnot : ¬ g.owner ≤ g.opener := by omega
      simp [hafter, hnot]
    · simp [hafter]
      omega

/-- The tokens of parentheses in the order in which they are entered. -/
def parenOrder (g : Group) : List Nat :=
  if g.owner = g.opener then [g.opener, g.closer] else [g.opener, g.closer, g.owner]

/-- The slots of a group are claimed in another order, but they are the same. -/
theorem parenOrder_perm (g : Group) : (parenOrder g).Perm g.tokens := by
  unfold parenOrder Group.tokens
  split
  · exact .refl _
  · exact show ([g.opener, g.closer] ++ [g.owner]).Perm ([g.owner] ++ [g.opener, g.closer]) from
      List.perm_append_comm

/-- A group of parentheses is accepted if it fits and its slots are free. -/
theorem claimParen_eq_ok_iff (size : Nat) (slots : Slots Group) (g : Group) (r : Slots Group) :
    claimParen size slots g = .ok r ↔
      g.Fits size ∧ enter slots ((parenOrder g).map (·, g)) = .ok r := by
  simp only [claimParen, bind_eq_ok_iff, checkGroup_eq_ok_iff, exists_const, parenOrder]
  refine and_congr_right fun _ => ?_
  split
  · simp [enter_cons, enter_nil, bind_eq_ok_iff]
  · simp [enter_cons, enter_nil, bind_eq_ok_iff]

/-- A scope is accepted if it fits and its slots are free. -/
theorem claimScope_eq_ok_iff (size : Nat) (slots : Slots Group) (g : Group) (r : Slots Group) :
    claimScope size slots g = .ok r ↔ g.Fits size ∧ enter slots (g.tokens.map (·, g)) = .ok r := by
  simp only [claimScope, bind_eq_ok_iff, checkGroup_eq_ok_iff, exists_const, Group.tokens]
  refine and_congr_right fun _ => ?_
  by_cases heq : g.owner = g.opener
  · simp [heq, enter_cons, enter_nil, bind_eq_ok_iff]
  · simp [heq, Ne.symm heq, enter_cons, enter_nil, bind_eq_ok_iff]

/-- A family of pairs is entered exactly if each fits and no token is used twice. -/
theorem exists_claimPairs_iff (size : Nat) (pairs : List (Nat × Nat)) :
    (∃ r, pairs.foldlM (claimPair size) (Array.replicate size none) = .ok r) ↔
      (∀ p ∈ pairs, p.1 < p.2 ∧ p.2 < size) ∧ (pairs.flatMap fun p => [p.1, p.2]).Nodup := by
  simp only [foldlM_eq_ok_iff (claimPair_eq_ok_iff size), exists_and_left, exists_enter_blank_iff,
    List.map_flatMap, List.map_cons, List.map_nil]
  refine and_congr_right fun hfit => and_iff_left_of_imp fun _ i hi => ?_
  obtain ⟨p, hp, hi⟩ := List.mem_flatMap.mp hi
  have := hfit p hp
  simp only [List.mem_cons, List.not_mem_nil, or_false] at hi
  omega

/-- A family of groups is entered exactly if each fits and no token is used twice, in whatever order
the tokens of one group are entered. -/
theorem exists_claimGroups_iff {size : Nat}
    {step : Slots Group → Group → Except StructureError (Slots Group)} {order : Group → List Nat}
    (horder : ∀ g, (order g).Perm g.tokens)
    (hstep : ∀ slots g r, step slots g = .ok r ↔
      g.Fits size ∧ enter slots ((order g).map (·, g)) = .ok r) (groups : List Group) :
    (∃ r, groups.foldlM step (Array.replicate size none) = .ok r) ↔
      (∀ g ∈ groups, g.Fits size) ∧ (groups.flatMap Group.tokens).Nodup := by
  have hperm : (groups.flatMap order).Perm (groups.flatMap Group.tokens) :=
    List.Perm.flatMap_left groups fun g _ => horder g
  have hfirst : (groups.flatMap fun g => (order g).map (·, g)).map (·.1) =
      groups.flatMap order := by
    simp [List.map_flatMap, Function.comp_def]
  simp only [foldlM_eq_ok_iff hstep, exists_and_left, exists_enter_blank_iff, hfirst,
    hperm.nodup_iff, hperm.mem_iff]
  refine and_congr_right fun hfit => and_iff_left_of_imp fun _ i hi => ?_
  obtain ⟨g, hg, hi⟩ := List.mem_flatMap.mp hi
  exact (hfit g hg).lt_of_mem_tokens hi

end Outline

namespace Store

/-- What a built store takes from its lexemes alone: its tokens are these lexemes put in place, and
its source is their texts. -/
theorem build?_spec {lexemes : List Lexeme} {outline : Outline} {store : Store}
    (h : Store.build? lexemes outline = .ok store) :
    store.tokens = (Token.layout lexemes).toArray ∧
      store.source = String.join (lexemes.map (·.text)) := by
  simp only [build?, bind_eq_ok_iff] at h
  obtain ⟨_, _, _, _, _, _, _, _, _, _, h⟩ := h
  cases h
  exact ⟨rfl, rfl⟩

/-- A built store has one token for each lexeme. -/
theorem size_of_build? {lexemes : List Lexeme} {outline : Outline} {store : Store}
    (hbuild : Store.build? lexemes outline = .ok store) : store.size = lexemes.length := by
  rw [size, (build?_spec hbuild).1, List.size_toArray, Token.layout, Token.length_layoutFrom]

/-- The token at an index is made of the lexeme there. -/
theorem token_of_build? {lexemes : List Lexeme} {outline : Outline} {store : Store}
    (hbuild : Store.build? lexemes outline = .ok store) {i : Nat} {l : Lexeme}
    (hl : lexemes[i]? = some l) : store.kind i = l.kind ∧ store.text i = l.text := by
  have htokens := (build?_spec hbuild).1
  have hmap := congrArg (·[i]?) (Token.map_lexeme_layoutFrom .start lexemes)
  simp only [List.getElem?_map, hl, Option.map_eq_some_iff] at hmap
  obtain ⟨t, ht, rfl⟩ := hmap
  have htoken : store.token i = t := by
    rw [token, htokens, List.getElem?_toArray, Token.layout, ht]
    rfl
  exact ⟨congrArg Token.kind htoken, congrArg Token.text htoken⟩

/-- A built store tells the kinds of its lexemes. -/
theorem kind_of_kinds {lexemes : List Lexeme} {outline : Outline} {store : Store}
    (hbuild : Store.build? lexemes outline = .ok store) {i : Nat} {kind : Kind}
    (h : (lexemes.map (·.kind))[i]? = some kind) : store.kind i = kind := by
  rw [List.getElem?_map, Option.map_eq_some_iff] at h
  obtain ⟨l, hl, rfl⟩ := h
  exact (token_of_build? hbuild hl).1

/-- A store is built exactly for the well-formed outlines. -/
theorem exists_build?_iff (lexemes : List Lexeme) (outline : Outline) :
    (∃ store, Store.build? lexemes outline = .ok store) ↔ outline.WellFormed lexemes.length := by
  have hsize : (Token.layout lexemes).toArray.size = lexemes.length := by
    rw [List.size_toArray, Token.layout, Token.length_layoutFrom]
  have hbrackets := Outline.exists_claimPairs_iff lexemes.length outline.brackets
  have hparens := Outline.exists_claimGroups_iff Outline.parenOrder_perm
    (Outline.claimParen_eq_ok_iff lexemes.length) outline.parens
  have hscopes := Outline.exists_claimGroups_iff (fun g => .refl g.tokens)
    (Outline.claimScope_eq_ok_iff lexemes.length) outline.scopes
  have hcomments := Outline.exists_claimPairs_iff lexemes.length outline.comments
  have hnested := Outline.checkNested_mergeSort_iff outline.intervals
  simp only [build?, bind_eq_ok_iff, hsize]
  constructor
  · rintro ⟨store, brackets, hb, parens, hp, scopes, hs, comments, hc, _, hn, _⟩
    obtain ⟨hbFit, hbOnce⟩ := hbrackets.mp ⟨brackets, hb⟩
    obtain ⟨hpFit, hpOnce⟩ := hparens.mp ⟨parens, hp⟩
    obtain ⟨hsFit, hsOnce⟩ := hscopes.mp ⟨scopes, hs⟩
    obtain ⟨hcFit, hcOnce⟩ := hcomments.mp ⟨comments, hc⟩
    exact ⟨hbFit, hpFit, hsFit, hcFit, hbOnce, hpOnce, hsOnce, hcOnce, hnested.mp hn⟩
  · intro h
    obtain ⟨brackets, hb⟩ := hbrackets.mpr ⟨h.brackets_fit, h.brackets_once⟩
    obtain ⟨parens, hp⟩ := hparens.mpr ⟨h.parens_fit, h.parens_once⟩
    obtain ⟨scopes, hs⟩ := hscopes.mpr ⟨h.scopes_fit, h.scopes_once⟩
    obtain ⟨comments, hc⟩ := hcomments.mpr ⟨h.comments_fit, h.comments_once⟩
    exact ⟨_, brackets, hb, parens, hp, scopes, hs, comments, hc, (), hnested.mpr h.nested, rfl⟩

/-- What a store is built of is well-formed. -/
theorem wellFormed_of_build? {lexemes : List Lexeme} {outline : Outline} {store : Store}
    (hbuild : Store.build? lexemes outline = .ok store) : outline.WellFormed lexemes.length :=
  (exists_build?_iff lexemes outline).mp ⟨store, hbuild⟩

end Store

end PhpStyle
