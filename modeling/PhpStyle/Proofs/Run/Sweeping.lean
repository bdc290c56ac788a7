import Mathlib.Data.List.Basic
import PhpStyle.Run.Engine

/-!
# What a sweep runs

The table of routes holds for each kind of token the rules that name it, each once and in their
order. So a sweep finds at a token what the rules find there that look at its kind, and nothing
else.
-/

namespace PhpStyle

namespace Sweeper

/-- Put a position behind others, unless it is among them. -/
def addOnce (positions : List Nat) (rule : Nat) : List Nat :=
  if positions.contains rule then positions else positions ++ [rule]

/-- Adding a rule twice adds it once. -/
theorem addOnce_addOnce (positions : List Nat) (rule : Nat) :
    addOnce (addOnce positions rule) rule = addOnce positions rule := by
  by_cases h : rule ∈ positions <;> simp [addOnce, h]

/-- The positions that a table has for a kind. -/
def onRoute (routes : List (Kind × List Nat)) (kind : Kind) :
    List Nat := (routes.lookup kind).getD []

/-- Without routes no rule is on the route of a kind. -/
@[simp] theorem onRoute_nil (kind : Kind) : onRoute [] kind = [] := rfl

/-- The route of a kind is the first one that is kept under it. -/
theorem onRoute_cons (k kind : Kind) (positions : List Nat) (routes : List (Kind × List Nat)) :
    onRoute ((k, positions) :: routes) kind =
      if k = kind then positions else onRoute routes kind := by
  by_cases hk : k = kind
  · subst hk
    simp [onRoute]
  · have hbeq : (kind == k) = false := beq_eq_false_iff_ne.mpr (Ne.symm hk)
    rw [if_neg hk, onRoute, List.lookup_cons, hbeq]
    rfl

/-- Adding a rule for a kind adds it to the route of that kind only. -/
theorem onRoute_addRoute (routes : List (Kind × List Nat)) (rule : Nat) (k kind : Kind) :
    onRoute (addRoute routes rule k) kind =
      if k = kind then addOnce (onRoute routes kind) rule else onRoute routes kind := by
  induction routes with
  | nil => simp [addRoute, onRoute_cons, addOnce]
  | cons entry routes ih =>
    obtain ⟨first, positions⟩ := entry
    rw [addRoute]
    by_cases hfirst : first = k
    · subst hfirst
      rw [if_pos rfl, onRoute_cons, onRoute_cons]
      split <;> rfl
    · rw [if_neg hfirst, onRoute_cons, onRoute_cons, ih]
      by_cases hk : k = kind
      · subst hk
        rw [if_neg hfirst, if_neg hfirst]
      · rw [if_neg hk, if_neg hk]

/-- Adding a rule under all its kinds. -/
theorem onRoute_foldl_addRoute (kinds : List Kind) (routes : List (Kind × List Nat)) (rule : Nat)
    (kind : Kind) :
    onRoute (kinds.foldl (fun acc k => addRoute acc rule k) routes) kind =
      if kinds.contains kind then addOnce (onRoute routes kind) rule else onRoute routes kind := by
  induction kinds generalizing routes with
  | nil => rfl
  | cons k kinds ih =>
    rw [List.foldl_cons, ih, onRoute_addRoute]
    by_cases hk : k = kind
    · subst hk
      simp [addOnce_addOnce]
    · simp [hk, Ne.symm hk]

/-- Adding rules at positions behind all that the table has. -/
theorem onRoute_foldl_rules (rules : List Rule) (n : Nat) (routes : List (Kind × List Nat))
    (kind : Kind) (hbelow : ∀ r ∈ onRoute routes kind, r < n) :
    onRoute ((rules.zipIdx n).foldl
        (fun routes r => r.1.kinds.foldl (fun acc k => addRoute acc r.2 k) routes) routes) kind =
      onRoute routes kind ++
        ((rules.zipIdx n).filter fun r => r.1.kinds.contains kind).map (·.2) := by
  induction rules generalizing n routes with
  | nil => simp
  | cons rule rules ih =>
    have hnew : n ∉ onRoute routes kind := fun hmem => Nat.lt_irrefl n (hbelow n hmem)
    have hroute := onRoute_foldl_addRoute rule.kinds routes n kind
    rw [List.zipIdx_cons, List.foldl_cons, ih, hroute, List.filter_cons]
    · by_cases hkind : rule.kinds.contains kind = true
      · have hadded : addOnce (onRoute routes kind) n = onRoute routes kind ++ [n] :=
          if_neg (by simpa using hnew)
        rw [if_pos hkind, if_pos hkind, hadded, List.map_cons, List.append_assoc]
        rfl
      · rw [if_neg hkind, if_neg hkind]
    · intro r hr
      rw [hroute] at hr
      split at hr
      · rw [addOnce, if_neg (by simpa using hnew)] at hr
        rcases List.mem_append.mp hr with hr | hr
        · exact Nat.lt_succ_of_lt (hbelow r hr)
        · rw [List.mem_singleton.mp hr]
          exact Nat.lt_succ_self n
      · exact Nat.lt_succ_of_lt (hbelow r hr)

/-- The route of a kind: the positions of the rules that name it. -/
theorem route_ofRules (rules : List Rule) (kind : Kind) :
    (ofRules rules).route kind = (rules.zipIdx.filter fun r => r.1.kinds.contains kind).map (·.2) :=
  onRoute_foldl_rules rules 0 [] kind (by simp [onRoute])

/-- What is found at a token: what the rules find there that look at its kind, rule by rule. -/
theorem sweepToken_ofRules (rules : List Rule) (file : File) (i : Nat) :
    (ofRules rules).sweepToken file i =
      (rules.filter fun r => r.kinds.contains (file.store.kind i)).flatMap
        fun r => r.runAt file i := by
  have hrules : (rules.zipIdx.filter fun r => r.1.kinds.contains (file.store.kind i)).map (·.1) =
      rules.filter fun r => r.kinds.contains (file.store.kind i) := by
    conv_rhs => rw [← List.zipIdx_map_fst 0 rules, List.filter_map]
    rfl
  rw [sweepToken, route_ofRules, ← hrules, List.flatMap_map, List.flatMap_map]
  refine List.flatMap_congr fun r hr => ?_
  have hget : rules[r.2]? = some r.1 := List.mem_zipIdx_iff_getElem?.mp (List.mem_of_mem_filter hr)
  simp only [ofRules, hget]

end Sweeper

/-- The findings in a store: whatever a rule finds at a token of a kind that it looks at. -/
theorem Engine.mem_findings_iff {tokenizer : Tokenizer} {rules : List Rule} {store : Store}
    {f : Finding} : f ∈ (Engine.ofRules tokenizer rules).findings store ↔
      ∃ i < store.size, ∃ rule ∈ rules, store.kind i ∈ rule.kinds ∧
      f ∈ rule.runAt (.ofStore store) i := by
  simp only [findings, Engine.ofRules, Sweeper.sweep, List.mem_flatMap, List.mem_range,
    Sweeper.sweepToken_ofRules, List.mem_filter, List.contains_iff_mem, and_assoc]
  rfl

/-- The findings in a store: whatever is found at one of its tokens. -/
theorem Engine.mem_findings_iff_mem_sweepToken {e : Engine} {store : Store} {f : Finding} :
    f ∈ e.findings store ↔ ∃ i < store.size, f ∈ e.sweeper.sweepToken (.ofStore store) i := by
  simp only [findings, Sweeper.sweep, List.mem_flatMap, List.mem_range]
  rfl

end PhpStyle
