import PhpStyle.Proofs.Run.Sweeping

/-!
# A sweep is a plain loop

The table of routes saves looking at rules that have nothing to say at a token. What a sweep finds
is what a loop over the tokens finds, that asks every rule at each of them, and in the same order.
So a rule finds beside others what it finds alone.
-/

namespace PhpStyle

/-- Choosing elements of a list and then going over them is going over all and leaving the others
out. -/
theorem flatMap_filter {α β : Type} (p : α → Bool) (f : α → List β) (l : List α) :
    (l.filter p).flatMap f = l.flatMap fun a => if p a then f a else [] := by
  induction l with
  | nil => rfl
  | cons a l ih =>
    rw [List.filter_cons, List.flatMap_cons, ← ih]
    split
    · rw [List.flatMap_cons]
    · rw [List.nil_append]

/-- Going over a list for the element at one position. -/
theorem flatMap_zipIdx_of_getElem? {α β : Type} (f : α → List β) {l : List α} {k : Nat} {a : α}
    (h : l[k]? = some a) (n : Nat) :
    (l.zipIdx n).flatMap (fun r => if r.2 = n + k then f r.1 else []) = f a := by
  induction l generalizing n k with
  | nil => simp at h
  | cons b l ih =>
    rw [List.zipIdx_cons, List.flatMap_cons]
    cases k with
    | zero =>
      obtain rfl : b = a := by simpa using h
      have hrest : (l.zipIdx (n + 1)).flatMap (fun r => if r.2 = n + 0 then f r.1 else []) =
          [] := by
        rw [List.flatMap_eq_nil_iff]
        intro r hr
        have := (List.mem_zipIdx hr).1
        rw [if_neg (by omega)]
      rw [hrest, List.append_nil]
      exact if_pos rfl
    | succ k =>
      have hrest := ih (by simpa using h) (n + 1)
      rw [Nat.add_right_comm, Nat.add_assoc] at hrest
      rw [hrest, if_neg (by simp), List.nil_append]

/-- What a rule answers at a token: what it finds anywhere, or what it finds once for each scope of
its kinds around the token, the outermost first, or what it finds outside of such scopes. -/
def Rule.answers (rule : Rule) (file : File) (i : Nat) : List Finding :=
  match rule.check with
  | .anywhere run => run file i
  | .scoped kinds inside outside =>
    if ∃ c ∈ file.store.conditionsAt i, c.2 ∈ kinds then
      (file.store.conditionsAt i).flatMap fun c => if c.2 ∈ kinds then inside file i c.1 else []
    else outside file i

/-- What a rule adds at a token: nothing unless it looks at the kind of the token, and else what it
answers, under its name. -/
def Rule.adds (rule : Rule) (file : File) (i : Nat) : List Finding :=
  if file.store.kind i ∈ rule.kinds then
    (rule.answers file i).map fun f => { f with rule := rule.name }
  else []

/-- What a rule adds to the findings bears its name. -/
theorem Rule.rule_of_mem_adds {rule : Rule} {file : File} {i : Nat} {f : Finding}
    (h : f ∈ rule.adds file i) : f.rule = rule.name := by
  rw [Rule.adds] at h
  split at h
  · obtain ⟨_, _, rfl⟩ := List.mem_map.mp h
    rfl
  · cases h

/-- What a rule that looks at tokens anywhere adds at one of its kinds. -/
theorem Rule.mem_adds_iff_of_anywhere {rule : Rule} {run : File → Nat → List Finding}
    (hcheck : rule.check = .anywhere run) {file : File} {i : Nat} {f : Finding} :
    f ∈ rule.adds file i ↔
      file.store.kind i ∈ rule.kinds ∧
      ∃ found ∈ run file i, { found with rule := rule.name } = f := by
  rw [Rule.adds, Rule.answers, hcheck]
  split
  · rename_i hkind
    rw [List.mem_map, and_iff_right hkind]
  · rename_i hkind
    simp [hkind]

/-- A rule run at a token answers under its name. -/
theorem Rule.runAt_eq_answers (rule : Rule) (file : File) (i : Nat) :
    rule.runAt file i = (rule.answers file i).map fun f => { f with rule := rule.name } := by
  rw [Rule.runAt, Rule.answers]
  match rule.check with
  | .anywhere run => rfl
  | .scoped kinds inside outside =>
    have hsome := flatMap_filter (fun c => kinds.contains c.2) (fun c => inside file i c.1)
      (file.store.conditionsAt i)
    simp only [List.contains_iff_mem] at hsome
    by_cases hin : ∃ c ∈ file.store.conditionsAt i, c.2 ∈ kinds
    · obtain ⟨c, hc, hkind⟩ := hin
      simp only [if_pos (⟨c, hc, hkind⟩ : ∃ c ∈ file.store.conditionsAt i, c.2 ∈ kinds), ← hsome,
        Rule.runCheck]
      have hmem : c ∈ (file.store.conditionsAt i).filter fun c => kinds.contains c.2 :=
        List.mem_filter.mpr ⟨hc, by simpa using hkind⟩
      split
      · rename_i hempty
        rw [hempty] at hmem
        cases hmem
      · rfl
    · have hempty : (file.store.conditionsAt i).filter (fun c => kinds.contains c.2) = [] := by
        rw [List.filter_eq_nil_iff]
        exact fun c hc hkind => hin ⟨c, hc, by simpa using hkind⟩
      simp only [if_neg hin, Rule.runCheck, hempty]

namespace Sweeper

/-- The plain loop: at each token of a file from left to right what each rule adds, in the order of
the rules, with the position of the rule. -/
def doubleLoop (rules : List Rule) (file : File) : List (Nat × Finding) :=
  (List.range file.store.size).flatMap fun i =>
    rules.zipIdx.flatMap fun r => (r.1.adds file i).map fun f => (r.2, f)

/-- The sweep asks at a token only the rules on the route of its kind, and the others would add
nothing. -/
theorem sweepToken_eq_flatMap (rules : List Rule) (file : File) (i : Nat) :
    (ofRules rules).sweepToken file i = rules.flatMap fun rule => rule.adds file i := by
  rw [sweepToken_ofRules, flatMap_filter]
  refine List.flatMap_congr fun rule _ => ?_
  rw [Rule.adds, Rule.runAt_eq_answers]
  simp only [List.contains_iff_mem]

/-- Of what rules add at a token, the findings under a name are what the rules of that name add. -/
theorem filter_flatMap_adds (rules : List Rule) (file : File) (i : Nat) (name : String) :
    (rules.flatMap fun rule => rule.adds file i).filter (·.rule = name) =
      (rules.filter (·.name = name)).flatMap fun rule => rule.adds file i := by
  rw [List.filter_flatMap, flatMap_filter]
  refine List.flatMap_congr fun rule _ => ?_
  split
  · rename_i h
    rw [List.filter_eq_self]
    exact fun f hf => by rwa [Rule.rule_of_mem_adds hf]
  · rename_i h
    rw [List.filter_eq_nil_iff]
    exact fun f hf => by rwa [Rule.rule_of_mem_adds hf]

/-- Of what rules add at a token, the findings of one position are what the rule there adds. -/
theorem filter_zipIdx_adds {rules : List Rule} {position : Nat} {rule : Rule}
    (h : rules[position]? = some rule) (file : File) (i : Nat) :
    ((rules.zipIdx.flatMap fun r => (r.1.adds file i).map fun f => (r.2, f)).filter
      (·.1 = position)).map (·.2) = rule.adds file i := by
  rw [← flatMap_zipIdx_of_getElem? (fun rule : Rule => rule.adds file i) h 0, List.filter_flatMap,
    List.map_flatMap]
  refine List.flatMap_congr fun r _ => ?_
  rw [Nat.zero_add, List.filter_map, List.map_map]
  split
  · rename_i hposition
    simp [hposition, Function.comp_def]
  · rename_i hposition
    simp [hposition, Function.comp_def]

/-- A sweep finds what the plain loop finds, in the same order. What the rule at a position finds is
what it finds alone, and what is found under a name is what the rules of that name find alone. -/
theorem sweep_eq_doubleLoop (rules : List Rule) (file : File) :
    (ofRules rules).sweep file = (doubleLoop rules file).map (·.2) ∧
    (∀ position rule, rules[position]? = some rule →
      ((doubleLoop rules file).filter (·.1 = position)).map (·.2) = (ofRules [rule]).sweep file) ∧
    ∀ name, ((ofRules rules).sweep file).filter (·.rule = name) =
      (ofRules (rules.filter (·.name = name))).sweep file := by
  refine ⟨?_, fun position rule hrule => ?_, fun name => ?_⟩
  · rw [sweep, doubleLoop, List.map_flatMap]
    refine List.flatMap_congr fun i _ => ?_
    rw [sweepToken_eq_flatMap, List.map_flatMap]
    conv_lhs => rw [← List.zipIdx_map_fst 0 rules, List.flatMap_map]
    refine List.flatMap_congr fun r _ => ?_
    rw [List.map_map]
    exact (List.map_id _).symm
  · rw [sweep, doubleLoop, List.filter_flatMap, List.map_flatMap]
    refine List.flatMap_congr fun i _ => ?_
    rw [sweepToken_eq_flatMap, List.flatMap_singleton, filter_zipIdx_adds hrule]
  · rw [sweep, sweep, List.filter_flatMap]
    refine List.flatMap_congr fun i _ => ?_
    rw [sweepToken_eq_flatMap, sweepToken_eq_flatMap, filter_flatMap_adds]

/-- Three rules that name one kind twice each, two of them under one name: each is asked once, in
their order. -/
theorem sweep_eq_doubleLoop_shared :
    let rule (name code : String) : Rule :=
      ⟨name, "", [.semicolon, .semicolon],
        .anywhere fun _ i => [{ code, index := i, message := "" }]⟩
    let rules := [rule "A" "First", rule "B" "Second", rule "A" "Third"]
    let file : File := .ofStore ⟨";", #[⟨.semicolon, ";", 1, 1, 1, 0⟩], #[none], #[none], #[none],
      #[none], #[[]]⟩
    ((ofRules rules).sweep file).map (·.fullCode) = ["A.First", "B.Second", "A.Third"] ∧
      ((doubleLoop rules file).filter (·.1 = 2)).map (·.2) =
        (ofRules [rule "A" "Third"]).sweep file ∧
      ((ofRules rules).sweep file).filter (·.rule = "A") =
        (ofRules [rule "A" "First", rule "A" "Third"]).sweep file := by
  intro rule rules file
  obtain ⟨hloop, hposition, hname⟩ := sweep_eq_doubleLoop rules file
  refine ⟨?_, hposition 2 (rule "A" "Third") rfl, hname "A"⟩
  rw [hloop]
  rfl

end Sweeper

end PhpStyle
