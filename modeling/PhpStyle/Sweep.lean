import PhpStyle.Rule

/-!
# Sweeps

A sweep walks over the tokens of a file from left to right and runs, at each token, the rules that
look at its kind. Which rules these are is worked out once for a list of rules, in a table of
routes.
-/

namespace PhpStyle

/-- Rules with a table that says, for each kind of token, which of them look at it. -/
structure Sweeper where
  rules : List Rule
  /-- For each kind the positions of its rules, in their order. -/
  routes : List (Kind × List Nat)

namespace Sweeper

/-- Add a rule to the route of a kind, once. -/
def addRoute (routes : List (Kind × List Nat)) (rule : Nat) (kind : Kind) :
    List (Kind × List Nat) :=
  match routes with
  | [] => [(kind, [rule])]
  | (k, rules) :: rest =>
    if k = kind then (k, if rules.contains rule then rules else rules ++ [rule]) :: rest
    else (k, rules) :: addRoute rest rule kind

/-- The sweeper of a list of rules. -/
def ofRules (rules : List Rule) : Sweeper :=
  { rules
    routes := rules.zipIdx.foldl
      (fun routes r => r.1.kinds.foldl (fun acc kind => addRoute acc r.2 kind) routes) [] }

/-- Positions of the rules that look at a kind, in the order of the rules. -/
def route (s : Sweeper) (kind : Kind) : List Nat :=
  (s.routes.lookup kind).getD []

/-- What the rules find at one token. -/
def sweepToken (s : Sweeper) (file : File) (i : Nat) : List Finding :=
  (s.route (file.store.kind i)).flatMap fun r =>
    match s.rules[r]? with
    | some rule => rule.runAt file i
    | none => []

/-- What the rules find in a file, token by token. -/
def sweep (s : Sweeper) (file : File) : List Finding :=
  (List.range file.store.size).flatMap (s.sweepToken file)

end Sweeper

end PhpStyle
