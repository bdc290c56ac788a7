import PhpStyle.Edit.Session
import PhpStyle.Run.Report
import PhpStyle.Sweep

/-!
# Runs

`Engine.check` sweeps over a text once. `Engine.fix` makes passes: each tokenizes the text, sweeps
over it and applies the fixes found, until a pass changes nothing or the budget of passes is spent.
-/

namespace PhpStyle

/-- Turns a text into a store. -/
abbrev Tokenizer := String → Except TokenizeError Store

/-- A tokenizer with the rules to run over its stores. -/
structure Engine where
  tokenizer : Tokenizer
  sweeper : Sweeper

namespace Engine

/-- Number of passes that a run may make unless told otherwise. -/
def defaultBudget : Nat := 50

/-- The engine of a tokenizer and a list of rules. -/
def ofRules (tokenizer : Tokenizer) (rules : List Rule) : Engine :=
  ⟨tokenizer, .ofRules rules⟩

/-- Length of the longest common beginning of two lists. -/
def commonLength {α : Type} [DecidableEq α] : List α → List α → Nat
  | a :: as, b :: bs => if a = b then commonLength as bs + 1 else 0
  | _, _ => 0

/-- The bytes of a text in UTF-8. -/
def bytes (text : String) : List UInt8 := text.toUTF8.data.toList

/-- The store of a text at a pass; its tokens have to spell the text. -/
def tokenize (e : Engine) (pass : Nat) (text : String) : Except RunError Store :=
  match e.tokenizer text with
  | .error cause => .error (.tokenize pass cause)
  | .ok store =>
    if store.source = text then .ok store
    else .error (.tokenize pass (.differs (commonLength (bytes store.source) (bytes text))))

/-- The findings in a store. -/
def findings (e : Engine) (store : Store) : List Finding :=
  e.sweeper.sweep (.ofStore store)

/-- The status of a finding whose fix is not tried. -/
def untried (f : Finding) : FixStatus :=
  if f.fixable then .unapplied else .notFixable

/-- The findings in a store as diagnostics, with no fix tried. -/
def diagnostics (e : Engine) (store : Store) : List Diagnostic :=
  (e.findings store).map fun f => f.detach store (untried f)

/-- Look at a text without changing it. -/
def check (e : Engine) (text : String) : Except RunError Report := do
  let store ← e.tokenize 1 text
  .ok { outcome := .checked, source := text, diagnostics := e.diagnostics store }

/-- What one pass over a text found and did. -/
structure Pass where
  store : Store
  /-- The findings with the status of each. -/
  judged : List (Finding × FixStatus)
  defects : List Defect
  commit : Commit

/-- Tokenize a text, sweep over it and apply the fixes found. -/
def runPass (e : Engine) (pass : Nat) (text : String) : Except RunError Pass := do
  let store ← e.tokenize pass text
  let findings := e.findings store
  let (statuses, session) := Session.proposeAll ⟨store, [], 0, 0, []⟩ findings
  match session.commit with
  | .error cause => .error (.edit pass cause)
  | .ok commit => .ok ⟨store, findings.zip statuses, session.defects, commit⟩

namespace Pass

/-- The findings of one status as diagnostics. -/
def withStatus (p : Pass) (status : FixStatus) : List Diagnostic :=
  (p.judged.filter fun j => j.2 = status).map fun j => j.1.detach p.store j.2

/-- The fixes applied, by rule and code. -/
def fixes (p : Pass) : Tally :=
  (p.judged.filter fun j => j.2 = .applied).foldl (fun t j => t.add j.1.fullCode 1) []

/-- The summary of a pass. -/
def summary (p : Pass) (pass : Nat) : PassSummary :=
  { pass, findings := p.judged.length, applied := p.judged.countP fun j => j.2 = .applied
    conflicted := p.withStatus .conflicted, malformed := p.withStatus .malformed
    fixes := p.fixes }

/-- The findings of a pass that changed nothing: fixes that were applied had no effect. -/
def settled (p : Pass) : List Diagnostic :=
  p.judged.map fun j => j.1.detach p.store (if j.2 = .applied then .unapplied else j.2)

end Pass

/-- Add an element unless one that counts as the same is there. -/
def addNew {α : Type} (same : α → α → Bool) (known : List α) (new : α) : List α :=
  if known.any (same · new) then known else known ++ [new]

/-- What a run has gathered before a pass. -/
structure Progress where
  text : String
  fixes : Tally := []
  passes : List PassSummary := []
  defects : List Defect := []
  /-- Findings whose fix was turned down, each problem once. -/
  rejected : List Diagnostic := []

namespace Progress

/-- Gather what a pass that changed the text did. -/
def advance (g : Progress) (pass : Nat) (p : Pass) : Progress :=
  let summary := p.summary pass
  { text := p.commit.source
    fixes := g.fixes.addAll summary.fixes
    passes := g.passes ++ [summary]
    defects := p.defects.foldl (addNew (· == ·)) g.defects
    rejected := (summary.conflicted ++ summary.malformed).foldl (addNew Diagnostic.sameProblem)
      g.rejected }

/-- Put what a run has gathered into a report. Diagnostics of the last sweep come first, then the
problems turned down before that it no longer shows. -/
def report (g : Progress) (outcome : Outcome) (last : List Diagnostic) (defects : List Defect) :
    Report :=
  { outcome, source := g.text, diagnostics := g.rejected.foldl (addNew Diagnostic.sameProblem) last
    fixes := g.fixes, passes := g.passes, defects }

end Progress

/-- Make up to `remaining` passes, the first of them with the given number. -/
def fixFrom (e : Engine) (pass : Nat) (g : Progress) : Nat → Except RunError Report
  | 0 => do
    let store ← e.tokenize pass g.text
    .ok (g.report (.didNotConverge (pass - 1)) (e.diagnostics store) g.defects)
  | remaining + 1 => do
    let p ← e.runPass pass g.text
    if p.commit.changed then e.fixFrom (pass + 1) (g.advance pass p) remaining
    else .ok (g.report (.converged pass) p.settled (p.defects.foldl (addNew (· == ·)) g.defects))

/-- Apply fixes until a pass changes nothing or the budget is spent; a budget of none is one
pass. -/
def fix (e : Engine) (budget : Nat) (text : String) : Except RunError Report :=
  e.fixFrom 1 { text } (max budget 1)

end Engine

end PhpStyle
