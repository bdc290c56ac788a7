import PhpStyle.Finding

/-!
# Fix sessions

A session collects fixes for one store. Findings are offered in order, and the first fix that edits
a token has it: a later fix that edits one of the same tokens is turned down as a whole. `commit`
then applies all accepted edits to the source at once.
-/

namespace PhpStyle

/-- The fixes accepted so far for one store. -/
structure Session where
  store : Store
  /-- Edits of the accepted fixes, in the order in which they came. -/
  accepted : List Edit := []
  /-- Number of accepted fixes. -/
  fixCount : Nat := 0
  /-- Number of fixes turned down because of a token already taken. -/
  conflicts : Nat := 0
  /-- Faults of rules seen so far. -/
  defects : List Defect := []

/-- The result of applying the accepted fixes. -/
structure Commit where
  source : String
  /-- Whether the text differs from that of the store. -/
  changed : Bool
  accepted : Nat
  conflicts : Nat
  deriving DecidableEq, Repr

namespace Session

/-- Whether an accepted edit has this token. -/
def claims (s : Session) (i : Nat) : Bool :=
  s.accepted.any fun e => e.target == i

/-- The defect of a fix that edits token `i` twice. -/
def twiceEdited (store : Store) (f : Finding) (i : Nat) : Defect :=
  let t := store.token i
  { rule := f.rule, code := f.code, line := t.line, column := t.column
    reason := s!"changeset edits token {i} more than once" }

/-- Offer the fix of a finding, and say what became of it. -/
def propose (s : Session) (f : Finding) : FixStatus × Session :=
  match f.fix with
  | none => (.notFixable, s)
  | some changeset =>
    match changeset.editedTwice? with
    | some i => (.malformed, { s with defects := s.defects ++ [twiceEdited s.store f i] })
    | none =>
      if changeset.any fun e => s.claims e.target then
        (.conflicted, { s with conflicts := s.conflicts + 1 })
      else
        (.applied, { s with accepted := s.accepted ++ changeset, fixCount := s.fixCount + 1 })

/-- Offer the fixes of findings one after the other. -/
def proposeAll (s : Session) : List Finding → List FixStatus × Session
  | [] => ([], s)
  | f :: rest =>
    let (status, s) := s.propose f
    let (statuses, s) := s.proposeAll rest
    (status :: statuses, s)

/-- Apply the accepted fixes to the source of the store. -/
def commit (s : Session) : Except SpliceError Commit :=
  let edits := (s.accepted.mergeSort Edit.inOrder).filterMap (Edit.toTextEdit? s.store)
  match splice s.store.source edits with
  | .error e => .error e
  | .ok source =>
    .ok { source, changed := source != s.store.source, accepted := s.fixCount
          conflicts := s.conflicts }

end Session

end PhpStyle
