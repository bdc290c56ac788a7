import PhpStyle.Finding

/-!
# Rules

A rule names the kinds of token that it looks at and says what it finds at such a token. Some rules
ask for the scopes around the token: they are run once for each enclosing scope of the kinds they
name, and in another way on a token that stands in none. Rules are pure: what they find depends on
the file alone.
-/

namespace PhpStyle

/-- A file as rules see it. -/
structure File where
  store : Store
  /-- The line break that ends the first line, if there is one. -/
  lineBreak? : Option String

namespace File

/-- The line break that ends the first line of a text. -/
def firstLineBreak? : List Char → Option String
  | [] => none
  | '\r' :: '\n' :: _ => some "\r\n"
  | '\n' :: _ => some "\n"
  | _ :: rest => firstLineBreak? rest

/-- A store as rules see it. -/
def ofStore (store : Store) : File :=
  ⟨store, firstLineBreak? store.source.toList⟩

/-- The line break of a file; without any, a line feed. -/
def lineBreak (f : File) : String := f.lineBreak?.getD "\n"

end File

/-- What a rule does at a token of its kinds. -/
inductive Check
  /-- Look at the token wherever it stands. -/
  | anywhere (run : File → Nat → List Finding)
  /-- Look at the token once for each enclosing scope of these kinds, given the owner of the scope,
  and in another way if there is none. -/
  | scoped (kinds : List Kind) (inside : File → Nat → Nat → List Finding)
      (outside : File → Nat → List Finding)

/-- A rule of a coding standard. -/
structure Rule where
  name : String
  description : String
  /-- Kinds of token that the rule looks at. -/
  kinds : List Kind
  check : Check

namespace Rule

/-- What a check finds at a token. -/
def runCheck (file : File) (i : Nat) : Check → List Finding
  | .anywhere run => run file i
  | .scoped kinds inside outside =>
    match (file.store.conditionsAt i).filter fun c => kinds.contains c.2 with
    | [] => outside file i
    | scopes => scopes.flatMap fun c => inside file i c.1

/-- What a rule finds at a token, under its own name. -/
def runAt (r : Rule) (file : File) (i : Nat) : List Finding :=
  (runCheck file i r.check).map fun f => { f with rule := r.name }

end Rule

end PhpStyle
