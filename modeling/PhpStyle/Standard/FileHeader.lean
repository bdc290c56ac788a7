import PhpStyle.Standard.Layout
import PhpStyle.Text.Case

/-!
# The head of a file

A file starts with its open tag, and behind it on the same line stands `declare`. One empty line
comes before the namespace, and every part of the namespace starts with a capital letter.
-/

namespace PhpStyle.FileHeader

/-- Where `declare` has to stand, seen from the open tag. -/
def declareFindings (s : Store) (tag : Nat) : List Finding :=
  match s.findNext (.isKind .kwDeclare) tag none with
  | none => []
  | some declare_ =>
    if !s.sameLine declare_ tag then
      let fix := (s.findNext (.isKind .semicolon) declare_ none).map fun last =>
        Edit.replace tag ("<?php " ++ s.textBetween declare_ last) ::
          Changeset.deleteRange declare_ last
      [{ code := "DeclareNotFirstInFile", index := declare_
         message := "Declare statement needs to be on the first line", fix }]
    else if declare_ ≠ 1 then
      [{ code := "MultipleSpacesBeforeDeclare", index := declare_
         message := "There should only be 1 space between open tag and declare"
         fix := some ((s.between 0 declare_).map Edit.delete) }]
    else []

/-- The whitespace tokens before an index that are nothing but a line break. -/
def emptyLinesBefore (s : Store) (newline : String) (i : Nat) : List Nat :=
  (List.range i).filter fun p => s.kind p == .whitespace && s.text p == newline

/-- The empty line before a namespace: two bare line breaks come before it in all. -/
def emptyLineFindings (s : Store) (newline : String) (namespace_ : Nat) : List Finding :=
  let empty := emptyLinesBefore s newline namespace_
  let count := empty.length
  if count = 2 then []
  else
    let fix :=
      if 2 < count then (empty.take (count - 2)).map Edit.delete
      else [Edit.insert namespace_ (String.join (List.replicate (2 - count) newline))]
    let found : Int := (count : Int) - 1
    [{ code := "MultipleNewLinesBeforeNamespace", index := namespace_
       message := s!"There should only be one empty line before namespace. Found {found} expected 1"
       fix := some fix }]

/-- The parts of the name of a namespace. -/
def nameParts (s : Store) (namespace_ : Nat) : List Nat :=
  let stop := (s.findNext (.oneOf [.semicolon, .openCurly, .closeTag]) namespace_ none).getD s.size
  (s.between (namespace_ + 1) stop).filter fun p => s.kind p == .identifier

/-- Whether a part of a name starts with a capital letter. -/
def isCapitalized (part : String) : Bool := part.toList.head?.any Text.isUpper

/-- The capitals in the name of a namespace. A part that has no upper case form is left as it is. -/
def nameFindings (s : Store) (namespace_ : Nat) : List Finding :=
  let parts := nameParts s namespace_
  let failed := parts.filter fun p => !isCapitalized (s.text p)
  if failed.isEmpty then []
  else
    let found := "\\".intercalate (parts.map s.text)
    let expected := "\\".intercalate (parts.map fun p => Text.capitalize (s.text p))
    let fix := (failed.filter fun p => s.text p != Text.capitalize (s.text p)).map fun p =>
      Edit.replace p (Text.capitalize (s.text p))
    [{ code := "NonePascalCaseNamespace", index := namespace_
       message := "All namespace parts need to be PascalCase. Found \"" ++ found ++
         "\" expected \"" ++ expected ++ "\""
       fix := if fix.isEmpty then none else some fix }]

/-- What is wrong at the head of a file; only the open tag that starts the file is looked at. -/
def findings (settings : Settings) (file : File) (tag : Nat) : List Finding :=
  let s := file.store
  if tag ≠ 0 then []
  else
    declareFindings s tag ++
      match s.findNext (.isKind .kwNamespace) tag none with
      | none => []
      | some namespace_ =>
        emptyLineFindings s (file.newline settings) namespace_ ++ nameFindings s namespace_

/-- The rule for the head of a file. -/
def rule (settings : Settings) : Rule :=
  { name := "Stefna.Files.FileHeader"
    description := "Declare on the first line, one blank line before a PascalCase namespace"
    kinds := [.openTag]
    check := .anywhere (findings settings) }

end PhpStyle.FileHeader
