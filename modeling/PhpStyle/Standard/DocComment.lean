import PhpStyle.Standard.Layout
import PhpStyle.Text.Case

/-!
# Documentation comments

Two rules. The general one wants the two tags of a documentation comment on lines of their own, a
short description in the first line, one empty line before a longer one, and capitals where they
start. The other first sets apart comments that need none of this: annotations on one line, comments
of certain tags alone, and a lone `@var`, which is brought to one line.
-/

namespace PhpStyle

namespace DocLayout

/-- Parts of a documentation comment that say nothing. -/
def isFiller (t : Token) : Bool := t.kind == .docWhitespace || t.kind == .docStar

/-- The next part of a comment behind `i`, and before `stop`, that says something. -/
def nextPart? (s : Store) (i : Nat) (stop : Option Nat) : Option Nat :=
  (s.next? i).bind fun j => s.findNext (fun t => !isFiller t) j stop

/-- Whether a text starts with a lower case letter. -/
def startsLower (text : String) : Bool := text.toList.head?.any Text.isLower

/-- A fix that clears tokens; nothing to clear is no fix. -/
def clearing (tokens : List Nat) : Option Changeset :=
  if tokens.isEmpty then none else some (tokens.map (Edit.replace · ""))

/-- The tag that opens the comment is alone on its line. -/
def contentBehindOpen (s : Store) (newline : String) (tag short : Nat) : List Finding :=
  if s.sameLine short tag then
    [{ code := "ContentAfterOpen", index := tag
       message := "The open comment tag must be the only content on the line"
       fix := some [.append tag newline, .insert short "* "] }]
  else []

/-- The tag that closes the comment is alone on its line; `last` is the last part that says
something. -/
def contentBeforeClose (s : Store) (newline : String) (last close : Nat) : List Finding :=
  if s.sameLine last close then
    [{ code := "ContentBeforeClose", index := close
       message := "The close comment tag must be the only content on the line"
       fix := some [.insert close newline] }]
  else []

/-- No empty lines before the tag that closes the comment. -/
def spacingAtEnd (s : Store) (last close : Nat) : List Finding :=
  if s.line last + 1 < s.line close then
    [{ code := "SpacingAfter", index := close
       message := "Additional blank lines found at end of doc comment"
       fix := clearing ((s.between last close).takeWhile fun p => !s.sameLine (p + 1) close) }]
  else []

/-- The short description stands in the first line. -/
def spacingBeforeShort (s : Store) (tag short : Nat) : List Finding :=
  if s.line short = s.line tag + 1 then []
  else
    [{ code := "SpacingBeforeShort", index := short
       message := "Doc comment short description must be on the first line"
       fix := clearing (s.onLinesBetween (s.line tag) (s.line short) (s.between tag short)) }]

/-- The last line of a description that ends, so far, at `last`: text on the next line goes it on,
and other text or a tag ends it. -/
def descriptionEnd (s : Store) (last : Nat) : List Nat → Nat
  | [] => last
  | p :: rest =>
    if s.kind p = .docText ∧ s.line p = s.line last + 1 then descriptionEnd s p rest
    else if s.kind p = .docText ∨ s.kind p = .docTag then last
    else descriptionEnd s last rest

/-- The short description starts with a capital. -/
def shortCapital (s : Store) (short : Nat) : List Finding :=
  if startsLower (s.text short) then
    [{ code := "ShortNotCapital", index := short
       message := "Doc comment short description must start with a capital letter" }]
  else []

/-- One empty line before the long description, which starts with a capital. -/
def longFindings (s : Store) (shortEnd long : Nat) : List Finding :=
  let spacing : List Finding :=
    if s.line long = s.line shortEnd + 2 then []
    else
      [{ code := "SpacingBetween", index := long
         message := "There must be exactly one blank line between descriptions in a doc comment"
         fix := clearing
           (s.onLinesBetween (s.line shortEnd) (s.line long - 1) (s.between shortEnd long)) }]
  let capital : List Finding :=
    if startsLower (s.text long) then
      [{ code := "LongNotCapital", index := long
         message := "Doc comment long description must start with a capital letter" }]
    else []
  spacing ++ capital

/-- What is wrong with the descriptions of a comment, of which the first starts at `short`. -/
def descriptions (s : Store) (tag short close : Nat) : List Finding :=
  if s.kind short ≠ .docText then
    [{ code := "MissingShort", index := tag
       message := "Missing short description in doc comment" }]
  else
    let shortEnd := descriptionEnd s short (s.between short close)
    let long := (nextPart? s shortEnd (s.prev? close)).filter fun p => s.kind p == .docText
    spacingBeforeShort s tag short ++ shortCapital s short ++
      long.toList.flatMap (longFindings s shortEnd)

/-- What is wrong with a comment; one that is not closed is still being typed. -/
def findings (settings : Settings) (file : File) (tag : Nat) : List Finding :=
  let s := file.store
  let newline := file.newline settings
  match s.commentMatch? tag with
  | none => []
  | some close =>
    match nextPart? s tag (some close) with
    | none => [{ code := "Empty", index := tag, message := "Doc comment is empty" }]
    | some short =>
      let last := ((s.prev? close).bind fun p =>
        s.findPrevious (fun t => !isFiller t) p (some tag)).getD tag
      contentBehindOpen s newline tag short ++ contentBeforeClose s newline last close ++
        spacingAtEnd s last close ++ descriptions s tag short close

/-- The general rule for documentation comments. -/
def rule (settings : Settings) : Rule :=
  { name := "Generic.Commenting.DocComment"
    description := "Doc comment structure and short description"
    kinds := [.docOpen]
    check := .anywhere (findings settings) }

end DocLayout

namespace DocComment

/-- Tags that may stand alone in a comment on one line. -/
def oneLineTags : List String :=
  ["@var", "@phpstan-var", "@type", "@lang", "@noinspection", "@use", "@phpstan-ignore-next-line"]

/-- Tags that need no description. -/
def ignoredTags : List String := ["@inheritdoc", "@noinspection", "@dataProvider"]

/-- Tags that describe members of a class. -/
def classTags : List String := ["@property", "@property-read", "@property-write", "@method"]

/-- What a comment is made of. -/
structure Summary where
  /-- The tags, the last one first. -/
  tags : List String := []
  /-- The line of the last tag. -/
  tagLine : Option Nat := none
  /-- Whether there is text outside the lines of tags. -/
  hasContent : Bool := false

namespace Summary

/-- Go on over one part of a comment. -/
def add (m : Summary) (t : Token) : Summary :=
  match t.kind with
  | .docText => if m.tagLine = some t.line then m else { m with hasContent := true }
  | .docTag => { m with tags := t.text :: m.tags, tagLine := some t.line }
  | _ => m

/-- The summary of the comment between two tags. -/
def ofComment (s : Store) (tag close : Nat) : Summary :=
  (s.between tag close).foldl (fun m p => m.add (s.token p)) {}

/-- Comments without text that are left alone: a single `@return`, tags of a class only, or one that
ends with a tag that needs no description. -/
def isExempt (m : Summary) : Bool :=
  !m.hasContent &&
    match m.tags with
    | [] => false
    | last :: before =>
      if last == "@return" then before.isEmpty
      else m.tags.all classTags.contains || ignoredTags.contains last

/-- A comment that holds nothing but one `@var` or `@type`. -/
def isLoneType (m : Summary) : Bool :=
  !m.hasContent && (m.tags == ["@var"] || m.tags == ["@type"])

end Summary

/-- The second word of a text, where words end at single spaces. -/
def secondWord? (text : String) : Option String :=
  match text.toList.dropWhile (· != ' ') with
  | [] => none
  | _ :: rest => some (String.ofList (rest.takeWhile (· != ' ')))

/-- Whether a comment is an annotation on one line. -/
def isAnnotation (s : Store) (tag close : Nat) : Bool :=
  s.sameLine tag close && (secondWord? (s.textBetween tag close)).any oneLineTags.contains

/-- The edits that bring a comment of one tag to one line. -/
def toOneLine (s : Store) (tag close : Nat) : Changeset :=
  .append tag " " :: (s.between tag close).map fun p =>
    if s.kind p = .docTag ∨ s.kind p = .docText then .append p " " else .replace p ""

/-- What is wrong with a comment. -/
def findings (settings : Settings) (file : File) (tag : Nat) : List Finding :=
  let s := file.store
  match s.commentMatch? tag with
  | none => []
  | some close =>
    let summary := Summary.ofComment s tag close
    if isAnnotation s tag close || summary.isExempt then []
    else if summary.isLoneType then
      [{ code := "OneLineTypeDeclare", index := tag
         message := "Comments with only @var should be on one line"
         fix := some (toOneLine s tag close) }]
    else DocLayout.findings settings file tag

/-- The rule for documentation comments. -/
def rule (settings : Settings) : Rule :=
  { name := "Stefna.Commenting.DocComment"
    description := "Doc comment structure, allowing one-line type annotations"
    kinds := [.docOpen]
    check := .anywhere (findings settings) }

end DocComment

end PhpStyle
