import PhpStyle.Rule
import PhpStyle.Store.Walk
import PhpStyle.Text.Case

/-!
# Names of methods

Methods are named in camel case. Magic methods and names all in capitals are exempt; functions and
closures that are no members have names of their own kind and are not looked at.
-/

namespace PhpStyle.MethodName

/-- Magic methods, in lower case and without the two underscores in front. -/
def magicMethods : List String :=
  ["construct", "destruct", "call", "callstatic", "get", "set", "isset", "unset", "sleep", "wakeup",
   "serialize", "unserialize", "tostring", "set_state", "clone", "invoke", "debuginfo"]

/-- Methods of SOAP clients that start with two underscores as well. -/
def clientMethods : List String :=
  ["dorequest", "getcookies", "getfunctions", "getlastrequest", "getlastrequestheaders",
   "getlastresponse", "getlastresponseheaders", "gettypes", "setcookie", "setlocation",
   "setsoapheaders", "soapcall"]

/-- Whether a name starts with a small letter, or with two capitals, and goes on in letters and
digits. -/
def isCamelCase (name : List Char) : Bool :=
  match name with
  | [] => false
  | c :: rest =>
    (('a' ≤ c && c ≤ 'z') || (c.isUpper && rest.head?.any Char.isUpper)) &&
      rest.all Char.isAlphanum

/-- Whether a name is that of a magic method. -/
def isMagic (name : String) : Bool :=
  match name.toList with
  | '_' :: '_' :: c :: rest =>
    c != '_' &&
      (magicMethods ++ clientMethods).contains (Text.lower (String.ofList (c :: rest)))
  | _ => false

/-- Whether a name is good for a method. Underscores in front do not count. -/
def isAllowed (name : String) : Bool :=
  let core := name.toList.dropWhile (· == '_')
  isMagic name || Text.upper name == name || core.isEmpty || isCamelCase core

/-- Report the name of a function in the scope of its class. A function that is nested deeper is no
member of the class. -/
def memberFindings (file : File) (i scope : Nat) : List Finding :=
  let s := file.store
  if (s.deepestCondition? i).map (·.1) ≠ some scope then []
  else
    match s.declarationName? i with
    | none => []
    | some name =>
      if isAllowed name then []
      else
        let owner := (s.declarationName? scope).getD "[Anonymous Class]"
        [{ code := "NotCamelCaps", index := i
           message := "Method name \"" ++ owner ++ "::" ++ name ++
           "\" is not in camel caps format" }]

/-- The rule for names of methods. -/
def rule : Rule :=
  { name := "Stefna.Naming.CamelCapsMethodName"
    description := "Method names in camel caps"
    kinds := [.kwFunction]
    check := .scoped [.kwClass, .anonClass, .kwInterface, .kwTrait, .kwEnum] memberFindings
      fun _ _ => [] }

end PhpStyle.MethodName
