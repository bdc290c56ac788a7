import PhpStyle.Rule

/-!
# Array literals

Arrays are written with square brackets and not with `array(...)`.
-/

namespace PhpStyle.ArrayLiteral

/-- Report a long array literal; one that is not closed is reported without a fix. -/
def findings (file : File) (i : Nat) : List Finding :=
  [{ code := "Found", index := i
     message := "Short array syntax must be used to define arrays"
     fix := (file.store.paren? i).map fun g =>
       [.replace i "", .replace g.opener "[", .replace g.closer "]"] }]

/-- The rule for array literals. -/
def rule : Rule :=
  { name := "Generic.Arrays.DisallowLongArraySyntax"
    description := "Short array syntax must be used to define arrays"
    kinds := [.kwArray]
    check := .anywhere findings }

end PhpStyle.ArrayLiteral
