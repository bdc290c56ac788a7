import PhpStyle.Command.FileAccess
import PhpStyle.Command.Request
import PhpStyle.Config.Basic
import PhpStyle.Config.Toml.Document
import PhpStyle.Output.Format
import PhpStyle.Php.Tokenize
import PhpStyle.Standard.Catalogue

/-!
# The program

A run reads its arguments and the configuration, gathers files, looks at each or fixes it, and
prints answers in the order of their paths. Files are written only after all of them have been read.
-/

namespace PhpStyle.Command

open Output

/-- How the program ends. -/
structure Ending where
  code : Nat
  prints : List Print
  deriving DecidableEq, Repr

/-- Why the program gives up before it looks at files. -/
inductive Failure
  | unreadableConfig (path : String) (cause : AccessError)
  | malformedConfig (path : String)
  | unknownFormat (name : String)
  | settings (cause : Config.SettingsError)
  | unknownRule (name : String)
  | noRules
  | choice (cause : ChoiceError)

/-- The wording of a failure. -/
def Failure.message : Failure → String
  | .unreadableConfig path cause => s!"Failed to read {path}: {cause.message}"
  | .malformedConfig path => s!"Failed to parse {path}: TOML parse error"
  | .unknownFormat name => s!"Invalid output format '{name}'. Valid options: text, json, diff"
  | .settings cause => cause.message
  | .unknownRule name => s!"Unknown sniff '{name}'. Use --list-sniffs to see available sniffs."
  | .noRules => "No sniffs enabled"
  | .choice cause => cause.message

namespace Ending

/-- The end after a failure; what has been printed before stays. -/
def ofFailure (prints : List Print) (f : Failure) : Ending :=
  ⟨1, prints ++ [.errorLine ("Error: " ++ f.message)]⟩

/-- The end of a program whose arguments are not in order. -/
def usage : Ending := ⟨2, [.errorLine "usage error"]⟩

end Ending

/-! ### Configuration -/

/-- The name of configuration files. -/
def configName : String := ".sniffer.toml"

/-- Read the configuration at a path. -/
def readConfig {m : Type → Type} [Monad m] (files : FileAccess m) (path : String) :
    m (Except Failure Config) := do
  match ← files.read path with
  | .error cause => return .error (.unreadableConfig path cause)
  | .ok text =>
    match (Config.Toml.parse? text).bind fun t => Config.ofValue? false (.table t) with
    | some c => return .ok c
    | none => return .error (.malformedConfig path)

/-- The first of some directories that has a configuration, with the path of it. -/
def findConfig {m : Type → Type} [Monad m] (files : FileAccess m) : List String → m (Option String)
  | [] => return none
  | directory :: rest => do
    let path := Path.join directory configName
    match ← files.kind path with
    | .nothing => findConfig files rest
    | _ => return some path

/-- The configuration of a run and its path: the one asked for, or the one nearest above the current
directory. Without any, all is left open. -/
def loadConfig {m : Type → Type} [Monad m] (files : FileAccess m) (r : Request) :
    m (Except Failure (Config × Option String)) := do
  let path ←
    if r.noConfig then pure none
    else match r.config with
      | some path => pure (some path)
      | none => findConfig files (← files.directories)
  match path with
  | none => return .ok ({}, none)
  | some path => return (← readConfig files path).map fun c => (c, some path)

/-! ### Plan -/

/-- What a run does with its files. -/
structure Plan where
  format : Format
  verbose : Bool
  mode : Mode
  engine : Engine
  budget : Nat

/-- The format of a run: as asked for, as configured, or text. -/
def chooseFormat (r : Request) (c : Config) : Except Failure Format :=
  if r.json then .ok .json
  else
    let name := (r.format.orElse fun _ => c.format).getD "text"
    match Format.ofText? name with
    | some format => .ok format
    | none => .error (.unknownFormat name)

/-- The rules of a run: the names of those asked for have to be known, and there has to be one. -/
def chooseRules (r : Request) (c : Config) (rules : List Rule) : Except Failure (List Rule) := do
  let all := rules.map (·.name)
  match r.rules.find? fun name => !all.contains name with
  | some name => .error (.unknownRule name)
  | none => pure ()
  let names := c.ruleNames all r.rules
  if names.isEmpty then .error .noRules
  match Catalogue.select rules names with
  | .ok chosen => .ok chosen
  | .error cause => .error (.choice cause)

/-- What a list of rules shows. -/
def listing (rules : List Rule) : List Print :=
  .line "Available sniffs:" :: rules.map fun r => .line s!"  {r.name} - {r.description}"

/-- What a run tells about itself before it starts, if all is told. -/
def opening (mode : Mode) (names : List String) : List Print :=
  let word := match mode with
    | .check => "check"
    | .fix => "fix"
  [.line ("Mode: " ++ word), .line ("Sniffs: " ++ ", ".intercalate names), .line ""]

/-- The plan of a run with what is printed before it starts, or the end if it does not start. -/
def plan (r : Request) (c : Config) (configPath : Option String) :
    Except Ending (Plan × List Print) := do
  let format ← (chooseFormat r c).mapError (Ending.ofFailure [])
  let chatty := r.verbose && format = .text
  let prints : List Print :=
    match configPath with
    | some path => if chatty then [.line ("Using config: " ++ path)] else []
    | none => []
  let settings ← (c.settings.mapError .settings).mapError (Ending.ofFailure prints)
  let rules := Catalogue.rules settings
  if r.listRules then .error ⟨0, prints ++ listing rules⟩
  let chosen ← (chooseRules r c rules).mapError (Ending.ofFailure prints)
  let mode := if r.fix then Mode.fix else .check
  let names := c.ruleNames (rules.map (·.name)) r.rules
  let prints := prints ++ if chatty then opening mode names else []
  return ({ format, verbose := r.verbose, mode, engine := .ofRules Php.tokenize chosen
            budget := c.budget r.passBudget }, prints)

/-! ### Files -/

/-- Whether a path in a directory is that of a file to look at. -/
def isWanted (c : Config) (path : String) : Bool :=
  Path.extension? path = some "php" && !c.excludes path

/-- The files that paths lead to, and the paths that lead to none. Files are taken as they are
given, directories for the files in them. -/
def gather {m : Type → Type} [Monad m] (files : FileAccess m) (c : Config) :
    List String → m (List String × List String)
  | [] => return ([], [])
  | path :: rest => do
    let kind ← files.kind path
    let found ← match kind with
      | .file => pure [path]
      | .directory => do
        let all ← files.below path
        pure (all.filter (isWanted c))
      | .nothing => pure []
    let (more, missing) ← gather files c rest
    return (found ++ more, if kind = .nothing then path :: missing else missing)

/-- What becomes of a file with a text. -/
def Plan.answer (p : Plan) (path text : String) : Answer :=
  let run := match p.mode with
    | .check => p.engine.check text
    | .fix => p.engine.fix p.budget text
  match run with
  | .ok report => .report text report
  | .error e => .error s!"Failed to process {path}: {e.message}"

/-- Read a file and see what becomes of it. -/
def Plan.readFile {m : Type → Type} [Monad m] (p : Plan) (files : FileAccess m) (path : String) :
    m FileAnswer := do
  match ← files.read path with
  | .ok text => return ⟨path, p.answer path text⟩
  | .error cause => return ⟨path, .error s!"Failed to read file: {path}: {cause.message}"⟩

/-- Write what has become of a file, if it is to be fixed and has changed. -/
def Plan.writeFile {m : Type → Type} [Monad m] (p : Plan) (files : FileAccess m)
    (f : FileAnswer) : m FileAnswer := do
  match p.mode, f.answer with
  | .fix, .report before r =>
    if r.changed before then
      match ← files.write f.path r.source with
      | .ok () => return f
      | .error cause =>
        return ⟨f.path, .error s!"Failed to write file: {f.path}: {cause.message}"⟩
    else return f
  | _, _ => return f

/-- What is printed about paths that lead to nothing. -/
def missingPrints (format : Format) (missing : List String) : List Print :=
  if format = .text then missing.map fun path =>
    .errorLine ("Warning: Path does not exist: " ++ path)
  else []

/-- Carry out a plan. -/
def Plan.run {m : Type → Type} [Monad m] (p : Plan) (files : FileAccess m) (r : Request)
    (c : Config) (prints : List Print) : m Ending := do
  let (paths, missing) ← gather files c r.paths
  let read ← (paths.mergeSort Path.le).mapM (p.readFile files)
  let answers ← read.mapM (p.writeFile files)
  let status := (Summary.ofAnswers (answers.map (·.answer))).status p.mode
  return ⟨status.code, prints ++ missingPrints p.format missing ++
    answers.flatMap (filePrints p.format p.verbose) ++ finalPrints p.format p.mode answers⟩

/-- Run the program with some arguments. -/
def run {m : Type → Type} [Monad m] (files : FileAccess m) (arguments : List String) :
    m Ending := do
  match Request.ofArguments? arguments with
  | none => return .usage
  | some r =>
    match ← loadConfig files r with
    | .error f => return .ofFailure [] f
    | .ok (c, configPath) =>
      match plan r c configPath with
      | .error ending => return ending
      | .ok (p, prints) => p.run files r c prints

end PhpStyle.Command
