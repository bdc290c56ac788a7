import PhpStyle.Config.Toml.Document
import PhpStyle.Main
import PhpStyle.Output.Format
import PhpStyle.Php.Tokenize
import PhpStyle.Proofs.Edit.Effects
import PhpStyle.Proofs.Php.Bounds
import PhpStyle.Proofs.Php.Declarations
import PhpStyle.Proofs.Php.Endings
import PhpStyle.Proofs.Php.Rereading
import PhpStyle.Proofs.Php.Retokenizing
import PhpStyle.Proofs.Php.Returns
import PhpStyle.Proofs.Php.Tokenizing
import PhpStyle.Proofs.Run.Budgets
import PhpStyle.Proofs.Run.Idempotence
import PhpStyle.Proofs.Run.Rejections
import PhpStyle.Proofs.Run.Trajectory
import PhpStyle.Proofs.Standard.ClosingBrace
import PhpStyle.Proofs.Standard.Condition
import PhpStyle.Proofs.Standard.Convergence
import PhpStyle.Proofs.Standard.FileHeader
import PhpStyle.Proofs.Standard.FunctionHead
import PhpStyle.Proofs.Standard.LineBreaks
import PhpStyle.Proofs.Standard.LineEndings
import PhpStyle.Proofs.Standard.Mending
import PhpStyle.Proofs.Standard.MendingComments
import PhpStyle.Proofs.Standard.Remnants
import PhpStyle.Proofs.Standard.Targets
import PhpStyle.Proofs.Text.Uniform
import PhpStyle.Run.Engine
import PhpStyle.Standard.Catalogue
import PhpStyle.Proofs.Run.Checking
import PhpStyle.Proofs.Run.Pending
import PhpStyle.Proofs.Store.Lookups
import PhpStyle.Proofs.Store.Conditions
import PhpStyle.Proofs.Edit.Answers
import PhpStyle.Proofs.Edit.Interleaving
import PhpStyle.Proofs.Run.Routing
import PhpStyle.Proofs.Run.Guarding
import PhpStyle.Proofs.Run.Accounting
import PhpStyle.Proofs.Standard.TryCatch
import PhpStyle.Proofs.Standard.BracePlacement
import PhpStyle.Proofs.Standard.DocSettling
import PhpStyle.Proofs.Php.Balance
import PhpStyle.Proofs.Php.Contexts
import PhpStyle.Proofs.Php.ModeGrammar
import PhpStyle.Proofs.Standard.TrailingComma
import PhpStyle.Proofs.Php.Statements
import PhpStyle.Proofs.Store.Positions
import PhpStyle.Proofs.Standard.Continuation
import PhpStyle.Proofs.Standard.MethodName
import PhpStyle.Proofs.Store.LineSearches
import PhpStyle.Proofs.Command.ExitCode
import PhpStyle.Proofs.Php.LineEnds
