import CommandShell.Text
import CommandShell.Text.Bytes
import CommandShell.Text.Name
import CommandShell.Numeral
import CommandShell.Options
import CommandShell.Signal
import CommandShell.Errno
import CommandShell.Fault
import CommandShell.Pattern
import CommandShell.Table
import CommandShell.Variables
import CommandShell.Jobs
import CommandShell.Expansion.Field
import CommandShell.Expansion.InputFields
import CommandShell.Builtin
import CommandShell.Script.Tree
import CommandShell.Script.Token
import CommandShell.Script.Input
import CommandShell.Script.Grammar
import CommandShell.Script.Printer
import CommandShell.Script.Outline
import CommandShell.Definitions
import CommandShell.Arith.Expr
import CommandShell.Arith.Parser
import CommandShell.Host.Call
import CommandShell.Host.Files
import CommandShell.Host.Descriptors
import CommandShell.Host.Arrivals
import CommandShell.Host.Machine
import CommandShell.Host.Schedule
import CommandShell.Shell.Traps
import CommandShell.Shell.State
import CommandShell.Execution.Evaluator
import CommandShell.Execution.Child
import CommandShell.Execution.Foreground
import CommandShell.Execution.Arrived
import CommandShell.Expansion.Parameter
import CommandShell.Expansion.Words
import CommandShell.Expansion.Pathname
import CommandShell.Expansion.Prompt
import CommandShell.Execution.Redirection
import CommandShell.Execution.CommandPath
import CommandShell.Commands.Echo
import CommandShell.Commands.Condition
import CommandShell.Commands.Directory
import CommandShell.Commands.Control
import CommandShell.Commands.Alias
import CommandShell.Commands.Declare
import CommandShell.Commands.Settings
import CommandShell.Commands.Read
import CommandShell.Commands.Trap
import CommandShell.Commands.Umask
import CommandShell.Commands.JobControl
import CommandShell.Commands.Describe
import CommandShell.Execution.Call
import CommandShell.Commands.Exec
import CommandShell.Commands.Run
import CommandShell.Execution.Simple
import CommandShell.Execution.Pipeline
import CommandShell.Execution.Dispatch
import CommandShell.Execution.Source
import CommandShell.Execution.Evaluate
import CommandShell.Startup.CommandLine
import CommandShell.Startup.Boot
import CommandShell.Host.Console
import CommandShell.Main
import CommandShell.Proofs.RawBytes
import CommandShell.Proofs.Lockstep
import CommandShell.Proofs.Lockstep.Constructs
import CommandShell.Proofs.Errexit
import CommandShell.Proofs.FileView
import CommandShell.Proofs.CommandHash
import CommandShell.Proofs.ChildStatus
import CommandShell.Proofs.Scopes.Constructs
import CommandShell.Proofs.Reading.Aliases
import CommandShell.Proofs.Grammar.Acceptance
import CommandShell.Proofs.Trees.CommandLines
import CommandShell.Proofs.Descriptors.Redirection
import CommandShell.Proofs.LocalFrames
import CommandShell.Proofs.Dispositions
import CommandShell.Proofs.Waiting
import CommandShell.Proofs.TrappedSignals
import CommandShell.Proofs.ReadOnly
import CommandShell.Proofs.JobNumbers
import CommandShell.Proofs.Reading.Offered
import CommandShell.Proofs.QuotedWords
import CommandShell.Proofs.Arithmetic.Precedence
import CommandShell.Proofs.VerbatimWords
import CommandShell.Proofs.Listings.Variables
import CommandShell.Proofs.Listings.Traps
import CommandShell.Proofs.Reading.LineNumbers
import CommandShell.Proofs.Sources
import CommandShell.Proofs.InPlace
import CommandShell.Proofs.LoopJumps
import CommandShell.Proofs.IgnoredSignals
import CommandShell.Proofs.AllExport
import CommandShell.Proofs.ExitTrap
import CommandShell.Proofs.StopNotices
import CommandShell.Proofs.WordTexts
import CommandShell.Proofs.CommandSubstitutions
import CommandShell.Proofs.BuiltinErrors
import CommandShell.Proofs.PrefixAssignments
import CommandShell.Proofs.AliasSubstitution
import CommandShell.Proofs.FieldTexts.InputLines
import CommandShell.Proofs.PatternMeaning.QuotedPieces
import CommandShell.Proofs.Trimming
import CommandShell.Proofs.Arithmetic.Numerals
import CommandShell.Proofs.PatternMeaning.Components
import CommandShell.Proofs.Pathnames
import CommandShell.Proofs.Trimming.QuotedOperands
import CommandShell.Proofs.NoClobber
import CommandShell.Proofs.AssignedTildes
import CommandShell.Proofs.QuoteRemoval
import CommandShell.Proofs.Descriptors.InEffect
import CommandShell.Proofs.Conditions.Counts
import CommandShell.Proofs.WorkingDirectory
import CommandShell.Proofs.SetCommand
import CommandShell.Proofs.FinishedJobs
import CommandShell.Proofs.Arithmetic.StoredNumbers
import CommandShell.Proofs.ScriptLines
import CommandShell.Proofs.HereDocuments
import CommandShell.Proofs.LoopStatus
import CommandShell.Proofs.LogicalPaths
