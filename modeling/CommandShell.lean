import CommandShell.Action
import CommandShell.Arguments
import CommandShell.Assembly
import CommandShell.Complaint
import CommandShell.Discovery
import CommandShell.Failure
import CommandShell.Files.Content
import CommandShell.Files.Errno
import CommandShell.Files.Expansion
import CommandShell.Files.Node
import CommandShell.Files.Path
import CommandShell.Files.World
import CommandShell.Flag
import CommandShell.Invocation
import CommandShell.Job
import CommandShell.Line.Chart
import CommandShell.Line.Meaning
import CommandShell.Line.Phrases
import CommandShell.Line.Planning
import CommandShell.Line.Substitution
import CommandShell.Line.Token
import CommandShell.Line.Tree
import CommandShell.Main
import CommandShell.MutationTesting
import CommandShell.Number.Binary64
import CommandShell.Number.Decimal
import CommandShell.Number.Integer
import CommandShell.Number.Shortest
import CommandShell.Pattern.CaseRule
import CommandShell.Pattern.Regex
import CommandShell.Pattern.Regex.Matching
import CommandShell.Pattern.Regex.Reader
import CommandShell.Pattern.Regex.Replacement
import CommandShell.Pattern.Wildcard
import CommandShell.Plan
import CommandShell.Proofs.Chart.BlankTexts
import CommandShell.Proofs.Chart.Completeness
import CommandShell.Proofs.Chart.Derivations
import CommandShell.Proofs.Chart.Extents
import CommandShell.Proofs.Chart.Grammar
import CommandShell.Proofs.Chart.Locality
import CommandShell.Proofs.Chart.PreferredReading
import CommandShell.Proofs.Chart.Soundness
import CommandShell.Proofs.Files.Order
import CommandShell.Proofs.Files.Put
import CommandShell.Proofs.Files.Worlds
import CommandShell.Proofs.Flag.Assignment
import CommandShell.Proofs.Flag.Declarations
import CommandShell.Proofs.Flag.Values
import CommandShell.Proofs.Line.Pieces
import CommandShell.Proofs.Line.Pipelines
import CommandShell.Proofs.Line.PlainCommands
import CommandShell.Proofs.Line.PlainLines
import CommandShell.Proofs.Line.RedirectPosition
import CommandShell.Proofs.Line.RedirectTargets
import CommandShell.Proofs.Line.Respacing
import CommandShell.Proofs.Line.Splitting
import CommandShell.Proofs.Line.WordValues
import CommandShell.Proofs.Plan.Assembly
import CommandShell.Proofs.Plan.Effects
import CommandShell.Proofs.Plan.Frames
import CommandShell.Proofs.Plan.Jobs
import CommandShell.Proofs.Plan.MissingSources
import CommandShell.Proofs.Plan.Origins
import CommandShell.Proofs.Plan.Outcomes
import CommandShell.Proofs.Plan.Redirects
import CommandShell.Proofs.Plan.Shape
import CommandShell.Proofs.Session.Complaints
import CommandShell.Proofs.Session.Listening
import CommandShell.Proofs.Session.Sequencing
import CommandShell.Proofs.Session.ShellComplaints
import CommandShell.Proofs.Session.Survival
import CommandShell.Proofs.Substitution.Backquotes
import CommandShell.Proofs.Substitution.Outermost
import CommandShell.Proofs.Substitution.Output
import CommandShell.Proofs.Substitution.Quoting
import CommandShell.Proofs.Substitution.Splicing
import CommandShell.Proofs.Substitution.Unescaping
import CommandShell.Proofs.Text.Fields
import CommandShell.Proofs.Token.Escaping
import CommandShell.Proofs.Token.Kinds
import CommandShell.Proofs.Token.Lexing
import CommandShell.Proofs.Token.LongestMatch
import CommandShell.Proofs.Utility.Actions
import CommandShell.Proofs.Utility.Columns
import CommandShell.Proofs.Utility.Counting
import CommandShell.Proofs.Utility.Crashes
import CommandShell.Proofs.Utility.Filters
import CommandShell.Proofs.Utility.Finding
import CommandShell.Proofs.Utility.FoundLines
import CommandShell.Proofs.Utility.LineCuts
import CommandShell.Proofs.Utility.LineRuns
import CommandShell.Proofs.Utility.Printing
import CommandShell.Proofs.Utility.SedExpressions
import CommandShell.Proofs.Utility.SortedLines
import CommandShell.Proofs.Utility.Traversal
import CommandShell.Proofs.Utility.UnusedInput
import CommandShell.Proofs.Void.Arguments
import CommandShell.Proofs.Void.Lines
import CommandShell.Proofs.Void.Openings
import CommandShell.Proofs.Void.Words
import CommandShell.Report
import CommandShell.Session
import CommandShell.Specification
import CommandShell.Stream
import CommandShell.Text
import CommandShell.Text.Category
import CommandShell.Text.Digit
import CommandShell.Text.Lines
import CommandShell.Text.Lowercase
import CommandShell.Text.Quotation
import CommandShell.Text.Space
import CommandShell.Utility
import CommandShell.Utility.Cat
import CommandShell.Utility.Cd
import CommandShell.Utility.Cut
import CommandShell.Utility.Echo
import CommandShell.Utility.Find
import CommandShell.Utility.Grep
import CommandShell.Utility.Head
import CommandShell.Utility.Ls
import CommandShell.Utility.Ranges
import CommandShell.Utility.Sed
import CommandShell.Utility.Sorting
import CommandShell.Utility.Uniq
import CommandShell.Utility.Wc
import CommandShell.Value
