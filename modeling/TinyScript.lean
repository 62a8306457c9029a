import TinyScript.Main
import TinyScript.Text.Layout
import TinyScript.Proofs.ControlFlow
import TinyScript.Proofs.StackDiscipline
import TinyScript.Proofs.Update
import TinyScript.Proofs.ParseComplete
import TinyScript.Proofs.Evolution
import TinyScript.Proofs.Raises
import TinyScript.Proofs.RunEvolution
import TinyScript.Proofs.Failures
import TinyScript.Proofs.Sessions
import TinyScript.Proofs.Constants
import TinyScript.Proofs.Rendering
import TinyScript.Proofs.Tiling
import TinyScript.Proofs.Calculation
import TinyScript.Proofs.Concatenation
import TinyScript.Proofs.Continuation
import TinyScript.Proofs.FormatRoundTrip
import TinyScript.Proofs.TightStyle
import TinyScript.Proofs.ReadExpressions
import TinyScript.Proofs.Drawings
import TinyScript.Proofs.Fringe
import TinyScript.Proofs.LogLevels
import TinyScript.Proofs.Quotations
import TinyScript.Proofs.ExpressionText
import TinyScript.Proofs.NameErrors
import TinyScript.Proofs.LongestMatch
import TinyScript.Proofs.Escapes
import TinyScript.Proofs.WellFormed
import TinyScript.Proofs.CountedLoops
import TinyScript.Proofs.EachLoops
import TinyScript.Proofs.MapIteration
import TinyScript.Proofs.NameLookup
import TinyScript.Proofs.Purity
import TinyScript.Proofs.Assignments
import TinyScript.Proofs.Histories
import TinyScript.Proofs.Braces
import TinyScript.Proofs.Positions
import TinyScript.Proofs.LoopJumps
import TinyScript.Proofs.Recursion
import TinyScript.Proofs.Equality
import TinyScript.Proofs.LexerCalls
import TinyScript.Proofs.Progress
import TinyScript.Proofs.SessionTexts
