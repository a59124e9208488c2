import ConfigSandbox.Interpreter.Basic
import ConfigSandbox.Interpreter.Report
import ConfigSandbox.Plugin.Catalog
import ConfigSandbox.Proofs.Environment.Refinement
import ConfigSandbox.Proofs.Submission.Sentinels
import ConfigSandbox.Proofs.Submission.Sequence
import ConfigSandbox.Proofs.Submission.Whitelist
import ConfigSandbox.Proofs.Interpreter.Rejection
import ConfigSandbox.Proofs.Submission.Growth
import ConfigSandbox.Proofs.Interpreter.Secrecy
import ConfigSandbox.Proofs.Grammar.Gives
import ConfigSandbox.Proofs.Grammar.Lexical
import ConfigSandbox.Proofs.Tree.Guard
import ConfigSandbox.Proofs.Grammar.Matched
import ConfigSandbox.Proofs.Submission.Locations
import ConfigSandbox.Proofs.Tree.Height
import ConfigSandbox.Proofs.Submission.Depth
import ConfigSandbox.Proofs.Interpreter.Limits
import ConfigSandbox.Proofs.Submission.WellFormed
import ConfigSandbox.Proofs.Submission.Accepted
import ConfigSandbox.Proofs.Interpreter.Display
import ConfigSandbox.Proofs.Environment.History
import ConfigSandbox.Proofs.Tree.Handled
import ConfigSandbox.Proofs.Tree.Newlines
import ConfigSandbox.Proofs.Tree.Precedence
import ConfigSandbox.Proofs.Interpreter.Snippet
import ConfigSandbox.Proofs.Value.Equivalence
import ConfigSandbox.Proofs.Submission.Convention
import ConfigSandbox.Proofs.Value.Construction
import ConfigSandbox.Proofs.Text.RoundTrip
import ConfigSandbox.Proofs.Submission.Collections
import ConfigSandbox.Proofs.Grammar.Numerals
import ConfigSandbox.Proofs.Tree.Numbers
import ConfigSandbox.Proofs.Tree.Integers
import ConfigSandbox.Proofs.Value.Numbers
