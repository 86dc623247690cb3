import Scriptlet.Binary64.Bits
import Scriptlet.Host
import Scriptlet.Main
import Scriptlet.Session
import Scriptlet.Proofs.Grammar
import Scriptlet.Proofs.Recognition
import Scriptlet.Proofs.Acceptance
import Scriptlet.Proofs.Lookahead
import Scriptlet.Proofs.Refusal
import Scriptlet.Proofs.Lexeme
import Scriptlet.Proofs.Munch
import Scriptlet.Proofs.Tokenization
import Scriptlet.Proofs.Typing
import Scriptlet.Proofs.Grouping
import Scriptlet.Proofs.Divisors
import Scriptlet.Proofs.Scanning
import Scriptlet.Proofs.Faults
import Scriptlet.Proofs.Alike
import Scriptlet.Proofs.Displacement
import Scriptlet.Proofs.Stacking
import Scriptlet.Proofs.Sequence
import Scriptlet.Proofs.Cursor
import Scriptlet.Proofs.Layout
import Scriptlet.Proofs.Lines
import Scriptlet.Proofs.Reports
import Scriptlet.Proofs.Ending
import Scriptlet.Proofs.CurrentLine
import Scriptlet.Proofs.Nearest
import Scriptlet.Proofs.WholeNumbers
import Scriptlet.Proofs.Integers
import Scriptlet.Proofs.Quotients
import Scriptlet.Proofs.Narrowing
import Scriptlet.Proofs.Comparing
import Scriptlet.Proofs.RebuiltLines
import Scriptlet.Proofs.Carets
import Scriptlet.Proofs.Causes
import Scriptlet.Proofs.Blame
import Scriptlet.Proofs.Literals
import Scriptlet.Proofs.Excerpts
import Scriptlet.Proofs.Readability
