import Lox.Main
import Lox.Pass
import Lox.Proofs.Accepted
import Lox.Proofs.Alike
import Lox.Proofs.Boundary
import Lox.Proofs.CorrectPrefix
import Lox.Proofs.Legal
import Lox.Proofs.RoundTrip
import Lox.Proofs.Session
import Lox.Proofs.StaticGate
import Lox.Proofs.LineBreak
import Lox.Proofs.Preamble
import Lox.Proofs.Leading
import Lox.Proofs.Records
import Lox.Proofs.Provenance
import Lox.Proofs.Parentheses
import Lox.Proofs.LineByLine
import Lox.Proofs.FirstFailure
import Lox.Proofs.Lines
import Lox.Proofs.Cursor
import Lox.Proofs.Accounting
import Lox.Proofs.FloatBits
import Lox.Proofs.ReadBack
import Lox.Proofs.MaximalMunch
import Lox.Proofs.Shortest
import Lox.Proofs.NumberText
import Lox.Proofs.Equality
import Lox.Proofs.Unambiguous
import Lox.Proofs.FedBack
import Lox.Proofs.Adjacent
import Lox.Proofs.Lookahead
import Lox.Proofs.Progress
import Lox.Proofs.ByteOffsets
