import Lox.Main
import Lox.Proofs.Eval.Frames
import Lox.Proofs.Number.Form
import Lox.Proofs.Parser.Boundary
import Lox.Proofs.Session.AsStatement
import Lox.Proofs.Session.Causes
import Lox.Proofs.Session.Equality
import Lox.Proofs.Session.Mentioned
import Lox.Proofs.Session.Unambiguous
import Lox.Proofs.Session.Prompt
import Lox.Proofs.Stmt.Diagnostics
import Lox.Proofs.Stmt.ForLoop
import Lox.Proofs.Stmt.LostSemicolon
import Lox.Proofs.Stmt.Recovery
import Lox.Proofs.Token.LineNumbers
