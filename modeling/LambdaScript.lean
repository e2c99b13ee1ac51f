import LambdaScript.Main
import LambdaScript.Proofs.Number.ReadBack
import LambdaScript.Proofs.Token.Delivery
import LambdaScript.Proofs.Token.Lookahead
import LambdaScript.Proofs.Token.Lexeme
import LambdaScript.Proofs.Token.Place
import LambdaScript.Proofs.Token.RoundTrip
import LambdaScript.Proofs.Expr.Grammar
import LambdaScript.Proofs.Expr.Greedy
import LambdaScript.Proofs.Expr.Run
import LambdaScript.Proofs.Expr.Soundness
import LambdaScript.Proofs.Expr.Completeness
import LambdaScript.Proofs.Expr.Parse
import LambdaScript.Proofs.Expr.Stems
import LambdaScript.Proofs.Expr.Placed
import LambdaScript.Proofs.Report.Diagnosis
import LambdaScript.Proofs.Eval.Leads
import LambdaScript.Proofs.Eval.Store
import LambdaScript.Proofs.Eval.Safety
import LambdaScript.Proofs.Eval.RunText
import LambdaScript.Proofs.Expr.Site
import LambdaScript.Proofs.Eval.Chain
import LambdaScript.Proofs.Eval.Trace
import LambdaScript.Proofs.Eval.Account
import LambdaScript.Proofs.Eval.Resolution
import LambdaScript.Proofs.Token.Spelling
import LambdaScript.Proofs.Expr.Like
import LambdaScript.Proofs.Expr.Tandem
import LambdaScript.Proofs.Token.Tiling
import LambdaScript.Proofs.Expr.Displaced
import LambdaScript.Proofs.Eval.Alike
import LambdaScript.Proofs.Eval.Layout
import LambdaScript.Proofs.Token.Seam
import LambdaScript.Proofs.Expr.Sequence
import LambdaScript.Proofs.Session.Batch
import LambdaScript.Proofs.Token.Pieces
import LambdaScript.Proofs.Expr.Faithful
import LambdaScript.Proofs.Expr.Written
import LambdaScript.Proofs.Expr.Forms
import LambdaScript.Proofs.Expr.ReadBack
import LambdaScript.Proofs.Expr.Reprint
import LambdaScript.Proofs.Eval.Reach
import LambdaScript.Proofs.Eval.Globals
import LambdaScript.Proofs.Expr.Balanced
import LambdaScript.Proofs.Session.Entry
import LambdaScript.Proofs.Session.Conversation
import LambdaScript.Proofs.Session.Queue
import LambdaScript.Proofs.Eval.Outlast
import LambdaScript.Proofs.Expr.Levels
import LambdaScript.Proofs.Eval.Levels
import LambdaScript.Proofs.Session.Blame
import LambdaScript.Proofs.CommandLine.Entrances
import LambdaScript.Proofs.Expr.Precedence
import LambdaScript.Proofs.Token.Munch
import LambdaScript.Proofs.Token.Spacing
import LambdaScript.Proofs.Number.Overflow
import LambdaScript.Proofs.Token.Refusal
import LambdaScript.Proofs.Number.Value
import LambdaScript.Proofs.Number.Shortest
import LambdaScript.Proofs.Number.Printing
import LambdaScript.Proofs.Eval.History
import LambdaScript.Proofs.Expr.Laid
import LambdaScript.Proofs.Number.Remainder
import LambdaScript.Proofs.Eval.Operators
import LambdaScript.Proofs.Expr.Progress
import LambdaScript.Proofs.Expr.Maximal
import LambdaScript.Proofs.Expr.Termination
import LambdaScript.Proofs.Report.Colour
