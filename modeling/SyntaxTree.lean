import SyntaxTree.Sample
import SyntaxTree.Script
import SyntaxTree.Print.Stream
import SyntaxTree.Proofs.Json.Grammar
import SyntaxTree.Proofs.Json.Run
import SyntaxTree.Proofs.Json.Token
import SyntaxTree.Proofs.Binary64.Bits
import SyntaxTree.Proofs.Binary64.Drift
import SyntaxTree.Proofs.Decimal.Shortest
import SyntaxTree.Proofs.Json.Bracket
import SyntaxTree.Proofs.Json.Denotation
import SyntaxTree.Proofs.Json.FloatDrift
import SyntaxTree.Proofs.Node.Agreement
import SyntaxTree.Proofs.Print.SExpr
import SyntaxTree.Proofs.Print.Unambiguous
import SyntaxTree.Proofs.Print.Delivery
import SyntaxTree.Proofs.Print.Stream
import SyntaxTree.Proofs.Json.EndOfInput
import SyntaxTree.Proofs.Json.Extension
import SyntaxTree.Proofs.Json.LiteralFront
import SyntaxTree.Proofs.Json.Position
import SyntaxTree.Proofs.Json.TreeFront
import SyntaxTree.Proofs.Json.Locality
import SyntaxTree.Proofs.Decimal.Fixed
import SyntaxTree.Proofs.Json.Identity
import SyntaxTree.Proofs.Script.Errors
import SyntaxTree.Proofs.Script.Postorder
import SyntaxTree.Proofs.Decimal.Resolution
import SyntaxTree.Proofs.PrintConfig.Load
import SyntaxTree.Proofs.Json.ShortestLiteral
import SyntaxTree.Proofs.Json.NonFinite
import SyntaxTree.Proofs.Print.Context
import SyntaxTree.Proofs.Print.Brackets
import SyntaxTree.Proofs.Json.ExactLiteral
