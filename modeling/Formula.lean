import Formula.CommandLine
import Formula.Convert
import Formula.Files.Document
import Formula.Main
import Formula.Preview
import Formula.Proofs.Reader.Blocks
import Formula.Proofs.Reader.PayloadFaults
import Formula.Proofs.Reader.TreeForm
import Formula.Proofs.Reader.Placeholders
import Formula.Proofs.Reader.Keeping
import Formula.Proofs.Reader.ErrorOrder
import Formula.Proofs.Catalog.Characters
import Formula.Proofs.Catalog.Operations
import Formula.Proofs.Expr.RoundTrip
import Formula.Proofs.Agreement
import Formula.Proofs.Format.Accuracy
import Formula.Proofs.Format.Shown
import Formula.Proofs.Reader.Brackets
import Formula.Proofs.Reader.FenceArguments
import Formula.Proofs.Reader.FenceForms
import Formula.Proofs.Source.Digits
import Formula.Proofs.Source.Stopping
import Formula.Proofs.Source.DepthGuard
import Formula.Proofs.Reader.SealedReading
import Formula.Proofs.Format.BracedComma
import Formula.Proofs.Reader.HeightLimits
import Formula.Proofs.Reader.LongestNumeral
import Formula.Proofs.Expr.CompactProducts
import Formula.Proofs.Expr.Normal
import Formula.Proofs.Expr.Steady
import Formula.Proofs.Expr.Marks
import Formula.Proofs.Reader.BracketDepth
import Formula.Proofs.Reader.Arguments
import Formula.Proofs.Reader.SizedFence
import Formula.Proofs.Expr.Delimited
import Formula.Proofs.Expr.Idempotent
import Formula.Proofs.Expr.SymbolProducts
import Formula.Proofs.Expr.MarkedCalls
import Formula.Proofs.Expr.NamedCalls
import Formula.Proofs.Expr.NumberArguments
import Formula.Proofs.Expr.LetterSymbols
import Formula.Proofs.Expr.OperatorTrees
import Formula.Proofs.Expr.ComplexOperands
import Formula.Proofs.Expr.ScriptsAttached
import Formula.Proofs.Format.Commands
import Formula.Proofs.Source.Characters
import Formula.Proofs.Catalog.Precedences
import Formula.Proofs.Preview.Framing
import Formula.Proofs.Format.WholeDigits
import Formula.Proofs.Format.RepeatedZeros
import Formula.Proofs.Format.RepeatingTail
import Formula.Proofs.Format.NumericText
import Formula.Proofs.Expr.LostParts
import Formula.Proofs.Expr.TextContent
import Formula.Proofs.Expr.Outline
import Formula.Proofs.Preview.Converted
