import ShapeLang.Source
import ShapeLang.Decimal.Layout
import ShapeLang.Decimal.Numeral
import ShapeLang.Token.Lexer
import ShapeLang.Phrase.Grammar
import ShapeLang.Scope.Analysis
import ShapeLang.Builtin.Apply
import ShapeLang.Frame.Liveness
import ShapeLang.Eval
import ShapeLang.Program
import ShapeLang.Shape.Export
import ShapeLang.Diagnostic
import ShapeLang.Main
import ShapeLang.Proofs.Session.Inlining
import ShapeLang.Proofs.Session.Bindings
import ShapeLang.Proofs.Eval.Neat
import ShapeLang.Proofs.Eval.Tidy
import ShapeLang.Proofs.Lexical.Agreement
import ShapeLang.Proofs.Lexical.Mirror
import ShapeLang.Proofs.Lexical.Outline
import ShapeLang.Proofs.Grammar.Errors
import ShapeLang.Proofs.Grammar.Excerpts
import ShapeLang.Proofs.Shader.Emission
import ShapeLang.Proofs.Shader.Powers
import ShapeLang.Proofs.Shader.Recursion
import ShapeLang.Proofs.Eval.Nesting
import ShapeLang.Proofs.Eval.Tracing
import ShapeLang.Proofs.Token.Tiling
import ShapeLang.Proofs.Denotation.Agreement
import ShapeLang.Proofs.Denotation.Changes
import ShapeLang.Proofs.Denotation.Correspondence
import ShapeLang.Proofs.Denotation.Forcing
import ShapeLang.Proofs.Denotation.Host
import ShapeLang.Proofs.Session.ReadingOrder
import ShapeLang.Proofs.Lexical.Evaluation
import ShapeLang.Proofs.Session.Limits
import ShapeLang.Proofs.Session.Nested
import ShapeLang.Proofs.Session.Recognition
import ShapeLang.Proofs.Scope.Acceptance
import ShapeLang.Proofs.Scope.Sources
import ShapeLang.Proofs.Session.Shapes
import ShapeLang.Proofs.Printing.Readback
import ShapeLang.Proofs.Reevaluation.Undisturbed
import ShapeLang.Proofs.Reevaluation.Agreement
import ShapeLang.Proofs.Reevaluation.Host
import ShapeLang.Proofs.Session.Fields
import ShapeLang.Proofs.Scope.Allocation
import ShapeLang.Proofs.Token.Quotations
import ShapeLang.Proofs.Eval.Overflow
import ShapeLang.Proofs.Source.Lines
import ShapeLang.Proofs.Value.Equality
import ShapeLang.Proofs.Value.Broadcasting
import ShapeLang.Proofs.Session.Recompilation
import ShapeLang.Proofs.Rendering.Shapes
