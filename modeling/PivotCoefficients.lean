import PivotCoefficients.CommandLine.Grammar
import PivotCoefficients.Expression.Canonical
import PivotCoefficients.Expression.Reader
import PivotCoefficients.Formula.Basic
import PivotCoefficients.Main
import PivotCoefficients.Operand.Tree
import PivotCoefficients.SymbolTable.Consistency
import PivotCoefficients.Proofs.FormalSum.Amount
import PivotCoefficients.Proofs.Monomial.Exponents
import PivotCoefficients.Proofs.Monomial.Lexicographic
import PivotCoefficients.Proofs.Expression.Polynomial
import PivotCoefficients.Proofs.Expression.Evaluation
import PivotCoefficients.Proofs.Except
import PivotCoefficients.Proofs.Operand.Results
import PivotCoefficients.Proofs.Operand.Kinds
import PivotCoefficients.Proofs.Operand.Rules
import PivotCoefficients.Proofs.CoefficientTable.Collection
import PivotCoefficients.Proofs.Construction
import PivotCoefficients.Proofs.Construction.Canonical
import PivotCoefficients.Proofs.Expression.Identity
import PivotCoefficients.Proofs.Expression.Ring
import PivotCoefficients.Proofs.Expression.Homomorphism
import PivotCoefficients.Proofs.Formula.Polynomial
import PivotCoefficients.Proofs.Formula.Reading
import PivotCoefficients.Proofs.ArrayLiteral.Rendering
import PivotCoefficients.Proofs.CoefficientTable.Terms
import PivotCoefficients.Proofs.CoefficientTable.Reassembly
import PivotCoefficients.Proofs.CoefficientTable.Uniqueness
import PivotCoefficients.Proofs.Derivation
import PivotCoefficients.Proofs.ArrayLiteral.Lines
import PivotCoefficients.Proofs.ArrayLiteral.Meaning
import PivotCoefficients.Proofs.Matrix3.Determinant
import PivotCoefficients.Proofs.Scenario.Assembly
import PivotCoefficients.Proofs.Scenario.Equation
import PivotCoefficients.Proofs.Expression.Substitution
import PivotCoefficients.Proofs.Expression.SubstitutionLaws
import PivotCoefficients.Proofs.CoefficientTable.Substitution
import PivotCoefficients.Proofs.Expression.Products
import PivotCoefficients.Proofs.CoefficientTable.Arithmetic
import PivotCoefficients.Proofs.Operand.Closure
import PivotCoefficients.Proofs.Operand.Values
import PivotCoefficients.Proofs.Symbol.ByteOrder
import PivotCoefficients.Proofs.Derivation.Errors
import PivotCoefficients.Proofs.CommandLine.Phrases
import PivotCoefficients.Proofs.CommandLine.Choices
import PivotCoefficients.Proofs.Scenario.LeadingCoefficient
import PivotCoefficients.Proofs.CommandLine.Rephrasing
import PivotCoefficients.Proofs.CommandLine.Responses
import PivotCoefficients.Proofs.Matrix3.DeterminantLaws
import PivotCoefficients.Proofs.Matrix3.Pencil
import PivotCoefficients.Proofs.ArrayLiteral.Denotation
import PivotCoefficients.Proofs.Expression.Grammar
import PivotCoefficients.Proofs.Expression.Text
import PivotCoefficients.Proofs.Expression.NormalForm
import PivotCoefficients.Proofs.Derivation.Strictness
import PivotCoefficients.Proofs.Operand.Laws
import PivotCoefficients.Proofs.ArrayLiteral.Comment
import PivotCoefficients.Proofs.Power.Laws
import PivotCoefficients.Proofs.Monomial.OrderLaws
import PivotCoefficients.Proofs.Expression.Unbound
import PivotCoefficients.Proofs.Monomial.FreeMonoid
import PivotCoefficients.Proofs.SymbolTable.History
import PivotCoefficients.Proofs.Expression.PowerDegrees
import PivotCoefficients.Proofs.Rational.Calculation
