import SparsePoly.InEffect
import SparsePoly.Proofs.Binary64.Opposite
import SparsePoly.Proofs.Binary64.Sorted
import SparsePoly.Proofs.Calculus.Antiderivative
import SparsePoly.Proofs.Calculus.DefiniteIntegral
import SparsePoly.Proofs.Calculus.Homomorphism
import SparsePoly.Proofs.Calculus.Leibniz
import SparsePoly.Proofs.Calculus.Line
import SparsePoly.Proofs.Calculus.Opposite
import SparsePoly.Proofs.Calculus.PastDegree
import SparsePoly.Proofs.Calculus.Remainder
import SparsePoly.Proofs.Calculus.RootProduct
import SparsePoly.Proofs.Calculus.Symmetry
import SparsePoly.Proofs.Operand.Contract
import SparsePoly.Proofs.Poly.Concatenation
import SparsePoly.Proofs.Poly.Descent
import SparsePoly.Proofs.Poly.Equality
import SparsePoly.Proofs.Poly.Extent
import SparsePoly.Proofs.Poly.Grammar
import SparsePoly.Proofs.Poly.Laziness
import SparsePoly.Proofs.Poly.Overflow
import SparsePoly.Proofs.Poly.Pointwise
import SparsePoly.Proofs.Poly.Reachable
import SparsePoly.Proofs.Poly.RoundTrip
import SparsePoly.Proofs.Poly.SingleTerm
import SparsePoly.Proofs.Roots.Brackets
import SparsePoly.Proofs.Roots.ClosedForm
import SparsePoly.Proofs.Roots.Count
import SparsePoly.Proofs.Roots.Descent
import SparsePoly.Proofs.Roots.Distinct
import SparsePoly.Proofs.Roots.Extrema
import SparsePoly.Proofs.Roots.Finite
import SparsePoly.Proofs.Roots.IntegralQuadratic
import SparsePoly.Proofs.Roots.Negation
import SparsePoly.Proofs.Roots.RealValues
import SparsePoly.Proofs.SnapPolicy.WriteOnce
import SparsePoly.Proofs.Term.Precision
