import FormSparsity.Proofs.Analysis.BackwardShift
import FormSparsity.Proofs.Derivative.Multiset
import FormSparsity.Proofs.Derivative.SetAlgebra
import FormSparsity.Proofs.Integrand.Arena
import FormSparsity.Proofs.Json.RoundTrip
import FormSparsity.Proofs.Pass.Selection
import FormSparsity.Proofs.Problem.BlockPattern
import FormSparsity.Proofs.Problem.Invariance
import FormSparsity.Proofs.Problem.Linearization
import FormSparsity.Proofs.Problem.Verbosity
import FormSparsity.Proofs.Session.Divisors
import FormSparsity.Proofs.Session.Factorization
import FormSparsity.Proofs.Session.FailedEvaluation
import FormSparsity.Proofs.Session.Faults
import FormSparsity.Proofs.Session.Interpretation
import FormSparsity.Proofs.Session.LeastGrowth
import FormSparsity.Proofs.Session.MixedPartials
import FormSparsity.Proofs.Session.Polynomial
import FormSparsity.Proofs.Session.Propagation
import FormSparsity.Proofs.Session.SampleOrder
import FormSparsity.Proofs.Session.Transparency
