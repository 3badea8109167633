import TrustSimplex.Report.Record
import TrustSimplex.Report.Failure
import TrustSimplex.Problem.Formula
import TrustSimplex.Search.Run
import TrustSimplex.Proofs.Exact
import TrustSimplex.Proofs.Double
import TrustSimplex.Proofs.TrustRegion.Frame
import TrustSimplex.Proofs.TrustRegion.Factorization
import TrustSimplex.Proofs.TrustRegion.BackSubstitution
import TrustSimplex.Proofs.Search.Exactness
import TrustSimplex.Proofs.Search.Pole
import TrustSimplex.Proofs.Search.Solution
import TrustSimplex.Proofs.Search.Provenance
import TrustSimplex.Proofs.Search.Trace
import TrustSimplex.Proofs.Search.EarlyStop
import TrustSimplex.Proofs.Search.Failures
import TrustSimplex.Proofs.Search.Lockstep
import TrustSimplex.Proofs.Simplex.Repair
import TrustSimplex.Proofs.Simplex.Backtracking
import TrustSimplex.Proofs.Simplex.Faces
import TrustSimplex.Proofs.Simplex.Turning
import TrustSimplex.Proofs.Search.Progress
import TrustSimplex.Proofs.Search.Termination
import TrustSimplex.Proofs.Search.Radii
import TrustSimplex.Proofs.Search.Homogeneity
import TrustSimplex.Proofs.Search.Attribution
import TrustSimplex.Proofs.Search.Penalty
import TrustSimplex.Proofs.Search.Standing
import TrustSimplex.Proofs.Search.Trials
import TrustSimplex.Proofs.Search.Promise
import TrustSimplex.Proofs.Search.Replacement
import TrustSimplex.Proofs.Search.Accuracy
import TrustSimplex.Proofs.Search.Affine
import TrustSimplex.Proofs.TrustRegion.Arrangement
import TrustSimplex.Proofs.TrustRegion.Divisors
import TrustSimplex.Proofs.TrustRegion.Checked
import TrustSimplex.Proofs.TrustRegion.Faultless
import TrustSimplex.Proofs.TrustRegion.Patience
import TrustSimplex.Proofs.TrustRegion.Upkeep
import TrustSimplex.Proofs.TrustRegion.Certificate
