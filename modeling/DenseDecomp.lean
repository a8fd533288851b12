import DenseDecomp.Failure.Message
import DenseDecomp.Session
import DenseDecomp.Proofs.ChangeOfBasis
import DenseDecomp.Proofs.ExactArithmetic
import DenseDecomp.Proofs.Loop
import DenseDecomp.Proofs.Tridiagonal.Accumulation
import DenseDecomp.Proofs.ImplicitQL.Sweep
import DenseDecomp.Proofs.ImplicitQL.Convergence
import DenseDecomp.Proofs.ImplicitQL.Diagonalization
import DenseDecomp.Proofs.MatrixStorage
import DenseDecomp.Proofs.Sorting
import DenseDecomp.Proofs.SymmetricSpectrum
import DenseDecomp.Proofs.Cholesky.PositiveDefinite
import DenseDecomp.Proofs.Cholesky.Decomposition
import DenseDecomp.Proofs.Cholesky.Substitution
import DenseDecomp.Proofs.Cholesky.Solve
import DenseDecomp.Proofs.DiagonalSum
import DenseDecomp.Proofs.HessenbergReduction
import DenseDecomp.Proofs.RealSchur.Reflector
import DenseDecomp.Proofs.RealSchur.Sweep
import DenseDecomp.Proofs.RealSchur.Deflation
import DenseDecomp.Proofs.RealSchur.Iteration
import DenseDecomp.Proofs.GeneralSpectrum
import DenseDecomp.Proofs.EigenvalueTrace
import DenseDecomp.Proofs.IterationLimit
import DenseDecomp.Proofs.SpectrumShape
import DenseDecomp.Proofs.SweepCount
import DenseDecomp.Proofs.Indexed.Cholesky
import DenseDecomp.Proofs.Indexed.Hessenberg
import DenseDecomp.Proofs.Faults
import DenseDecomp.Proofs.RealSchur.Agreement
import DenseDecomp.Proofs.RealSchur.EigenvectorAgreement
import DenseDecomp.Proofs.HessenbergLeftovers
import DenseDecomp.Proofs.DeflationLog
import DenseDecomp.Proofs.SessionInvariant
import DenseDecomp.Proofs.Binary64.NotANumber
import DenseDecomp.Proofs.Binary64.Underflow
import DenseDecomp.Proofs.TriangularInput
import DenseDecomp.Proofs.RealSchur.SweepSteps
import DenseDecomp.Proofs.RealSchur.Reached
import DenseDecomp.Proofs.LostSweeps
import DenseDecomp.Proofs.Eigenvectors.HomogeneousSystem
import DenseDecomp.Proofs.Eigenvectors.QuasiTriangular
import DenseDecomp.Proofs.Eigenvectors.Substitution
import DenseDecomp.Proofs.Eigenvectors.RealColumn
import DenseDecomp.Proofs.Eigenvectors.ComplexQuotient
import DenseDecomp.Proofs.Eigenvectors.ComplexColumns
import DenseDecomp.Proofs.Eigenvectors.EveryColumn
import DenseDecomp.Proofs.Tridiagonal.Similarity
import DenseDecomp.Proofs.Hessenberg.Similarity
import DenseDecomp.Proofs.RealSchur.SweepSimilarity
import DenseDecomp.Proofs.RealSchur.PairSimilarity
import DenseDecomp.Proofs.Cholesky.LowerTriangle
import DenseDecomp.Proofs.MatrixEntries
import DenseDecomp.Proofs.Binary64.Overflow
import DenseDecomp.Proofs.Cholesky.Divisors
import DenseDecomp.Proofs.Cholesky.Columns
import DenseDecomp.Proofs.Cholesky.Determinant
import DenseDecomp.Proofs.DiagonalInput
import DenseDecomp.Proofs.EigenpairOrder
import DenseDecomp.Proofs.Tridiagonal.LowerTriangle
import DenseDecomp.Proofs.MatrixExchange
import DenseDecomp.Proofs.QuotientOverflow
import DenseDecomp.Proofs.EntryAccess
import DenseDecomp.Proofs.Indexed.Product
import DenseDecomp.Proofs.TransposedProduct
import DenseDecomp.Proofs.ImplicitQL.Similarity
import DenseDecomp.Proofs.LostNumbers
