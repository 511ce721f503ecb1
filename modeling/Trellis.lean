import Trellis.Arithmetic.Binary64
import Trellis.Builder.Edit
import Trellis.CountMap
import Trellis.Decimal.Rounded
import Trellis.Decoder
import Trellis.Estimate
import Trellis.Message
import Trellis.Proofs.Accumulation
import Trellis.Proofs.Agreement
import Trellis.Proofs.ArcLists
import Trellis.Proofs.BaumWelch
import Trellis.Proofs.Bounds
import Trellis.Proofs.CheckedCounts
import Trellis.Proofs.CheckedDecoding
import Trellis.Proofs.CheckedEditing
import Trellis.Proofs.CheckedFinishing
import Trellis.Proofs.CheckedIndices
import Trellis.Proofs.CheckedRecursions
import Trellis.Proofs.CodeMaps
import Trellis.Proofs.Completion
import Trellis.Proofs.Conservation
import Trellis.Proofs.CountMaps
import Trellis.Proofs.Decoding
import Trellis.Proofs.DenseRecursions
import Trellis.Proofs.DrawingInPlace
import Trellis.Proofs.Estimation
import Trellis.Proofs.ExpectedCounts
import Trellis.Proofs.Finishing
import Trellis.Proofs.FinishingInPlace
import Trellis.Proofs.ForbiddenCells
import Trellis.Proofs.Forward
import Trellis.Proofs.Groups
import Trellis.Proofs.InPlace
import Trellis.Proofs.InitialEntries
import Trellis.Proofs.KnownPaths
import Trellis.Proofs.Labelling
import Trellis.Proofs.Likelihood
import Trellis.Proofs.Marginals
import Trellis.Proofs.MaximumLikelihood
import Trellis.Proofs.OnlineForward
import Trellis.Proofs.Paths
import Trellis.Proofs.PenalizedLikelihood
import Trellis.Proofs.RandomModels
import Trellis.Proofs.Reestimation
import Trellis.Proofs.Refinement
import Trellis.Proofs.RelativeFrequencies
import Trellis.Proofs.Reopening
import Trellis.Proofs.Reordering
import Trellis.Proofs.Runs
import Trellis.Proofs.SequenceDistribution
import Trellis.Proofs.Sessions
import Trellis.Proofs.SessionsInPlace
import Trellis.Proofs.Smoothing
import Trellis.Proofs.Soundness
import Trellis.Proofs.SparseBuilder
import Trellis.Proofs.SuffixSums
import Trellis.Proofs.Ties
import Trellis.Proofs.Training
import Trellis.Proofs.TrainingFailures
import Trellis.Random.ChaCha
import Trellis.Symbol
