import SeriesAlgebra.Engine.Staircase
import SeriesAlgebra.Formula.Document
import SeriesAlgebra.Proofs.Decimal.Text
import SeriesAlgebra.Proofs.Engine.Bindings
import SeriesAlgebra.Proofs.Engine.Inlining
import SeriesAlgebra.Proofs.Engine.Replay
import SeriesAlgebra.Proofs.Series.Combining
import SeriesAlgebra.Proofs.Engine.Atomic
import SeriesAlgebra.Proofs.Engine.Renaming
import SeriesAlgebra.Proofs.Engine.Acyclic
import SeriesAlgebra.Proofs.Engine.Relabeling.Histories
import SeriesAlgebra.Proofs.Engine.Relabeling.Staircases
import SeriesAlgebra.Proofs.Engine.RenamedReads
import SeriesAlgebra.Proofs.Engine.Staircase
import SeriesAlgebra.Proofs.Engine.Past
import SeriesAlgebra.Proofs.Engine.PastHistories
import SeriesAlgebra.Proofs.Engine.StoredText
import SeriesAlgebra.Proofs.Evaluation.Agreement
import SeriesAlgebra.Proofs.Engine.Deltas
import SeriesAlgebra.Proofs.Engine.InsertionDates
import SeriesAlgebra.Proofs.Engine.Windows
import SeriesAlgebra.Proofs.Engine.Kinds
import SeriesAlgebra.Proofs.Evaluation.TypeErrors
import SeriesAlgebra.Proofs.Engine.BoundGroups
import SeriesAlgebra.Proofs.Evaluation.Asked
import SeriesAlgebra.Proofs.Evaluation.NamedLeaves
import SeriesAlgebra.Proofs.Engine.DepthGuards
import SeriesAlgebra.Proofs.Engine.StaleReferences
import SeriesAlgebra.Proofs.Engine.Afresh
import SeriesAlgebra.Proofs.Engine.ReadingCycles
import SeriesAlgebra.Proofs.Engine.Awareness
import SeriesAlgebra.Proofs.Store.Changes
import SeriesAlgebra.Proofs.Series.Diagonal
import SeriesAlgebra.Proofs.Formula.StopNames
import SeriesAlgebra.Proofs.Formula.Cycles
import SeriesAlgebra.Proofs.Formula.Types
import SeriesAlgebra.Proofs.Formula.Substitution
import SeriesAlgebra.Proofs.Operator.ConstantGrid
import SeriesAlgebra.Proofs.Engine.Components
import SeriesAlgebra.Proofs.Engine.TextFaults
import SeriesAlgebra.Proofs.Engine.Lives
import SeriesAlgebra.Proofs.Formula.ReferenceChains
import SeriesAlgebra.Proofs.Series.FilledRows
import SeriesAlgebra.Proofs.Series.Priority
import SeriesAlgebra.Proofs.Binding.Positions
import SeriesAlgebra.Proofs.Frame.Arithmetic
import SeriesAlgebra.Proofs.Frame.Made
import SeriesAlgebra.Proofs.TimeIndex.Merging
import SeriesAlgebra.Proofs.TimeIndex.Windows
