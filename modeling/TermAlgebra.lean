import TermAlgebra.Description
import TermAlgebra.Error
import TermAlgebra.Exchange.Read
import TermAlgebra.Exchange.Text
import TermAlgebra.Exchange.Write
import TermAlgebra.Json.Basic
import TermAlgebra.Json.Parser
import TermAlgebra.Order.Chain
import TermAlgebra.Order.Comparison
import TermAlgebra.Order.Measure
import TermAlgebra.Order.Scale
import TermAlgebra.Order.Sort
import TermAlgebra.Order.Weight
import TermAlgebra.Pool.Basic
import TermAlgebra.Pool.Counter
import TermAlgebra.Pool.Registry
import TermAlgebra.Position
import TermAlgebra.Session.Expression
import TermAlgebra.Session.Step
import TermAlgebra.Substitution
import TermAlgebra.Symbol
import TermAlgebra.Table
import TermAlgebra.Term.Basic
import TermAlgebra.Term.Occurrence
import TermAlgebra.Term.Subterm
import TermAlgebra.Variable
import TermAlgebra.Proofs.SubstitutionComposition
import TermAlgebra.Proofs.PoolCalls
import TermAlgebra.Proofs.PoolHistory
import TermAlgebra.Proofs.FreshIndices
import TermAlgebra.Proofs.LabelEquality
import TermAlgebra.Proofs.RenamingApart
import TermAlgebra.Proofs.Renaming
import TermAlgebra.Proofs.VariableSet
import TermAlgebra.Proofs.WellFormed
import TermAlgebra.Proofs.PositionOrder
import TermAlgebra.Proofs.SubtermLookup
import TermAlgebra.Proofs.SubtermEnumeration
import TermAlgebra.Proofs.VariableEnumeration
import TermAlgebra.Proofs.Replacement
import TermAlgebra.Proofs.SubstitutionPositions
import TermAlgebra.Proofs.SuccessiveReplacements
import TermAlgebra.Proofs.JsonText
import TermAlgebra.Proofs.Reading
import TermAlgebra.Proofs.RoundTrip
import TermAlgebra.Proofs.ReadTerms
import TermAlgebra.Proofs.Construction
import TermAlgebra.Proofs.ChainLinks
import TermAlgebra.Proofs.CounterIndependence
import TermAlgebra.Proofs.VariableFlow
import TermAlgebra.Proofs.HandleCounts
import TermAlgebra.Proofs.SessionSteps
import TermAlgebra.Proofs.PoolLifetime
import TermAlgebra.Proofs.Provenance
import TermAlgebra.Proofs.ExactWeight
import TermAlgebra.Proofs.WeightOrder
import TermAlgebra.Proofs.Layout
import TermAlgebra.Proofs.SubstitutionGrowth
import TermAlgebra.Proofs.ReplacementGrowth
import TermAlgebra.Proofs.Coincidence
import TermAlgebra.Proofs.SubstitutionEquality
import TermAlgebra.Proofs.Idempotence
import TermAlgebra.Proofs.StepwiseComposition
import TermAlgebra.Proofs.OrderedChains
import TermAlgebra.Proofs.PoolInstances
import TermAlgebra.Proofs.PoolQuestions
import TermAlgebra.Proofs.SubtermPaths
import TermAlgebra.Proofs.ReadFailures
import TermAlgebra.Proofs.InstanceSources
import TermAlgebra.Proofs.CollectedBindings
import TermAlgebra.Proofs.WaysOfApplying
import TermAlgebra.Proofs.UnambiguousText
import TermAlgebra.Proofs.SubtermBlocks
import TermAlgebra.Proofs.NameOrder
import TermAlgebra.Proofs.Duality
import TermAlgebra.Proofs.TotalOrders
