import SymWord.Constraints
import SymWord.Dictionary
import SymWord.Error
import SymWord.Hex
import SymWord.Letters
import SymWord.Memory.Layout
import SymWord.Memory.Region
import SymWord.Model
import SymWord.Operator
import SymWord.Settings
import SymWord.Solver.Backend
import SymWord.Solver.Enumeration
import SymWord.Solver.Exhaustive
import SymWord.Solver.Query
import SymWord.Solver.Scripted
import SymWord.Supply
import SymWord.Term.Basic
import SymWord.Term.Counts
import SymWord.Term.Declaration
import SymWord.Term.Evaluation
import SymWord.Term.Normal
import SymWord.Term.Normal.Operators
import SymWord.Term.Normal.Slices
import SymWord.Term.Substitution
import SymWord.Term.Text
import SymWord.Text.Blank
import SymWord.Text.Lines
import SymWord.Value
import SymWord.Value.Arithmetic
import SymWord.Value.Bits
import SymWord.Width
import SymWord.Word
import SymWord.Proofs.OperatorLaws
import SymWord.Proofs.WellFormed
import SymWord.Proofs.Denotation
import SymWord.Proofs.Replacement
import SymWord.Proofs.OperatorNodes
import SymWord.Proofs.SliceNodes
import SymWord.Proofs.Normalization
import SymWord.Proofs.Concolic
import SymWord.Proofs.QueryDeclarations
import SymWord.Proofs.Assignments
import SymWord.Proofs.ExhaustiveSearch
import SymWord.Proofs.ModelEnumeration
import SymWord.Proofs.NormalForm
import SymWord.Proofs.RegularTerms
import SymWord.Proofs.Idempotence
import SymWord.Proofs.RegularValues
import SymWord.Proofs.ContiguousSlices
import SymWord.Proofs.SingleBits
import SymWord.Proofs.JoinedParts
import SymWord.Proofs.CroppedParts
import SymWord.Proofs.SliceDistribution
import SymWord.Proofs.CanonicalValues
import SymWord.Proofs.CallProtocol
import SymWord.Proofs.SoundBackends
import SymWord.Proofs.LetterNumerals
import SymWord.Proofs.FreshNames
import SymWord.Proofs.PathMerge
import SymWord.Proofs.PredicateFork
import SymWord.Proofs.BitvectorOperators
import SymWord.Proofs.LayoutInstallation
import SymWord.Proofs.Substitution
import SymWord.Proofs.Satisfiability
import SymWord.Proofs.PathPredicate
import SymWord.Proofs.NestedSlices
import SymWord.Proofs.SliceComposition
import SymWord.Proofs.OppositeComparisons
import SymWord.Proofs.LiteralChains
import SymWord.Proofs.XorChains
import SymWord.Proofs.SolvedEqualities
import SymWord.Proofs.ConcatWidths
import SymWord.Proofs.OutputWords
import SymWord.Proofs.CarriedNames
import SymWord.Proofs.MergeRuns
import SymWord.Proofs.StrictEquality
import SymWord.Proofs.ParityReduction
import SymWord.Proofs.DeclarationConflicts
import SymWord.Proofs.TrimmedText
import SymWord.Proofs.ConstraintLines
import SymWord.Proofs.WrittenConstraints
import SymWord.Proofs.FreeNames
import SymWord.Proofs.NumeralOrder
import SymWord.Proofs.SignedWords
