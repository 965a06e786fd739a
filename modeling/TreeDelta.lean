import TreeDelta.Diff
import TreeDelta.Literal.Reader
import TreeDelta.Literal.Writer
import TreeDelta.Proofs.Acceptance
import TreeDelta.Proofs.Accounting
import TreeDelta.Proofs.BacktraceSound
import TreeDelta.Proofs.CommonSubsequences
import TreeDelta.Proofs.CondensedFootprints
import TreeDelta.Proofs.CondensedScripts
import TreeDelta.Proofs.CurrentMeasures
import TreeDelta.Proofs.FewestMoves
import TreeDelta.Proofs.GuardedReplay
import TreeDelta.Proofs.Identity
import TreeDelta.Proofs.Insertion
import TreeDelta.Proofs.Interning
import TreeDelta.Proofs.NestedRecovery
import TreeDelta.Proofs.OptimalDistance
import TreeDelta.Proofs.PairedSubtrees
import TreeDelta.Proofs.PairingHistory
import TreeDelta.Proofs.Parentheses
import TreeDelta.Proofs.Parts
import TreeDelta.Proofs.Placings
import TreeDelta.Proofs.Profiles
import TreeDelta.Proofs.QueueDiscipline
import TreeDelta.Proofs.ReadErrors
import TreeDelta.Proofs.Refusals
import TreeDelta.Proofs.Renaming
import TreeDelta.Proofs.ServedGroups
import TreeDelta.Proofs.SharedDescendants
import TreeDelta.Proofs.SourceSpans
import TreeDelta.Proofs.StableRanking
import TreeDelta.Proofs.StepwiseReplay
import TreeDelta.Proofs.StructuralEquality
import TreeDelta.Proofs.TableRefills
import TreeDelta.Proofs.TrigramBags
import TreeDelta.Proofs.UniqueSubtrees
import TreeDelta.Proofs.WrittenTrees
import TreeDelta.Proofs.ZeroDistance
