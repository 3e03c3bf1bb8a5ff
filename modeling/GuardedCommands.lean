import GuardedCommands.Analysis
import GuardedCommands.Config
import GuardedCommands.Elaboration.Duplicates
import GuardedCommands.Elaboration.Error
import GuardedCommands.Elaboration.Expr
import GuardedCommands.Elaboration.Monad
import GuardedCommands.Elaboration.Program
import GuardedCommands.Elaboration.Stmt
import GuardedCommands.Encoding.Expr
import GuardedCommands.Encoding.Program
import GuardedCommands.Encoding.Ty
import GuardedCommands.Encoding.Typed
import GuardedCommands.Encoding.Verification
import GuardedCommands.Expr
import GuardedCommands.Expr.Printer
import GuardedCommands.FileTree
import GuardedCommands.Fresh
import GuardedCommands.Json
import GuardedCommands.Json.Decoder
import GuardedCommands.Json.Document
import GuardedCommands.Kind
import GuardedCommands.Kind.Context
import GuardedCommands.Kind.Inference
import GuardedCommands.Kind.Unify
import GuardedCommands.Loc
import GuardedCommands.NameMap
import GuardedCommands.NameSet
import GuardedCommands.Program
import GuardedCommands.Sha256
import GuardedCommands.Stmt
import GuardedCommands.Toml
import GuardedCommands.Toml.Reader
import GuardedCommands.Ty
import GuardedCommands.Ty.Builtin
import GuardedCommands.Ty.Printer
import GuardedCommands.Ty.Subst
import GuardedCommands.Ty.Unify
import GuardedCommands.TypeEnv
import GuardedCommands.Typed.Expr
import GuardedCommands.Typed.Program
import GuardedCommands.Typed.Substitute
import GuardedCommands.Verification.Error
import GuardedCommands.Verification.Obligation
import GuardedCommands.Verification.Options
import GuardedCommands.Verification.Rename
import GuardedCommands.Verification.Segment
import GuardedCommands.Verification.Structure
import GuardedCommands.Verification.Verifier
import GuardedCommands.Verification.Wp
import GuardedCommands.Proofs.Interpretation
import GuardedCommands.Proofs.Nesting
import GuardedCommands.Proofs.RenamedBlocks
import GuardedCommands.Proofs.Substitution
import GuardedCommands.Proofs.Execution
import GuardedCommands.Proofs.Renaming
import GuardedCommands.Proofs.Blocks
import GuardedCommands.Proofs.Preconditions
import GuardedCommands.Proofs.Soundness
import GuardedCommands.Proofs.ElaboratedScope
import GuardedCommands.Proofs.ProgramCorrectness
import GuardedCommands.Proofs.Unification
import GuardedCommands.Proofs.Typing
import GuardedCommands.Proofs.KindScope
import GuardedCommands.Proofs.Solving
import GuardedCommands.Proofs.ExpressionTyping
import GuardedCommands.Proofs.StatementTyping
import GuardedCommands.Proofs.FunctionTyping
import GuardedCommands.Proofs.ProgramTyping
import GuardedCommands.Proofs.Lockstep
import GuardedCommands.Proofs.Accounts
import GuardedCommands.Proofs.StructuralErrors
import GuardedCommands.Proofs.Deduplication
import GuardedCommands.Proofs.DistinctNames
import GuardedCommands.Proofs.HoleScope
import GuardedCommands.Proofs.KindOrder
import GuardedCommands.Proofs.Kinding
import GuardedCommands.Proofs.InferredKinds
import GuardedCommands.Proofs.ProgramKinds
import GuardedCommands.Proofs.KindSolutions
import GuardedCommands.Proofs.RecordedKinds
import GuardedCommands.Proofs.WrittenKinds
import GuardedCommands.Proofs.KindSoundness
import GuardedCommands.Proofs.Erasure
import GuardedCommands.Proofs.Reporting
import GuardedCommands.Proofs.LoopAccounting
import GuardedCommands.Proofs.Unlocated
import GuardedCommands.Proofs.Mirrors
import GuardedCommands.Proofs.UnlocatedKinds
import GuardedCommands.Proofs.UnlocatedElaboration
import GuardedCommands.Proofs.UnlocatedPrograms
import GuardedCommands.Proofs.UnlocatedSubstitution
import GuardedCommands.Proofs.UnlocatedVerification
import GuardedCommands.Proofs.LocationIndependence
import GuardedCommands.Proofs.HoleAccounting
import GuardedCommands.Proofs.ScopeStack
import GuardedCommands.Proofs.TypeValues
import GuardedCommands.Proofs.TypingProblems
import GuardedCommands.Proofs.PrincipalTypes
import GuardedCommands.Proofs.FunctionSolutions
import GuardedCommands.Proofs.SettledKinds
import GuardedCommands.Proofs.AlikeScopes
import GuardedCommands.Proofs.DefinitionOrder
import GuardedCommands.Proofs.FreshNames
import GuardedCommands.Proofs.Guarantees
import GuardedCommands.Proofs.ExactPreconditions
import GuardedCommands.Proofs.JsonTexts
import GuardedCommands.Proofs.Decoding
import GuardedCommands.Proofs.JsonRoundTrip
import GuardedCommands.Proofs.Unifiers
import GuardedCommands.Proofs.HeapAssertions
import GuardedCommands.Proofs.HeapRules
import GuardedCommands.Proofs.KindUnifiers
import GuardedCommands.Proofs.PrincipalKinds
import GuardedCommands.Proofs.InferenceCompleteness
import GuardedCommands.Proofs.ExactSignatures
import GuardedCommands.Proofs.SubstitutionNames
import GuardedCommands.Proofs.ModeAgreement
import GuardedCommands.Proofs.Composition
import GuardedCommands.Proofs.RecursiveUnification
import GuardedCommands.Proofs.ResolvedInference
import GuardedCommands.Proofs.TypedSubstitution
import GuardedCommands.Proofs.TypedPreconditions
import GuardedCommands.Proofs.ObligationTyping
import GuardedCommands.Proofs.RecursiveKinds
import GuardedCommands.Proofs.SegmentPartition
