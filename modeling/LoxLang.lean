import LoxLang.Main
import LoxLang.Proofs.ArrayWrites
import LoxLang.Proofs.AssignedConditionals
import LoxLang.Proofs.ClassMethods
import LoxLang.Proofs.ContextRestored
import LoxLang.Proofs.Diagrams
import LoxLang.Proofs.EscapingFaults
import LoxLang.Proofs.FailedDeclarations
import LoxLang.Proofs.ForLoops
import LoxLang.Proofs.Initializers
import LoxLang.Proofs.JoinedRuns
import LoxLang.Proofs.LocalNames
import LoxLang.Proofs.NamedAccess
import LoxLang.Proofs.OpenEntries
import LoxLang.Proofs.PrintedExpressions
import LoxLang.Proofs.Recovery
import LoxLang.Proofs.RejectedEntries
import LoxLang.Proofs.SourcePositions
import LoxLang.Proofs.TokenYield
import LoxLang.Proofs.TraitOrder
import LoxLang.Term
