import Covenant.Decimal.Shortest
import Covenant.Main
import Covenant.Proofs.Conformance
import Covenant.Proofs.Mismatches
import Covenant.Proofs.Regeneration
import Covenant.Proofs.Findings
import Covenant.Proofs.Isolation
import Covenant.Proofs.OpenWorld
import Covenant.Proofs.Literals
import Covenant.Proofs.CheckedDocuments
import Covenant.Proofs.DepthLimit
import Covenant.Proofs.ResolvedTrees
import Covenant.Proofs.Easing
import Covenant.Proofs.Collecting
import Covenant.Proofs.Running
import Covenant.Proofs.Placement
import Covenant.Proofs.SelfComparison
import Covenant.Proofs.Keys
import Covenant.Proofs.PairedExamples
import Covenant.Proofs.NumberEquality
import Covenant.Proofs.EndingWalks
import Covenant.Proofs.Inlining
import Covenant.Proofs.ScalarBounds
import Covenant.Proofs.DeclaredParameters
import Covenant.Proofs.HeaderCase
import Covenant.Proofs.DeclarableTexts
import Covenant.Proofs.ContractFiles
import Covenant.Proofs.ExpectedResponses
import Covenant.Proofs.RequiredReferences
import Covenant.Proofs.DocumentContracts
import Covenant.Proofs.XmlReading
import Covenant.Proofs.ReportTexts
import Covenant.Proofs.TestSuites
import Covenant.Proofs.XmlCharacters
import Covenant.Proofs.TargetAuthority
import Covenant.Proofs.TargetQueries
import Covenant.Proofs.ExchangedRecords
import Covenant.Proofs.ContractNames
