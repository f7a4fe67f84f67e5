import MethodBody.CommandLine.FileTree
import MethodBody.Fixture
import MethodBody.Main
import MethodBody.Proofs.PrintedListing
import MethodBody.Proofs.Scanning
import MethodBody.Proofs.UniqueDecoding
import MethodBody.Proofs.Complementing
import MethodBody.Proofs.Merging
import MethodBody.Proofs.ReloadOrder
import MethodBody.Proofs.DirectiveGrammar
import MethodBody.Proofs.Interleaving
import MethodBody.Proofs.Places
import MethodBody.Proofs.Numbering
import MethodBody.Proofs.Joining
import MethodBody.Proofs.ReloadEffect
import MethodBody.Proofs.BranchTargets
import MethodBody.Proofs.OperandGrammar
import MethodBody.Proofs.Spelling
import MethodBody.Proofs.OpenLiterals
import MethodBody.Proofs.Encodable
import MethodBody.Proofs.ComplementLayout
import MethodBody.Proofs.MoreLocals
import MethodBody.Proofs.JsonText
import MethodBody.Proofs.JsonReport
import MethodBody.Proofs.FileFailures
import MethodBody.Proofs.CommentMarkers
import MethodBody.Proofs.Outcomes
import MethodBody.Proofs.SlotIdentity
