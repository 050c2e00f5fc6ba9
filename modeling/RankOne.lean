import RankOne.Recursion.Chain
import RankOne.Bls.Ate
import RankOne.Program
import RankOne.Twister
import RankOne.Exchange
import RankOne.Shape.Encoding
import RankOne.FileTree
import RankOne.Archive
import RankOne.Command.Run
import RankOne.Main
import RankOne.Proofs.KeyLayout
import RankOne.Proofs.Growth
import RankOne.Proofs.Modes
import RankOne.Proofs.Assignments
import RankOne.Proofs.Completeness
import RankOne.Proofs.Soundness
import RankOne.Proofs.Acceptance
import RankOne.Proofs.Binding
import RankOne.Proofs.Rerandomization
import RankOne.Proofs.Filling
import RankOne.Proofs.Limbs
import RankOne.Proofs.Transition
import RankOne.Proofs.Avoidance
import RankOne.Proofs.Allocation
import RankOne.Proofs.Cyclic
import RankOne.Proofs.CyclicSystem
import RankOne.Proofs.CyclicRelation
import RankOne.Proofs.FixedPoint
import RankOne.Proofs.Audit
import RankOne.Proofs.Chain
import RankOne.Proofs.PassedAudit
import RankOne.Proofs.BinaryForm
import RankOne.Proofs.StorageForms
import RankOne.Proofs.Attestation
import RankOne.Proofs.Commitment
import RankOne.Proofs.Session
import RankOne.Proofs.StoredKey
import RankOne.Proofs.Misreading
import RankOne.Proofs.Calculation
import RankOne.Proofs.CommandLine
import RankOne.Proofs.Admission
import RankOne.Proofs.NamedInputs
import RankOne.Proofs.NormalForm
import RankOne.Proofs.Verdict
import RankOne.Proofs.DigestText
import RankOne.Proofs.Evaluation
import RankOne.Proofs.ExactQuotient
import RankOne.Proofs.SharedPolynomials
import RankOne.Proofs.Proving
import RankOne.Proofs.KeyFit
import RankOne.Proofs.Inversion
import RankOne.Proofs.LimbForm
import RankOne.Proofs.Saves
