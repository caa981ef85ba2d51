import Decenarch.Lib.Outcome
import Decenarch.Lib.Transition
import Decenarch.Lib.LastWrite
import Decenarch.Lib.ElGamal
import Decenarch.Lib.FixedWidth
import Decenarch.Lib.AListFold
import Decenarch.Lib.GoBase64
import Decenarch.Suite
import Decenarch.Crypto
import Decenarch.DiscreteLog
import Decenarch.Html
import Decenarch.Bloom
import Decenarch.Proofs
import Decenarch.ConsensusStructured
import Decenarch.StructuredRun
import Decenarch.Decrypt
import Decenarch.ConsensusUnstructured
import Decenarch.Lib.Lagrange
import Decenarch.Reconstruct
import Decenarch.SaveWebpage
import Decenarch.Skipchain
import Decenarch.Archive
import Decenarch.DecryptService
import Decenarch.ConsensusPage
import Decenarch.VerifyRun
import Decenarch.Homomorphic
import Decenarch.SignVerify
import Decenarch.ClientStore
import Decenarch.Lib.RabinDkg
import Decenarch.SetupDkg
import Decenarch.SetupDkgRun
import Decenarch.SetupDkgSteps
import Decenarch.SetupDkgLive
import Decenarch.SetupDkgRefine
import Decenarch.ArchiveRun
import Decenarch.ArchiveRetrieve
import Decenarch.ServiceReconstruct
import Decenarch.HonestSave
import Decenarch.HonestSign
import Decenarch.ConodeSign
import Decenarch.Lib.GoBase64
