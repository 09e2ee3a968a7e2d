import Reckoner.Main
import Reckoner.Proofs.Composition
import Reckoner.Proofs.Continuation
import Reckoner.Proofs.Denotation
import Reckoner.Proofs.Descent
import Reckoner.Proofs.Discipline
import Reckoner.Proofs.Exactness
import Reckoner.Proofs.Height
import Reckoner.Proofs.Listing
import Reckoner.Proofs.Nearest
import Reckoner.Proofs.Offences
import Reckoner.Proofs.ReadBack
import Reckoner.Proofs.Separation
import Reckoner.Proofs.SignChains
import Reckoner.Proofs.SinglePass
import Reckoner.Proofs.Threshold
import Reckoner.Proofs.TreeRequests
import Reckoner.Proofs.Turns
import Reckoner.Proofs.WrittenForm
import Reckoner.Proofs.WrittenNumbers
