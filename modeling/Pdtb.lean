import Pdtb.Asm.State
import Pdtb.Proofs.Bound
import Pdtb.Proofs.Commands
import Pdtb.Proofs.History
import Pdtb.Proofs.Framing
import Pdtb.Proofs.Layout
import Pdtb.Proofs.Accept
import Pdtb.Proofs.Stamps
import Pdtb.Proofs.Writers
import Pdtb.Proofs.Secrecy
import Pdtb.Proofs.Refusal
import Pdtb.Proofs.Checksum
import Pdtb.Proofs.Buffers
import Pdtb.Proofs.Refinement
import Pdtb.Proofs.Requests
import Pdtb.Proofs.Resolver
import Pdtb.Proofs.Answers
