import Ber.Decoder.Walk
import Ber.Probe
import Ber.Proofs.Appending
import Ber.Proofs.Availability
import Ber.Proofs.Bits
import Ber.Proofs.Bounds
import Ber.Proofs.Comparing
import Ber.Proofs.Confinement
import Ber.Proofs.Economy
import Ber.Proofs.Faults
import Ber.Proofs.Filing
import Ber.Proofs.Joining
import Ber.Proofs.Limits
import Ber.Proofs.Loosening
import Ber.Proofs.Measuring
import Ber.Proofs.Nesting
import Ber.Proofs.Pinpointing
import Ber.Proofs.Position
import Ber.Proofs.Pulling
import Ber.Proofs.Remaining
import Ber.Proofs.Retrying
import Ber.Proofs.Roundtrip
import Ber.Proofs.Skipping
import Ber.Proofs.Truncation
import Ber.Proofs.TwosComplement
import Ber.Proofs.WideText
import Ber.Session
