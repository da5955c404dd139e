import DeskCalc.Disk
import DeskCalc.Main
import DeskCalc.Proofs.Commands
import DeskCalc.Proofs.Faults
import DeskCalc.Proofs.Integers
import DeskCalc.Proofs.Layout
import DeskCalc.Proofs.Meaning
import DeskCalc.Proofs.NormalForm
import DeskCalc.Proofs.Recheck
import DeskCalc.Proofs.Recognition
import DeskCalc.Proofs.Registry
import DeskCalc.Proofs.Scale
import DeskCalc.Proofs.Truncation
import DeskCalc.Proofs.Unreading
import DeskCalc.Proofs.Evaluation
import DeskCalc.Proofs.Passes
import DeskCalc.Proofs.Relabeling
import DeskCalc.Proofs.Respacing
import DeskCalc.Proofs.Ordering
import DeskCalc.Proofs.Sequencing
import DeskCalc.Proofs.Accesses
import DeskCalc.Proofs.AllOrNothing
import DeskCalc.Proofs.ViablePrefix
import DeskCalc.Proofs.Progress
import DeskCalc.Proofs.Refusal
import DeskCalc.Proofs.Resumption
import DeskCalc.Proofs.Constants
import DeskCalc.Proofs.Chains
import DeskCalc.Proofs.Warnings
import DeskCalc.Proofs.Transparency
import DeskCalc.Proofs.Decoding
import DeskCalc.Proofs.Unscaled
