import RegisterMachine.Host.Buffer
import RegisterMachine.Machine.Session
import RegisterMachine.Main
import RegisterMachine.Proofs.Assembly.Buffers
import RegisterMachine.Proofs.Assembly.ControlFlow
import RegisterMachine.Proofs.Assembly.DataGrammar
import RegisterMachine.Proofs.Assembly.EmptyOperands
import RegisterMachine.Proofs.Assembly.Grammar
import RegisterMachine.Proofs.Assembly.Listing
import RegisterMachine.Proofs.Assembly.MeaningfulLines
import RegisterMachine.Proofs.Assembly.Respelling
import RegisterMachine.Proofs.Assembly.Sections
import RegisterMachine.Proofs.Assembly.Simulation
import RegisterMachine.Proofs.Assembly.Spacing
import RegisterMachine.Proofs.Command.BrokenOutput
import RegisterMachine.Proofs.Command.Refinement
import RegisterMachine.Proofs.Image.Classification
import RegisterMachine.Proofs.Machine.Branching
import RegisterMachine.Proofs.Machine.Encodings
import RegisterMachine.Proofs.Machine.FaultOrder
import RegisterMachine.Proofs.Machine.Operands
import RegisterMachine.Proofs.Machine.Safety
import RegisterMachine.Proofs.Machine.TraceLine
import RegisterMachine.Proofs.Machine.Truncation
import RegisterMachine.Proofs.Text.Numerals
