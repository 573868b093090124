import SymbolicMachine.Formula.Worklist
import SymbolicMachine.Formula.Text
import SymbolicMachine.Word.Arithmetic
import SymbolicMachine.Word.Bitwise
import SymbolicMachine.Address
import SymbolicMachine.Memory.Selection
import SymbolicMachine.Resolution
import SymbolicMachine.Join
import SymbolicMachine.Serial.Value
import SymbolicMachine.Proofs.Word.Unsigned
import SymbolicMachine.Proofs.Word.Signed
import SymbolicMachine.Proofs.Word.Shifts
import SymbolicMachine.Proofs.Program.Instantiation
import SymbolicMachine.Proofs.Memory.Write
import SymbolicMachine.Proofs.Memory.BoundedRead
import SymbolicMachine.Proofs.Memory.Forms
import SymbolicMachine.Proofs.Rebuilding
import SymbolicMachine.Proofs.Execution
import SymbolicMachine.Proofs.Program.Tags
import SymbolicMachine.Proofs.TakenSide
import SymbolicMachine.Proofs.Serial.RoundTrip
import SymbolicMachine.Proofs.Memory.JoinedWrites
import SymbolicMachine.Proofs.Memory.Indices
import SymbolicMachine.Proofs.Word.ByteShifts
import SymbolicMachine.Proofs.Memory.WordReads
import SymbolicMachine.Proofs.Memory.ByteStores
import SymbolicMachine.Proofs.NormalForm
import SymbolicMachine.Proofs.Word.Rotations
import SymbolicMachine.Proofs.Word.SignExtension
import SymbolicMachine.Proofs.Word.SignedDivision
import SymbolicMachine.Proofs.Memory.Slices
import SymbolicMachine.Proofs.Memory.KnownWords
import SymbolicMachine.Proofs.Memory.SelectionSize
import SymbolicMachine.Proofs.Text
import SymbolicMachine.Proofs.OperatorLaws
