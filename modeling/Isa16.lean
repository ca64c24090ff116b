import Isa16.Main
import Isa16.Proofs.Traversal
import Isa16.Proofs.Text
import Isa16.Proofs.Program
import Isa16.Proofs.Source.Lines
import Isa16.Proofs.Source.Form
import Isa16.Proofs.Assembly.Items
import Isa16.Proofs.Assembly.Cells
import Isa16.Proofs.Assembly.Code
import Isa16.Proofs.Assembly.Sections
import Isa16.Proofs.Assembly.Constant
import Isa16.Proofs.Assembly.Consistent
import Isa16.Proofs.Machine.Run
import Isa16.Proofs.Execution.Load
import Isa16.Proofs.Execution.Call
import Isa16.Proofs.Source.Normal
import Isa16.Proofs.Assembly.Emission
import Isa16.Proofs.Assembly.Plain
import Isa16.Proofs.Instruction.Canonical
import Isa16.Proofs.Assembly.Printed
import Isa16.Proofs.Assembly.Layout
import Isa16.Proofs.Disassembly
import Isa16.Proofs.Machine.Session
import Isa16.Proofs.Assembly.Executable
import Isa16.Proofs.Assembly.Intermediate
import Isa16.Proofs.Machine.Lockstep
import Isa16.Proofs.Processor.InstructionSet
import Isa16.Proofs.Processor.Resume
import Isa16.Proofs.Assembly.Extent
import Isa16.Proofs.Assembly.Branch
import Isa16.Proofs.Execution.Branch
import Isa16.Proofs.Source.Append
import Isa16.Proofs.Assembly.Relocation
import Isa16.Proofs.Assembly.Append
import Isa16.Proofs.Memory.Image
import Isa16.Proofs.Assembly.Listing
import Isa16.Proofs.Memory.History
import Isa16.Proofs.Source.Refusal
import Isa16.Proofs.Assembly.Refusal
import Isa16.Proofs.Assembly.Diagnosis
import Isa16.Proofs.Alignment
import Isa16.Proofs.Assembly.Alike
import Isa16.Proofs.Source.Retouch
import Isa16.Proofs.Assembly.Retouch
import Isa16.Proofs.Machine.Standing
import Isa16.Proofs.Machine.Split
import Isa16.Proofs.Text.Digits
import Isa16.Proofs.Memory.Loading
import Isa16.Proofs.Assembly.Relaxation
import Isa16.Proofs.Text.Case
import Isa16.Proofs.Source.Recase
import Isa16.Proofs.Assembly.Recase
import Isa16.Proofs.Program.Reading
import Isa16.Proofs.Source.Rewriting
import Isa16.Proofs.Assembly.Operands
import Isa16.Proofs.Assembly.Grammar
import Isa16.Proofs.Assembly.Limit
import Isa16.Proofs.Machine.Stopped
import Isa16.Proofs.Tool.Session
