import Microcode.Text.Blank
import Microcode.Text.Pieces
import Microcode.Text.Numeral
import Microcode.Word.Bits
import Microcode.Word.Field
import Microcode.Word.Basic
import Microcode.Word.Jump
import Microcode.Instruction.Bank
import Microcode.Instruction.Basic
import Microcode.Instruction.Disassembly
import Microcode.Instruction.Parser
import Microcode.Line.Error
import Microcode.Line.Basic
import Microcode.Line.Parser
import Microcode.Opcode.Pattern
import Microcode.Opcode.Decode
import Microcode.Program.Basic
import Microcode.Assembly.Label
import Microcode.Assembly.Mnemonic
import Microcode.Assembly.Error
import Microcode.Assembly.Slot
import Microcode.Assembly.Draft
import Microcode.Assembly.Basic
import Microcode.Assembly.Listing
import Microcode.Json.Value
import Microcode.Json.Token
import Microcode.Json.Reader
import Microcode.Assembly.Config
import Microcode.Program.Writer
import Microcode.Program.Reader
import Microcode.Flow.Basic
import Microcode.Flow.Report
import Microcode.Command.Files
import Microcode.Command.FileTree
import Microcode.Command.Arguments
import Microcode.Command.Assemble
import Microcode.Command.Inspect
import Microcode.Main
import Microcode.Proofs.Word.InPlace
import Microcode.Proofs.Word.Field
import Microcode.Proofs.Word.Jump
import Microcode.Proofs.Word.Mask
import Microcode.Proofs.Instruction.Syntax
import Microcode.Proofs.Instruction.Encoding
import Microcode.Proofs.Instruction.Build
import Microcode.Proofs.Line.Parser
import Microcode.Proofs.Result
import Microcode.Proofs.Opcode.Decode
import Microcode.Proofs.Assembly.FirstPass
import Microcode.Proofs.Assembly.SecondPass
import Microcode.Proofs.Assembly.Outcome
import Microcode.Proofs.Instruction.Stages
import Microcode.Proofs.Instruction.Disassembly
import Microcode.Proofs.Instruction.Canonical
import Microcode.Proofs.Opcode.Specificity
import Microcode.Proofs.Flow.Walk
import Microcode.Proofs.Flow.Report
import Microcode.Proofs.Flow.Contained
import Microcode.Proofs.Text.Pieces
import Microcode.Proofs.Text.Numeral
import Microcode.Proofs.Program.RoundTrip
import Microcode.Proofs.Assembly.Relocation
import Microcode.Proofs.Assembly.UndefinedLabels
import Microcode.Proofs.Flow.DecodeEntries
import Microcode.Proofs.Assembly.Attribution
import Microcode.Proofs.Assembly.TieBreak
import Microcode.Proofs.Opcode.Order
import Microcode.Proofs.Assembly.Renumbering
import Microcode.Proofs.Assembly.InertLines
import Microcode.Proofs.Assembly.Listing
import Microcode.Proofs.Assembly.LineOrder
import Microcode.Proofs.Assembly.Formatting
import Microcode.Proofs.Command.FileMap
import Microcode.Proofs.Command.Outputs
import Microcode.Proofs.Instruction.Grammar
import Microcode.Proofs.Instruction.Fields
import Microcode.Proofs.Line.Instruction
import Microcode.Proofs.Line.Destination
import Microcode.Proofs.Word.Target
import Microcode.Proofs.Line.Forms
import Microcode.Proofs.Program.Edits
import Microcode.Proofs.Program.Damage
import Microcode.Proofs.Text.Address
