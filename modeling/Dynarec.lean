import Dynarec.Code.Builder
import Dynarec.Code.Layout
import Dynarec.Digest
import Dynarec.Engine.Block
import Dynarec.Engine.Cache
import Dynarec.Engine.Run
import Dynarec.Engine.Trial
import Dynarec.Failure
import Dynarec.Files
import Dynarec.Guest.BitMask
import Dynarec.Guest.Condition
import Dynarec.Guest.Decode
import Dynarec.Guest.Instruction
import Dynarec.Guest.Operand
import Dynarec.Guest.Step
import Dynarec.Host.Decode
import Dynarec.Host.Encode
import Dynarec.Host.Inst
import Dynarec.Host.Machine
import Dynarec.Host.Register
import Dynarec.Host.Scan.Length
import Dynarec.Host.Scan.Opcodes
import Dynarec.Image
import Dynarec.Log
import Dynarec.Lower.Access
import Dynarec.Lower.Data
import Dynarec.Lower.Emit
import Dynarec.Lower.Flags
import Dynarec.Lower.Instruction
import Dynarec.Lower.Scratch
import Dynarec.Main
import Dynarec.Memory
import Dynarec.Record.Instant
import Dynarec.Record.Store
import Dynarec.Registers
import Dynarec.Session
import Dynarec.Settings.Arguments
import Dynarec.Settings.Basic
import Dynarec.Settings.Json
import Dynarec.Settings.Number
import Dynarec.Text.Number
import Dynarec.Text.Printable
import Dynarec.Text.Quoted
import Dynarec.Text.Size
import Dynarec.Word
import Dynarec.Proofs.Code.Layout
import Dynarec.Proofs.Code.Appended
import Dynarec.Proofs.Code.Widening
import Dynarec.Proofs.Code.Calls
import Dynarec.Proofs.Code.Deferred
import Dynarec.Proofs.Guest.Regular
import Dynarec.Proofs.Lower.Emission
import Dynarec.Proofs.Lower.Scratch
import Dynarec.Proofs.Lower.Registers
import Dynarec.Proofs.Lower.Flags
import Dynarec.Proofs.Lower.Arithmetic
import Dynarec.Proofs.Lower.Data
import Dynarec.Proofs.Lower.Compare
import Dynarec.Proofs.Lower.Move
import Dynarec.Proofs.Lower.Access
import Dynarec.Proofs.Lower.Instruction
import Dynarec.Proofs.Guest.Interpreter
import Dynarec.Proofs.Engine.Compile
import Dynarec.Proofs.Engine.Index
import Dynarec.Proofs.Engine.Cache
import Dynarec.Proofs.Engine.Refinement
import Dynarec.Proofs.Engine.Trial
import Dynarec.Proofs.Guest.Limit
import Dynarec.Proofs.Engine.Limit
import Dynarec.Proofs.Host.RoundTrip
import Dynarec.Proofs.Guest.BitMask
import Dynarec.Proofs.Guest.Decode
import Dynarec.Proofs.Engine.Blocks
import Dynarec.Proofs.Engine.Convention
import Dynarec.Proofs.Code.Assemble
import Dynarec.Proofs.Record.Key
import Dynarec.Proofs.Record.Store
import Dynarec.Proofs.Engine.FlagSetting
import Dynarec.Proofs.Engine.Transfer
import Dynarec.Proofs.Engine.Assignment
import Dynarec.Proofs.Engine.Execution
import Dynarec.Proofs.Engine.Faults
import Dynarec.Proofs.Engine.Leaving
import Dynarec.Proofs.Engine.Refusal
import Dynarec.Proofs.Engine.Budget
import Dynarec.Proofs.Code.Minimal
import Dynarec.Proofs.Image
import Dynarec.Proofs.Image.Contents
import Dynarec.Proofs.Engine.Protection
import Dynarec.Proofs.Image.Rights
import Dynarec.Proofs.Image.Stream
import Dynarec.Proofs.Memory.Bytes
import Dynarec.Proofs.Memory.Limit
