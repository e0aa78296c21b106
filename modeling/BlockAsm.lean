import BlockAsm.Text.Digit
import BlockAsm.Text.Word
import BlockAsm.Text.Visible
import BlockAsm.Text.Blank
import BlockAsm.Text.Line
import BlockAsm.Text.Surrogate
import BlockAsm.Text.Utf8
import BlockAsm.Text.Quoted
import BlockAsm.Number.Binary64
import BlockAsm.Number.Shortest
import BlockAsm.Number.Layout
import BlockAsm.Number.Integer
import BlockAsm.Table
import BlockAsm.Value
import BlockAsm.Name
import BlockAsm.Value.Text
import BlockAsm.Value.Reader
import BlockAsm.Pattern
import BlockAsm.Pattern.Reader
import BlockAsm.Stem
import BlockAsm.IR.Operand
import BlockAsm.IR.Opcode
import BlockAsm.IR.Function
import BlockAsm.Failure
import BlockAsm.Document
import BlockAsm.Code.Line
import BlockAsm.Allocator
import BlockAsm.Allocator.Loop
import BlockAsm.Code.Recipe
import BlockAsm.Code.Emission
import BlockAsm.Assembly
import BlockAsm.Transcript
import BlockAsm.Listing
import BlockAsm.Check
import BlockAsm.Pipeline
import BlockAsm.CommandLine.Options
import BlockAsm.CommandLine.Path
import BlockAsm.CommandLine.FileTree
import BlockAsm.CommandLine.Host
import BlockAsm.CommandLine.Run
import BlockAsm.Main
import BlockAsm.Proofs.Slots
import BlockAsm.Proofs.Machine
import BlockAsm.Proofs.Recipes
import BlockAsm.Proofs.Lowering
import BlockAsm.Proofs.Layout
import BlockAsm.Proofs.BlockListing
import BlockAsm.Proofs.LoopEntry
import BlockAsm.Proofs.LoopRanges
import BlockAsm.Proofs.LoopNesting
import BlockAsm.Proofs.Simulation
import BlockAsm.Proofs.Compiled
import BlockAsm.Proofs.LoopBindings
import BlockAsm.Proofs.Occupancy
import BlockAsm.Proofs.LoopOccurrences
import BlockAsm.Proofs.SharedSlots
import BlockAsm.Proofs.Acceptance
import BlockAsm.Proofs.Verdict
import BlockAsm.Proofs.ConstantPool
import BlockAsm.Proofs.DocumentFailures
import BlockAsm.Proofs.Occurrences
import BlockAsm.Proofs.Renaming
import BlockAsm.Proofs.ScratchSlots
import BlockAsm.Proofs.RenamedCode
import BlockAsm.Proofs.RenamedFunctions
import BlockAsm.Proofs.Bookkeeping
import BlockAsm.Proofs.ReturnedValues
import BlockAsm.Proofs.LoopSetup
import BlockAsm.Proofs.AtomicRuns
import BlockAsm.Proofs.InstructionFields
import BlockAsm.Proofs.OperandForms
import BlockAsm.Proofs.OperandIndices
import BlockAsm.Proofs.Numbering
import BlockAsm.Proofs.Configuration
import BlockAsm.Proofs.BlockCuts
import BlockAsm.Proofs.DocumentRows
import BlockAsm.Proofs.KeySpellings
import BlockAsm.Proofs.PassOrder
import BlockAsm.Proofs.SuffixStripping
