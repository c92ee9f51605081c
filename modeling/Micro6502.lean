import Micro6502.Display.Palette
import Micro6502.Display.PixelBuffer
import Micro6502.Machine
import Micro6502.Proofs.Encoding
import Micro6502.Proofs.SymbolTable
import Micro6502.Proofs.Visit
import Micro6502.Proofs.Assembler
import Micro6502.Proofs.Labels
import Micro6502.Proofs.InstructionSize
import Micro6502.Proofs.Numeral
import Micro6502.Proofs.Disassembly
import Micro6502.Proofs.Reassembly
import Micro6502.Proofs.Listing
import Micro6502.Proofs.Overlay
import Micro6502.Proofs.LoadedImage
import Micro6502.Proofs.Layout
import Micro6502.Proofs.LineLabel
import Micro6502.Proofs.Failure
import Micro6502.Proofs.KnownLabels
import Micro6502.Proofs.FirstFailure
import Micro6502.Proofs.PassImages
import Micro6502.Proofs.Access
import Micro6502.Proofs.InstructionStep
import Micro6502.Proofs.Halting
import Micro6502.Proofs.RegisterFile
import Micro6502.Proofs.History
import Micro6502.Proofs.FreshAssembly
import Micro6502.Proofs.RunControl
import Micro6502.Proofs.BoundedStack
import Micro6502.Proofs.Subroutine
import Micro6502.Proofs.ReadTrace
import Micro6502.Proofs.SavedStackPointer
import Micro6502.Proofs.Watcher
import Micro6502.Proofs.WriteTrace
import Micro6502.Proofs.MemoryInvariant
import Micro6502.Proofs.TimeSlice
import Micro6502.Proofs.DisplayMirror
import Micro6502.Proofs.HiddenStorage
import Micro6502.Proofs.MemoryHistory
import Micro6502.Proofs.SilentWatcher
import Micro6502.Proofs.InstructionFrame
import Micro6502.Proofs.LineAtomic
import Micro6502.Proofs.DecimalChain
import Micro6502.Proofs.Restyling
import Micro6502.Proofs.Renaming
import Micro6502.Proofs.OriginShift
import Micro6502.Proofs.BranchAim
import Micro6502.Proofs.NumeralRange
import Micro6502.Proofs.ProgramDump
import Micro6502.Proofs.SymbolHistory
import Micro6502.Proofs.ImpliedOperand
import Micro6502.Proofs.DumpRows
import Micro6502.Proofs.LongShift
