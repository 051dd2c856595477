import Armator.Registers.Banks
import Armator.Memory.Refinement
import Armator.DataProcessing.MultiWord
import Armator.LoadStore.Stack
import Armator.Instruction.Decode
import Armator.Machine.Reachable
import Armator.DataProcessing.Addition
import Armator.Instruction.Aborts
import Armator.Lib.Text
import Armator.Machine.Alignment
import Armator.Gdb
import Armator.Gdb.Framing
import Armator.Gdb.Registers
import Armator.Gdb.Memory
import Armator.Gdb.StopReason
import Armator.Gdb.Handlers
import Armator.Gdb.Session
import Armator.DataProcessing.Shifter
import Armator.DataProcessing.Carry
import Armator.DataProcessing.Operations
import Armator.LoadStore.BlockWords
import Armator.LoadStore.Single
import Armator.LoadStore.Footprint
import Armator.Memory.Bounds
import Armator.Machine.Branch
import Armator.Gdb.Effects
import Armator.Gdb.Overruns
import Armator.Gdb.Continue
import Armator.Gdb.Words
import Armator.Instruction.ShiftCounts
import Armator.Lib.Unwinding
import Armator.Machine.Noninterference
import Armator.Debug
import Armator.Lib.Sorted
import Armator.Debug.Table
import Armator.Scanner
import Armator.Scanner.Errors
import Armator.Gdb.History
import Armator.Gdb.Wire
import Armator.Lib.Lexing
import Armator.Scanner.Connection
import Armator.Scanner.Stream
import Armator.Lib.Locking
import Armator.Simulator
import Armator.Simulator.Host
import Armator.Simulator.SendIrq
import Armator.Simulator.Stopping
import Armator.Csapp
import Armator.Gdb.Programs
import Armator.Gdb.Debuggee
import Armator.Gdb.Breakpoints
