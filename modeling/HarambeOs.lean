import HarambeOs.Library.MappedMemory
import HarambeOs.Library.ParentChain
import HarambeOs.Library.Runs
import HarambeOs.Library.PaddedLine
import HarambeOs.Library.Blocks
import HarambeOs.Library.TextScreen
import HarambeOs.Library.CString
import HarambeOs.Library.RoundRobin
import HarambeOs.Library.Numerals
import HarambeOs.Library.Buffers
import HarambeOs.Library.MappedBus
import HarambeOs.Paging
import HarambeOs.Display
import HarambeOs.Output
import HarambeOs.Kernel
import HarambeOs.SystemCalls
import HarambeOs.Descriptors
import HarambeOs.Interrupts
import HarambeOs.Machine
import HarambeOs.Calls
import HarambeOs.Moves
import HarambeOs.Commands
import HarambeOs.Lines
import HarambeOs.Keys
import HarambeOs.Delivery
import HarambeOs.Scheduler
import HarambeOs.Switching
import HarambeOs.Memcpy
import HarambeOs.Forest
import HarambeOs.Launch
import HarambeOs.Rotation
import HarambeOs.Running
import HarambeOs.Brackets
import HarambeOs.Contexts
import HarambeOs.Preemption
import HarambeOs.Image
import HarambeOs.Files
import HarambeOs.Stacks
import HarambeOs.Transfers
import HarambeOs.Arguments
import HarambeOs.Mappings
import HarambeOs.Vidmap
import HarambeOs.Messages
import HarambeOs.Itoa
import HarambeOs.Printf
import HarambeOs.Echo
import HarambeOs.Undo
import HarambeOs.Redraw
import HarambeOs.Tables
import HarambeOs.Clock
import HarambeOs.ReadData
import HarambeOs.Accesses
import HarambeOs.Directory
import HarambeOs.Listing
import HarambeOs.OpenClose
import HarambeOs.Loading
import HarambeOs.AddressSpace
import HarambeOs.Cat
import HarambeOs.Grep
import HarambeOs.Confinement
import HarambeOs.Isolation
import HarambeOs.Library.Processor
import HarambeOs.Library.Template
import HarambeOs.Linkage
import HarambeOs.Memmove
import HarambeOs.Pic
import HarambeOs.RtcRead
