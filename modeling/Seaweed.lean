import Seaweed.Proofs.FishRefinement
import Seaweed.Proofs.FishSectors
import Seaweed.Proofs.FishStorage
import Seaweed.Proofs.FishTrust
import Seaweed.Library.FirstFit
import Seaweed.Heap
import Seaweed.Proofs.HeapBlocks
import Seaweed.Proofs.HeapRuns
import Seaweed.Proofs.HeapSafety
import Seaweed.Proofs.UserIdentity
import Seaweed.Library.Stretches
import Seaweed.Proofs.HeapAlignment
import Seaweed.Proofs.FishPaths
import Seaweed.Keyboard
import Seaweed.Library.RingBuffer
import Seaweed.Proofs.KeyboardQueue
import Seaweed.Library.Loops
import Seaweed.Vga
import Seaweed.Page
import Seaweed.Proofs.VgaPage
import Seaweed.ReadLine
import Seaweed.Proofs.LineEditing
import Seaweed.AtaDriver
import Seaweed.Library.Polling
import Seaweed.Proofs.AtaTransfer
import Seaweed.Proofs.AtaCommands
import Seaweed.Proofs.AtaProtocol
import Seaweed.Proofs.AtaFlush
import Seaweed.Library.Cursor
import Seaweed.Proofs.FishListing
import Seaweed.Proofs.FishReturn
import Seaweed.Proofs.UserFile
import Seaweed.Proofs.TimerSleep
import Seaweed.Numerals
import Seaweed.Commands
import Seaweed.Proofs.CommandLine
import Seaweed.Proofs.FileCommands
import Seaweed.Proofs.FailedCommands
import Seaweed.Library.Decimal
import Seaweed.Proofs.NumericArguments
import Seaweed.Proofs.VgaCalls
import Seaweed.Library.Copying
import Seaweed.Library.Lexicographic
import Seaweed.Proofs.MemoryMove
import Seaweed.Proofs.StringOrder
import Seaweed.Library.Reversal
import Seaweed.Proofs.NumeralText
import Seaweed.Proofs.KeyboardShift
import Seaweed.Interrupts
import Seaweed.Proofs.InterruptFrames
import Seaweed.Computer
import Seaweed.Proofs.CommandTexts
import Seaweed.Proofs.KernelRefinement
import Seaweed.Proofs.KernelStorage
import Seaweed.Proofs.KernelTexts
import Seaweed.Proofs.TypedLines
import Seaweed.Library.Device
import Seaweed.Library.Dialogue
import Seaweed.PioDrive
import Seaweed.Proofs.PioCommands
import Seaweed.Board
import Seaweed.Proofs.PioCalls
import Seaweed.Proofs.PioKernel
