import RathalOS.ByteMemory
import RathalOS.ByteFile
import RathalOS.FirstFit
import RathalOS.Histories
import RathalOS.Runs
import RathalOS.BoundedFifo
import RathalOS.CStrings
import RathalOS.BitFields
import RathalOS.Blocks
import RathalOS.Bitmaps
import RathalOS.BitmapRuns
import RathalOS.Superblocks
import RathalOS.Inodes
import RathalOS.FileAccess
import RathalOS.Ownership
import RathalOS.Images
import RathalOS.AddFile
import RathalOS.DeleteFile
import RathalOS.EmptyImages
import RathalOS.WriteBack
import RathalOS.Reservations
import RathalOS.BlockAddresses
import RathalOS.CreateImage
import RathalOS.Allocation
import RathalOS.CopyLoops
import RathalOS.Placement
import RathalOS.AddOutcomes
import RathalOS.AddedFiles
import RathalOS.ReadBack
import RathalOS.DeletedFiles
import RathalOS.ImageRuns
import RathalOS.AddOrder
import RathalOS.Admission
import RathalOS.GrowingImages
import RathalOS.StoredPointers
import RathalOS.OffsetMapping
import RathalOS.ReadRanges
import RathalOS.WholeBlocks
import RathalOS.StoredNames
import RathalOS.KernelFiles
import RathalOS.Mounting
import RathalOS.KernelReads
import RathalOS.FileContents
import RathalOS.IndirectReads
import RathalOS.Cursors
import RathalOS.FileIteration
import RathalOS.FileRemoval
import RathalOS.OpenFiles
import RathalOS.DescriptorRuns
import RathalOS.Descriptors
import RathalOS.Syscalls
import RathalOS.Tasks
import RathalOS.TaskSegments
import RathalOS.PackedDescriptors
import RathalOS.Launches
import RathalOS.BadDescriptors
import RathalOS.FailedLaunches
import RathalOS.ReadOverruns
import RathalOS.ProgramLoading
import RathalOS.Confinement
import RathalOS.Keyboard
import RathalOS.ShiftKeys
import RathalOS.Consoles
import RathalOS.Screen
import RathalOS.Layouts
import RathalOS.OutputPaths
import RathalOS.ScreenRuns
import RathalOS.PrintedNumbers
import RathalOS.ParsedNumbers
import RathalOS.Formatting
import RathalOS.ReadHeads
import RathalOS.TypedLines
import RathalOS.Timer
import RathalOS.Sleeping
import RathalOS.StringOrder
import RathalOS.TrimmedLines
import RathalOS.CommandLines
import RathalOS.ResourceCounts
import RathalOS.ImageReports
import RathalOS.MemoryStacks
import RathalOS.InterruptStubs
import RathalOS.SyscallStubs
import RathalOS.InterruptTable
import RathalOS.InterruptControllers
import RathalOS.InterruptDelivery
import RathalOS.InterruptedPrograms
import RathalOS.InterruptHandling
import RathalOS.SectorDrives
import RathalOS.IdeDriver
import RathalOS.InterruptedProofs
import RathalOS.KeyboardRaces
import RathalOS.ServedFiles
import RathalOS.TaskCalls
import RathalOS.DriveSessions
import RathalOS.TornWrites
import RathalOS.WrittenImages
import RathalOS.GuardedImages
import RathalOS.MetadataWrites
import RathalOS.StoppedAdds
import RathalOS.StoppedDeletes
import RathalOS.StoppedRuns
