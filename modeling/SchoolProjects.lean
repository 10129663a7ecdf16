import SchoolProjects.Books.RowEdit
import SchoolProjects.ClientServer.Protocol
import SchoolProjects.ClientServer.Requests
import SchoolProjects.ClientServer.Search
import SchoolProjects.ClientServer.Startup
import SchoolProjects.ClientServer.Wakeups
import SchoolProjects.FileModes.Binary
import SchoolProjects.FileWalk.Counts
import SchoolProjects.FileWalk.Walk
import SchoolProjects.KeyFinder.Search
import SchoolProjects.KeyFinder.Words
import SchoolProjects.Lib.Aes
import SchoolProjects.Lib.Ber
import SchoolProjects.Lib.CString
import SchoolProjects.Lib.DigitalLine
import SchoolProjects.Lib.Double
import SchoolProjects.Lib.Fields
import SchoolProjects.Lib.FileDesc
import SchoolProjects.Lib.Forest
import SchoolProjects.Lib.Heap
import SchoolProjects.Lib.Hex
import SchoolProjects.Lib.Interleaving
import SchoolProjects.Lib.Lines
import SchoolProjects.Lib.LinkedChain
import SchoolProjects.Lib.LinkedQueue
import SchoolProjects.Lib.Loop
import SchoolProjects.Lib.Lru
import SchoolProjects.Lib.MachineInt
import SchoolProjects.Lib.Moments
import SchoolProjects.Lib.Numeral
import SchoolProjects.Lib.QueueBank
import SchoolProjects.Lib.Scan
import SchoolProjects.Lib.Stream
import SchoolProjects.Lib.Table
import SchoolProjects.Lib.Text
import SchoolProjects.Lib.Transition
import SchoolProjects.Lib.Truncate
import SchoolProjects.MatrixMultiplication.Multiply
import SchoolProjects.NameTree.Balance
import SchoolProjects.NameTree.Deletions
import SchoolProjects.NameTree.Focus
import SchoolProjects.NameTree.Levels
import SchoolProjects.NameTree.Lifetime
import SchoolProjects.NameTree.Menu
import SchoolProjects.NameTree.Merging
import SchoolProjects.NameTree.Morris
import SchoolProjects.NameTree.Nodes
import SchoolProjects.NameTree.Operations
import SchoolProjects.NameTree.Queries
import SchoolProjects.NameTree.Stacks
import SchoolProjects.NameTree.Tree
import SchoolProjects.OSProject.BackLinks
import SchoolProjects.OSProject.BlockList
import SchoolProjects.OSProject.BlockMerge
import SchoolProjects.OSProject.Coalescing
import SchoolProjects.OSProject.Console
import SchoolProjects.OSProject.Fairness
import SchoolProjects.OSProject.FirstFit
import SchoolProjects.OSProject.Machine
import SchoolProjects.OSProject.Memory
import SchoolProjects.OSProject.MemoryInvariant
import SchoolProjects.OSProject.Reclaim
import SchoolProjects.OSProject.Safety
import SchoolProjects.OSProject.Scheduler
import SchoolProjects.OSProject.SchedulerInvariant
import SchoolProjects.OSProject.TypedSize
import SchoolProjects.Paging.Console
import SchoolProjects.Paging.Custody
import SchoolProjects.Paging.Definedness
import SchoolProjects.Paging.Dispatch
import SchoolProjects.Paging.LruRuns
import SchoolProjects.Paging.Memory
import SchoolProjects.Paging.Replacement
import SchoolProjects.Paging.System
import SchoolProjects.RsaKeyFinder.Fields
import SchoolProjects.RsaKeyFinder.Search
import SchoolProjects.Students.StudentList
import SchoolProjects.Vision.Averages
import SchoolProjects.Vision.Axis
import SchoolProjects.Vision.Carryover
import SchoolProjects.Vision.Centroid
import SchoolProjects.Vision.Chart
import SchoolProjects.Vision.ChildLists
import SchoolProjects.Vision.Comments
import SchoolProjects.Vision.Components
import SchoolProjects.Vision.Database
import SchoolProjects.Vision.DrawLine
import SchoolProjects.Vision.FirstPass
import SchoolProjects.Vision.Gaps
import SchoolProjects.Vision.HandOff
import SchoolProjects.Vision.Hough
import SchoolProjects.Vision.Image
import SchoolProjects.Vision.Inertia
import SchoolProjects.Vision.Labelling
import SchoolProjects.Vision.Line
import SchoolProjects.Vision.Objects
import SchoolProjects.Vision.Peaks
import SchoolProjects.Vision.Pgm
import SchoolProjects.Vision.Programs
import SchoolProjects.Vision.Provisional
import SchoolProjects.Vision.Raster
import SchoolProjects.Vision.Reuse
import SchoolProjects.Vision.SecondPass
import SchoolProjects.Vision.Sobel
import SchoolProjects.Vision.SobelBounds
import SchoolProjects.Vision.Sphere
import SchoolProjects.Vision.Stereo
import SchoolProjects.Vision.Track
import SchoolProjects.Vision.UnionFind
import SchoolProjects.Vision.UnionFindRuns
