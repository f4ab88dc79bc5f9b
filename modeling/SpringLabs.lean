import SpringLabs.Interleave.Run
import SpringLabs.Interleave.Census
import SpringLabs.Interleave.Threads
import SpringLabs.Interleave.Turns
import SpringLabs.Interleave.Stream
import SpringLabs.Datagram.Buffer
import SpringLabs.Datagram.Solution
import SpringLabs.Datagram.Student
import SpringLabs.RwLock.Model
import SpringLabs.RwLock.ReaderPref
import SpringLabs.RwLock.WriterPref
import SpringLabs.MasterWorker.CondVar
import SpringLabs.MasterWorker.Semaphore
import SpringLabs.Effect
import SpringLabs.Ownership
import SpringLabs.Xv6.Memory
import SpringLabs.Xv6.Process
import SpringLabs.Xv6.PageTable
import SpringLabs.Xv6.Vm
import SpringLabs.Xv6.Exec
import SpringLabs.Xv6.AddressSpace
import SpringLabs.Xv6.Faults
import SpringLabs.Xv6.Fork
import SpringLabs.Xv6.Accounting
import SpringLabs.Xv6.Eager
import SpringLabs.Xv6.Regions
import SpringLabs.Zemaphore
import SpringLabs.Batch
import SpringLabs.Rotation.Model
import SpringLabs.Rotation.Toggle
import SpringLabs.Rotation.Warmup
import SpringLabs.ShmPosix.Model
import SpringLabs.ShmPosix.Tokens
import SpringLabs.ShmPosix.Delivery
import SpringLabs.Heapq
import SpringLabs.RwLock.SolutionReaderPref
import SpringLabs.RwLock.SolutionWriterPref
import SpringLabs.MasterWorker.Solution
import SpringLabs.Search.Exhaust
import SpringLabs.Search.Graph
import SpringLabs.Search.Loop
import SpringLabs.Search.Settle
import SpringLabs.Smoothing
import SpringLabs.Search.Queue
import SpringLabs.Puzzle.Model
import SpringLabs.Puzzle.Boards
import SpringLabs.Puzzle.Rounds
import SpringLabs.Puzzle.Breadth
import SpringLabs.Puzzle.Depth
import SpringLabs.Puzzle.Displaced
import SpringLabs.Puzzle.Manhattan
import SpringLabs.Puzzle.Solution.Model
import SpringLabs.Puzzle.Solution.Heuristics
import SpringLabs.Puzzle.Solution.Search
import SpringLabs.Binary64
import SpringLabs.Missionaries.Model
import SpringLabs.Missionaries.Crossing
import SpringLabs.Search.Reopen
import SpringLabs.Missionaries.Reopen
import SpringLabs.Missionaries.Heuristics
import SpringLabs.Missionaries.Optimized
import SpringLabs.Missionaries.Solution
import SpringLabs.Missionaries.Agreement
import SpringLabs.Ptable.Model
import SpringLabs.Ptable.Steps
import SpringLabs.Ptable.Pids
import SpringLabs.Ptable.ProcInfo
import SpringLabs.Ptable.Scheduler
import SpringLabs.Ptable.Welcome
import SpringLabs.Syscall.Arguments
import SpringLabs.Syscall.ProcInfo
import SpringLabs.Dict
import SpringLabs.Trellis
import SpringLabs.PosTagger.Model
import SpringLabs.PosTagger.Decoding
import SpringLabs.PosTagger.Notebook
import SpringLabs.PosTagger.Training
import SpringLabs.Queens.Model
import SpringLabs.Queens.Search
import SpringLabs.Terminated
import SpringLabs.Shell.Tokenize
import SpringLabs.Shell.Model
import SpringLabs.Shell.Rows
import SpringLabs.Shell.Session
import SpringLabs.Children
import SpringLabs.Shell.Jobs
import SpringLabs.Shell.PartE.Model
import SpringLabs.Shell.PartE.Background
import SpringLabs.Shell.PartE.Operators
import SpringLabs.PosTagger.NotebookTraining
import SpringLabs.Arrays
import SpringLabs.Goldbach.Model
import SpringLabs.PosTagger.Transitions
import SpringLabs.Goldbach.Pairs
import SpringLabs.Search.Duplicates
import SpringLabs.Puzzle.Plain
import SpringLabs.Shell.PartE.Placement
import SpringLabs.Fifo
import SpringLabs.PingPong.Model
import SpringLabs.PingPong.Turns
import SpringLabs.PingPong.Rounds
