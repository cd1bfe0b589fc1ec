import OSLab.Lib.Machine
import OSLab.Lib.Codec
import OSLab.Lib.Prog
import OSLab.Lib.Returns
import OSLab.Lib.Chain
import OSLab.Lib.Ring
import OSLab.Lib.Ownership
import OSLab.Lib.Ledger
import OSLab.Lib.WriteBack
import OSLab.Lib.RootedTree
import OSLab.Lib.Together
import OSLab.Lib.Probing
import OSLab.Lib.Framing
import OSLab.Lib.SlotTable
import OSLab.Warmup.SortedPoints
import OSLab.Warmup.PointWalk
import OSLab.Warmup.PointOrder
import OSLab.Warmup.Duplicates
import OSLab.Warmup.PointAccount
import OSLab.Warmup.Wc
import OSLab.Warmup.WordCount
import OSLab.Warmup.WordEnds
import OSLab.Fs.Block
import OSLab.Fs.Bitmap
import OSLab.Fs.Super
import OSLab.Fs.HashTable
import OSLab.Fs.Inode
import OSLab.Fs.ReadWrite
import OSLab.Fs.Cache
import OSLab.Fs.Dir
import OSLab.Fs.File
import OSLab.Fs.Shell
import OSLab.Fs.Volume
import OSLab.Fs.Proof.Block
import OSLab.Fs.Proof.Freemap
import OSLab.Fs.Proof.IndexSet
import OSLab.Fs.Proof.Super
import OSLab.Fs.Proof.Tree
import OSLab.Fs.Proof.Allocate
import OSLab.Fs.Proof.FreeBlocks
import OSLab.Fs.Proof.ReadData
import OSLab.Fs.Proof.WriteData
import OSLab.Fs.Proof.MakeFs
import OSLab.Fs.Proof.BlockMap
import OSLab.Fs.Proof.OutOfSpace
import OSLab.Fs.Proof.Holes
import OSLab.Fs.Proof.FreeOnce
import OSLab.Fs.Proof.Splitting
import OSLab.Fs.Proof.Ranges
import OSLab.Fs.Proof.Inodes
import OSLab.Fs.Proof.Coherence
import OSLab.Fs.Proof.Refs
import OSLab.Fs.Proof.Entries
import OSLab.Fs.Proof.DirBytes
import OSLab.Fs.Proof.DirMap
import OSLab.Fs.Proof.Pwd
import OSLab.Fs.Proof.Wrote
import OSLab.Fs.Proof.Stores
import OSLab.Fs.Proof.Held
import OSLab.Fs.Proof.Lookups
import OSLab.Fs.Proof.Listing
import OSLab.Fs.Proof.Updates
import OSLab.Fs.Proof.Reopen
import OSLab.Fs.Proof.NewVolume
import OSLab.Fs.Proof.Sessions
import OSLab.Fs.Proof.Consistency
import OSLab.Fs.Proof.Returning
import OSLab.Fs.Proof.Progress
import OSLab.Threads.Thread
import OSLab.Threads.System
import OSLab.Threads.Sequence
import OSLab.Threads.Places
import OSLab.Threads.Refine
import OSLab.Threads.Wake
import OSLab.Threads.Effects
import OSLab.Threads.Control
import OSLab.Threads.Returns
import OSLab.Threads.Fifo
import OSLab.Threads.Interrupts
import OSLab.Threads.Stacks
import OSLab.Threads.Create
import OSLab.Threads.Kill
import OSLab.Threads.Yield
import OSLab.Threads.Progress
import OSLab.Threads.LockQueue
import OSLab.Threads.Inversion
import OSLab.Threads.Mutex
import OSLab.Threads.CondVar
import OSLab.Webserver.Cache
import OSLab.Webserver.Lru
import OSLab.Webserver.Capacity
import OSLab.Webserver.UseOrder
import OSLab.Webserver.Probes
import OSLab.Webserver.Lookup
import OSLab.Webserver.Request
import OSLab.Webserver.Response
import OSLab.Webserver.Rio
import OSLab.Webserver.LineBound
import OSLab.Webserver.Client
import OSLab.Webserver.Scan
import OSLab.Webserver.ClientPrint
import OSLab.Webserver.Fileset
import OSLab.Webserver.Headers
import OSLab.Webserver.Serve
import OSLab.Webserver.OneResponse
import OSLab.Webserver.Transparent
import OSLab.Webserver.Session
import OSLab.Webserver.Server
import OSLab.Webserver.Buffer
import OSLab.Webserver.Wakeups
