import OSModules.Lib.CInt
import OSModules.Lib.Runs
import OSModules.Lib.Prog
import OSModules.Lib.CString
import OSModules.Lib.CArray
import OSModules.Lib.CHeap
import OSModules.Lib.FlatFile
import OSModules.Lib.FileLayout
import OSModules.Lib.Monitor
import OSModules.Lib.Regions
import OSModules.Lib.Contents
import OSModules.Lib.Stretches
import OSModules.Simplefs.Ops
import OSModules.Simplefs.View
import OSModules.Simplefs.Spec
import OSModules.Simplefs.Files
import OSModules.Simplefs.Step
import OSModules.Simplefs.Blocks
import OSModules.Simplefs.Names
import OSModules.Simplefs.Namespace
import OSModules.Simplefs.Abstract
import OSModules.Simplefs.Refine
import OSModules.Simplefs.Handles
import OSModules.Simplefs.RoundTrip
import OSModules.Simplefs.Closed
import OSModules.Simplefs.Space
import OSModules.Simplefs.Bounds
import OSModules.Simplefs.Ledger
import OSModules.Simplefs.Append
import OSModules.Simplefs.LongNames
import OSModules.Simplefs.Objects
import OSModules.Simplefs.Dump
import OSModules.Malloc.Page
import OSModules.Malloc.Calls
import OSModules.Malloc.Alloc
import OSModules.Malloc.Ealloc
import OSModules.Malloc.BestFit
import OSModules.Malloc.Growth
import OSModules.Malloc.Addresses
import OSModules.Malloc.Sizes
import OSModules.Malloc.Fragmentation
import OSModules.Malloc.Objects
import OSModules.RWLock.Basic
import OSModules.RWLock.ReaderPref
import OSModules.RWLock.WriterPref
import OSModules.RWLock.Exclusion
import OSModules.RWLock.Preference
import OSModules.RWLock.TwoLocks
import OSModules.RWLock.Tests
import OSModules.Zemaphore.Basic
import OSModules.Zemaphore.Turns
import OSModules.Zemaphore.Test
import OSModules.MasterWorker.Basic
import OSModules.MasterWorker.Masters
import OSModules.MasterWorker.Workers
import OSModules.MasterWorker.Moves
import OSModules.MasterWorker.Deadlock
import OSModules.MasterWorker.Stuck
import OSModules.MasterWorker.Bounds
import OSModules.KeyValue.Server
import OSModules.KeyValue.Client
import OSModules.KeyValue.Map
import OSModules.KeyValue.Store
import OSModules.KeyValue.Refine
import OSModules.KeyValue.Requests
import OSModules.KeyValue.Slots
import OSModules.KeyValue.Faults
import OSModules.KeyValue.Sessions
import OSModules.Ipc.SharedMemory
import OSModules.Ipc.Completion
import OSModules.Ipc.Datagram
import OSModules.Ipc.Pipes
import OSModules.Shell.Background
import OSModules.Shell.Parser
import OSModules.Shell.Tokens
import OSModules.Shell.Commands
import OSModules.Shell.Segments
import OSModules.Shell.Execution
import OSModules.Shell.Sessions
import OSModules.Shell.Grammar
