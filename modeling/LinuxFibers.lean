import LinuxFibers.Lib.Run
import LinuxFibers.CalQueue.Basic
import LinuxFibers.CalQueue.Buckets
import LinuxFibers.CalQueue.Contents
import LinuxFibers.CalQueue.Client
import LinuxFibers.CalQueue.Order
import LinuxFibers.Lib.HashTable
import LinuxFibers.Module.Ioctl
import LinuxFibers.Module.Records
import LinuxFibers.Module.Requests
import LinuxFibers.Module.System
import LinuxFibers.Module.Ownership
import LinuxFibers.Module.Lookup
import LinuxFibers.Module.Context
import LinuxFibers.Module.Lifetime
import LinuxFibers.Module.Fls
import LinuxFibers.Module.ConvertRace
import LinuxFibers.Ult.Basic
import LinuxFibers.Ult.StackExclusion
import LinuxFibers.Module.Failure
import LinuxFibers.Module.Orphans
import LinuxFibers.Module.FlsAlloc
import LinuxFibers.Module.Directory
import LinuxFibers.Module.DirectoryRace
import LinuxFibers.Module.ExitRace
import LinuxFibers.Module.Handles
import LinuxFibers.Single.Ioctl
import LinuxFibers.Single.Refinement
import LinuxFibers.Lib.Intervals
import LinuxFibers.Module.SwitchHandler
import LinuxFibers.Module.Accounting
import LinuxFibers.Module.TotalTime
import LinuxFibers.Ult.Alarm
import LinuxFibers.Ult.ContextIntegrity
import LinuxFibers.Gsm.Channel
import LinuxFibers.Gsm.Model
import LinuxFibers.Gsm.Allocator
import LinuxFibers.Gsm.Bookkeeping
import LinuxFibers.Module.FlsIndex
import LinuxFibers.Lib.SystemCall
import LinuxFibers.Module.FlsFree
import LinuxFibers.Single.Records
import LinuxFibers.Single.Requests
import LinuxFibers.Single.Library
import LinuxFibers.Single.FlsAlloc
import LinuxFibers.Single.Context
import LinuxFibers.Module.Statistics
import LinuxFibers.Lib.Decimal
import LinuxFibers.Module.Names
import LinuxFibers.Module.Targeting
import LinuxFibers.CalQueue.Ties
import LinuxFibers.CalQueue.Sorted
import LinuxFibers.CalQueue.Window
import LinuxFibers.CalQueue.Stray
import LinuxFibers.CalQueue.VirtualBucket
import LinuxFibers.CalQueue.Width
import LinuxFibers.Lib.MultiplyWithCarry
import LinuxFibers.Numerical.Random
import LinuxFibers.Threads.Create
import LinuxFibers.Lib.Unwind
import LinuxFibers.Module.Hooks
import LinuxFibers.Lib.ByteMemory
import LinuxFibers.Lib.X86
import LinuxFibers.Ult.Jmp
import LinuxFibers.Ult.SaveBranch
import LinuxFibers.Lib.Tickets
import LinuxFibers.Threads.Identifiers
import LinuxFibers.Lib.Product
import LinuxFibers.Module.Isolation
import LinuxFibers.Lib.CriticalSection
import LinuxFibers.Module.SwitchRace
import LinuxFibers.Gsm.Benchmark
import LinuxFibers.Gsm.Calendar
import LinuxFibers.Lib.Insertion
import LinuxFibers.Module.InsertBack
import LinuxFibers.Module.Loading
import LinuxFibers.Module.Redirect
import LinuxFibers.Module.Tree
import LinuxFibers.Ult.Storage
