import ProcLock.Bits
import ProcLock.Queue
import ProcLock.Machine
import ProcLock.Invariant
import ProcLock.Frame
import ProcLock.FastPath
import ProcLock.Acquire
import ProcLock.TryAquire
import ProcLock.Transfer
import ProcLock.Step
import ProcLock.Exclusion
import ProcLock.Wakeup
import ProcLock.Order
import ProcLock.Fifo
import ProcLock.LockLoop
import ProcLock.Safelock
import ProcLock.Pid2Proc
import ProcLock.Threads
import ProcLock.Deadlock
import ProcLock.Solo
import ProcLock.CheckQueue
import ProcLock.Ownership
import ProcLock.Release
import ProcLock.Spin
