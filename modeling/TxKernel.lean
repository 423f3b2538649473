import TxKernel.Vm.BPlus.Gap
import TxKernel.Vm.KeyWrap
import TxKernel.Vm.CowIsolation
import TxKernel.Vm.Coalescing
import TxKernel.Vm.RangeLock.Preference
import TxKernel.Ext4.Journal.Revocation
import TxKernel.Ext4.Journal.LifecycleOrder
import TxKernel.Ext4.Journal.RecordReuse
import TxKernel.Block.Order
import TxKernel.Block.Routes
import TxKernel.Pipe.Transfer
import TxKernel.Pipe.EndOfFile
import TxKernel.Pipe.Readiness
import TxKernel.Futex.Waiters
import TxKernel.PageBacked.Fsync
import TxKernel.PageBacked.SlotHistory
import TxKernel.Ext4.ReadPlanner
import TxKernel.Ext4.Directory.Uniqueness
import TxKernel.SysvSem.Undo
import TxKernel.Time.Refinement
import TxKernel.PageAllocator.FrameOwnership
import TxKernel.Signal.Delivery
import TxKernel.Fat.Table
import TxKernel.Cred.SetIds
import TxKernel.Net.Netfilter
import TxKernel.Ipc.Keys
