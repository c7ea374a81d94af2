import Pacon.Lib.Transition
import Pacon.Lib.CString
import Pacon.Barrier.Payload
import Pacon.Barrier.Waiting
import Pacon.Barrier.RpcThread
import Pacon.Barrier.Work
import Pacon.Barrier.StoredRuns
import Pacon.Value
import Pacon.Message.Parse
import Pacon.Layout
import Pacon.InlineRetry
import Pacon.RecordLoops
import Pacon.Commit.Eventually
import Pacon.Commit.Linear
import Pacon.Commit.Prefix
import Pacon.Opendir.Frozen
import Pacon.Commit.Recreate
import Pacon.Commit.Exclusive
import Pacon.Commit.WriteBack
import Pacon.Evict.Creation
import Pacon.FileAccess
import Pacon.BinaryData
import Pacon.CasResults
import Pacon.Permission.Wire
import Pacon.Calls.Removed
import Pacon.Region.Runs
import Pacon.Parents.Soundness
import Pacon.Removing.Filter
import Pacon.Removing.Entries
import Pacon.AsyncRmdir.Record
import Pacon.Evict.Lock
import Pacon.Calls.Filling
import Pacon.Modes
import Pacon.Region.Reading
import Pacon.Subtree.Removal
import Pacon.Subtree.Flush
import Pacon.Subtree.Represents
import Pacon.Splice
import Pacon.InlineRead
import Pacon.Places
import Pacon.Evict.Rotation
import Pacon.Barrier.Addressing
import Pacon.Server.RenameSplit
import Pacon.Fsync.Log
import Pacon.Message.Scanning
import Pacon.LateWriteBack
import Pacon.PathOrder
import Pacon.Permission.ParentPath
import Pacon.RootPath
import Pacon.ClusterConfig
import Pacon.Keys
import Pacon.Server.Descriptors
import Pacon.Cuckoo.Checks
