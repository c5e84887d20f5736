import Chunkfs.Theorems.Address
import Chunkfs.Theorems.Append
import Chunkfs.Theorems.Attributes
import Chunkfs.Theorems.Cached
import Chunkfs.Theorems.Cross
import Chunkfs.Theorems.ClientCounts
import Chunkfs.Theorems.Counts
import Chunkfs.Theorems.Directories
import Chunkfs.Theorems.References
import Chunkfs.Theorems.Damage
import Chunkfs.Theorems.FailedLookup
import Chunkfs.Theorems.FailedMaking
import Chunkfs.Theorems.Crash
import Chunkfs.Theorems.Durable
import Chunkfs.Theorems.Ends
import Chunkfs.Theorems.FailedGrowth
import Chunkfs.Theorems.InOrder
import Chunkfs.Theorems.KernelMutex
import Chunkfs.Theorems.HostOrder
import Chunkfs.Theorems.Lookup
import Chunkfs.Theorems.Mirrors
import Chunkfs.Theorems.MountRefs
import Chunkfs.Theorems.Positional
import Chunkfs.Theorems.OneInode
import Chunkfs.Theorems.Polarity
import Chunkfs.Theorems.Private
import Chunkfs.Theorems.Reuse
import Chunkfs.Theorems.System
import Chunkfs.Theorems.Writers
import Chunkfs.Theorems.Access
import Chunkfs.Theorems.Isolation
import Chunkfs.Theorems.Store
import Chunkfs.Theorems.Records
import Chunkfs.Theorems.Links
import Chunkfs.Theorems.Capacity
import Chunkfs.Theorems.Setup
import Chunkfs.Theorems.Overlap
import Chunkfs.Theorems.Together
import Chunkfs.Theorems.Remount
import Chunkfs.Theorems.Cycles
