import MemoryPools.Page.ReleaseSound
import MemoryPools.Capacity
import MemoryPools.ArenaCount
import MemoryPools.ArenaStats
import MemoryPools.Handles
import MemoryPools.Book
import MemoryPools.Interleave.Call
import MemoryPools.BookCount
import MemoryPools.Shows
import MemoryPools.Kind
import MemoryPools.Pool
import MemoryPools.Interleave.Sweep
import MemoryPools.PoolBook
import MemoryPools.Alone
import MemoryPools.ArenaBook
import MemoryPools.SharedArenaStats
import MemoryPools.SharedArenaBook
import MemoryPools.Interleave.Trace
import MemoryPools.Session
import MemoryPools.SessionSound
import MemoryPools.ValueStore
import MemoryPools.Pages
import MemoryPools.Accounts
import MemoryPools.Shrinking
import MemoryPools.Placing
import MemoryPools.Block
import MemoryPools.Initializer
import MemoryPools.Destructor
import MemoryPools.Reentrant
import MemoryPools.SharedArenaDelay
import MemoryPools.SharedArenaCount
import MemoryPools.SharedArenaTally
import MemoryPools.Counting
import MemoryPools.Page.Dues
import MemoryPools.ArenaLifetime
import MemoryPools.ArenaStatsSound
import MemoryPools.SharedArenaPointers
import MemoryPools.Interleave.Lending
import MemoryPools.Values
import MemoryPools.ValuesSound
import MemoryPools.ValuesDropped
import MemoryPools.SharedArenaValues
import MemoryPools.ArenaValues
import MemoryPools.Interleave.Progress
import MemoryPools.Progress
import MemoryPools.ArenaProgress
import MemoryPools.SharedArenaTaken
import MemoryPools.SharedArenaLifetime
import MemoryPools.SharedArenaAlone
import MemoryPools.SharedArenaLock
import MemoryPools.SharedArenaLockout
import MemoryPools.SharedArenaReclaim
