import MpegtsReader.Buffer
import MpegtsReader.AccessLog
import MpegtsReader.Packet
import MpegtsReader.Header
import MpegtsReader.Clock
import MpegtsReader.Parse
import MpegtsReader.ClockLayout
import MpegtsReader.Write
import MpegtsReader.ListIter
import MpegtsReader.Stream
import MpegtsReader.Framing
import MpegtsReader.Layout
import MpegtsReader.Rewrite
import MpegtsReader.Edits
import MpegtsReader.WriteFile
import MpegtsReader.Confined
import MpegtsReader.FieldLength
import MpegtsReader.UnitStart
import MpegtsReader.StaleMemory
import MpegtsReader.Bounds
import MpegtsReader.ResetLen
import MpegtsReader.Timestamp
import MpegtsReader.Printf
import MpegtsReader.Dump
import MpegtsReader.Playlist
import MpegtsReader.Lines
import MpegtsReader.PlaylistText
import MpegtsReader.LastWrite
import MpegtsReader.Blocks
import MpegtsReader.PacketFiles
import MpegtsReader.PassOrder
import MpegtsReader.PlaylistFiles
import MpegtsReader.StreamMemory
import MpegtsReader.StreamBlocks
import MpegtsReader.StreamLedger
import MpegtsReader.Continuity
import MpegtsReader.Transition
import MpegtsReader.Commuting
import MpegtsReader.Pool
import MpegtsReader.Fifo
import MpegtsReader.Delivery
import MpegtsReader.PoolWait
import MpegtsReader.PoolRest
import MpegtsReader.Player
import MpegtsReader.PlayerSteps
import MpegtsReader.PlayerSlots
import MpegtsReader.PlayerOutcomes
import MpegtsReader.PlayerStop
import MpegtsReader.PlayerHandles
import MpegtsReader.PlayerLocks
import MpegtsReader.PlayerPool
import MpegtsReader.PlayerServed
import MpegtsReader.PlayerRest
import MpegtsReader.Chain
import MpegtsReader.Links
import MpegtsReader.Dlist
import MpegtsReader.DlistRow
import MpegtsReader.DlistOps
import MpegtsReader.DlistView
import MpegtsReader.DlistTail
import MpegtsReader.PlaylistLinks
import MpegtsReader.Slist
import MpegtsReader.SlistChain
import MpegtsReader.Simulation
import MpegtsReader.SlistOps
import MpegtsReader.StableOrder
import MpegtsReader.PriorityQueues
import MpegtsReader.IterRemove
import MpegtsReader.EarlyExit
import MpegtsReader.BaseTree
import MpegtsReader.Outline
import MpegtsReader.TreeQueries
import MpegtsReader.OrderedBag
import MpegtsReader.HeightBalance
import MpegtsReader.AvlTree
import MpegtsReader.AvlMirror
import MpegtsReader.AvlOrder
import MpegtsReader.AvlInsert
import MpegtsReader.AvlDelete
import MpegtsReader.AvlBag
import MpegtsReader.AvlStored
import MpegtsReader.AvlHeight
import MpegtsReader.AvlGrowth
import MpegtsReader.AvlForecast
import MpegtsReader.AvlInsertKeeps
import MpegtsReader.AvlGoodInsert
import MpegtsReader.AvlShrink
import MpegtsReader.AvlGoodDelete
import MpegtsReader.AvlEnds
import MpegtsReader.AvlAbsent
import MpegtsReader.AvlSwap
import MpegtsReader.AvlUpdate
import MpegtsReader.AvlReads
import MpegtsReader.AvlLookup
import MpegtsReader.AvlReplace
import MpegtsReader.AvlContract
import MpegtsReader.AvlHeap
import MpegtsReader.AvlHeapHolds
import MpegtsReader.AvlHeapTurns
import MpegtsReader.AvlHeapInsert
import MpegtsReader.AvlHeapDelete
import MpegtsReader.AvlHeapEnds
import MpegtsReader.AvlHeapRuns
