import Gbase.Lib.Run
import Gbase.Lib.Lockstep
import Gbase.Lib.Comparator
import Gbase.Lib.Dictionary
import Gbase.Base.Hash
import Gbase.Base.HashCount
import Gbase.Lib.ImplicitHeap
import Gbase.Base.Heap
import Gbase.Base.HeapSpec
import Gbase.Base.HeapOps
import Gbase.Base.HeapRuns
import Gbase.Base.HeapHistory
import Gbase.Base.HeapSort
import Gbase.Util.UtilTime
import Gbase.Base.Timer
import Gbase.Base.TimerLinked
import Gbase.Base.TimerRuns
import Gbase.Base.TimerIds
import Gbase.Lib.Store
import Gbase.Lib.RedBlack
import Gbase.Base.Rbtree
import Gbase.Base.RbtreeRepr
import Gbase.Base.RbtreeInsert
import Gbase.Base.RbtreeDelete
import Gbase.Base.RbtreeRuns
import Gbase.Core.OsDef
import Gbase.Lib.Register
import Gbase.Core.Atom
import Gbase.Lib.BuddyTree
import Gbase.Mm.Buddy
import Gbase.Mm.BuddyRepr
import Gbase.Mm.BuddyOps
import Gbase.Mm.BuddyRuns
import Gbase.Mm.BuddyCanon
import Gbase.Mm.BuddyLarge
import Gbase.Mm.BuddyMemory
import Gbase.Lib.BlockList
import Gbase.Mm.Slab
import Gbase.Mm.SlabRepr
import Gbase.Mm.SlabOps
import Gbase.Mm.SlabRuns
import Gbase.Mm.SlabLists
import Gbase.Lib.Probing
import Gbase.Base.Idtable
import Gbase.Lib.Bytes
import Gbase.Lib.Ring
import Gbase.Base.Rbuffer
import Gbase.Base.RbufferSizes
import Gbase.Base.Rqueue
import Gbase.Core.Fsm
import Gbase.Core.FsmStatus
import Gbase.Lib.Circular
import Gbase.Logic.Task
import Gbase.Logic.TaskResume
import Gbase.Logic.TaskErase
import Gbase.Logic.Dirty
import Gbase.Logic.DirtyCheck
import Gbase.Logic.DirtyFind
import Gbase.Logic.DirtyReplace
import Gbase.Logic.DirtyScan
import Gbase.Logic.DirtyTwice
import Gbase.Base.Buffer
import Gbase.Base.BufferRuns
import Gbase.Base.BufferAlike
import Gbase.Net.Wsconn
import Gbase.Net.WsFrame
import Gbase.Net.WsText
import Gbase.Lib.CString
import Gbase.Lib.Sextets
import Gbase.Util.Base64
import Gbase.Util.Base64Decode
import Gbase.Util.UtilStr
import Gbase.Lib.Prefixes
import Gbase.Util.Cmd
import Gbase.Util.CmdRuns
import Gbase.Net.WsHandshake
import Gbase.Net.WsRead
import Gbase.Net.WsSession
import Gbase.Net.WsStream
import Gbase.Lib.Linked
import Gbase.Lib.Lanes
import Gbase.Base.Skiplist
import Gbase.Base.SkiplistRepr
import Gbase.Base.SkiplistOps
import Gbase.Base.SkiplistRank
import Gbase.Base.SkiplistRuns
import Gbase.Lib.Segment
import Gbase.Base.Slist
import Gbase.Base.SlistRuns
import Gbase.Net.Reactor
import Gbase.Net.ReactorSelect
import Gbase.Net.Connector
import Gbase.Core.Coroutine
import Gbase.Core.CoroutineTable
import Gbase.Net.WsParse
import Gbase.Net.WsVariant
import Gbase.Net.WsStores
import Gbase.Net.WsAccept
import Gbase.Net.WsSend
import Gbase.Net.WsTwin
import Gbase.Net.WsRestart
import Gbase.Net.WsFresh
import Gbase.Lib.RelyGuarantee
import Gbase.Base.RbufferThreads
import Gbase.Base.RbufferWriter
import Gbase.Base.RbufferRace
import Gbase.Logic.Bus
import Gbase.Logic.BusRepr
import Gbase.Logic.BusCalls
import Gbase.Logic.BusMessages
import Gbase.Logic.BusRuns
import Gbase.Logic.BusDelivery
import Gbase.Net.Serialize
import Gbase.Net.SerializeRuns
import Gbase.Net.SerializeEndian
import Gbase.Lib.HashRing
import Gbase.Base.Conhash
import Gbase.Base.ConhashRuns
import Gbase.Base.Kv
import Gbase.Util.UriEscape
import Gbase.Lib.Entities
import Gbase.Util.HtmlEscape
import Gbase.Net.WsKeys
import Gbase.Logic.TaskSteps
import Gbase.Mm.SlabSizes
import Gbase.Lib.Utf8
import Gbase.Util.Encode
import Gbase.Lib.Crc
import Gbase.Util.Crc
import Gbase.Util.Random
import Gbase.Base.ConhashErase
import Gbase.Util.Log
import Gbase.Net.Acceptor
import Gbase.Net.Curlc
import Gbase.Lib.Json
import Gbase.Util.Cjson
import Gbase.Util.CjsonString
import Gbase.Util.CjsonNumber
import Gbase.Util.CjsonParse
import Gbase.Util.CjsonPrint
import Gbase.Util.CjsonRoundTrip
import Gbase.Util.CjsonMinify
import Gbase.Util.CjsonSafe
import Gbase.Lib.Digest
import Gbase.Util.Sha1
import Gbase.Util.Md5
import Gbase.Lib.XorShift
import Gbase.Util.Twister
import Gbase.Lib.Answers
import Gbase.Base.Bitset
import Gbase.Base.Array
import Gbase.Core.Spin
import Gbase.Net.SelectDispatch
import Gbase.Logic.BusSendAll
import Gbase.Base.ListHead
import Gbase.Base.ListHeadRuns
