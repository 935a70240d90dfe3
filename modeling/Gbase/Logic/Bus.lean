import Gbase.Base.Idtable
import Gbase.Base.Rbuffer

/-!
# The message bus (`logic/bus.c`, `mm/shm.c`)

Terminals in different processes share one segment of memory, the head, with a table of the
terminals and one of the pipes between them.  Each pipe is a ring buffer in a segment of its own.
A terminal keeps copies of both tables, and its pipes in two id tables; it compares the versions of
the copies with those of the head when it polls.

A pipe is made when its first message is sent.  Both sides attach to a pipe that exists by
`rbuffer_attach`, which puts the positions of the ring back to the start.

The segment of the head is kept apart from the others.  Calls are under the lock of the bus and
atomic.  Allocations succeed, and a page has 4096 bytes.  A failed assertion is undefined.
-/

namespace Gbase.Logic.Bus

open Gbase.Base.Idtable
open Gbase.Base.Rbuffer
open Gbase.Core.OsDef
open Gbase.Lib.Run

/-- `BUS_MAX_PIPE_COUNT` -/
def busMaxPipeCount : Nat := 1024

/-- `BUS_MAX_TERMINAL_COUNT` -/
def busMaxTerminalCount : Nat := 64

/-- `BUS_PIPE_DEFAULT_SIZE` -/
def busPipeDefaultSize : Nat := 102400

/-- `BUS_ERR_PEER_NOT_FOUND` -/
def busErrPeerNotFound : Int := -100

/-- `BUS_ERR_SEND_FAIL` -/
def busErrSendFail : Int := -99

/-- `BUS_ERR_PIPE_FAIL` -/
def busErrPipeFail : Int := -94

/-- `BUS_ERR_EMPTY` -/
def busErrEmpty : Int := -93

/-- `BUS_ERR_FAIL` -/
def busErrFail : Int := -92

/-- `BUS_OK` -/
def busOk : Int := 0

/-- `head_t` -/
structure HeadT where
  key : Int
  size : Nat
  fromAddr : Int
  toAddr : Int

/-- `pipe_t`: the index of its entry in the head, and the key of the segment with its ring. -/
structure PipeT where
  head : Nat
  r : Int
deriving DecidableEq

/-- `bus_head` -/
structure BusHead where
  key : Int
  ckey : Int
  size : Nat
  tver : Nat
  tcount : Nat
  terms : Nat → Int
  pver : Nat
  pcount : Nat
  pipes : Nat → HeadT

/-- `bus_t` -/
structure BusT where
  self : Int
  tver : Nat
  pver : Nat
  tcount : Nat
  terms : Nat → Int
  opipes : IdtableT PipeT
  ipipes : IdtableT PipeT

/-! ## Shared memory -/

/-- A segment of shared memory, read as a ring buffer. -/
structure SegmentT where
  size : Nat
  ring : RbufferT

/-- The shared memory: the head, and the segments with other keys. -/
structure Shm where
  headKey : Int
  head : Option BusHead
  segments : Int → Option SegmentT

/-- `getpagesize()` -/
def pageSize : Int := 4096

/-- `sizeof(bus_head)` -/
def busHeadSize : Nat := 24864

/-- There is a segment with this key. -/
def Shm.has (shm : Shm) (key : Int) : Bool :=
  (key == shm.headKey && shm.head.isSome) || (shm.segments key).isSome

/-- The segment with a key is changed. -/
def Shm.set (shm : Shm) (key : Int) (segment : SegmentT) : Shm :=
  { shm with segments := Function.update shm.segments key (some segment) }

/-- The size of the segment with a key. -/
def Shm.sizeOf (shm : Shm) (key : Int) : Nat :=
  match shm.segments key with
  | some segment => segment.size
  | none => roundup2 busHeadSize pageSize

/-- New memory holds zeros. -/
def zeros : RbufferT := { size := 0, readPos := 0, writePos := 0, buffer := fun _ => 0 }

/-- `shm_create` -/
def shmCreate (shm : Shm) (shmkey : Int) (size : Nat) (excl : Int) : Option Shm :=
  let size := roundup2 size pageSize
  if shm.has shmkey then
    if excl ≠ 0 then
      -- the segment is taken if it has this size
      if toInt (shm.sizeOf shmkey) ≠ size then none else some shm
    else none
  else some (shm.set shmkey { size := size, ring := zeros })

/-- `_bus_pipe_create` for the entry at an index of the head. -/
def busPipeCreate (shm : Shm) (i : Nat) (head : HeadT) (create : Int) :
    Option (Option PipeT × Shm) :=
  match shmCreate shm head.key (head.size + rbufferHeadSize) create with
  | none => some (none, shm)
  | some shm => do
      let segment ← shm.segments head.key
      match rbufferAttach (some segment.ring.buffer) (head.size + rbufferHeadSize) with
      | none => return (none, shm)
      | some r => return (some ⟨i, head.key⟩, shm.set head.key { segment with ring := r })

/-! ## The calls -/

/-- `_bus_head_init` -/
def busHeadInit (key creator : Int) (memory : BusHead) : BusHead :=
  { memory with
    key := key
    ckey := 0
    size := busHeadSize
    tver := 1
    tcount := 1
    terms := Function.update memory.terms 0 creator
    pver := 1
    pcount := 0 }

/-- The head in new memory. -/
def zeroHead : BusHead where
  key := 0
  ckey := 0
  size := 0
  tver := 0
  tcount := 0
  terms := fun _ => 0
  pver := 0
  pcount := 0
  pipes := fun _ => { key := 0, size := 0, fromAddr := 0, toAddr := 0 }

/-- `_bus_head_create` -/
def busHeadCreate (shm : Shm) (self : Int) : Int × Shm :=
  if shm.has shm.headKey then (-1, shm)
  else (0, { shm with head := some (busHeadInit shm.headKey self zeroHead) })

/-- `_bus_update_terminals` -/
def busUpdateTerminals (head : BusHead) (bt : BusT) : BusT :=
  { bt with
    tver := head.tver
    tcount := head.tcount
    terms := fun i => if i < head.tcount then head.terms i else bt.terms i }

/-- A turn of the loop of `_bus_update_pipes`, with its assertions. -/
def busUpdatePipe (head : BusHead) (s : BusT × Shm) (i : Nat) : Option (BusT × Shm) := do
  let (bt, shm) := s
  let phead := head.pipes i
  let opipe ← idtableGet bt.opipes phead.toAddr
  let ipipe ← idtableGet bt.ipipes phead.fromAddr
  if phead.fromAddr = bt.self ∧ opipe.isNone then
    let (bp, shm) ← busPipeCreate shm i phead 1
    if bp.isNone then none
    else
      let (ret, opipes) ← idtableAdd bt.opipes phead.toAddr bp
      if ret = 0 then return ({ bt with opipes := opipes }, shm) else none
  else if phead.toAddr = bt.self ∧ ipipe.isNone then
    let (bp, shm) ← busPipeCreate shm i phead 1
    if bp.isNone then none
    else
      let (ret, ipipes) ← idtableAdd bt.ipipes phead.fromAddr bp
      if ret = 0 then return ({ bt with ipipes := ipipes }, shm) else none
  else return (bt, shm)

/-- `_bus_update_pipes` -/
def busUpdatePipes (head : BusHead) (bt : BusT) (shm : Shm) : Option (BusT × Shm) :=
  (List.range head.pcount).foldlM (busUpdatePipe head) ({ bt with pver := head.pver }, shm)

/-- There is a terminal with this address. -/
def BusHead.registered (head : BusHead) (addr : Int) : Bool :=
  (List.range head.tcount).any fun i => head.terms i == addr

/-- `_bus_create_attach`, with its assertion. -/
def busCreateAttach (shm : Shm) (self : Int) : Option (Int × Shm) := do
  let head ← shm.head
  if head.key ≠ shm.headKey ∨ head.size ≠ busHeadSize then return (-1, shm)
  else if head.registered self then return (0, shm)
  else if head.tcount ≥ busMaxTerminalCount then return (-1, shm)
  else
    let head := { head with
      terms := Function.update head.terms head.tcount self
      tcount := head.tcount + 1
      tver := toUint32 (head.tver + 1) }
    return (0, { shm with head := some head })

/-- `bus_create`: a terminal, or `NULL`. -/
def busCreate (shm : Shm) (addr : Int) : Option (Option BusT × Shm) := do
  let opipes ← idtableCreate busMaxTerminalCount
  let ipipes ← idtableCreate busMaxTerminalCount
  let bt : BusT :=
    { self := addr, tver := 0, pver := 0, tcount := 0, terms := fun _ => 0, opipes := opipes,
      ipipes := ipipes }
  let (ret, shm) ← (match busHeadCreate shm addr with
    | (0, shm) => some (0, shm)
    | (_, shm) => busCreateAttach shm addr)
  if ret = 0 then
    let head ← shm.head
    let (bt, shm) ← busUpdatePipes head (busUpdateTerminals head bt) shm
    return (some bt, shm)
  else return (none, shm)

/-- `bus_poll` -/
def busPoll (bt : BusT) (shm : Shm) : Option (BusT × Shm) := do
  let head ← shm.head
  let bt := if head.tver ≠ bt.tver then busUpdateTerminals head bt else bt
  if head.pver ≠ bt.pver then busUpdatePipes head bt shm else return (bt, shm)

/-- `_bus_register_pipe`, with its assertion: the pipe, or `NULL`. -/
def busRegisterPipe (bt : BusT) (shm : Shm) (dest : Int) (sz : Nat) :
    Option (Option PipeT × BusT × Shm) := do
  -- make sure same version
  let (bt, shm) ← busPoll bt shm
  let head ← shm.head
  if bt.pver ≠ head.pver then return (none, bt, shm)
  else if head.pcount ≥ busMaxPipeCount then return (none, bt, shm)
  else if ¬ head.registered dest ∨ dest = bt.self then return (none, bt, shm)
  else
    let ckey := (head.ckey + 1).bmod (2 ^ 16)
    let bph : HeadT :=
      { key := toInt (head.key + ckey), size := sz, fromAddr := bt.self, toAddr := dest }
    let head := { head with
      ckey := ckey
      pipes := Function.update head.pipes head.pcount bph }
    let (bp, shm) ← busPipeCreate { shm with head := some head } head.pcount bph 0
    if bp.isNone then return (none, bt, shm)
    else
      let (ret, opipes) ← idtableAdd bt.opipes bph.toAddr bp
      if ret = 0 then
        let head := { head with
          pcount := head.pcount + 1
          pver := toUint32 (head.pver + 1) }
        let bt := { bt with opipes := opipes, pver := head.pver }
        return (bp, bt, { shm with head := some head })
      else none

/-- `rbuffer_write` to the ring of a pipe. -/
def busPipeWrite (bp : PipeT) (shm : Shm) (buf : Option (List UInt8)) : Option (Int × Shm) := do
  let segment ← shm.segments bp.r
  let (ret, r) ← rbufferWrite segment.ring buf
  return (ret, shm.set bp.r { segment with ring := r })

/-- `bus_send` -/
def busSend (bt : BusT) (shm : Shm) (buf : Option (List UInt8)) (dest : Int) :
    Option (Int × BusT × Shm) := do
  let opipe ← idtableGet bt.opipes dest
  let (bp, bt, shm) ← (match opipe with
    | some bp => some (some bp, bt, shm)
    | none => busRegisterPipe bt shm dest busPipeDefaultSize)
  match bp with
  | none => return (busErrPipeFail, bt, shm)
  | some bp =>
      let (ret, shm) ← busPipeWrite bp shm buf
      return (if ret = 0 then busOk else busErrSendFail, bt, shm)

/-- `rbuffer_read` from the ring of a pipe. -/
def busPipeRead (bp : PipeT) (shm : Shm) (bufSize : Option Nat) :
    Option (Option (List UInt8) × Shm) := do
  let segment ← shm.segments bp.r
  let (bytes, r) ← rbufferRead segment.ring bufSize
  return (bytes, shm.set bp.r { segment with ring := r })

/-- `bus_recv`.  The bytes are those copied to the caller's buffer, if any were. -/
def busRecv (bt : BusT) (shm : Shm) (bufSize : Option Nat) (source : Int) :
    Option (Int × Option (List UInt8) × Shm) := do
  let ipipe ← idtableGet bt.ipipes source
  match ipipe with
  | none => return (busErrPeerNotFound, none, shm)
  | some bp =>
      let (bytes, shm) ← busPipeRead bp shm bufSize
      return (if bytes.isSome then busErrEmpty else busOk, bytes, shm)

/-- What `bus_recv_all` has given to its caller: the bytes, and the address they are from. -/
abbrev Received := Option (List UInt8 × Int)

/-- `_bus_recv_loop` -/
def busRecvLoop (bufSize : Nat) (data : Option PipeT) (s : Received × Shm) :
    Option (Int × Received × Shm) :=
  match data with
  | none => some (0, s)
  | some bp => do
      let (bytes, shm) ← busPipeRead bp s.2 (some bufSize)
      match bytes with
      | none => return (0, s.1, shm)
      | some bytes =>
          let head ← shm.head
          return (1, some (bytes, (head.pipes bp.head).fromAddr), shm)

/-- `bus_recv_all`, if the terminal is not `NULL`, with the number that its `index` has come to. -/
def busRecvAll (bt : BusT) (shm : Shm) (bufSize : Option Nat) (index : Int) :
    Option (Int × Received × Shm) :=
  match bufSize with
  | none => some (busErrFail, none, shm)
  | some bufSize => do
      let (ret, received, shm) ← idtableLoop bt.ipipes (busRecvLoop bufSize) index (none, shm)
      return (if ret = 0 then busErrEmpty else busOk, received, shm)

/-! ## Runs -/

/-- The bus: the shared memory, the terminal that each address has, and for each two addresses the
messages that `bus_send` has accepted from the first to the second and those that the second has
received from the first. -/
structure System where
  shm : Shm
  terminals : Int → Option BusT
  accepted : Int → Int → List (List UInt8)
  received : Int → Int → List (List UInt8)

/-- A call by the terminal with an address.  A terminal that was there before is left by
`create`. -/
inductive BusOp where
  | create (addr : Int)
  | poll (addr : Int)
  | send (addr : Int) (buf : Option (List UInt8)) (dest : Int)
  | recv (addr : Int) (bufSize : Option Nat) (source : Int)
  | recvAll (addr : Int) (bufSize : Option Nat) (index : Int)

/-- What a call gives back. -/
inductive BusResult where
  | terminal (created : Bool)
  | done
  | status (code : Int)
  | received (code : Int) (received : Received)
deriving DecidableEq

/-- The terminal with an address is changed. -/
def System.setTerminal (s : System) (addr : Int) (bt : BusT) : System :=
  { s with terminals := Function.update s.terminals addr (some bt) }

/-- A message is added to those between two addresses. -/
def record (messages : Int → Int → List (List UInt8)) (source dest : Int) (message : List UInt8) :
    Int → Int → List (List UInt8) :=
  Function.update messages source
    (Function.update (messages source) dest (messages source dest ++ [message]))

/-- A call comes back with what it has received. -/
def System.receive (s : System) (addr : Int) (shm : Shm) (received : Received) : System :=
  { s with
    shm := shm
    received := match received with
      | none => s.received
      | some (bytes, source) => record s.received source addr bytes }

def busStep : Step System BusOp BusResult
  | s, .create addr => do
      let (bt, shm) ← busCreate s.shm addr
      return (.terminal bt.isSome, { s with
        shm := shm
        terminals := Function.update s.terminals addr bt })
  | s, .poll addr =>
      match s.terminals addr with
      | none => some (.done, s)
      | some bt => do
          let (bt, shm) ← busPoll bt s.shm
          return (.done, { s.setTerminal addr bt with shm := shm })
  | s, .send addr buf dest =>
      match s.terminals addr with
      | none => some (.status busErrFail, s)
      | some bt => do
          let (code, bt, shm) ← busSend bt s.shm buf dest
          return (.status code, { s.setTerminal addr bt with
            shm := shm
            accepted := match buf with
              | some message => if code = busOk then record s.accepted addr dest message
                  else s.accepted
              | none => s.accepted })
  | s, .recv addr bufSize source =>
      match s.terminals addr with
      | none => some (.received busErrFail none, s)
      | some bt => do
          let (code, bytes, shm) ← busRecv bt s.shm bufSize source
          let received := bytes.map fun bytes => (bytes, source)
          return (.received code received, s.receive addr shm received)
  | s, .recvAll addr bufSize index =>
      match s.terminals addr with
      | none => some (.received busErrFail none, s)
      | some bt => do
          let (code, received, shm) ← busRecvAll bt s.shm bufSize index
          return (.received code received, s.receive addr shm received)

/-- Before the first terminal is created, with the segments that there are of other programs. -/
def busStart (key : Int) (foreign : Int → Option SegmentT) : System where
  shm :=
    { headKey := toInt (key * 2 ^ 16)
      head := none
      segments := Function.update foreign (toInt (key * 2 ^ 16)) none }
  terminals := fun _ => none
  accepted := fun _ _ => []
  received := fun _ _ => []

/-- Addresses are not negative, and the number of a call of `bus_recv_all` is an `int`. -/
def Legal : BusOp → Prop
  | .create addr => 0 ≤ addr
  | .recvAll _ _ index => -2 ^ 31 ≤ index ∧ index < 2 ^ 31
  | _ => True

end Gbase.Logic.Bus
