import Gbase.Lib.CString
import Gbase.Net.Wsconn
import Gbase.Util.Base64
import Gbase.Util.UtilStr

/-!
# Websocket connections: the handshake (`net/wsconn.c`)

The request is copied to a local array and cut into lines there.  What the array holds before is
a parameter, and so are the digests `sha1` and `md5`.  Storing or reading outside an array is
undefined, as is a string that is printed from a null pointer.

The functions of this module are the bottom of all results about handshakes, and follow the source
line by line: the loop over the lines, the searches for separators, the copies into arrays of fixed
size, and the answers.  Nothing is proved here; the modules behind it each look at one question.
-/

namespace Gbase.Net.Wsconn

open Gbase.Base.Buffer
open Gbase.Lib.Bytes
open Gbase.Lib.CString
open Gbase.Util.Base64
open Gbase.Util.UtilStr

/-- `WS_HANDSHAKE_MAX_SIZE` -/
def wsHandshakeMaxSize : Nat := 1024

/-- What the handshake takes from outside: the digests of some bytes, the length being in bits, and
what the local array of the parser holds before. -/
structure HandshakeEnv where
  sha1 : List UInt8 → Nat → List UInt8
  md5 : List UInt8 → Nat → List UInt8
  stack : List UInt8

def wsFlagUpgrade : Nat := 0x0001
def wsFlagConnection : Nat := 0x0002
def wsFlagHost : Nat := 0x0004
def wsFlagOrigin : Nat := 0x0008
def wsFlagSecOrigin : Nat := 0x0010
def wsFlagSecKey : Nat := 0x0020
def wsFlagSecVersion : Nat := 0x0040
def wsFlagSecKey1 : Nat := 0x0080
def wsFlagSecKey2 : Nat := 0x0100
def wsFlagSecProtocol : Nat := 0x0200

/-- `WS_FLASH` -/
def wsFlash : Nat := wsFlagUpgrade ||| wsFlagConnection ||| wsFlagHost ||| wsFlagOrigin

/-- `WS_SHA1` -/
def wsSha1 : Nat :=
  wsFlagUpgrade ||| wsFlagConnection ||| wsFlagHost ||| wsFlagSecOrigin ||| wsFlagSecKey |||
    wsFlagSecVersion

/-- `WS_SHA1_EX` -/
def wsSha1Ex : Nat :=
  wsFlagUpgrade ||| wsFlagConnection ||| wsFlagHost ||| wsFlagOrigin ||| wsFlagSecKey |||
    wsFlagSecVersion

/-- `WS_MD5` -/
def wsMd5 : Nat :=
  wsFlagHost ||| wsFlagConnection ||| wsFlagSecKey1 ||| wsFlagSecKey2 ||| wsFlagUpgrade |||
    wsFlagOrigin ||| wsFlagSecProtocol

/-- `request_t` -/
structure RequestT where
  flag : Nat
  version : Int
  key : List UInt8
  key1 : List UInt8
  key2 : List UInt8
  origin : List UInt8
  protocol : List UInt8
  host : List UInt8
  location : List UInt8

/-- `memset` of a request. -/
def emptyRequest : RequestT where
  flag := 0
  version := 0
  key := List.replicate 32 0
  key1 := List.replicate 32 0
  key2 := List.replicate 32 0
  origin := List.replicate 64 0
  protocol := List.replicate 64 0
  host := List.replicate 64 0
  location := List.replicate 64 0

/-- The blank. -/
def headDelim : UInt8 := 0x20

/-- The colon. -/
def fieldDelim : UInt8 := 0x3a

/-- The loop that copies the location: so many bytes are left in the field, the next one is `q`, and
the bytes before are copied. -/
def copyLocation (mem : List UInt8) : Nat → Nat → List UInt8 → Option (List UInt8)
  | 0, _, copied => some copied
  | left + 1, q, copied =>
      match mem[q]? with
      | none => none
      | some c =>
          if c = headDelim then some (copied ++ [c])
          else copyLocation mem left (q + 1) (copied ++ [c])

/-- The field of the location, where the last byte copied is overwritten. -/
def locationField (field copied : List UInt8) : List UInt8 :=
  copied.dropLast ++ 0 :: field.drop copied.length

/-- What the header of a name sets, by its value and by all the text behind the colon; -1 is the
jump to `PROTOCOL_FAIL`. -/
def setField (request : RequestT) (name value text : List UInt8) : Int × RequestT :=
  let known (field : String) : Bool := strcaseeq name (ascii field)
  if known "connection" then
    let request := { request with flag := request.flag ||| wsFlagConnection }
    (if strcaseeq value (ascii "upgrade") then 0 else -1, request)
  else if known "upgrade" then
    let request := { request with flag := request.flag ||| wsFlagUpgrade }
    (if strcaseeq value (ascii "websocket") then 0 else -1, request)
  else if known "host" then
    (0, { request with
      flag := request.flag ||| wsFlagHost
      host := snprintf request.host value })
  else if known "origin" then
    (0, { request with
      flag := request.flag ||| wsFlagOrigin
      origin := snprintf request.origin value })
  else if known "sec-websocket-origin" then
    (0, { request with
      flag := request.flag ||| wsFlagSecOrigin
      origin := snprintf request.origin value })
  else if known "sec-websocket-key" then
    (0, { request with
      flag := request.flag ||| wsFlagSecKey
      key := snprintf request.key value })
  else if known "sec-websocket-version" then
    -- the loop over the blanks stops behind the colon
    (0, { request with
      flag := request.flag ||| wsFlagSecVersion
      version := atoi text })
  else if known "sec-websocket-key1" then
    (0, { request with
      flag := request.flag ||| wsFlagSecKey1
      key1 := snprintf request.key1 value })
  else if known "sec-websocket-key2" then
    -- the flag of the first key
    (0, { request with
      flag := request.flag ||| wsFlagSecKey1
      key2 := snprintf request.key2 value })
  else if known "sec-websocket-protocol" then
    (0, { request with
      flag := request.flag ||| wsFlagSecProtocol
      protocol := snprintf request.protocol value })
  else (0, request)

/-- One header with a colon at `q`, where the value is behind it and the blanks. -/
def parseField (request : RequestT) (mem : List UInt8) (p q : Nat) : Option (Int × RequestT) := do
  let name ← cString mem p
  let text ← cString mem (q + 1)
  let start ← skip mem (q + 1) headDelim
  let value ← cString mem start
  return setField request name value text

/-- The loop over the lines behind the first one.  Every line is longer than nothing, so that the
array has fewer of them than bytes. -/
def parseFields : Nat → RequestT → List UInt8 → Nat → Option (Int × RequestT)
  | 0, _, _, _ => none
  | fuel + 1, request, mem, next => do
      let token ← strtok mem next [0x0d, 0x0a]
      match token with
      | none => return (0, request)
      | some (p, mem, next) =>
          let colon ← strstr mem p fieldDelim
          match colon with
          | some q =>
              let mem := mem.set q 0
              let (ret, request) ← parseField request mem p q
              if ret < 0 then return (-1, request) else parseFields fuel request mem next
          | none =>
              -- without a key, a null pointer would be printed into it
              if request.key.head? = some 0 then none
              else parseFields fuel request mem next

/-- `_wsconn_parse_request`, with the array of the function and the structure as they are before. -/
def wsconnParseRequest (request : RequestT) (stack data : List UInt8) :
    Option (Int × RequestT) := do
  let sz := data.length
  -- the first copy comes before the size is checked
  if stack.length < sz then none
  else if sz ≥ wsHandshakeMaxSize then return (-1, request)
  else
    let mem := data ++ stack.drop sz
    let token ← strtok mem 0 [0x0d, 0x0a]
    match token with
    | none => return (-1, emptyRequest)
    | some (p, mem, next) =>
        let blank ← strstr mem p headDelim
        match blank with
        | none => return (-1, emptyRequest)
        | some q =>
            let copied ← copyLocation mem emptyRequest.location.length (q + 1) []
            let request :=
              { emptyRequest with location := locationField emptyRequest.location copied }
            parseFields mem.length request mem next

variable {α : Type}

/-- The last lines of the three functions that answer a request: the answer is cut to the local
array and written to `wbuf`, if there is room for it. -/
def wsconnReply (con : WsconnT α) (text : List UInt8) : Option (Int × WsconnT α) :=
  let res := text.take (wsHandshakeMaxSize - 1)
  let nres := res.length
  if bufferWriteLen con.wbuf < nres then some (-1, con)
  else do
    let con ← con.write res nres
    return (0, reactorModify con (eventIn ||| eventOut))

/-- `_wsconn_proc_flash_req` -/
def wsconnProcFlashReq (con : WsconnT α) (request : RequestT) : Option (Int × WsconnT α) := do
  let origin ← cString request.origin 0
  let host ← cString request.host 0
  let location ← cString request.location 0
  wsconnReply con
    (ascii "HTTP/1.1 101 Web Socket Protocol Handshake\r\nUpgrade: WebSocket\r\n" ++
      ascii "Connection: Upgrade\r\nWebSocket-Origin: " ++ origin ++
      ascii "\r\nWebSocket-Location: ws://" ++ host ++ location ++ ascii "\r\n\r\n")

/-- `_wsconn_proc_sha1_req` -/
def wsconnProcSha1Req (env : HandshakeEnv) (con : WsconnT α) (request : RequestT) :
    Option (Int × WsconnT α) := do
  let requestKey ← cString request.key 0
  let key := (requestKey ++ ascii "258EAFA5-E914-47DA-95CA-C5AB0DC85B11").take 63
  let sha := (env.sha1 key (key.length * 8)).takeWhile (· ≠ 0)
  let (_, base64Code) := base64Encode sha sha.length
  -- without a code an array that was never written would be printed
  let code ← base64Code
  wsconnReply con
    (ascii "HTTP/1.1 101 Switching Protocols\r\nUpgrade: websocket\r\nConnection: Upgrade\r\n" ++
      ascii "Sec-WebSocket-Accept: " ++ code ++ ascii "\r\n\r\n")

/-- `_wsconn_proc_md5_req`; the length given to the digest is that of the keys in bytes. -/
def wsconnProcMd5Req (env : HandshakeEnv) (con : WsconnT α) (request : RequestT) :
    Option (Int × WsconnT α) := do
  let k1 ← utilStr2int request.key1
  let k2 ← utilStr2int request.key2
  let keys := beBytes 4 k1 ++ beBytes 4 k2 ++ request.key.take 8
  let encrypt := (env.md5 keys 16).takeWhile (· ≠ 0)
  let origin ← cString request.origin 0
  let host ← cString request.host 0
  let location ← cString request.location 0
  let protocol ← cString request.protocol 0
  wsconnReply con
    (ascii "HTTP/1.1 101 WebSocket Protocol HandshakeUpgrade: WebSocket\r\n" ++
      ascii "Connection: Upgrade\r\nSec-WebSocket-Origin: " ++ origin ++
      ascii "\r\nSec-WebSocket-Location: ws://" ++ host ++ location ++
      ascii "\r\nSec-WebSocket-Protocol: " ++ protocol ++ ascii "\r\n" ++ encrypt ++
      ascii "\r\n\r\n")

/-- The answer by the headers of the request. -/
def wsconnProcReq (env : HandshakeEnv) (con : WsconnT α) (request : RequestT) :
    Option (Int × WsconnT α) :=
  if request.flag &&& wsMd5 = wsMd5 then wsconnProcMd5Req env con request
  else if request.flag &&& wsSha1 = wsSha1 ∨ request.flag &&& wsSha1Ex = wsSha1Ex then
    wsconnProcSha1Req env con request
  else if request.flag &&& wsFlash = wsFlash then wsconnProcFlashReq con request
  else some (-1, con)

/-- The call of `on_build`, if there is one. -/
def WsconnT.build (con : WsconnT α) : WsconnT α :=
  match con.onBuild with
  | none => con
  | some onBuild => { con with arg := onBuild con.fd con.arg }

/-- `_wsconn_handshake` -/
def wsconnHandshake (env : HandshakeEnv) (con : WsconnT α) (data : List UInt8) :
    Option (Int × WsconnT α) := do
  -- what the structure holds before is never read
  let (ret, request) ← wsconnParseRequest emptyRequest env.stack data
  if ret < 0 then return (-1, con)
  else
    let (ret, con) ← wsconnProcReq env con request
    if ret = 0 then
      return ((data.length : Int), { con with status := .established }.build)
    else return (-1, con)

end Gbase.Net.Wsconn
