import Gbase.Net.WsHandshake
import Gbase.Net.WsText

/-!
# The digest of a key (`net/wsconn.c`)

`_wsconn_proc_sha1_req` takes the digest of a key for a string, and encodes its bytes up to the
first one of zero.

The bytes of a digest are as good as random, so a byte of zero among them is rare but not excluded.
What is sent then is the encoding of a shorter text, and not the one that the client expects.

## Main results

* `wsconnReply_spec`: an answer that there is room for is sent.
* `wsconnProcSha1Req_accept_iff`: the digests that are sent whole.
-/

namespace Gbase.Net.Wsconn

open Gbase.Base.Buffer
open Gbase.Lib.CString
open Gbase.Lib.Sextets
open Gbase.Util.Base64

/-- The text that the key is put before. -/
def keyGuid : List UInt8 := ascii "258EAFA5-E914-47DA-95CA-C5AB0DC85B11"

/-- What `sha1` writes for a key. -/
def keyDigest (env : HandshakeEnv) (key : List UInt8) : List UInt8 :=
  env.sha1 (key ++ keyGuid) ((key ++ keyGuid).length * 8)

/-- The answer with some accept value. -/
def sha1Reply (accept : List UInt8) : List UInt8 :=
  ascii "HTTP/1.1 101 Switching Protocols\r\nUpgrade: websocket\r\nConnection: Upgrade\r\n" ++
    ascii "Sec-WebSocket-Accept: " ++ accept ++ ascii "\r\n\r\n"

variable {α : Type}

/-- The answer is sent behind what waits, with the code of the whole digest, of 28 characters. -/
def AcceptRight (env : HandshakeEnv) (con : WsconnT α) (request : RequestT)
    (out digest : List UInt8) : Prop :=
  (encoding symbol pad digest).length = 28 ∧
    ∃ con', wsconnProcSha1Req env con request = some (0, con') ∧
      Holds con'.wbuf (out ++ sha1Reply (encoding symbol pad digest))

section

variable {env : HandshakeEnv} {con : WsconnT α} {request : RequestT} {out key text : List UInt8}

/-- An answer that there is room for is sent. -/
theorem wsconnReply_spec (h : Holds con.wbuf out) (hSize : text.length < wsHandshakeMaxSize)
    (hRoom : (text.length : Int) ≤ bufferWriteLen con.wbuf) :
    ∃ con', wsconnReply con text = some (0, con') ∧ Holds con'.wbuf (out ++ text) := by
  have hTake : text.take (wsHandshakeMaxSize - 1) = text := List.take_of_length_le (by omega)
  obtain ⟨wbuf, hWrite, hHolds, -⟩ := WsconnT.write_spec h hRoom le_rfl
  rw [List.take_length] at hHolds
  refine ⟨reactorModify { con with wbuf := wbuf } (eventIn ||| eventOut), ?_, hHolds⟩
  simp only [wsconnReply, hTake, if_neg (by omega : ¬ bufferWriteLen con.wbuf < text.length),
    hWrite]
  rfl

private theorem symbol_ne_pad (digit : Nat) : symbol digit ≠ pad := by
  have hTable : ∀ byte, byte ∈ base64Table → byte ≠ pad := by decide +kernel
  rw [symbol, List.getD_eq_getElem?_getD]
  cases hAt : base64Table[digit]? with
  | none => decide
  | some byte => exact hTable byte (List.mem_of_getElem? hAt)

/-- The call by the digest of its key. -/
theorem wsconnProcSha1Req_eq (hKey : cString request.key 0 = some key) (hShort : key.length ≤ 27) :
    wsconnProcSha1Req env con request =
      let sha := (keyDigest env key).takeWhile (· ≠ 0)
      if sha = [] then none
      else wsconnReply con (sha1Reply (encoding symbol pad sha)) := by
  have hGuid : keyGuid.length = 36 := by decide +kernel
  have hTake : (key ++ keyGuid).take 63 = key ++ keyGuid :=
    List.take_of_length_le (by rw [List.length_append]; omega)
  generalize hSha : (keyDigest env key).takeWhile (fun x => decide (x ≠ 0)) = sha
  have hZero : sha.takeWhile (· ≠ 0) = sha := by
    rw [← hSha]
    exact List.takeWhile_idem
  rw [keyGuid] at hTake
  rw [keyDigest, keyGuid] at hSha
  simp only [wsconnProcSha1Req, hKey, Option.bind_eq_bind, Option.bind_some, hTake, hSha]
  by_cases hNil : sha = []
  · rw [if_pos hNil, hNil]
    rfl
  · obtain ⟨text, hEncode, -, hText⟩ := base64EncodeDst_eq hNil
    rw [hZero] at hText
    simp only [hEncode, Option.bind_some, if_neg hNil, hText, sha1Reply]

private theorem length_sha1Reply (accept : List UInt8) :
    (sha1Reply accept).length = accept.length + 101 := by
  have hBefore : (ascii
      "HTTP/1.1 101 Switching Protocols\r\nUpgrade: websocket\r\nConnection: Upgrade\r\n" ++
        ascii "Sec-WebSocket-Accept: ").length = 97 := by
    decide +kernel
  have hBehind : (ascii "\r\n\r\n").length = 4 := by decide +kernel
  rw [sha1Reply, List.length_append, List.length_append, hBefore, hBehind]
  omega

/-- Without a byte of zero the whole digest is encoded. -/
theorem accept_of_digest (hKey : cString request.key 0 = some key) (hShort : key.length ≤ 27)
    (hDigest : (keyDigest env key).length = 20) (h : Holds con.wbuf out)
    (hRoom : 129 ≤ bufferWriteLen con.wbuf) (hZero : 0 ∉ keyDigest env key) :
    AcceptRight env con request out (keyDigest env key) := by
  have hAll : (keyDigest env key).takeWhile (· ≠ 0) = keyDigest env key := by
    rw [List.takeWhile_eq_self_iff]
    intro x hx
    exact decide_eq_true fun hEq => hZero (hEq ▸ hx)
  have hNe : keyDigest env key ≠ [] := by
    intro hNil
    rw [hNil] at hDigest
    cases hDigest
  have hLength := length_encoding symbol pad (keyDigest env key)
  have hReply := length_sha1Reply (encoding symbol pad (keyDigest env key))
  rw [hDigest] at hLength
  refine ⟨hLength, ?_⟩
  rw [wsconnProcSha1Req_eq hKey hShort, hAll]
  simp only [if_neg hNe]
  apply wsconnReply_spec h
  · rw [hReply, hLength]
    decide
  · rw [hReply, hLength]
    exact hRoom

/-- With one, something shorter is encoded, or nothing. -/
theorem digest_of_accept (hKey : cString request.key 0 = some key) (hShort : key.length ≤ 27)
    (hDigest : (keyDigest env key).length = 20) (h : Holds con.wbuf out)
    (hRoom : 129 ≤ bufferWriteLen con.wbuf)
    (hAccept : AcceptRight env con request out (keyDigest env key)) : 0 ∉ keyDigest env key := by
  intro hIn
  obtain ⟨-, con', hRun, hHolds⟩ := hAccept
  rw [wsconnProcSha1Req_eq hKey hShort] at hRun
  have hSplit := congrArg List.length (split_first hIn)
  simp only at hRun
  generalize (keyDigest env key).takeWhile (fun x => decide (x ≠ 0)) = sha at hRun hSplit
  rw [List.length_append, List.length_cons, hDigest] at hSplit
  split at hRun
  · cases hRun
  · have hLength := length_encoding symbol pad sha
    have hReply := length_sha1Reply (encoding symbol pad sha)
    obtain ⟨con'', hSent, hHolds'⟩ := @wsconnReply_spec _ con out
      (sha1Reply (encoding symbol pad sha)) h
      (by rw [hReply, hLength, wsHandshakeMaxSize]; omega) (by rw [hReply, hLength]; omega)
    obtain ⟨-, rfl⟩ := Prod.mk.inj (Option.some.inj (hRun.symm.trans hSent))
    have hSame : out ++ sha1Reply (encoding symbol pad (keyDigest env key)) =
        out ++ sha1Reply (encoding symbol pad sha) := by
      rw [← hHolds.content_eq, ← hHolds'.content_eq]
    have hCodes : encoding symbol pad (keyDigest env key) = encoding symbol pad sha := by
      have hTexts := List.append_cancel_left hSame
      rw [sha1Reply, sha1Reply] at hTexts
      exact List.append_cancel_left (List.append_cancel_right hTexts)
    have hCount := encoding_length symbol_ne_pad hCodes
    omega

end

/-- The accept value that is sent for a key covers all bytes of its digest if and only if none of
them is zero. -/
theorem wsconnProcSha1Req_accept_iff {env : HandshakeEnv} {con : WsconnT α} {request : RequestT}
    {out key : List UInt8} (hKey : cString request.key 0 = some key) (hShort : key.length ≤ 27)
    (hDigest : (keyDigest env key).length = 20) (h : Holds con.wbuf out)
    (hRoom : 129 ≤ bufferWriteLen con.wbuf) :
    AcceptRight env con request out (keyDigest env key) ↔ 0 ∉ keyDigest env key :=
  ⟨digest_of_accept hKey hShort hDigest h hRoom, accept_of_digest hKey hShort hDigest h hRoom⟩

/-- What is computed outside, where every digest is the same. -/
def digestEnv (digest : List UInt8) : HandshakeEnv where
  sha1 := fun _ _ => digest
  md5 := fun _ _ => List.replicate 16 0x61
  stack := List.replicate wsHandshakeMaxSize 0

theorem wsconnProcSha1Req_accept_ones :
    AcceptRight (digestEnv (List.replicate 20 1)) startedCon emptyRequest []
        (List.replicate 20 1) ↔ 0 ∉ List.replicate 20 (1 : UInt8) :=
  @wsconnProcSha1Req_accept_iff _ (digestEnv (List.replicate 20 1)) startedCon emptyRequest [] []
    (by decide) (by decide) rfl startedBuffer_empty (by decide)

/-- The last byte of the digest is zero. -/
theorem wsconnProcSha1Req_not_accept :
    ¬ AcceptRight (digestEnv (List.replicate 19 1 ++ [0])) startedCon emptyRequest []
      (List.replicate 19 1 ++ [0]) := by
  intro hAccept
  exact @digest_of_accept _ (digestEnv (List.replicate 19 1 ++ [0])) startedCon emptyRequest [] []
    (by decide) (by decide) rfl startedBuffer_empty (by decide) hAccept
      (by simp [keyDigest, digestEnv])

end Gbase.Net.Wsconn
