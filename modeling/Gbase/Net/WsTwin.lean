import Gbase.Base.BufferAlike
import Gbase.Net.WsRead

/-!
# Websocket connections that look the same (`net/wsconn.c`)

Two connections that differ only in the bytes of their buffers that nobody reads.  What they
receive and what they are given to send makes no difference between them.

The relation is the equality of all fields but the buffers, which are alike.  It is kept by every
call because no function looks at a byte that was not written or has been read already; that is
checked function by function, down to the copies.

## Main results

* `wsconnRead_twin`, `wsconnSend_twin`: two such connections stay such connections.
-/

namespace Gbase.Net.Wsconn

open Gbase.Base.Buffer
open Gbase.Lib.Lockstep

variable {α : Type}

/-- The connections agree in all that can be read. -/
inductive Twin : WsconnT α → WsconnT α → Prop
  | mk {fd : Int} {events : Nat} {rbuf rrbuf wbuf rbuf' rrbuf' wbuf' : BufferT}
      {onBuild : Option (Int → α → α)} {onRead : Option (Int → α → List UInt8 → Int × α)} {arg : α}
      {status : WsStatus} (hRbuf : Alike rbuf rbuf') (hRrbuf : Alike rrbuf rrbuf')
      (hWbuf : Alike wbuf wbuf') :
      Twin ⟨fd, events, rbuf, rrbuf, wbuf, onBuild, onRead, arg, status⟩
        ⟨fd, events, rbuf', rrbuf', wbuf', onBuild, onRead, arg, status⟩

section

variable {env : HandshakeEnv} {c d : WsconnT α}

theorem Twin.rbuf (h : Twin c d) : Alike c.rbuf d.rbuf := by
  cases h with
  | mk hRbuf => exact hRbuf

theorem Twin.rrbuf (h : Twin c d) : Alike c.rrbuf d.rrbuf := by
  cases h with
  | mk _ hRrbuf => exact hRrbuf

theorem Twin.wbuf (h : Twin c d) : Alike c.wbuf d.wbuf := by
  cases h with
  | mk _ _ hWbuf => exact hWbuf

theorem Twin.arg (h : Twin c d) : c.arg = d.arg := by
  cases h with
  | mk => rfl

theorem Twin.established (h : Twin c d) : wsconnEstablished c = wsconnEstablished d := by
  cases h with
  | mk => rfl

theorem Twin.answer (h : Twin c d) (buffer : List UInt8) (res : Int) :
    c.answer buffer res = d.answer buffer res := by
  cases h with
  | mk => rfl

theorem Twin.setRbuf (h : Twin c d) {a b : BufferT} (hAlike : Alike a b) :
    Twin { c with rbuf := a } { d with rbuf := b } := by
  cases h with
  | mk _ hRrbuf hWbuf => exact .mk hAlike hRrbuf hWbuf

theorem Twin.setRrbuf (h : Twin c d) {a b : BufferT} (hAlike : Alike a b) :
    Twin { c with rrbuf := a } { d with rrbuf := b } := by
  cases h with
  | mk hRbuf _ hWbuf => exact .mk hRbuf hAlike hWbuf

theorem Twin.setWbuf (h : Twin c d) {a b : BufferT} (hAlike : Alike a b) :
    Twin { c with wbuf := a } { d with wbuf := b } := by
  cases h with
  | mk hRbuf hRrbuf => exact .mk hRbuf hRrbuf hAlike

theorem Twin.setArg (h : Twin c d) (arg : α) :
    Twin { c with arg := arg } { d with arg := arg } := by
  cases h with
  | mk hRbuf hRrbuf hWbuf => exact .mk hRbuf hRrbuf hWbuf

theorem Twin.modify (h : Twin c d) (events : Nat) :
    Twin (reactorModify c events) (reactorModify d events) := by
  cases h with
  | mk hRbuf hRrbuf hWbuf => exact .mk hRbuf hRrbuf hWbuf

/-- The connection is established, and `on_build` is called. -/
theorem Twin.build (h : Twin c d) :
    Twin { c with status := .established }.build { d with status := .established }.build := by
  cases h with
  | @mk _ _ _ _ _ _ _ _ onBuild _ _ _ hRbuf hRrbuf hWbuf =>
    cases onBuild with
    | none => exact .mk hRbuf hRrbuf hWbuf
    | some onBuild => exact .mk hRbuf hRrbuf hWbuf

/-! ## Sending -/

theorem Twin.write (h : Twin c d) (src : List UInt8) (len : Int) :
    Option.Rel Twin (c.write src len) (d.write src len) := by
  apply rel_map (bufferWrite_alike h.wbuf (some src) len)
  intro x y hBoth
  exact h.setWbuf hBoth.2

theorem wsconnSend_twin (h : Twin c d) (buffer : Option (List UInt8)) (buflen : Int) :
    Option.Rel (Both Twin) (wsconnSend c buffer buflen) (wsconnSend d buffer buflen) := by
  cases buffer with
  | none => exact .some ⟨rfl, h⟩
  | some buffer =>
    simp only [wsconnSend, ← h.established, ← h.wbuf.writeLen]
    by_cases hNeg : buflen < 0
    · rw [if_pos hNeg, if_pos hNeg]
      exact .some ⟨rfl, h⟩
    by_cases hOpen : wsconnEstablished c ≠ 0
    · rw [if_neg hNeg, if_neg hNeg, if_pos hOpen, if_pos hOpen]
      exact .some ⟨rfl, h⟩
    rw [if_neg hNeg, if_neg hNeg, if_neg hOpen, if_neg hOpen]
    apply rel_bind (h.write _ _)
    intro c d h
    split
    · split
      · exact .some ⟨rfl, h⟩
      · iterate 2
          apply rel_bind (h.write _ _)
          intro c d h
        exact .some ⟨rfl, h.modify _⟩
    · split
      · split
        · exact .some ⟨rfl, h⟩
        · iterate 4
            apply rel_bind (h.write _ _)
            intro c d h
          exact .some ⟨rfl, h.modify _⟩
      · split
        · exact .none
        · split
          · exact .some ⟨rfl, h⟩
          · iterate 10
              apply rel_bind (h.write _ _)
              intro c d h
            exact .some ⟨rfl, h.modify _⟩

/-! ## The handshake -/

theorem wsconnReply_twin (h : Twin c d) (text : List UInt8) :
    Option.Rel (Both Twin) (wsconnReply c text) (wsconnReply d text) := by
  simp only [wsconnReply, ← h.wbuf.writeLen]
  split
  · exact .some ⟨rfl, h⟩
  · apply rel_bind (h.write _ _)
    intro c d h
    exact .some ⟨rfl, h.modify _⟩

private theorem wsconnProcReq_twin (h : Twin c d) (request : RequestT) :
    Option.Rel (Both Twin) (wsconnProcReq env c request) (wsconnProcReq env d request) := by
  rw [wsconnProcReq, wsconnProcReq]
  split
  · iterate 6 (apply rel_bind_self; intro _)
    exact wsconnReply_twin h _
  · split
    · iterate 2 (apply rel_bind_self; intro _)
      exact wsconnReply_twin h _
    · split
      · iterate 3 (apply rel_bind_self; intro _)
        exact wsconnReply_twin h _
      · exact .some ⟨rfl, h⟩

private theorem wsconnHandshake_twin (h : Twin c d) (data : List UInt8) :
    Option.Rel (Both Twin) (wsconnHandshake env c data) (wsconnHandshake env d data) := by
  rw [wsconnHandshake, wsconnHandshake]
  apply rel_bind_self
  intro parsed
  obtain ⟨ret, request⟩ := parsed
  simp only
  split
  · exact .some ⟨rfl, h⟩
  · apply rel_bind (wsconnProcReq_twin h request)
    intro x y hBoth
    obtain ⟨hRet, hTwin⟩ := hBoth
    simp only [hRet]
    split
    · exact .some ⟨rfl, hTwin.build⟩
    · exact .some ⟨rfl, hTwin⟩

/-! ## Receiving -/

theorem wsconnFramePayload_twin (h : Twin c d) (data : List UInt8) (frame : FrameT) :
    Option.Rel (Both fun x y : WsconnT α × List UInt8 => Twin x.1 y.1 ∧ x.2 = y.2)
      (wsconnFramePayload c data frame) (wsconnFramePayload d data frame) := by
  rw [wsconnFramePayload, wsconnFramePayload]
  apply rel_bind_self
  intro data
  apply rel_bind (bufferWrite_alike h.rrbuf _ _)
  intro x y hBoth
  obtain ⟨res, rrbuf⟩ := x
  obtain ⟨res', rrbuf'⟩ := y
  obtain ⟨hRes, hRrbuf⟩ := hBoth
  cases hRes
  have hTwin := h.setRrbuf hRrbuf
  simp only
  split
  · exact .some ⟨rfl, hTwin, rfl⟩
  rw [← hRrbuf.readLen]
  split
  · exact .none
  have hLoad := hRrbuf.loadAll
  rw [← hRrbuf.readLen] at hLoad
  rw [hLoad]
  apply rel_bind_self
  intro buffer
  rw [h.answer]
  obtain ⟨taken, arg⟩ := d.answer buffer res
  simp only
  split
  · apply rel_bind (bufferReadNocopy_alike hRrbuf taken)
    intro x y hBoth
    exact .some ⟨rfl, (h.setRrbuf hBoth.2).setArg arg, rfl⟩
  · exact .some ⟨rfl, hTwin.setArg arg, rfl⟩

private theorem wsconnFrame_twin (h : Twin c d) (data : List UInt8) :
    Option.Rel (Both fun x y : WsconnT α × List UInt8 => Twin x.1 y.1 ∧ x.2 = y.2)
      (wsconnFrame c data) (wsconnFrame d data) := by
  rw [wsconnFrame, wsconnFrame]
  apply rel_bind_self
  intro head
  cases head with
  | error res => exact .some ⟨rfl, h, rfl⟩
  | ok frame => exact wsconnFramePayload_twin h data frame

private theorem wsconnProcess_twin (h : Twin c d) (buffer : List UInt8) (res : Int) :
    Option.Rel (Both Twin) (wsconnProcess env c buffer res) (wsconnProcess env d buffer res) := by
  rw [wsconnProcess, wsconnProcess, ← h.established]
  split
  · cases handshakeEnd buffer with
    | none => exact .some ⟨rfl, h⟩
    | some start => exact wsconnHandshake_twin h _
  · apply rel_bind (wsconnFrame_twin h buffer)
    intro x y hBoth
    obtain ⟨res, c', data⟩ := x
    obtain ⟨res', d', data'⟩ := y
    have hRes : res = res' := hBoth.1
    have hTwin : Twin c' d' := hBoth.2.1
    have hData : data = data' := hBoth.2.2
    subst hRes hData
    simp only [← hTwin.rbuf.read]
    apply rel_bind (hTwin.rbuf.store (Nat.le_max_right _ _))
    intro a b hStored
    obtain ⟨hKept, hAlike⟩ := hStored
    have hRbuf : Alike a b := hAlike.mono (hKept ▸ Nat.le_max_left _ _)
    exact .some ⟨rfl, hTwin.setRbuf hRbuf⟩

theorem wsconnRead_twin (h : Twin c d) (socket : SockRead) :
    Option.Rel (Both Twin) (wsconnRead env c socket) (wsconnRead env d socket) := by
  simp only [wsconnRead, ← h.rbuf.writeLen, ← h.rbuf.write]
  split
  · exact .none
  split
  · exact .some ⟨rfl, h⟩
  cases socket with
  | again => exact .some ⟨rfl, h⟩
  | error errno => exact .some ⟨rfl, h⟩
  | data bytes =>
    cases bytes with
    | nil => exact .some ⟨rfl, h⟩
    | cons byte more =>
      simp only
      apply rel_bind (h.rbuf.store (Nat.le_max_left _ _))
      intro a b hStored
      obtain ⟨hKept, hAlike⟩ := hStored
      have hCount : a.writePos + ((byte :: more).length : Int).toNat ≤
          max c.rbuf.writePos (c.rbuf.writePos + (byte :: more).length) := by
        rw [hKept, Int.toNat_natCast]
        exact Nat.le_max_right _ _
      apply rel_bind (hAlike.writeNocopy hCount)
      intro x y hBoth
      obtain ⟨_, a⟩ := x
      obtain ⟨_, b⟩ := y
      have hRbuf : Alike a b := hBoth.2
      simp only [← hRbuf.readLen]
      split
      · exact .none
      have hLoad := hRbuf.loadAll
      rw [← hRbuf.readLen] at hLoad
      rw [hLoad]
      apply rel_bind_self
      intro buffer
      apply rel_bind (wsconnProcess_twin (h.setRbuf hRbuf) buffer (byte :: more).length)
      intro x y hBoth
      obtain ⟨res, c'⟩ := x
      obtain ⟨res', d'⟩ := y
      have hRes : res = res' := hBoth.1
      have hTwin : Twin c' d' := hBoth.2
      subst hRes
      simp only
      split
      · exact .some ⟨rfl, hTwin⟩
      · apply rel_bind (bufferReadNocopy_alike hTwin.rbuf res)
        intro x y hBoth
        exact .some ⟨rfl, hTwin.setRbuf hBoth.2⟩

end

end Gbase.Net.Wsconn
