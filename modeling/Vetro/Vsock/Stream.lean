import Vetro.Core.Trace
import Vetro.Vsock.Run

/-!
# The streams of the device

What the log says about one connection since it was opened (`History`): the bytes
that went in on each side and the bytes that came out.  The buffers of the
connection hold the difference, a data packet keeps to the credit of the guest's
last packet, and the end of the stream is told after its last byte.
-/

namespace Vetro.Vsock

open Bytes Trace VirtioVsock List Option

/-- The bytes of one connection since it was opened, and the guest's credit. -/
structure History where
  sent : List Byte
  delivered : List Byte
  payloads : List Byte
  returned : List Byte
  discarded : Bool
  bufAlloc : BitVec 32
  fwdCnt : BitVec 32
  deriving Repr, DecidableEq

namespace History

def start : History := ⟨[], [], [], [], false, 0, 0⟩

def next (past : History) : Act → History
  | .requested _ bufAlloc fwdCnt => { start with bufAlloc := bufAlloc, fwdCnt := fwdCnt }
  | .connected _ => start
  | .accepted _ => past
  | .sent _ data => { past with sent := past.sent ++ data }
  | .returned _ data => { past with returned := past.returned ++ data }
  | .told _ bufAlloc fwdCnt => { past with bufAlloc := bufAlloc, fwdCnt := fwdCnt }
  | .payload _ data => { past with payloads := past.payloads ++ data }
  | .closed _ => past
  | .discarded _ => { past with discarded := true }
  | .dropped => { past with discarded := true }
  | .packet h data =>
    if h.op = opRw then { past with delivered := past.delivered ++ data } else past

/-- What a log says. -/
def ofLog (log : List Act) : History := log.foldl next start

@[simp]
theorem ofLog_append (log acts : List Act) : ofLog (log ++ acts) = acts.foldl next (ofLog log) :=
  foldl_append

end History

/-- What the log of the device says about the connection. -/
def VirtioVsock.history (s : VirtioVsock) (c : VsockConn) : History := .ofLog (s.view c).log

/-- A data packet fits in the guest's buffer as its last packet described it; the
stream ends after its last byte. -/
def PacketOk (before : List Act) : Act → Prop
  | .packet h data =>
    let past := History.ofLog before
    (h.op = opRw → data.length ≤ past.bufAlloc.toNat -
      (BitVec.ofNat 32 past.delivered.length - past.fwdCnt).toNat) ∧
    (h.op = opShutdown → past.delivered = past.sent)
  | _ => True

/-- The connection with its history. -/
structure StreamOk (k : Conn) (past : History) : Prop where
  returned : past.returned ++ k.rxBuf = past.payloads
  delivered : past.discarded = false → past.delivered ++ k.txBuf = past.sent
  closed : past.discarded = true → k.state = .closed
  bufAlloc : k.peerBufAlloc = past.bufAlloc
  fwdCnt : k.peerFwdCnt = past.fwdCnt
  txCnt : k.txCnt = BitVec.ofNat 32 past.delivered.length

structure StreamInv (v : View) : Prop where
  conn : ∀ k, v.conn = some k → StreamOk k (.ofLog v.log)
  start : (History.ofLog v.log).delivered <+: (History.ofLog v.log).sent
  queue : ∀ h ∈ v.queue, h.op ≠ opRw ∧ h.op ≠ opShutdown
  packets : Always PacketOk v.log

variable {h : Hdr}

section Step

variable {c : VsockConn} {given : Given} {v w : View} {k : Conn} {past : History}

namespace StreamOk

/-- Changes of the connection that its history does not see. -/
theorem congr {k' : Conn} (hok : StreamOk k past) (hrx : k'.rxBuf = k.rxBuf)
    (htx : k'.txBuf = k.txBuf) (hstate : k.state = .closed → k'.state = .closed)
    (hbuf : k'.peerBufAlloc = k.peerBufAlloc) (hfwd : k'.peerFwdCnt = k.peerFwdCnt)
    (hcnt : k'.txCnt = k.txCnt) : StreamOk k' past where
  returned := by rw [hrx, hok.returned]
  delivered hintact := by rw [htx, hok.delivered hintact]
  closed hdiscarded := hstate (hok.closed hdiscarded)
  bufAlloc := by rw [hbuf, hok.bufAlloc]
  fwdCnt := by rw [hfwd, hok.fwdCnt]
  txCnt := by rw [hcnt, hok.txCnt]

end StreamOk

/-- The invariant with one act more in the log. -/
theorem StreamInv.record (hinv : StreamInv v) (act : Act) (hact : PacketOk v.log act)
    {conn : Option Conn} {queue : List Hdr}
    (hconn : ∀ k, conn = some k → StreamOk k ((History.ofLog v.log).next act))
    (hstart : ((History.ofLog v.log).next act).delivered <+: ((History.ofLog v.log).next act).sent)
    (hqueue : ∀ h ∈ queue, h.op ≠ opRw ∧ h.op ≠ opShutdown)
    {waiting : ℕ} : StreamInv ⟨conn, queue, v.log ++ [act], waiting⟩ where
  conn k hk := by
    rw [History.ofLog_append]
    exact hconn k hk
  start := by
    rw [History.ofLog_append]
    exact hstart
  queue := hqueue
  packets := hinv.packets.append hact

/-- The invariant after a change that the log does not show. -/
theorem StreamInv.silent {k' : Conn} (hinv : StreamInv v) (hconn : v.conn = some k)
    (hok : StreamOk k (.ofLog v.log) → StreamOk k' (.ofLog v.log)) :
    StreamInv { v with conn := some k' } where
  conn k'' hk := by
    rw [← some.inj hk]
    exact hok (hinv.conn k hconn)
  start := hinv.start
  queue := hinv.queue
  packets := hinv.packets

/-- Data within the credit. -/
theorem StreamOk.data {n : ℕ} (hok : StreamOk k past) (hlen : n ≤ k.txBuf.length)
    (hop : h.op = opRw) :
    StreamOk { k with
      txBuf := k.txBuf.drop n, txCnt := k.txCnt + BitVec.ofNat 32 n, lastFwdSent := k.fwdCnt }
      (past.next (.packet h (k.txBuf.take n))) := by
  have hlength : (k.txBuf.take n).length = n := length_take_of_le hlen
  rw [History.next, if_pos hop]
  refine ⟨hok.returned, fun hintact => ?_, hok.closed, hok.bufAlloc, hok.fwdCnt, ?_⟩
  · rw [append_assoc, take_append_drop, hok.delivered hintact]
  · rw [hok.txCnt, length_append, hlength, BitVec.ofNat_add]

end Step

/-! ## Runs -/

/-- A packet is not longer than the buffer it is put into. -/
theorem length_deliver {s t : VirtioVsock} {size : ℕ} {data : List Byte} (hsize : hdrLen ≤ size)
    (hdeliver : s.deliver size = some (h, data, t)) : hdrLen + data.length ≤ size := by
  rcases deliver_cases hdeliver with ⟨rest, _, rfl, _⟩ | ⟨_, c, k, m, _, hof, _⟩
  · exact hsize
  · rw [packetOf] at hof
    split at hof
    · obtain ⟨_, hrest⟩ := Prod.mk.inj (some.inj hof)
      rw [← (Prod.mk.inj hrest).1, length_take]
      omega
    split at hof
    · obtain ⟨_, hrest⟩ := Prod.mk.inj (some.inj hof)
      rw [← (Prod.mk.inj hrest).1]
      exact hsize
    split at hof
    · obtain ⟨_, hrest⟩ := Prod.mk.inj (some.inj hof)
      rw [← (Prod.mk.inj hrest).1]
      exact hsize
    · cases hof

theorem log_deliver {s t : VirtioVsock} {size : ℕ} {data : List Byte}
    (hdeliver : s.deliver size = some (h, data, t)) : t.log = s.log ++ [.packet h data] := by
  rcases deliver_cases hdeliver with ⟨rest, _, rfl, rfl⟩ | ⟨_, c, k, m, hk, hof, rfl⟩
  · rfl
  · obtain ⟨k', rfl, _⟩ := packetOf_spec ⟨True, True⟩ hk hof
    simp [putPacket, amend]

/-- The receive buffers are used in order, until one is too short or there is nothing to say. -/
theorem run_buffers (sizes : List ℕ) (s : VirtioVsock) :
    ∃ used rest packets, sizes = used ++ rest ∧ length packets = used.length ∧
      s.run (used.map .buffer) = some (s.receiveQueue sizes).2.2 ∧
      (s.receiveQueue sizes).1 = packets.map (fun p : Hdr × List Byte => p.1.toBytes ++ p.2) ∧
      (s.receiveQueue sizes).2.2.log = s.log ++ packets.map (fun p => .packet p.1 p.2) ∧
      ∀ size ∈ rest.head?, (size < hdrLen ∧ (s.receiveQueue sizes).2.1.isSome = true) ∨
        hdrLen ≤ size ∧ (s.receiveQueue sizes).2.2.deliver size = none := by
  induction sizes generalizing s with
  | nil => exact ⟨[], [], [], rfl, rfl, rfl, rfl, (append_nil _).symm, by rintro _ ⟨⟩⟩
  | cons size sizes ih =>
    by_cases hshort : size < hdrLen
    · rw [receiveQueue, if_pos hshort]
      refine ⟨[], size :: sizes, [], rfl, rfl, rfl, rfl, (append_nil _).symm, ?_⟩
      rintro _ ⟨⟩
      exact .inl ⟨hshort, rfl⟩
    · have hsize := Nat.le_of_not_lt hshort
      cases hdeliver : s.deliver size with
      | none =>
        rw [receiveQueue, if_neg hshort, hdeliver]
        refine ⟨[], size :: sizes, [], rfl, rfl, rfl, rfl, (append_nil _).symm, ?_⟩
        rintro _ ⟨⟩
        exact .inr ⟨hsize, hdeliver⟩
      | some packet =>
        obtain ⟨h, data, t⟩ := packet
        obtain ⟨used, rest, packets, rfl, hcount, hrun, hbytes, hlog, hrest⟩ := ih t
        have hstep : s.step (.buffer size) = some t := by
          rw [step, receiveQueue, if_neg hshort, hdeliver]
          rfl
        have hlength := length_deliver hsize hdeliver
        rw [receiveQueue, if_neg hshort, hdeliver]
        refine ⟨size :: used, rest, (h, data) :: packets, rfl, by simp [hcount],
          run_cons.mpr ⟨t, hstep, hrun⟩, ?_, ?_, hrest⟩
        · change (h.toBytes ++ data).take size :: (t.receiveQueue (used ++ rest)).1 = _
          rw [hbytes, take_of_length_le (by rwa [length_append, Hdr.length_toBytes])]
          rfl
        · change (t.receiveQueue (used ++ rest)).2.2.log = _
          rw [hlog, log_deliver hdeliver, append_assoc]
          rfl

/-- One `service` is one event after the other: the event buffer, the chains, and the receive
buffers until one is too short or there is nothing to say; each of them holds a whole packet. -/
theorem service_eq_run (s : VirtioVsock) (event : Option ℕ) (chains : List (List Byte))
    (sizes : List ℕ) :
    let r := s.service event chains sizes
    let m := (s.eventQueue event).2.transmitQueue chains
    ∃ used rest packets, sizes = used ++ rest ∧ length packets = used.length ∧
      s.run (.event event :: (chains.map .transmit ++ used.map .buffer)) = some r.2.2.2 ∧
      r.2.1 = packets.map (fun p : Hdr × List Byte => p.1.toBytes ++ p.2) ∧
      r.2.2.2.log = m.log ++ packets.map (fun p => .packet p.1 p.2) ∧
      ∀ size ∈ rest.head?, (size < hdrLen ∧ r.2.2.1.isSome = true) ∨
        hdrLen ≤ size ∧ r.2.2.2.deliver size = none := by
  intro r m
  obtain ⟨used, rest, packets, hsizes, hcount, hrun, hsaid⟩ := run_buffers sizes m
  refine ⟨used, rest, packets, hsizes, hcount, run_cons.mpr ⟨(s.eventQueue event).2, rfl, ?_⟩,
    hsaid⟩
  exact run_append (run_transmit chains _) hrun

end Vetro.Vsock
