import Mathlib.Tactic
import Std.Data.TreeMap
import Std.Data.TreeSet
import Vetro.Core.Bytes

/-!
# The vsock device

Stream sockets between the guest and the host, which lives inside the device.
Host calls and guest packets change the connections; what the host has to say
leaves when the guest offers receive buffers, first the control packets in the
order they were created, then data, one connection after the other.
`VirtioVsock.log` is not in the source: it is the list of what has happened,
which no function reads.
-/

namespace Vetro.Vsock

open Bytes

def hostCid : BitVec 64 := 2
def firstHostPort : BitVec 32 := 49152
def hostBufAlloc : ℕ := 256 * 1024
def creditThreshold : ℕ := 64 * 1024
def maxPkt : ℕ := 64 * 1024

def typeStream : BitVec 16 := 1
def opRequest : BitVec 16 := 1
def opResponse : BitVec 16 := 2
def opRst : BitVec 16 := 3
def opShutdown : BitVec 16 := 4
def opRw : BitVec 16 := 5
def opCreditUpdate : BitVec 16 := 6
def opCreditRequest : BitVec 16 := 7

def shutdownRcvBit : BitVec 32 := 1
def shutdownSendBit : BitVec 32 := 2
def eventTransportReset : ℕ := 0

def hdrLen : ℕ := 44

/-- The header of a packet. -/
structure Hdr where
  srcCid : BitVec 64
  dstCid : BitVec 64
  srcPort : BitVec 32
  dstPort : BitVec 32
  len : BitVec 32
  ty : BitVec 16
  op : BitVec 16
  flags : BitVec 32
  bufAlloc : BitVec 32
  fwdCnt : BitVec 32
  deriving Repr, DecidableEq

/-- The little-endian field of `width` bytes at `offset`. -/
def field (bytes : List Byte) (offset width bits : ℕ) : BitVec bits :=
  BitVec.ofNat bits (ofLeBytes ((bytes.drop offset).take width))

def Hdr.parse (b : List Byte) : Hdr where
  srcCid := field b 0 8 64
  dstCid := field b 8 8 64
  srcPort := field b 16 4 32
  dstPort := field b 20 4 32
  len := field b 24 4 32
  ty := field b 28 2 16
  op := field b 30 2 16
  flags := field b 32 4 32
  bufAlloc := field b 36 4 32
  fwdCnt := field b 40 4 32

def Hdr.toBytes (h : Hdr) : List Byte :=
  leBytes 8 h.srcCid.toNat ++ leBytes 8 h.dstCid.toNat ++ leBytes 4 h.srcPort.toNat ++
    leBytes 4 h.dstPort.toNat ++ leBytes 4 h.len.toNat ++ leBytes 2 h.ty.toNat ++
    leBytes 2 h.op.toNat ++ leBytes 4 h.flags.toNat ++ leBytes 4 h.bufAlloc.toNat ++
    leBytes 4 h.fwdCnt.toNat

@[simp]
theorem Hdr.length_toBytes (h : Hdr) : h.toBytes.length = hdrLen := by
  simp [Hdr.toBytes, hdrLen]

theorem field_leBytes {bits : ℕ} (width : ℕ) (value : BitVec bits) (rest : List Byte)
    (hbits : 2 ^ bits = 256 ^ width) :
    field (leBytes width value.toNat ++ rest) 0 width bits = value := by
  have htake : (leBytes width value.toNat ++ rest).take width = leBytes width value.toNat := by
    rw [List.take_append_of_le_length (by simp), List.take_of_length_le (by simp)]
  rw [field, List.drop_zero, htake, ofLeBytes_leBytes_of_lt (hbits ▸ value.isLt),
    BitVec.ofNat_toNat, BitVec.setWidth_eq]

/-- A field that is past the first one. -/
theorem field_next {bits : ℕ} (width offset width' value : ℕ) (rest : List Byte)
    (hle : width ≤ offset) :
    field (leBytes width value ++ rest) offset width' bits =
      field rest (offset - width) width' bits := by
  obtain ⟨more, rfl⟩ := Nat.exists_eq_add_of_le hle
  rw [field, field, Nat.add_sub_cancel_left, ← List.drop_drop]
  congr 4
  exact List.drop_left' (length_leBytes width value)

/-- The header is read back from the bytes that are written. -/
theorem Hdr.parse_toBytes (h : Hdr) (rest : List Byte) : Hdr.parse (h.toBytes ++ rest) = h := by
  rw [Hdr.toBytes]
  simp only [List.append_assoc]
  rw [Hdr.parse]
  simp (disch := omega) only [field_next, Nat.reduceSub, Nat.sub_self]
  simp (disch := norm_num) only [field_leBytes]

/-- A connection as the host sees it: its own port and the guest's. -/
structure VsockConn where
  hostPort : BitVec 32
  guestPort : BitVec 32
  deriving Repr, DecidableEq

instance : Ord VsockConn :=
  ⟨compareLex (compareOn VsockConn.hostPort) (compareOn VsockConn.guestPort)⟩

inductive VsockState where
  | connecting
  | connected
  | closing
  | closed
  deriving Repr, DecidableEq

inductive VsockError where
  | notFound
  | closed
  | portInUse
  deriving Repr, DecidableEq

structure Conn where
  state : VsockState
  /-- The guest's credit, from the last packet received. -/
  peerBufAlloc : BitVec 32
  peerFwdCnt : BitVec 32
  txCnt : BitVec 32
  fwdCnt : BitVec 32
  lastFwdSent : BitVec 32
  rxCnt : BitVec 32
  txBuf : List Byte
  rxBuf : List Byte
  peerEof : Bool
  shutdownPending : BitVec 32
  sendClosed : Bool
  creditUpdate : Bool
  deriving Repr, DecidableEq

namespace Conn

def new (state : VsockState) : Conn where
  state := state
  peerBufAlloc := 0
  peerFwdCnt := 0
  txCnt := 0
  fwdCnt := 0
  lastFwdSent := 0
  rxCnt := 0
  txBuf := []
  rxBuf := []
  peerEof := false
  shutdownPending := 0
  sendClosed := false
  creditUpdate := false

/-- Bytes the guest can still receive. -/
def peerCredit (k : Conn) : ℕ := k.peerBufAlloc.toNat - (k.txCnt - k.peerFwdCnt).toNat

/-- Free bytes of the host's buffer as the guest sees them. -/
def seenFree (k : Conn) : ℕ := hostBufAlloc - (k.rxCnt - k.lastFwdSent).toNat

/-- `matches!(state, Connected | Closing)`. -/
def isOpen (k : Conn) : Bool := k.state = .connected || k.state = .closing

end Conn

/-- What happens, as the host and the guest see it. -/
inductive Act where
  /-- A REQUEST of the guest opened the connection. -/
  | requested (c : VsockConn) (bufAlloc fwdCnt : BitVec 32)
  /-- `connect` gave the connection. -/
  | connected (c : VsockConn)
  | accepted (c : VsockConn)
  /-- `send` returned `Ok`. -/
  | sent (c : VsockConn) (data : List Byte)
  | returned (c : VsockConn) (data : List Byte)
  /-- The credit in a packet of the guest. -/
  | told (c : VsockConn) (bufAlloc fwdCnt : BitVec 32)
  /-- The payload of an RW packet was accepted. -/
  | payload (c : VsockConn) (data : List Byte)
  | closed (c : VsockConn)
  /-- A reset discarded what was not sent. -/
  | discarded (c : VsockConn)
  /-- Every connection was closed and its unsent data discarded. -/
  | dropped
  /-- A packet was written to a receive buffer. -/
  | packet (h : Hdr) (data : List Byte)
  deriving Repr, DecidableEq

structure VirtioVsock where
  guestCid : BitVec 64
  listening : Std.TreeSet (BitVec 32)
  conns : Std.TreeMap VsockConn Conn
  /-- Connections of the guest not yet accepted, by listening port. -/
  backlog : Std.TreeMap (BitVec 32) (List VsockConn)
  /-- Control packets for the guest, in order. -/
  control : List Hdr
  nextPort : BitVec 32
  resetEvent : Bool
  dropped : ℕ
  log : List Act

namespace VirtioVsock

def new (guestCid : BitVec 64) : VirtioVsock where
  guestCid := guestCid
  listening := ∅
  conns := ∅
  backlog := ∅
  control := []
  nextPort := firstHostPort
  resetEvent := false
  dropped := 0
  log := []

/-- The connection gets the value, the control packets are queued. -/
def amend (s : VirtioVsock) (c : VsockConn) (k : Conn) (packets : List Hdr) (acts : List Act) :
    VirtioVsock :=
  { s with
    conns := s.conns.insert c k
    control := s.control ++ packets
    log := s.log ++ acts }

/-- The header of a host packet for `c`, with the credit. -/
def hdr (s : VirtioVsock) (c : VsockConn) (op : BitVec 16) (len : ℕ) : Hdr where
  srcCid := hostCid
  dstCid := s.guestCid
  srcPort := c.hostPort
  dstPort := c.guestPort
  len := BitVec.ofNat 32 len
  ty := typeStream
  op := op
  flags := 0
  bufAlloc := BitVec.ofNat 32 hostBufAlloc
  fwdCnt := (s.conns[c]?.map Conn.fwdCnt).getD 0

/-! ## Host calls -/

def listen (s : VirtioVsock) (port : BitVec 32) : Except VsockError Unit × VirtioVsock :=
  if port ∈ s.listening then (.error .portInUse, s)
  else (.ok (), { s with listening := s.listening.insert port })

/-- Close at once with RST. -/
def reset (s : VirtioVsock) (c : VsockConn) : VirtioVsock :=
  match s.conns[c]? with
  | some k =>
    if k.state = .closed then s
    else s.amend c { k with state := .closed, txBuf := [] } [s.hdr c opRst 0]
      [.closed c, .discarded c]
  | none => s

def unlisten (s : VirtioVsock) (port : BitVec 32) : VirtioVsock :=
  let waiting := (s.backlog[port]?).getD []
  waiting.foldl reset
    { s with listening := s.listening.erase port, backlog := s.backlog.erase port }

def accept (s : VirtioVsock) (port : BitVec 32) : Option VsockConn × VirtioVsock :=
  match s.backlog[port]? with
  | some (c :: rest) =>
    (some c, { s with
      backlog := s.backlog.insert port rest, log := s.log ++ [.accepted c] })
  | some [] => (none, s)
  | none => (none, s)

def hostPortFree (s : VirtioVsock) (port : BitVec 32) : Bool :=
  !s.listening.contains port && !s.conns.keys.any fun c => c.hostPort = port

/-- `checked_add(1).unwrap_or(FIRST_HOST_PORT)`. -/
def portAfter (port : BitVec 32) : BitVec 32 :=
  if port = BitVec.allOnes 32 then firstHostPort else port + 1

/-- The first free port from `port` on; every port from the first one on is
seen before the bound is used up, so without a result the source loops for
ever. -/
def findPort (s : VirtioVsock) : ℕ → BitVec 32 → Option (BitVec 32)
  | 0, _ => none
  | bound + 1, port =>
    if s.hostPortFree port then some port else findPort s bound (portAfter port)

/-- Ask for a connection to the guest's port from a new port of the host. -/
def connect (s : VirtioVsock) (guestPort : BitVec 32) : Option (VsockConn × VirtioVsock) :=
  match s.findPort (2 ^ 32) s.nextPort with
  | none => none
  | some port =>
    let c : VsockConn := ⟨port, guestPort⟩
    let s := { s with nextPort := portAfter port, conns := s.conns.insert c (.new .connecting) }
    some (c, { s with
      control := s.control ++ [s.hdr c opRequest 0], log := s.log ++ [.connected c] })

def send (s : VirtioVsock) (c : VsockConn) (data : List Byte) :
    Except VsockError Unit × VirtioVsock :=
  match s.conns[c]? with
  | none => (.error .notFound, s)
  | some k =>
    if k.sendClosed ∨ k.state = .closing ∨ k.state = .closed then (.error .closed, s)
    else (.ok (), s.amend c { k with txBuf := k.txBuf ++ data } [] [.sent c data])

/-- Read up to `max` received bytes; a CREDIT_UPDATE is wanted if the guest sees
little room. -/
def recv (s : VirtioVsock) (c : VsockConn) (max : ℕ) : List Byte × VirtioVsock :=
  match s.conns[c]? with
  | none => ([], s)
  | some k =>
    let n := min max k.rxBuf.length
    let out := k.rxBuf.take n
    let k := { k with rxBuf := k.rxBuf.drop n, fwdCnt := k.fwdCnt + BitVec.ofNat 32 n }
    let k :=
      if 0 < n ∧ k.seenFree < creditThreshold ∧ k.state = .connected then
        { k with creditUpdate := true }
      else k
    (out, s.amend c k [] [.returned c out])

def shutdownSend (s : VirtioVsock) (c : VsockConn) : VirtioVsock :=
  match s.conns[c]? with
  | some k =>
    if (k.state = .connecting ∨ k.state = .connected) ∧ k.sendClosed = false then
      s.amend c { k with sendClosed := true, shutdownPending := shutdownSendBit } [] []
    else s
  | none => s

/-- Close after the last data. -/
def close (s : VirtioVsock) (c : VsockConn) : VirtioVsock :=
  match s.conns[c]? with
  | some k =>
    if k.state = .connecting ∨ k.state = .connected then
      let k := { k with sendClosed := true, shutdownPending := shutdownRcvBit ||| shutdownSendBit }
      s.amend c (if k.state = .connected then { k with state := .closing } else k) [] []
    else s
  | none => s

/-- Forget a connection, closed with RST if it was not. -/
def release (s : VirtioVsock) (c : VsockConn) : VirtioVsock :=
  let s := s.reset c
  { s with
    conns := s.conns.erase c
    backlog := s.backlog.map fun _ waiting => waiting.filter fun other => decide (other ≠ c) }

def dropAll (s : VirtioVsock) : VirtioVsock :=
  { s with
    conns := s.conns.map fun _ k => { k with state := .closed, txBuf := [] }
    backlog := ∅
    control := []
    log := s.log ++ [.dropped] }

def transportReset (s : VirtioVsock) : VirtioVsock :=
  { s with resetEvent := true }.dropAll

/-- The driver resets the device. -/
def deviceReset (s : VirtioVsock) : VirtioVsock :=
  { s.dropAll with resetEvent := false }

/-! ## Packets of the guest -/

/-- The RST that answers `h`, with the ports swapped. -/
def rstHdr (s : VirtioVsock) (h : Hdr) : Hdr where
  srcCid := hostCid
  dstCid := s.guestCid
  srcPort := h.dstPort
  dstPort := h.srcPort
  len := 0
  ty := typeStream
  op := opRst
  flags := 0
  bufAlloc := 0
  fwdCnt := 0

/-- RST in answer to a packet without a connection. -/
def rstReply (s : VirtioVsock) (h : Hdr) : VirtioVsock :=
  { s with control := s.control ++ [s.rstHdr h] }

/-- A packet without an open connection: only a REQUEST to a listening port
opens one. -/
def receiveUnknown (s : VirtioVsock) (c : VsockConn) (h : Hdr) : VirtioVsock :=
  if h.op = opRequest ∧ h.dstPort ∈ s.listening then
    let k := { Conn.new .connected with peerBufAlloc := h.bufAlloc, peerFwdCnt := h.fwdCnt }
    let s := { s with
      conns := s.conns.insert c k
      backlog := s.backlog.insert h.dstPort ((s.backlog[h.dstPort]?).getD [] ++ [c]) }
    { s with
      control := s.control ++ [s.hdr c opResponse 0]
      log := s.log ++ [.requested c h.bufAlloc h.fwdCnt] }
  else if h.op ≠ opRst then s.rstReply h
  else s

/-- A packet for the connection `k`, whose credit is already noted. -/
def receiveOpen (s : VirtioVsock) (c : VsockConn) (k : Conn) (h : Hdr) (payload : List Byte) :
    VirtioVsock :=
  if h.op = opRst then s.amend c { k with state := .closed } [] [.closed c]
  else if k.state = .connecting then
    if h.op = opResponse then
      s.amend c { k with
        state := if k.shutdownPending = shutdownRcvBit ||| shutdownSendBit then .closing
          else .connected } [] []
    else s.reset c
  else if h.op = opRw then
    s.amend c { k with
      rxCnt := k.rxCnt + BitVec.ofNat 32 payload.length
      rxBuf := k.rxBuf ++ payload } [] [.payload c payload]
  else if h.op = opCreditUpdate then s
  else if h.op = opCreditRequest then s.amend c { k with creditUpdate := true } [] []
  else if h.op = opShutdown then
    let s :=
      if h.flags &&& shutdownSendBit ≠ 0 then s.amend c { k with peerEof := true } [] [] else s
    if h.flags &&& (shutdownRcvBit ||| shutdownSendBit) = shutdownRcvBit ||| shutdownSendBit ∨
        k.state = .closing then s.reset c
    else s
  else s.reset c

/-- The connection a packet of the guest is for. -/
def guestConn (h : Hdr) : VsockConn := ⟨h.dstPort, h.srcPort⟩

def receive (s : VirtioVsock) (h : Hdr) (payload : List Byte) : VirtioVsock :=
  if h.srcCid ≠ s.guestCid ∨ h.dstCid ≠ hostCid then { s with dropped := s.dropped + 1 }
  else if h.ty ≠ typeStream then
    if h.op ≠ opRst then s.rstReply h else s
  else
    let c := guestConn h
    match s.conns[c]? with
    | some k =>
      if k.state = .closed then s.receiveUnknown c h
      else
        let k := { k with peerBufAlloc := h.bufAlloc, peerFwdCnt := h.fwdCnt }
        (s.amend c k [] [.told c h.bufAlloc h.fwdCnt]).receiveOpen c k h payload
    | none => s.receiveUnknown c h

/-! ## Packets for the guest -/

/-- What the connection has to say, in at most `room` bytes of payload. -/
def packetOf (s : VirtioVsock) (room : ℕ) (c : VsockConn) (k : Conn) :
    Option (Hdr × List Byte × VirtioVsock) :=
  if k.isOpen ∧ k.txBuf ≠ [] ∧ 0 < k.peerCredit ∧ 0 < room then
    let n := min (min (min k.txBuf.length k.peerCredit) room) maxPkt
    let s := s.amend c { k with
      txBuf := k.txBuf.drop n, txCnt := k.txCnt + BitVec.ofNat 32 n } [] []
    some (s.hdr c opRw n, k.txBuf.take n, s)
  else if k.isOpen ∧ k.txBuf = [] ∧ k.shutdownPending ≠ 0 then
    let s := s.amend c { k with shutdownPending := 0 } [] []
    some ({ s.hdr c opShutdown 0 with flags := k.shutdownPending }, [], s)
  else if k.creditUpdate ∧ k.state = .connected then
    let s := s.amend c { k with creditUpdate := false } [] []
    some (s.hdr c opCreditUpdate 0, [], s)
  else none

/-- The first connection, in the order of the keys, that has something to
say. -/
def nextData (s : VirtioVsock) (room : ℕ) : Option (Hdr × List Byte × VirtioVsock) :=
  s.conns.toList.findSome? fun entry => s.packetOf room entry.1 entry.2

/-- The connection a packet of the host is for. -/
def hostConn (h : Hdr) : VsockConn := ⟨h.srcPort, h.dstPort⟩

/-- The packet goes into a buffer; its count is the last one the guest knows. -/
def putPacket (s : VirtioVsock) (h : Hdr) (data : List Byte) : VirtioVsock :=
  { s with
    conns := s.conns.modify (hostConn h) fun k => { k with lastFwdSent := h.fwdCnt }
    log := s.log ++ [.packet h data] }

/-- The packet for a receive buffer of `size` bytes; without one the buffer stays
where it is. -/
def deliver (s : VirtioVsock) (size : ℕ) : Option (Hdr × List Byte × VirtioVsock) :=
  let packet := match s.control with
    | h :: rest => some (h, [], { s with control := rest })
    | [] => s.nextData (min (size - hdrLen) maxPkt)
  packet.map fun (h, data, s) => (h, data, s.putPacket h data)

/-! ## The queues -/

/-- A chain of the transmit queue, as the bytes the device can read. -/
def transmitChain (s : VirtioVsock) (bytes : List Byte) : VirtioVsock :=
  let h := Hdr.parse (bytes.take hdrLen)
  let len := h.len.toNat
  if bytes.length < hdrLen ∨ maxPkt < len ∨ bytes.length < hdrLen + len then
    { s with dropped := s.dropped + 1 }
  else s.receive h ((bytes.drop hdrLen).take len)

def transmitQueue (s : VirtioVsock) (chains : List (List Byte)) : VirtioVsock :=
  chains.foldl transmitChain s

/-- What goes to the receive buffers of the given sizes: the bytes written to
each, whether a buffer was too short, and the device. -/
def receiveQueue (s : VirtioVsock) : List ℕ → List (List Byte) × Option String × VirtioVsock
  | [] => ([], none, s)
  | size :: rest =>
    if size < hdrLen then ([], some "vsock buffer shorter than the header", s)
    else
      match s.deliver size with
      | none => ([], none, s)
      | some (h, data, s) =>
        let (written, error, s) := s.receiveQueue rest
        ((h.toBytes ++ data).take size :: written, error, s)

/-- The event, if there is one to tell and a buffer for it. -/
def eventQueue (s : VirtioVsock) (buffer : Option ℕ) : List Byte × VirtioVsock :=
  match s.resetEvent, buffer with
  | true, some size =>
    ((leBytes 4 eventTransportReset).take size, { s with resetEvent := false })
  | _, _ => ([], s)

/-- One `service` with an event buffer, transmit chains and receive buffers. -/
def service (s : VirtioVsock) (event : Option ℕ) (chains : List (List Byte)) (sizes : List ℕ) :
    List Byte × List (List Byte) × Option String × VirtioVsock :=
  let (told, s) := s.eventQueue event
  let s := s.transmitQueue chains
  (told, s.receiveQueue sizes)

end VirtioVsock

end Vetro.Vsock
