import Vetro.Core.Bytes
import Vetro.Core.Serial

/-!
# TCP terminated on the host side

`vetro-net/src/tcp.rs`.  One connection for every guest SYN (passive open), or
opened by the host towards the guest (active open).  `Link` is a connection with
the context it acts in; the bytes of the guest end at an `Upstream`.
-/

namespace Vetro.Tcp

open Bytes
open Serial

/-- Sequence numbers. -/
abbrev Seq := BitVec 32

/-! ## The upstream -/

inductive TcpStatus where
  | pending
  | connected
  | refused
  deriving Repr, DecidableEq

/-- Outcome of a read: the bytes put in the buffer, nothing for now, the end of
the stream, or an aborted connection. -/
inductive TcpRead where
  | data (bytes : List Byte)
  | wouldBlock
  | eof
  | reset
  deriving Repr, DecidableEq

/-- Where the connections of the guest end up.  Every method takes the time and
the connection and gives the upstream after the call. -/
class Upstream (U : Type) where
  tcpStatus : U → ℕ → ℕ → TcpStatus × U
  tcpWrite : U → ℕ → ℕ → List Byte → ℕ × U
  tcpRead : U → ℕ → ℕ → ℕ → TcpRead × U
  tcpShutdown : U → ℕ → ℕ → U
  tcpClose : U → ℕ → ℕ → Bool → U

/-! ## Segments and events -/

structure Flags where
  fin : Bool := false
  syn : Bool := false
  rst : Bool := false
  psh : Bool := false
  ack : Bool := false
  deriving Repr, DecidableEq

/-- Header of a segment of the guest. -/
structure TcpHeader where
  srcPort : BitVec 16
  dstPort : BitVec 16
  seq : Seq
  ack : Seq
  flags : Flags
  window : ℕ
  mss : Option ℕ
  deriving Repr, DecidableEq

/-- Segment to send to the guest. -/
structure Segment where
  seq : Seq
  ack : Seq
  flags : Flags
  window : ℕ
  mss : Option ℕ
  payload : List Byte
  deriving Repr, DecidableEq

/-- What a connection does to the outside: a segment for the guest, or a call to the
upstream with what it answered. -/
inductive Act where
  | sent (segment : Segment)
  | status (answer : TcpStatus)
  | write (offered : List Byte) (accepted : ℕ)
  | read (room : ℕ) (answer : TcpRead)
  | shutdown
  | close (reset : Bool)
  deriving Repr, DecidableEq

inductive CloseReason where
  | normal
  | guestReset
  | remoteReset
  | refused
  | timeout
  | idle
  deriving Repr, DecidableEq

inductive Direction where
  | toRemote
  | toGuest
  deriving Repr, DecidableEq

inductive EventKind where
  | tcpEstablished (id : ℕ)
  | tcpData (id : ℕ) (dir : Direction) (len : ℕ)
  | tcpClosed (id : ℕ) (reason : CloseReason) (bytesToRemote bytesToGuest : ℕ)
  deriving Repr, DecidableEq

structure SocketAddr where
  ip : BitVec 32
  port : BitVec 16
  deriving Repr, DecidableEq

/-- Four-tuple of a connection as seen by the guest. -/
structure Flow where
  guest : SocketAddr
  remote : SocketAddr
  deriving Repr, DecidableEq

/-! ## Constants -/

def rxCapacity : ℕ := 65535

def txCapacity : ℕ := 256 * 1024

def readChunk : ℕ := 16 * 1024

def rtoInitial : ℕ := 1000000

def rtoMin : ℕ := 200000

def rtoMax : ℕ := 60000000

def maxRetries : ℕ := 15

def timeWaitUs : ℕ := 4000000

def defaultMss : ℕ := 536

/-- `now + us`, saturated. -/
def after (now us : ℕ) : ℕ := min (now + us) (2 ^ 64 - 1)

/-- Saturated sum of 32-bit numbers. -/
def saturatingAdd (a b : ℕ) : ℕ := min (a + b) (2 ^ 32 - 1)

/-- Maximum segment size in use: never below 64 bytes. -/
structure Mss where
  value : ℕ
  least : 64 ≤ value
  deriving Repr, DecidableEq

/-- The size for an option of the guest, not above ours. -/
def Mss.agree (option : Option ℕ) (localMss : ℕ) : Mss :=
  ⟨max (min (option.getD defaultMss) localMss) 64, le_max_right _ _⟩

/-! ## Connections -/

inductive State where
  | connecting
  | synSent
  | synReceived
  | established
  | closeWait
  | lastAck
  | finWait1
  | finWait2
  | closing
  | timeWait
  | closed
  deriving Repr, DecidableEq

structure TcpConn where
  id : ℕ
  flow : Flow
  state : State
  localMss : ℕ
  mss : Mss
  -- transmission, towards the guest
  iss : Seq
  sndUna : Seq
  sndNxt : Seq
  /-- Highest sequence number ever sent, plus one. -/
  sndMax : Seq
  sndWnd : ℕ
  sndWl1 : Seq
  sndWl2 : Seq
  cwnd : ℕ
  ssthresh : ℕ
  /-- Bytes from `sndUna` on. -/
  tx : List Byte
  txEof : Bool
  finSeq : Option Seq
  -- reception, from the guest
  irs : Seq
  rcvNxt : Seq
  rx : List Byte
  rxFin : Bool
  shutdownDone : Bool
  /-- Right edge of the last segment sent. -/
  advEdge : Seq
  ackPending : Bool
  -- timers
  rto : ℕ
  rtoBase : ℕ
  srtt : Option ℕ
  rttvar : ℕ
  rttSample : Option (Seq × ℕ)
  rtxDeadline : Option ℕ
  retries : ℕ
  dupAcks : ℕ
  connectDeadline : ℕ
  timeWaitDeadline : ℕ
  -- counters
  bytesToRemote : ℕ
  bytesToGuest : ℕ
  closeReason : Option CloseReason

/-- What a connection needs to act, and what it has done, in order: the events, and
the segments and calls to the upstream.  The receive buffer is a ring, and `slice`
is where its first contiguous part ends. -/
structure Ctx (U : Type) where
  now : ℕ
  up : U
  slice : ℕ
  log : List (ℕ × EventKind)
  acts : List Act

/-- A connection in its context. -/
structure Link (U : Type) where
  conn : TcpConn
  ctx : Ctx U

namespace TcpConn

def new (id : ℕ) (flow : Flow) (syn : TcpHeader) (iss : Seq) (localMss now : ℕ)
    (connectTimeoutUs : ℕ) : TcpConn where
  id := id
  flow := flow
  state := .connecting
  localMss := localMss
  mss := Mss.agree syn.mss localMss
  iss := iss
  sndUna := iss
  sndNxt := iss
  sndMax := iss
  sndWnd := syn.window
  sndWl1 := syn.seq
  sndWl2 := iss
  cwnd := 10 * (Mss.agree syn.mss localMss).value
  ssthresh := 2 ^ 32 - 1
  tx := []
  txEof := false
  finSeq := none
  irs := syn.seq
  rcvNxt := syn.seq + 1
  rx := []
  rxFin := false
  shutdownDone := false
  advEdge := syn.seq + 1 + BitVec.ofNat 32 rxCapacity
  ackPending := false
  rto := rtoInitial
  rtoBase := rtoInitial
  srtt := none
  rttvar := 0
  rttSample := none
  rtxDeadline := none
  retries := 0
  dupAcks := 0
  connectDeadline := after now connectTimeoutUs
  timeWaitDeadline := 2 ^ 64 - 1
  bytesToRemote := 0
  bytesToGuest := 0
  closeReason := none

/-- Connection opened by the host: everything about the guest arrives with the
SYN-ACK. -/
def newActive (id : ℕ) (flow : Flow) (iss : Seq) (localMss now : ℕ)
    (connectTimeoutUs : ℕ) : TcpConn :=
  let syn : TcpHeader := ⟨flow.guest.port, flow.remote.port, 0, 0, { syn := true }, 0, none⟩
  { new id flow syn iss localMss now connectTimeoutUs with
    state := .synSent
    irs := 0
    rcvNxt := 0
    sndWl1 := 0 }

def isSynchronized (c : TcpConn) : Bool :=
  c.state ∉ [.connecting, .synSent, .synReceived, .closed]

def isClosed (c : TcpConn) : Bool := c.state = .closed

def rcvWnd (c : TcpConn) : ℕ := rxCapacity - c.rx.length

def inFlight (c : TcpConn) : ℕ := ahead c.sndUna c.sndNxt

/-- A time for the retransmission timer, if it is not set. -/
def armRtx (c : TcpConn) (now : ℕ) : TcpConn :=
  if c.rtxDeadline = none then { c with rtxDeadline := some (after now c.rto) } else c

def enterTimeWait (c : TcpConn) (now : ℕ) : TcpConn :=
  { c with state := .timeWait, rtxDeadline := none, timeWaitDeadline := after now timeWaitUs }

/-- A sample of the round-trip time. -/
def rttUpdate (c : TcpConn) (r : ℕ) : TcpConn :=
  let rttvar := match c.srtt with
    | none => r / 2
    | some srtt => (3 * c.rttvar + (max srtt r - min srtt r)) / 4
  let srtt := match c.srtt with
    | none => r
    | some srtt => (7 * srtt + r) / 8
  let base := min (max (srtt + max (4 * rttvar) 1) rtoMin) rtoMax
  { c with rttvar, srtt := some srtt, rtoBase := base, rto := base }

/-- Uses the sample under way if `ack` acknowledges it. -/
def takeSample (c : TcpConn) (ack : Seq) (now : ℕ) : TcpConn :=
  match c.rttSample with
  | some (seq, t) =>
    if seqLe seq ack then { c.rttUpdate (now - t) with rttSample := none } else c
  | none => c

end TcpConn

namespace Link

variable {U : Type} [Upstream U]

/-! ## Sending single segments -/

/-- A segment with the present window. -/
def emit (s : Link U) (seq : Seq) (flags : Flags) (payload : List Byte) : Link U where
  conn := { s.conn with
    advEdge := s.conn.rcvNxt + BitVec.ofNat 32 s.conn.rcvWnd
    ackPending := false }
  ctx := { s.ctx with
    acts := s.ctx.acts ++ [.sent {
      seq, ack := s.conn.rcvNxt, flags, window := s.conn.rcvWnd
      mss := if flags.syn then some s.conn.localMss else none
      payload }] }

/-- A segment that answers one of no known connection state. -/
def pushRst (s : Link U) (seq : Seq) : Link U :=
  { s with ctx.acts := s.ctx.acts ++ [.sent ⟨seq, 0, { rst := true }, 0, none, []⟩] }

def armRtx (s : Link U) : Link U := { s with conn := s.conn.armRtx s.ctx.now }

def sendSyn (s : Link U) : Link U :=
  let s := s.emit s.conn.iss { syn := true } []
  let s : Link U := { s with conn := { s.conn with
    sndNxt := s.conn.iss + 1
    sndMax := s.conn.iss + 1
    rttSample := if s.conn.retries = 0 then some (s.conn.iss + 1, s.ctx.now)
      else s.conn.rttSample } }
  s.armRtx

def startActive (s : Link U) : Link U :=
  if s.conn.state = .synSent then s.sendSyn else s

def sendSynAck (s : Link U) : Link U :=
  let s := s.emit s.conn.iss { syn := true, ack := true } []
  let s : Link U := { s with conn := { s.conn with
    sndNxt := s.conn.iss + 1
    sndMax := s.conn.iss + 1 } }
  s.armRtx

def sendRst (s : Link U) : Link U :=
  s.emit s.conn.sndMax { rst := true, ack := true } []

def logEvent (s : Link U) (event : EventKind) : Link U :=
  { s with ctx.log := s.ctx.log ++ [(s.ctx.now, event)] }

/-- The end of the connection, reported to the upstream. -/
def finish (s : Link U) (reason : CloseReason) (reset : Bool) : Link U :=
  if s.conn.state = .closed then s
  else
    let s : Link U := { s with conn := { s.conn with
      state := .closed
      closeReason := some reason
      rtxDeadline := none } }
    let s := s.logEvent (.tcpClosed s.conn.id reason s.conn.bytesToRemote s.conn.bytesToGuest)
    { s with ctx := { s.ctx with
      up := Upstream.tcpClose s.ctx.up s.ctx.now s.conn.id reset
      acts := s.ctx.acts ++ [.close reset] } }

/-- Abort requested by the host side. -/
def abort (s : Link U) : Link U :=
  if s.conn.state = .closed then s else s.sendRst.finish .remoteReset true

/-- The guest opens the four-tuple of a connection in TIME-WAIT again. -/
def endTimeWait (s : Link U) : Link U :=
  if s.conn.state = .timeWait then s.finish .normal false else s

/-! ## Segments of the guest -/

/-- The SYN-ACK of the guest.  Any data in it are not accepted. -/
def synAcked (s : Link U) (h : TcpHeader) : Link U :=
  let mss := Mss.agree h.mss s.conn.localMss
  let c := { s.conn with
    irs := h.seq, rcvNxt := h.seq + 1, sndUna := h.ack, mss, cwnd := 10 * mss.value
    sndWnd := h.window, sndWl1 := h.seq, sndWl2 := h.ack }
  let c := c.takeSample h.ack s.ctx.now
  let c := { c with
    rttSample := none, rto := c.rtoBase, retries := 0, rtxDeadline := none
    state := .established, ackPending := true }
  Link.logEvent { s with conn := c } (.tcpEstablished c.id)

/-- Answer to our SYN. -/
def inputSynSent (s : Link U) (h : TcpHeader) : Link U :=
  let ackOk : Bool := h.flags.ack && h.ack = s.conn.sndMax
  if h.flags.ack ∧ ackOk = false then
    if h.flags.rst then s else s.pushRst h.ack
  else if h.flags.rst then
    if ackOk then s.finish .refused true else s
  else if h.flags.syn ∧ ackOk then s.synAcked h
  else s

/-- `n` is in the receive window. -/
def inWindow (c : TcpConn) (n : Seq) : Bool :=
  seqLe c.rcvNxt n && seqLt n (c.rcvNxt + BitVec.ofNat 32 c.rcvWnd)

/-- The acceptability test. -/
def acceptable (c : TcpConn) (h : TcpHeader) (payload : List Byte) : Bool :=
  let len : Seq := BitVec.ofNat 32 payload.length +
    BitVec.ofNat 32 h.flags.syn.toNat + BitVec.ofNat 32 h.flags.fin.toNat
  if len = 0 then
    if c.rcvWnd = 0 then h.seq = c.rcvNxt else inWindow c h.seq
  else
    if c.rcvWnd = 0 then false else inWindow c h.seq || inWindow c (h.seq + (len - 1))

/-- A segment that is not acceptable. -/
def refuse (s : Link U) (h : TcpHeader) : Link U :=
  if h.flags.rst then s
  else
    { s with conn := { s.conn with
      ackPending := true
      timeWaitDeadline := if s.conn.state = .timeWait ∧ h.flags.fin
        then after s.ctx.now timeWaitUs else s.conn.timeWaitDeadline } }

/-- Our FIN is acknowledged by an `ack` that acknowledges something. -/
def finAckedBy (c : TcpConn) (ack : Seq) : Bool :=
  match c.finSeq with
  | some f => seqLt c.sndUna ack && seqLt f ack
  | none => false

/-- Bytes of `tx` that an `ack` acknowledges: not the SYN and the FIN. -/
def ackedBytes (c : TcpConn) (ack : Seq) : Seq :=
  let acked := ack - c.sndUna
  let acked := if c.sndUna = c.iss then acked - 1 else acked
  if finAckedBy c ack then acked - 1 else acked

/-- An `ack` of something new. -/
def ackNew (s : Link U) (ack : Seq) : Link U :=
  let c := s.conn
  let acked := min (ackedBytes c ack).toNat c.tx.length
  let c := { c with
    tx := c.tx.drop acked
    sndUna := ack
    sndNxt := if seqLt c.sndNxt ack then ack else c.sndNxt }
  let c := c.takeSample ack s.ctx.now
  let c := { c with
    dupAcks := 0
    rto := c.rtoBase
    cwnd := if c.cwnd < c.ssthresh then saturatingAdd c.cwnd (min acked c.mss.value)
      else saturatingAdd c.cwnd (max (c.mss.value * c.mss.value / c.cwnd) 1) }
  { s with conn := { c with
    rtxDeadline := if c.sndUna ≠ c.sndMax then some (after s.ctx.now c.rto) else none } }

def fastRetransmit (s : Link U) : Link U :=
  let ssthresh := max (s.conn.inFlight / 2) (2 * s.conn.mss.value)
  let s : Link U := { s with conn := { s.conn with
    ssthresh, cwnd := ssthresh, rttSample := none } }
  let c := s.conn
  let n := min (min c.mss.value c.tx.length) (ahead c.sndUna c.sndMax)
  if n = 0 then s else s.emit c.sndUna { ack := true } (c.tx.take n)

/-- An `ack` that repeats the last one. -/
def isDuplicate (c : TcpConn) (h : TcpHeader) (payload : List Byte) : Bool :=
  h.ack = c.sndUna && payload.isEmpty && !h.flags.fin && h.window = c.sndWnd &&
    c.sndWnd ≠ 0 && c.sndMax ≠ c.sndUna

def duplicateAck (s : Link U) : Link U :=
  let s : Link U := { s with conn := { s.conn with
    dupAcks := (s.conn.dupAcks + 1) % 2 ^ 32 } }
  if s.conn.dupAcks = 3 then s.fastRetransmit else s

/-- The window of the guest, from a segment that is not older than the last. -/
def updateWindow (c : TcpConn) (h : TcpHeader) : TcpConn :=
  if seqLt c.sndWl1 h.seq ∨ c.sndWl1 = h.seq ∧ seqLe c.sndWl2 h.ack then
    { c with sndWnd := h.window, sndWl1 := h.seq, sndWl2 := h.ack }
  else c

/-- The states after our FIN is acknowledged, `LastAck` apart. -/
def onFinAcked (c : TcpConn) (now : ℕ) : TcpConn :=
  match c.state with
  | .finWait1 => { c with state := .finWait2 }
  | .closing => c.enterTimeWait now
  | _ => c

/-- The data of a segment that can be taken now, and whether it is all of it. -/
def takeData (s : Link U) (h : TcpHeader) (payload : List Byte) : Link U × Bool :=
  let c := s.conn
  if payload ≠ [] ∧ c.state ∈ [.established, .finWait1, .finWait2] then
    if seqLt c.rcvNxt h.seq then
      ({ s with conn := { c with ackPending := true } }, false)
    else
      let data := payload.drop (min (ahead h.seq c.rcvNxt) payload.length)
      let n := min data.length c.rcvWnd
      let s : Link U := { s with conn := { c with
        rx := c.rx ++ data.take n
        rcvNxt := c.rcvNxt + BitVec.ofNat 32 n
        bytesToRemote := c.bytesToRemote + n
        ackPending := true } }
      (if n > 0 then s.logEvent (.tcpData c.id .toRemote n) else s, n = data.length)
  else (s, true)

/-- The state after the FIN of the guest, if it is the first one. -/
def onFin (c : TcpConn) (now : ℕ) : Option TcpConn :=
  match c.state with
  | .established => some { c with state := .closeWait }
  | .finWait1 => some { c with state := .closing }
  | .finWait2 => some (c.enterTimeWait now)
  | _ => none

/-- The FIN of a segment whose data were all taken. -/
def takeFin (s : Link U) (h : TcpHeader) (payload : List Byte) (complete : Bool) : Link U :=
  if h.flags.fin ∧ complete ∧
      h.seq + BitVec.ofNat 32 payload.length = s.conn.rcvNxt then
    match onFin s.conn s.ctx.now with
    | some c => { s with conn := { c with
      rcvNxt := c.rcvNxt + 1, rxFin := true, ackPending := true } }
    | none => { s with conn := { s.conn with ackPending := true } }
  else s

/-- Data and FIN of a segment. -/
def takeSegment (s : Link U) (h : TcpHeader) (payload : List Byte) : Link U :=
  let taken := s.takeData h payload
  taken.1.takeFin h payload taken.2

/-- A valid ACK proves that the guest is alive. -/
def alive (s : Link U) (ack : Seq) : Link U :=
  if seqLe s.conn.sndUna ack then { s with conn := { s.conn with retries := 0 } } else s

/-- The ACK of a segment, without the change of state for the FIN. -/
def takeAck (s : Link U) (h : TcpHeader) (payload : List Byte) : Link U :=
  let s := s.alive h.ack
  let s :=
    if seqLt s.conn.sndUna h.ack then s.ackNew h.ack
    else if isDuplicate s.conn h payload then s.duplicateAck
    else s
  { s with conn := updateWindow s.conn h }

/-- A segment with an ACK, in a connection whose handshake is over. -/
def inputAck (s : Link U) (h : TcpHeader) (payload : List Byte) : Link U :=
  if seqLt s.conn.sndMax h.ack then { s with conn := { s.conn with ackPending := true } }
  else
    let finAcked := finAckedBy s.conn h.ack
    let s := s.takeAck h payload
    if finAcked then
      if s.conn.state = .lastAck then s.finish .normal false
      else Link.takeSegment { s with conn := onFinAcked s.conn s.ctx.now } h payload
    else s.takeSegment h payload

/-- The ACK that ends the handshake. -/
def establish (s : Link U) (h : TcpHeader) : Link U :=
  Link.logEvent { s with conn := { s.conn with
    state := .established, sndWnd := h.window, sndWl1 := h.seq, sndWl2 := h.ack } }
    (.tcpEstablished s.conn.id)

/-- A segment after the handshake, or the last one of it. -/
def inputOpen (s : Link U) (h : TcpHeader) (payload : List Byte) : Link U :=
  if acceptable s.conn h payload = false then s.refuse h
  else if h.flags.rst then s.finish .guestReset true
  else if h.flags.syn then { s with conn := { s.conn with ackPending := true } }
  else if h.flags.ack = false then s
  else if s.conn.state = .synReceived then
    if seqLt s.conn.sndUna h.ack ∧ seqLe h.ack s.conn.sndMax then
      (s.establish h).inputAck h payload
    else s.pushRst h.ack
  else s.inputAck h payload

/-- Segment of the guest for this connection. -/
def input (s : Link U) (h : TcpHeader) (payload : List Byte) : Link U :=
  match s.conn.state with
  | .closed => s
  | .connecting =>
    if h.flags.rst ∧ (h.seq = s.conn.rcvNxt ∨ h.seq = s.conn.irs) then
      s.finish .guestReset true
    else s
  | .synSent => s.inputSynSent h
  | .synReceived =>
    if h.flags.syn ∧ ¬h.flags.ack ∧ h.seq = s.conn.irs then s.sendSynAck
    else s.inputOpen h payload
  | _ => s.inputOpen h payload

/-! ## Timers -/

/-- The timeout doubles; if something is lost, the window is one segment. -/
def backOff (c : TcpConn) : TcpConn :=
  let outstanding := c.sndUna ≠ c.sndMax
  { c with
    rto := min (c.rto * 2) rtoMax
    rttSample := none
    ssthresh := if outstanding then max (ahead c.sndUna c.sndMax / 2) (2 * c.mss.value)
      else c.ssthresh
    cwnd := if outstanding then c.mss.value else c.cwnd }

/-- Back to the first byte that is not acknowledged; a closed window is probed. -/
def goBack (s : Link U) : Link U :=
  let s : Link U := { s with conn := { s.conn with sndNxt := s.conn.sndUna } }
  let s := if s.conn.sndWnd = 0 ∧ s.conn.tx ≠ [] then
      s.emit (s.conn.sndUna - 1) { ack := true } []
    else s
  s.armRtx

/-- The retransmission timer has expired and there is something to repeat. -/
def retransmit (s : Link U) : Link U :=
  let s : Link U := { s with conn := { s.conn with retries := s.conn.retries + 1 } }
  if s.conn.retries > maxRetries then s.sendRst.finish .timeout true
  else
    let s : Link U := { s with conn := backOff s.conn }
    if s.conn.state = .synReceived then s.sendSynAck
    else if s.conn.state = .synSent then s.sendSyn
    else s.goBack

/-- Everything is acknowledged and no data wait for a closed window. -/
def nothingDue (c : TcpConn) : Bool :=
  c.sndUna = c.sndMax && !(c.sndWnd = 0 && c.inFlight < c.tx.length)

def onTimer (s : Link U) : Link U :=
  if s.conn.state = .closed then s
  else if s.conn.state = .timeWait ∧ s.conn.timeWaitDeadline ≤ s.ctx.now then
    s.finish .normal false
  else
    match s.conn.rtxDeadline with
    | none => s
    | some deadline =>
      if s.ctx.now < deadline then s
      else
        if nothingDue s.conn then { s with conn := { s.conn with rtxDeadline := none } }
        else Link.retransmit { s with conn := { s.conn with rtxDeadline := none } }

/-! ## Exchanges with the upstream -/

/-- Offers the first bytes of `rx` to the upstream; `true` if it took them
all. -/
def writeChunk (s : Link U) (chunk : List Byte) : Link U × Bool :=
  let written := Upstream.tcpWrite s.ctx.up s.ctx.now s.conn.id chunk
  let n := min written.1 chunk.length
  ({ conn := { s.conn with rx := s.conn.rx.drop n }
     ctx := { s.ctx with up := written.2, acts := s.ctx.acts ++ [.write chunk n] } },
    n = chunk.length)

/-- From the guest to the upstream: the two parts of the ring, as long as the
upstream takes them. -/
def writeRx (s : Link U) : Link U :=
  if s.conn.rx = [] then s
  else
    -- the first part of the ring is not empty
    let k := min (max s.ctx.slice 1) s.conn.rx.length
    let first := s.writeChunk (s.conn.rx.take k)
    if first.2 ∧ first.1.conn.rx ≠ [] then (first.1.writeChunk first.1.conn.rx).1 else first.1

/-- After the FIN and all the data of the guest. -/
def shutdownRx (s : Link U) : Link U :=
  if s.conn.rx = [] ∧ s.conn.rxFin ∧ ¬s.conn.shutdownDone then
    { conn := { s.conn with shutdownDone := true }
      ctx := { s.ctx with
        up := Upstream.tcpShutdown s.ctx.up s.ctx.now s.conn.id
        acts := s.ctx.acts ++ [.shutdown] } }
  else s

/-- A window update is due. -/
def reopened (c : TcpConn) : Bool :=
  let edge := c.rcvNxt + BitVec.ofNat 32 c.rcvWnd
  !c.rxFin && seqLt c.advEdge edge && min c.mss.value (rxCapacity / 2) ≤ ahead c.advEdge edge

def windowUpdate (s : Link U) : Link U :=
  if reopened s.conn then { s with conn := { s.conn with ackPending := true } } else s

/-- What a read of the upstream leads to. -/
inductive Filled where
  | ready
  | again
  | aborted

/-- What the connection does with the answer to a read. -/
def takeRead (s : Link U) (room : ℕ) : TcpRead → Link U × Filled
  | .data bytes =>
    let bytes := bytes.take room
    if bytes = [] then (s, .ready)
    else
      (Link.logEvent { s with conn := { s.conn with
          tx := s.conn.tx ++ bytes
          bytesToGuest := s.conn.bytesToGuest + bytes.length } }
        (.tcpData s.conn.id .toGuest bytes.length), .again)
  | .wouldBlock => (s, .ready)
  | .eof => ({ s with conn := { s.conn with txEof := true } }, .ready)
  | .reset => (s, .aborted)

/-- One read of the upstream. -/
def readOnce (s : Link U) : Link U × Filled :=
  let room := min (txCapacity - s.conn.tx.length) readChunk
  let read := Upstream.tcpRead s.ctx.up s.ctx.now s.conn.id room
  Link.takeRead { s with ctx := { s.ctx with
    up := read.2, acts := s.ctx.acts ++ [.read room read.1] } } room read.1

/-- Reads of the upstream until the buffer is full or there is nothing more; every
read that goes on adds a byte, so that `fuel` bytes of room are enough. -/
def fillTx : ℕ → Link U → Link U × Bool
  | 0, s => (s, false)
  | fuel + 1, s =>
    if s.conn.tx.length < txCapacity then
      match s.readOnce.2 with
      | .again => fillTx fuel s.readOnce.1
      | .ready => (s.readOnce.1, false)
      | .aborted => (s.readOnce.1, true)
    else (s, false)

/-- From the upstream to the guest; `true` if the remote has aborted. -/
def readTx (s : Link U) : Link U × Bool :=
  if s.conn.state ∈ [.synReceived, .established, .closeWait] ∧ ¬s.conn.txEof then
    fillTx (txCapacity - s.conn.tx.length) s
  else (s, false)

/-! ### Transmission -/

/-- Bytes that the windows leave for new segments. -/
def usable (c : TcpConn) : ℕ := min c.sndWnd c.cwnd - c.inFlight

/-- One segment of data. -/
def sendOne (s : Link U) : Link U :=
  let c := s.conn
  let offset := c.inFlight
  let n := min (min c.mss.value (usable c)) (c.tx.length - offset)
  let payload := (c.tx.drop offset).take n
  let s := s.emit c.sndNxt { ack := true, psh := offset + n = c.tx.length } payload
  let stop := c.sndNxt + BitVec.ofNat 32 n
  let s : Link U := { s with conn := { s.conn with
    rttSample := if s.conn.rttSample = none ∧ c.sndNxt = s.conn.sndMax
      then some (stop, s.ctx.now) else s.conn.rttSample
    sndNxt := stop
    sndMax := if seqLt s.conn.sndMax stop then stop else s.conn.sndMax } }
  s.armRtx

/-- Segments of data as long as there are bytes and the windows allow it; every one
has a byte at least, so that `fuel` bytes are enough. -/
def sendData : ℕ → Link U → Link U
  | 0, s => s
  | fuel + 1, s =>
    if s.conn.tx.length ≤ s.conn.inFlight ∨ usable s.conn = 0 then s
    else sendData fuel s.sendOne

/-- The state in which the FIN is sent now, if it is. -/
def finState (c : TcpConn) : Option State :=
  if c.txEof ∧ c.inFlight = c.tx.length then
    match c.finSeq with
    | none =>
      match c.state with
      | .established => some .finWait1
      | .closeWait => some .lastAck
      | _ => none
    | some f => if f = c.sndNxt then some c.state else none
  else none

/-- The FIN after all the data. -/
def sendFin (s : Link U) : Link U :=
  match finState s.conn with
  | none => s
  | some state =>
    let seq := s.conn.sndNxt
    let s : Link U := { s with conn := { s.conn with state, finSeq := some seq } }
    let s := s.emit seq { fin := true, ack := true } []
    let s : Link U := { s with conn := { s.conn with
      sndNxt := seq + 1
      sndMax := if seqLt s.conn.sndMax (seq + 1) then seq + 1 else s.conn.sndMax } }
    s.armRtx

/-- The timer for a window that is closed with data waiting. -/
def persist (s : Link U) : Link U :=
  if s.conn.sndWnd = 0 ∧ s.conn.sndUna = s.conn.sndMax ∧ s.conn.inFlight < s.conn.tx.length
  then s.armRtx else s

def transmit (s : Link U) : Link U :=
  if s.conn.state ∈ [.established, .closeWait, .finWait1, .lastAck, .closing] then
    (sendData s.conn.tx.length s).sendFin.persist
  else s

/-- The ACK that is due, if no segment has carried it. -/
def flushAck (s : Link U) : Link U :=
  if s.conn.ackPending then s.emit s.conn.sndNxt { ack := true } [] else s

/-- The exchanges of a connection that is past its opening. -/
def exchange (s : Link U) : Link U :=
  let filled := s.writeRx.shutdownRx.windowUpdate.readTx
  if filled.2 then filled.1.sendRst.finish .remoteReset true
  else filled.1.transmit.flushAck

/-- Asks the upstream whether the connection is open. -/
def askStatus (s : Link U) : TcpStatus × Link U :=
  let answer := Upstream.tcpStatus s.ctx.up s.ctx.now s.conn.id
  (answer.1, { s with ctx := { s.ctx with
    up := answer.2, acts := s.ctx.acts ++ [.status answer.1] } })

/-- The upstream has opened the connection. -/
def opened (s : Link U) : Link U :=
  Link.sendSynAck { s with conn := { s.conn with state := .synReceived } }

/-- Exchanges with the upstream and sending, after every `input` and at every
poll. -/
def process (s : Link U) : Link U :=
  match s.conn.state with
  | .closed => s
  | .connecting =>
    let asked := s.askStatus.2
    match s.askStatus.1 with
    | .connected => asked.opened.exchange
    | .refused => (asked.emit 0 { rst := true, ack := true } []).finish .refused true
    | .pending =>
      if asked.conn.connectDeadline ≤ asked.ctx.now then
        (asked.emit 0 { rst := true, ack := true } []).finish .timeout true
      else asked
  | .synSent =>
    if s.conn.connectDeadline ≤ s.ctx.now then s.finish .timeout true else s
  | _ => s.exchange

end Link

/-- Next time at which `onTimer` has something to do. -/
def TcpConn.nextDeadline (c : TcpConn) : Option ℕ :=
  match c.state with
  | .closed => none
  | .connecting => some c.connectDeadline
  | .synSent => some (match c.rtxDeadline with
    | some deadline => min deadline c.connectDeadline
    | none => c.connectDeadline)
  | .timeWait => some c.timeWaitDeadline
  | _ => c.rtxDeadline

end Vetro.Tcp
