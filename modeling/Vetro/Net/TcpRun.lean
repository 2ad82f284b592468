import Vetro.Core.Trace
import Vetro.Net.Tcp

/-!
# Runs of a TCP connection

A run is any sequence of segments of the guest, timer calls, exchanges with the
upstream and requests of the stack, each at its own time and with the upstream
in any state.  What the entry points do is said once here: a property that the
single actions keep (`Kept`) holds in every state of every run.
-/

namespace Vetro.Tcp

open Bytes Link
open Serial

variable {U : Type}

/-! ## Runs -/

/-- What happens to a connection. -/
inductive Event where
  | input (h : TcpHeader) (payload : List Byte)
  | timer
  | process
  | abort
  | endTimeWait

/-- The time of a call, the upstream as the call finds it, and the layout of the
receive buffer. -/
structure Moment (U : Type) where
  now : ℕ
  up : U
  slice : ℕ

namespace Link

/-- The connection at another moment. -/
def moved (s : Link U) (m : Moment U) : Link U :=
  { s with ctx := { s.ctx with now := m.now, up := m.up, slice := m.slice } }

/-- One call. -/
def step [Upstream U] (s : Link U) (m : Moment U) : Event → Link U
  | .input h payload => (s.moved m).input h payload
  | .timer => (s.moved m).onTimer
  | .process => (s.moved m).process
  | .abort => (s.moved m).abort
  | .endTimeWait => (s.moved m).endTimeWait

/-- A connection before its first action. -/
def fresh (conn : TcpConn) (m : Moment U) : Link U :=
  ⟨conn, ⟨m.now, m.up, m.slice, [], []⟩⟩

end Link

theorem startActive_newActive (id : ℕ) (flow : Flow) (iss : Seq) (localMss timeout : ℕ)
    (m : Moment U) : (fresh (TcpConn.newActive id flow iss localMss m.now timeout) m).startActive =
      (fresh (TcpConn.newActive id flow iss localMss m.now timeout) m).sendSyn :=
  if_pos rfl

/-- The states that runs reach when every call meets `ok`. -/
inductive Reached [Upstream U] (ok : Link U → Event → Prop) : Link U → Prop where
  | passive (id : ℕ) (flow : Flow) (syn : TcpHeader) (iss : Seq) (localMss timeout : ℕ)
      (m : Moment U) :
      Reached ok (fresh (TcpConn.new id flow syn iss localMss m.now timeout) m)
  | active (id : ℕ) (flow : Flow) (iss : Seq) (localMss timeout : ℕ) (m : Moment U) :
      Reached ok
        (fresh (TcpConn.newActive id flow iss localMss m.now timeout) m).startActive
  | step {s : Link U} (hreached : Reached ok s) (m : Moment U) (e : Event) (hok : ok s e) :
      Reached ok (s.step m e)

/-! ## Single actions -/

namespace Link

/-- An ACK is due. -/
def due (s : Link U) : Link U := { s with conn := { s.conn with ackPending := true } }

/-- An ACK with all that follows from it. -/
def settle [Upstream U] (s : Link U) (h : TcpHeader) (payload : List Byte) : Link U :=
  let t := s.takeAck h payload
  if finAckedBy s.conn h.ack then
    if t.conn.state = .lastAck then t.finish .normal false
    else { t with conn := onFinAcked t.conn t.ctx.now }
  else t

/-- The retransmission timer has expired. -/
def expired [Upstream U] (s : Link U) : Link U :=
  retransmit { s with conn := { s.conn with rtxDeadline := none } }

theorem inputAck_eq [Upstream U] (s : Link U) (h : TcpHeader) (payload : List Byte) :
    s.inputAck h payload =
      if seqLt s.conn.sndMax h.ack then s.due
      else if finAckedBy s.conn h.ack ∧ (s.takeAck h payload).conn.state = .lastAck then
        s.settle h payload
      else (s.settle h payload).takeSegment h payload := by
  rw [inputAck]
  by_cases hmax : seqLt s.conn.sndMax h.ack = true
  · rw [if_pos hmax, if_pos hmax]
    rfl
  · rw [if_neg hmax, if_neg hmax]
    by_cases hfin : finAckedBy s.conn h.ack = true
    · by_cases hstate : (s.takeAck h payload).conn.state = .lastAck
      · simp [settle, hfin, hstate]
      · simp [settle, hfin, hstate]
    · simp [settle, hfin]

/-! ### Equations -/

end Link

theorem TcpConn.armRtx_eq (c : TcpConn) (now : ℕ) :
    c.armRtx now = { c with
      rtxDeadline := some (c.rtxDeadline.getD (Vetro.Tcp.after now c.rto)) } := by
  rw [TcpConn.armRtx]
  split_ifs with hnone
  · rw [hnone]
    rfl
  · obtain ⟨deadline, hsome⟩ := Option.ne_none_iff_exists'.mp hnone
    have hsame : some (c.rtxDeadline.getD (Vetro.Tcp.after now c.rto)) = c.rtxDeadline := by
      rw [hsome]
      rfl
    rw [hsame]

theorem TcpConn.takeSample_eq (c : TcpConn) (ack : Seq) (now : ℕ) :
    c.takeSample ack now = { c with
      rto := (c.takeSample ack now).rto
      rtoBase := (c.takeSample ack now).rtoBase
      srtt := (c.takeSample ack now).srtt
      rttvar := (c.takeSample ack now).rttvar
      rttSample := (c.takeSample ack now).rttSample } := by
  rw [TcpConn.takeSample]
  split
  · split_ifs <;> rfl
  · rfl

namespace Link

theorem updateWindow_eq (c : TcpConn) (h : TcpHeader) :
    updateWindow c h = { c with
      sndWnd := (updateWindow c h).sndWnd
      sndWl1 := (updateWindow c h).sndWl1
      sndWl2 := (updateWindow c h).sndWl2 } := by
  rw [updateWindow]
  split_ifs <;> rfl

variable (s : Link U)

theorem ackNew_eq (ack : Seq) : s.ackNew ack = { s with conn := { s.conn with
    tx := s.conn.tx.drop (min (ackedBytes s.conn ack).toNat s.conn.tx.length)
    sndUna := ack
    sndNxt := if seqLt s.conn.sndNxt ack then ack else s.conn.sndNxt
    rto := (s.ackNew ack).conn.rto
    rtoBase := (s.ackNew ack).conn.rtoBase
    srtt := (s.ackNew ack).conn.srtt
    rttvar := (s.ackNew ack).conn.rttvar
    rttSample := (s.ackNew ack).conn.rttSample
    dupAcks := 0
    cwnd := if s.conn.cwnd < s.conn.ssthresh
      then saturatingAdd s.conn.cwnd
        (min (min (ackedBytes s.conn ack).toNat s.conn.tx.length) s.conn.mss.value)
      else saturatingAdd s.conn.cwnd
        (max (s.conn.mss.value * s.conn.mss.value / s.conn.cwnd) 1)
    rtxDeadline := if ack ≠ s.conn.sndMax
      then some (after s.ctx.now (s.ackNew ack).conn.rto) else none } } := by
  rw [ackNew, TcpConn.takeSample_eq]

@[simp]
theorem state_ackNew (ack : Seq) : (s.ackNew ack).conn.state = s.conn.state := by
  rw [ackNew_eq]

@[simp]
theorem state_duplicateAck : s.duplicateAck.conn.state = s.conn.state := by
  rw [duplicateAck, fastRetransmit]
  split_ifs <;> rfl

theorem alive_eq (ack : Seq) :
    s.alive ack = { s with conn := { s.conn with retries := (s.alive ack).conn.retries } } := by
  rw [alive]
  split_ifs <;> rfl

@[simp]
theorem state_takeAck (h : TcpHeader) (payload : List Byte) :
    (s.takeAck h payload).conn.state = s.conn.state := by
  have halive : (s.alive h.ack).conn.state = s.conn.state := by
    rw [alive_eq]
  rw [takeAck]
  rw [updateWindow_eq]
  split_ifs <;> simp [halive]

end Link

/-! ### Streams -/

/-- The bytes that are handed over to the upstream. -/
def Act.taken : Act → List Byte
  | .write offered accepted => offered.take accepted
  | _ => []

/-- The bytes that come from the upstream. -/
def Act.given : Act → List Byte
  | .read room (.data bytes) => bytes.take room
  | _ => []

@[simp]
theorem Act.given_sent (segment : Segment) : (Act.sent segment).given = [] := rfl

/-- Everything that the upstream has accepted. -/
def accepted (acts : List Act) : List Byte := acts.flatMap Act.taken

/-- Everything that the upstream has sent. -/
def provided (acts : List Act) : List Byte := acts.flatMap Act.given

@[simp]
theorem accepted_append (acts : List Act) (act : Act) :
    accepted (acts ++ [act]) = accepted acts ++ act.taken := by
  simp [accepted]

@[simp]
theorem provided_append (acts : List Act) (act : Act) :
    provided (acts ++ [act]) = provided acts ++ act.given := by
  simp [provided]

/-- The part of a state that the data of a segment are measured against. -/
structure RecvKey where
  irs : Seq
  rcvNxt : Seq
  rx : List Byte
  rxFin : Bool
  accepted : List Byte

def Link.recvKey (s : Link U) : RecvKey :=
  ⟨s.conn.irs, s.conn.rcvNxt, s.conn.rx, s.conn.rxFin, accepted s.ctx.acts⟩

namespace Link

variable (s : Link U)

theorem recvKey_ackNew (ack : Seq) : (s.ackNew ack).recvKey = s.recvKey := by
  rw [ackNew_eq]
  rfl

theorem recvKey_duplicateAck : s.duplicateAck.recvKey = s.recvKey := by
  rw [duplicateAck, fastRetransmit]
  split_ifs
  · rfl
  · simp [recvKey, emit, Act.taken]
  · rfl

theorem recvKey_takeAck (h : TcpHeader) (payload : List Byte) :
    (s.takeAck h payload).recvKey = s.recvKey := by
  have hwindow : ∀ t : Link U, ({ t with conn := updateWindow t.conn h } : Link U).recvKey =
      t.recvKey := by
    intro t
    rw [updateWindow_eq]
    rfl
  have halive : (s.alive h.ack).recvKey = s.recvKey := by
    rw [alive_eq]
    rfl
  rw [takeAck]
  rw [hwindow]
  split_ifs
  · exact (recvKey_ackNew _ _).trans halive
  · exact (recvKey_duplicateAck _).trans halive
  · exact halive

theorem recvKey_finish [Upstream U] (reason : CloseReason) (reset : Bool) :
    (s.finish reason reset).recvKey = s.recvKey := by
  rw [finish]
  split_ifs
  · rfl
  · simp [recvKey, logEvent, Act.taken]

theorem recvKey_onFinAcked (now : ℕ) :
    ({ s with conn := onFinAcked s.conn now } : Link U).recvKey = s.recvKey := by
  rw [onFinAcked]
  split <;> rfl

theorem recvKey_settle [Upstream U] (h : TcpHeader) (payload : List Byte) :
    (s.settle h payload).recvKey = s.recvKey := by
  rw [settle, ← recvKey_takeAck s h payload]
  split_ifs
  · exact recvKey_finish _ _ _
  · exact recvKey_onFinAcked _ _
  · rfl

end Link

namespace Link

variable (s : Link U)

theorem takeRead_frame (room : ℕ) (answer : TcpRead) :
    (s.takeRead room answer).1.conn.state = s.conn.state ∧
      ((s.takeRead room answer).2 = .again →
        (s.takeRead room answer).1.conn.txEof = s.conn.txEof) := by
  cases answer with
  | data bytes =>
    rw [takeRead]
    split_ifs <;> exact ⟨rfl, fun _ => rfl⟩
  | wouldBlock => exact ⟨rfl, fun _ => rfl⟩
  | eof => exact ⟨rfl, by rintro ⟨⟩⟩
  | reset => exact ⟨rfl, fun _ => rfl⟩

theorem sendOne_eq : s.sendOne = { s with
    conn := { s.conn with
      advEdge := s.conn.rcvNxt + BitVec.ofNat 32 s.conn.rcvWnd
      ackPending := false
      rttSample := s.sendOne.conn.rttSample
      rtxDeadline := s.sendOne.conn.rtxDeadline
      sndNxt := s.sendOne.conn.sndNxt
      sndMax := s.sendOne.conn.sndMax }
    ctx := { s.ctx with acts := s.sendOne.ctx.acts } } := by
  rw [sendOne, armRtx, TcpConn.armRtx_eq]
  rfl

@[simp]
theorem state_sendOne : s.sendOne.conn.state = s.conn.state := by
  rw [sendOne_eq]

@[simp]
theorem state_sendData (fuel : ℕ) (s : Link U) : (sendData fuel s).conn.state = s.conn.state := by
  induction fuel generalizing s with
  | zero => rfl
  | succ fuel ih =>
    rw [sendData]
    split_ifs
    · rfl
    · rw [ih, state_sendOne]

/-- A read leaves the state as it is; only the end of the stream is not followed by
another read. -/
theorem readOnce_frame [Upstream U] : s.readOnce.1.conn.state = s.conn.state ∧
    (s.readOnce.2 = .again → s.readOnce.1.conn.txEof = s.conn.txEof) :=
  takeRead_frame _ _ _

end Link

/-! ## What a run keeps -/

/-- The states in which data and the FIN are sent. -/
def State.sending (state : State) : Prop :=
  state ∈ [.established, .closeWait, .finWait1, .lastAck, .closing]

instance (state : State) : Decidable state.sending :=
  inferInstanceAs (Decidable (state ∈ [_, _, _, _, _]))

variable {s : Link U}

theorem Link.sending_or_done (hsync : s.conn.isSynchronized = true) :
    s.conn.state.sending ∨ s.conn.state = .finWait2 ∨ s.conn.state = .timeWait := by
  rw [TcpConn.isSynchronized, decide_eq_true_iff] at hsync
  revert hsync
  cases s.conn.state <;> decide

/-- The states in which the numbers of the guest are known. -/
def State.heard (state : State) : Prop := state ≠ .synSent ∧ state ≠ .closed

theorem Link.heard_of_open (hopen : s.conn.state = .synReceived ∨ s.conn.isSynchronized = true) :
    s.conn.state.heard := by
  rw [TcpConn.isSynchronized, decide_eq_true_iff] at hopen
  revert hopen
  cases s.conn.state <;> simp [State.heard]

theorem Link.transmit_of_sending (hsending : s.conn.state.sending) :
    s.transmit = (sendData s.conn.tx.length s).sendFin.persist := if_pos hsending

theorem Link.transmit_of_not_sending (hsending : ¬s.conn.state.sending) :
    s.transmit = s := if_neg hsending

variable [Upstream U]

theorem Link.state_finish (s : Link U) (reason : CloseReason) (reset : Bool) :
    (s.finish reason reset).conn.state = .closed := by
  rw [finish]
  split_ifs with hclosed
  · exact hclosed
  · rfl

/-- The states in which the upstream is read. -/
def State.reading (state : State) : Prop := state ∈ [.synReceived, .established, .closeWait]

theorem Link.input_of_isSynchronized (hsync : s.conn.isSynchronized = true) (h : TcpHeader)
    (payload : List Byte) : s.input h payload = s.inputOpen h payload := by
  rw [input]
  cases hstate : s.conn.state <;> simp [TcpConn.isSynchronized, hstate] at hsync ⊢

theorem Link.process_of_isSynchronized (hsync : s.conn.isSynchronized = true) :
    s.process = s.exchange := by
  rw [process]
  cases hstate : s.conn.state <;> simp [TcpConn.isSynchronized, hstate] at hsync ⊢

omit [Upstream U] in
theorem Link.state_opened (s : Link U) : s.opened.conn.state = .synReceived := by
  rw [opened, sendSynAck, armRtx, TcpConn.armRtx_eq]
  rfl

/-- The FIN is sent after all the data, for the first time or again. -/
theorem finState_cases {c : TcpConn} {state : State} (hfin : finState c = some state) :
    c.txEof = true ∧ c.inFlight = c.tx.length ∧
      (c.finSeq = none ∧ (c.state = .established ∧ state = .finWait1 ∨
          c.state = .closeWait ∧ state = .lastAck) ∨
        c.finSeq = some c.sndNxt ∧ state = c.state) := by
  rw [finState] at hfin
  split_ifs at hfin with hall
  refine ⟨hall.1, hall.2, ?_⟩
  split at hfin
  · rename_i hnone
    refine .inl ⟨hnone, ?_⟩
    split at hfin
    · rename_i hstate
      exact .inl ⟨hstate, (Option.some.inj hfin).symm⟩
    · rename_i hstate
      exact .inr ⟨hstate, (Option.some.inj hfin).symm⟩
    · cases hfin
  · rename_i f hsome
    split_ifs at hfin with hf
    exact .inr ⟨hf ▸ hsome, (Option.some.inj hfin).symm⟩

/-- Sending goes on after the FIN. -/
theorem sending_finState {c : TcpConn} {state : State} (hfin : finState c = some state)
    (hsending : c.state.sending) : state.sending := by
  obtain ⟨-, -, ⟨-, ⟨-, rfl⟩ | ⟨-, rfl⟩⟩ | ⟨-, rfl⟩⟩ := finState_cases hfin
  · decide
  · decide
  · exact hsending

/-- The states before the FIN of the guest. -/
def State.early (state : State) : Prop :=
  state ∈ [.connecting, .synSent, .synReceived, .established, .finWait1, .finWait2]

instance (state : State) : Decidable state.early :=
  inferInstanceAs (Decidable (state ∈ [_, _, _, _, _, _]))

/-- The states in which data are taken. -/
def State.taking (state : State) : Prop := state ∈ [.established, .finWait1, .finWait2]

instance (state : State) : Decidable state.taking :=
  inferInstanceAs (Decidable (state ∈ [_, _, _]))

/-- The FIN of the guest is taken once, after the data. -/
theorem onFin_cases {c next : TcpConn} {now : ℕ} (hnext : onFin c now = some next) :
    c.state.taking ∧ next.state ∈ [.closeWait, .closing, .timeWait] ∧
      next = { c with
        state := next.state
        rtxDeadline := next.rtxDeadline
        timeWaitDeadline := next.timeWaitDeadline } := by
  rw [onFin] at hnext
  cases hstate : c.state <;> rw [hstate] at hnext <;> cases hnext <;>
    exact ⟨by decide, by simp [TcpConn.enterTimeWait], rfl⟩

/-- The property `P` is kept by what a connection does to send. -/
structure Sends (P : Link U → Prop) : Prop where
  readOnce : ∀ {s}, P s → s.conn.state.reading → s.conn.txEof = false →
    s.conn.tx.length < txCapacity → P s.readOnce.1
  sendOne : ∀ {s}, P s → s.conn.state.sending → s.conn.inFlight < s.conn.tx.length →
    usable s.conn ≠ 0 → P s.sendOne
  sendFin : ∀ {s}, P s → s.conn.state.sending → P s.sendFin
  persist : ∀ {s}, P s → P s.persist

/-- Only the data of such a segment are looked at. -/
def TcpHeader.ordinary (h : TcpHeader) : Prop :=
  h.flags.rst = false ∧ h.flags.syn = false ∧ h.flags.ack = true

/-- What is assumed of a segment: its ACK, in a connection past the handshake, and its
data. -/
structure Guard where
  ack : TcpConn → TcpHeader → Prop := fun _ _ => True
  data : RecvKey → TcpHeader → List Byte → Prop := fun _ _ _ => True

/-- From `P`, what segments that `G` allows and timers do leads to `Q`, the end of TIME-WAIT
apart. -/
structure Steady (P Q : Link U → Prop) (G : Guard) : Prop where
  due : ∀ {s}, P s → Q s.due
  refuse : ∀ {s}, P s → ∀ h, Q (s.refuse h)
  pushRst : ∀ {s}, P s → ∀ seq, Q (s.pushRst seq)
  finish : ∀ {s}, P s → ∀ reason reset, reason ≠ .normal → Q (s.finish reason reset)
  reset : ∀ {s}, P s → s.conn.state ≠ .closed → ∀ reason, reason ≠ .normal →
    Q (s.sendRst.finish reason true)
  sendSynAck : ∀ {s}, P s → s.conn.state = .synReceived → Q s.sendSynAck
  synAcked : ∀ {s}, P s → s.conn.state = .synSent → ∀ h, h.ack = s.conn.sndMax →
    Q (s.synAcked h)
  handshake : ∀ {s}, P s → s.conn.state = .synReceived → ∀ ack,
    seqLt s.conn.sndUna ack = true → seqLe ack s.conn.sndMax = true → ack = s.conn.sndMax
  establish : ∀ {s}, P s → s.conn.state = .synReceived → ∀ h payload, h.ack = s.conn.sndMax →
    Q ((s.establish h).settle h payload)
  settle : ∀ {s}, P s → s.conn.isSynchronized = true → ∀ h payload,
    seqLt s.conn.sndMax h.ack = false → G.ack s.conn h → Q (s.settle h payload)
  takeSegment : ∀ {s}, P s → ∀ h payload, G.data s.recvKey h payload →
    Q (s.takeSegment h payload)
  cleared : ∀ {s}, P s → s.conn.sndUna = s.conn.sndMax →
    Q { s with conn := { s.conn with rtxDeadline := none } }
  expired : ∀ {s}, P s → s.conn.state ≠ .closed → Q s.expired

/-- From `P`, every action leads to `Q`, exchanges with the upstream included. -/
structure Kept (P Q : Link U → Prop) (G : Guard) : Prop extends Steady P Q G where
  moved : ∀ {s}, P s → ∀ m, Q (s.moved m)
  askStatus : ∀ {s}, P s → Q s.askStatus.2
  refused : ∀ {s}, P s → s.conn.state = .connecting → ∀ reason, reason ≠ .normal →
    Q ((s.emit 0 { rst := true, ack := true } []).finish reason true)
  opened : ∀ {s}, P s → s.conn.state = .connecting → Q s.opened
  lapse : ∀ {s}, P s → s.conn.state = .timeWait → Q (s.finish .normal false)
  exchange : ∀ {s}, P s → s.conn.state = .synReceived ∨ s.conn.isSynchronized = true →
    Q s.exchange

section

variable {I P Q : Link U → Prop} {G : Guard} (hin : ∀ {s}, P s → I s)
  (hjoin : ∀ {s}, I s → Q s → P s)
include hin hjoin

/-- What is kept whatever the segments may be used for a property that goes with it. -/
theorem Steady.join (rest : Steady I I {}) (steady : Steady P Q G) : Steady P P G where
  due hs := hjoin (rest.due (hin hs)) (steady.due hs)
  refuse hs h := hjoin (rest.refuse (hin hs) h) (steady.refuse hs h)
  pushRst hs seq := hjoin (rest.pushRst (hin hs) seq) (steady.pushRst hs seq)
  finish hs _ _ hreason := hjoin (rest.finish (hin hs) _ _ hreason) (steady.finish hs _ _ hreason)
  reset hs hopen _ hreason :=
    hjoin (rest.reset (hin hs) hopen _ hreason) (steady.reset hs hopen _ hreason)
  sendSynAck hs hstate := hjoin (rest.sendSynAck (hin hs) hstate) (steady.sendSynAck hs hstate)
  synAcked hs hstate h hack :=
    hjoin (rest.synAcked (hin hs) hstate h hack) (steady.synAcked hs hstate h hack)
  handshake := steady.handshake
  establish hs hstate h payload hack := hjoin (rest.establish (hin hs) hstate h payload hack)
    (steady.establish hs hstate h payload hack)
  settle hs hsync h payload hmax hack := hjoin (rest.settle (hin hs) hsync h payload hmax trivial)
    (steady.settle hs hsync h payload hmax hack)
  takeSegment hs h payload hdata :=
    hjoin (rest.takeSegment (hin hs) h payload trivial) (steady.takeSegment hs h payload hdata)
  cleared hs hall := hjoin (rest.cleared (hin hs) hall) (steady.cleared hs hall)
  expired hs hopen := hjoin (rest.expired (hin hs) hopen) (steady.expired hs hopen)

theorem Kept.join (rest : Kept I I {}) (kept : Kept P Q G) : Kept P P G where
  toSteady := rest.toSteady.join hin hjoin kept.toSteady
  moved hs m := hjoin (rest.moved (hin hs) m) (kept.moved hs m)
  askStatus hs := hjoin (rest.askStatus (hin hs)) (kept.askStatus hs)
  refused hs hstate _ hreason :=
    hjoin (rest.refused (hin hs) hstate _ hreason) (kept.refused hs hstate _ hreason)
  opened hs hstate := hjoin (rest.opened (hin hs) hstate) (kept.opened hs hstate)
  lapse hs hstate := hjoin (rest.lapse (hin hs) hstate) (kept.lapse hs hstate)
  exchange hs hopen := hjoin (rest.exchange (hin hs) hopen) (kept.exchange hs hopen)

end

/-! ### Exchanges -/

namespace Sends

variable {P Q : Link U → Prop} {s : Link U}

theorem fillTx (sends : Sends P) (fuel : ℕ) (hs : P s) (hreading : s.conn.state.reading)
    (heof : s.conn.txEof = false) : P (fillTx fuel s).1 := by
  induction fuel generalizing s with
  | zero => exact hs
  | succ fuel ih =>
    rw [fillTx]
    split_ifs with hroom
    · have hread := sends.readOnce hs hreading heof hroom
      obtain ⟨hstate, hagain⟩ := readOnce_frame s
      split
      · rename_i hmore
        exact ih hread (hstate ▸ hreading) ((hagain hmore).trans heof)
      · exact hread
      · exact hread
    · exact hs

theorem readTx (sends : Sends P) (hs : P s) : P s.readTx.1 := by
  rw [Link.readTx]
  split_ifs with hread
  · exact sends.fillTx _ hs hread.1 (by simpa using hread.2)
  · exact hs

theorem sendData (sends : Sends P) (fuel : ℕ) (hs : P s) (hsending : s.conn.state.sending) :
    P (sendData fuel s) := by
  induction fuel generalizing s with
  | zero => exact hs
  | succ fuel ih =>
    rw [sendData]
    split_ifs with hstop
    · exact hs
    · rw [not_or, Nat.not_le] at hstop
      refine ih (sends.sendOne hs hsending hstop.1 hstop.2) ?_
      rw [state_sendOne]
      exact hsending

theorem transmit (sends : Sends P) (hs : P s) : P s.transmit := by
  by_cases hsending : s.conn.state.sending
  · have hdata := sends.sendData s.conn.tx.length hs hsending
    rw [transmit_of_sending hsending]
    refine sends.persist (sends.sendFin hdata ?_)
    rw [state_sendData]
    exact hsending
  · rw [transmit_of_not_sending hsending]
    exact hs

/-- An exchange delivers what was received, and then sends. -/
theorem exchange (sends : Sends Q) (hdelivered : Q s.writeRx.shutdownRx.windowUpdate)
    (hreset : ∀ t, Q t → P (t.sendRst.finish .remoteReset true))
    (hflush : ∀ t, Q t → P t.flushAck) : P s.exchange := by
  have hfilled := sends.readTx hdelivered
  rw [Link.exchange]
  split_ifs
  · exact hreset _ hfilled
  · exact hflush _ (sends.transmit hfilled)

end Sends

/-- What single writes keep, the delivery of all that was received keeps. -/
theorem written_of {P : Link U → Prop} (hs : P s)
    (hwrite : ∀ t k, P t → P (t.writeChunk (t.conn.rx.take k)).1) : P s.writeRx := by
  rw [writeRx]
  split_ifs with hempty
  · exact hs
  · have hfirst := hwrite s (min (max s.ctx.slice 1) s.conn.rx.length) hs
    dsimp only
    split_ifs with hall
    · have hsecond := hwrite _ (s.writeChunk (s.conn.rx.take
        (min (max s.ctx.slice 1) s.conn.rx.length))).1.conn.rx.length hfirst
      rwa [List.take_length] at hsecond
    · exact hfirst

theorem delivered_of {P : Link U → Prop} (hs : P s)
    (hwrite : ∀ t k, P t → P (t.writeChunk (t.conn.rx.take k)).1)
    (hshutdown : ∀ t, P t → P t.shutdownRx) (hdue : ∀ t, P t → P t.due) :
    P s.writeRx.shutdownRx.windowUpdate := by
  have hshut := hshutdown _ (written_of hs hwrite)
  rw [windowUpdate]
  split_ifs
  · exact hdue _ hshut
  · exact hshut

namespace Steady

variable {P : Link U → Prop} {G : Guard} {s : Link U}

theorem inputSynSent (steady : Steady P P G) (hs : P s) (hstate : s.conn.state = .synSent)
    (h : TcpHeader) : P (s.inputSynSent h) := by
  rw [Link.inputSynSent]
  split_ifs with hwrong hrst hrst hok hsyn
  · exact hs
  · exact steady.pushRst hs _
  · exact steady.finish hs _ _ (by simp)
  · exact hs
  · have hack : h.ack = s.conn.sndMax := by
      have hboth := hsyn.2
      rw [Bool.and_eq_true, decide_eq_true_iff] at hboth
      exact hboth.2
    exact steady.synAcked hs hstate h hack
  · exact hs

variable {payload : List Byte} {h : TcpHeader}

theorem inputAck (steady : Steady P P G) (hs : P s)
    (hsettle : seqLt s.conn.sndMax h.ack = false → P (s.settle h payload))
    (hdata : G.data s.recvKey h payload) : P (s.inputAck h payload) := by
  rw [inputAck_eq]
  split_ifs with hmax hlast
  · exact steady.due hs
  · exact hsettle (Bool.eq_false_iff.mpr hmax)
  · refine steady.takeSegment (hsettle (Bool.eq_false_iff.mpr hmax)) h payload ?_
    rw [recvKey_settle]
    exact hdata

theorem inputOpen (steady : Steady P P G) (hs : P s)
    (hopen : s.conn.state = .synReceived ∨ s.conn.isSynchronized = true)
    (hack : s.conn.isSynchronized = true → G.ack s.conn h)
    (hdata : h.ordinary → G.data s.recvKey h payload) : P (s.inputOpen h payload) := by
  rw [Link.inputOpen]
  split_ifs with haccept hrst hsyn hnone hstate hbounds
  · exact steady.refuse hs h
  · exact steady.finish hs _ _ (by simp)
  · exact steady.due hs
  · exact hs
  · have hordinary : h.ordinary := ⟨by simpa using hrst, by simpa using hsyn, by simpa using hnone⟩
    have hmax := steady.handshake hs hstate h.ack hbounds.1 hbounds.2
    have hsettled := steady.establish hs hstate h payload hmax
    -- the state with the handshake over need not have the property by itself
    have hpast : seqLt (s.establish h).conn.sndMax h.ack = false := by
      rw [hmax]
      exact seqLt_irrefl _
    rw [inputAck_eq, if_neg (Bool.eq_false_iff.mp hpast)]
    split_ifs with hlast
    · exact hsettled
    · refine steady.takeSegment hsettled h payload ?_
      rw [recvKey_settle]
      exact hdata hordinary
  · exact steady.pushRst hs _
  · have hordinary : h.ordinary := ⟨by simpa using hrst, by simpa using hsyn, by simpa using hnone⟩
    have hsync := hopen.resolve_left hstate
    exact steady.inputAck hs (fun hmax => steady.settle hs hsync h payload hmax (hack hsync))
      (hdata hordinary)

/-- The states with a handshake or past it. -/
theorem open_cases (c : TcpConn) : c.state = .closed ∨ c.state = .connecting ∨
    c.state = .synSent ∨ c.state = .synReceived ∨ c.isSynchronized = true := by
  cases hstate : c.state <;> simp [TcpConn.isSynchronized, hstate]

theorem input (steady : Steady P P G) (hs : P s)
    (hack : s.conn.isSynchronized = true → G.ack s.conn h)
    (hdata : s.conn.state = .synReceived ∨ s.conn.isSynchronized = true → h.ordinary →
      G.data s.recvKey h payload) : P (s.input h payload) := by
  rcases open_cases s.conn with hstate | hstate | hstate | hstate | hsync
  · rw [Link.input, hstate]
    exact hs
  · rw [Link.input, hstate]
    dsimp only
    split_ifs
    · exact steady.finish hs _ _ (by simp)
    · exact hs
  · rw [Link.input, hstate]
    exact steady.inputSynSent hs hstate h
  · rw [Link.input, hstate]
    dsimp only
    split_ifs
    · exact steady.sendSynAck hs hstate
    · exact steady.inputOpen hs (.inl hstate) hack (hdata (.inl hstate))
  · rw [input_of_isSynchronized hsync]
    exact steady.inputOpen hs (.inr hsync) hack (hdata (.inr hsync))

theorem onTimer (steady : Steady P P G) (hs : P s)
    (hlapse : s.conn.state = .timeWait → P (s.finish .normal false)) : P s.onTimer := by
  rw [Link.onTimer]
  by_cases hclosed : s.conn.state = .closed
  · rw [if_pos hclosed]
    exact hs
  by_cases hwait : s.conn.state = .timeWait ∧ s.conn.timeWaitDeadline ≤ s.ctx.now
  · rw [if_neg hclosed, if_pos hwait]
    exact hlapse hwait.1
  rw [if_neg hclosed, if_neg hwait]
  split
  · exact hs
  · split_ifs with hearly hidle
    · exact hs
    · rw [nothingDue, Bool.and_eq_true, decide_eq_true_iff] at hidle
      exact steady.cleared hs hidle.1
    · exact steady.expired hs hclosed

theorem abort (steady : Steady P P G) (hs : P s) : P s.abort := by
  rw [Link.abort]
  split_ifs with hclosed
  · exact hs
  · exact steady.reset hs hclosed _ (by simp)

theorem endTimeWait (hs : P s)
    (hlapse : s.conn.state = .timeWait → P (s.finish .normal false)) : P s.endTimeWait := by
  rw [Link.endTimeWait]
  split_ifs with hwait
  · exact hlapse hwait
  · exact hs

end Steady

namespace Kept

variable {P : Link U → Prop} {G : Guard} {s : Link U}

theorem process (kept : Kept P P G) (hs : P s) : P s.process := by
  rcases Steady.open_cases s.conn with hstate | hstate | hstate | hstate | hsync
  · rw [Link.process, hstate]
    exact hs
  · have hasked := kept.askStatus hs
    rw [Link.process, hstate]
    dsimp only
    split
    · exact kept.exchange (kept.opened hasked hstate) (.inl (state_opened _))
    · exact kept.refused hasked hstate _ (by simp)
    · split_ifs
      · exact kept.refused hasked hstate _ (by simp)
      · exact hasked
  · rw [Link.process, hstate]
    split_ifs
    · exact kept.finish hs _ _ (by simp)
    · exact hs
  · rw [Link.process, hstate]
    exact kept.exchange hs (.inl hstate)
  · rw [process_of_isSynchronized hsync]
    exact kept.exchange hs (.inr hsync)

/-! ### Runs -/

/-- A call is allowed if the segment that comes with it is. -/
def Allows (G : Guard) (s : Link U) (e : Event) : Prop :=
  ∀ h payload, e = .input h payload →
    (s.conn.isSynchronized = true → G.ack s.conn h) ∧
      (s.conn.state = .synReceived ∨ s.conn.isSynchronized = true →
        h.ordinary → G.data s.recvKey h payload)

theorem step (kept : Kept P P G) (hs : P s) (m : Moment U) (e : Event)
    (hallowed : Allows G s e) : P (s.step m e) := by
  have hmoved := kept.moved hs m
  cases e with
  | input h payload =>
    obtain ⟨hack, hdata⟩ := hallowed h payload rfl
    exact kept.toSteady.input hmoved hack hdata
  | timer => exact kept.toSteady.onTimer hmoved (kept.lapse hmoved)
  | process => exact kept.process hmoved
  | abort => exact kept.toSteady.abort hmoved
  | endTimeWait => exact Steady.endTimeWait hmoved (kept.lapse hmoved)

/-- What the connections start with and every action keeps holds in every state of
every run. -/
theorem reached (kept : Kept P P G) {ok : Link U → Event → Prop}
    (hallowed : ∀ s e, ok s e → Allows G s e)
    (hpassive : ∀ id flow syn iss localMss timeout (m : Moment U),
      P (fresh (TcpConn.new id flow syn iss localMss m.now timeout) m))
    (hactive : ∀ id flow iss localMss timeout (m : Moment U),
      P (fresh (TcpConn.newActive id flow iss localMss m.now timeout) m).startActive)
    (hreached : Reached ok s) : P s := by
  induction hreached with
  | passive id flow syn iss localMss timeout m => exact hpassive id flow syn iss localMss timeout m
  | active id flow iss localMss timeout m => exact hactive id flow iss localMss timeout m
  | step _ m e hok ih => exact kept.step ih m e (hallowed _ e hok)

end Kept

end Vetro.Tcp
