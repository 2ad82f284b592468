import Vetro.Net.HostFwd

/-!
# A TCP connection never stalls

One timer plays the part of the retransmission timer and, when the window of
the guest is closed, of the persist timer.  As long as something is not
acknowledged or not sent, it is set.
-/

namespace Vetro.Tcp

open Bytes Link
open Serial

variable {U : Type}

/-- What the timer depends on. -/
structure TimerView where
  state : State
  iss : Seq
  una : Seq
  nxt : Seq
  max : Seq
  waiting : ℕ
  cwnd : ℕ
  deadline : Option ℕ

def TcpConn.timerView (c : TcpConn) : TimerView :=
  ⟨c.state, c.iss, c.sndUna, c.sndNxt, c.sndMax, c.tx.length, c.cwnd, c.rtxDeadline⟩

/-- The states in which the timer has to be set for what is not acknowledged. -/
def State.timed (state : State) : Prop :=
  state.sending ∨ state = .synReceived ∨ state = .synSent

instance (state : State) : Decidable state.timed :=
  inferInstanceAs (Decidable (_ ∨ _ ∨ _))

/-- `sndNxt` is between `sndUna` and `sndMax`, which are a buffer apart at most, and
the timer is set if they differ. -/
structure Timed (v : TimerView) : Prop where
  cwnd : 0 < v.cwnd
  waiting : v.waiting ≤ txCapacity
  flight : ahead v.una v.nxt ≤ ahead v.una v.max
  bound : ahead v.una v.max ≤ txCapacity + 1
  armed : v.state.timed → v.una ≠ v.max → v.deadline ≠ none
  opening : v.state = .synReceived ∨ v.state = .synSent →
    v.una = v.iss ∧ v.nxt = v.iss + 1 ∧ v.max = v.iss + 1
  connecting : v.state = .connecting → v.una = v.iss

/-! ## Acknowledgements -/

namespace Timed

theorem txCapacity_small : 2 * (txCapacity + 2) < 2 ^ 32 := by decide

theorem ne_add_one (a : Seq) : a ≠ a + 1 := by
  intro heq
  have hone : ahead a (a + BitVec.ofNat 32 1) = 1 := ahead_add_ofNat_of_lt a (by decide)
  rw [show BitVec.ofNat 32 1 = (1 : Seq) from rfl, ← heq, ahead_self] at hone
  cases hone

variable {v : TimerView} {deadline : Option ℕ}

/-- Leaving the states that are sent from. -/
theorem leave (htimed : Timed v) {state : State} (hstate : ¬state.timed)
    (hconnecting : state ≠ .connecting) : Timed { v with state, deadline } :=
  ⟨htimed.cwnd, htimed.waiting, htimed.flight, htimed.bound, fun h => absurd h hstate,
    fun h => absurd (.inr h) hstate, fun h => absurd h hconnecting⟩

/-- A valid ACK is on the way from `una` to `max`. -/
theorem ack_le {ack : Seq} (hnew : seqLt v.una ack = true) (hmax : seqLt v.max ack = false) :
    ahead v.una ack ≤ ahead v.una v.max :=
  ahead_le_of_not_past (seqLt_iff.mp hnew).2 hmax

theorem ack (htimed : Timed v) {ack : Seq} {waiting cwnd : ℕ}
    (hstate : v.state ≠ .synReceived ∧ v.state ≠ .synSent) (hnew : seqLt v.una ack = true)
    (hmax : seqLt v.max ack = false) (hwaiting : waiting ≤ v.waiting) (hcwnd : 0 < cwnd)
    (hdeadline : ack ≠ v.max → deadline ≠ none) (hconnecting : v.state ≠ .connecting) :
    Timed { v with una := ack, nxt := if seqLt v.nxt ack then ack else v.nxt
                   waiting, cwnd, deadline } := by
  have hle := ack_le hnew hmax
  have hrest := ahead_of_le hle
  have hsmall := txCapacity_small
  refine ⟨hcwnd, hwaiting.trans htimed.waiting, ?_, ?_, fun _ => hdeadline,
    fun h => absurd h (not_or.mpr hstate), fun h => absurd h hconnecting⟩
  · split_ifs with hbehind
    · rw [ahead_self]
      exact Nat.zero_le _
    · -- the ACK is not past what was sent in this round
      have hflight := htimed.flight
      have hbound := htimed.bound
      have hnot : ¬ahead v.una v.nxt < ahead v.una ack := by
        rw [← seqLt_of_ahead v.una (by omega) (by omega)]
        exact hbehind
      rw [ahead_of_le (Nat.le_of_not_lt hnot), hrest]
      omega
  · have hbound := htimed.bound
    dsimp only
    omega

/-- More was sent: `n` numbers from `nxt` on. -/
theorem sent (htimed : Timed v) {n : ℕ} {state : State} (hsending : state.sending)
    (hroom : ahead v.una v.nxt + n ≤ txCapacity + 1) (hdeadline : deadline ≠ none) :
    Timed { v with
      state, deadline, nxt := v.nxt + BitVec.ofNat 32 n
      max := if seqLt v.max (v.nxt + BitVec.ofNat 32 n) then v.nxt + BitVec.ofNat 32 n
        else v.max } := by
  have hsmall := txCapacity_small
  have hbound := htimed.bound
  have hstop : ahead v.una (v.nxt + BitVec.ofNat 32 n) = ahead v.una v.nxt + n :=
    ahead_add (by omega)
  have hcompare := seqLt_of_ahead v.una (a := v.max)
    (b := v.nxt + BitVec.ofNat 32 n) (by omega) (by omega)
  have hother : state ≠ .synReceived ∧ state ≠ .synSent ∧ state ≠ .connecting := by
    refine ⟨?_, ?_, ?_⟩ <;> rintro rfl <;> exact absurd hsending (by decide)
  refine ⟨htimed.cwnd, htimed.waiting, ?_, ?_, fun _ _ => hdeadline,
    fun h => ?_, fun h => absurd h hother.2.2⟩
  · dsimp only
    split_ifs with hpast
    · exact le_refl _
    · rw [hcompare] at hpast
      omega
  · dsimp only
    split_ifs with hpast
    · omega
    · exact hbound
  · rcases h with h | h
    · exact absurd h hother.1
    · exact absurd h hother.2.1

/-- From one state that is sent from to another. -/
theorem turn (htimed : Timed v) {state : State} (hfrom : v.state.timed) (hsending : state.sending) :
    Timed { v with state } := by
  have hother : state ≠ .synReceived ∧ state ≠ .synSent ∧ state ≠ .connecting := by
    refine ⟨?_, ?_, ?_⟩ <;> rintro rfl <;> exact absurd hsending (by decide)
  exact ⟨htimed.cwnd, htimed.waiting, htimed.flight, htimed.bound, fun _ => htimed.armed hfrom,
    fun h => absurd h (not_or.mpr ⟨hother.1, hother.2.1⟩), fun h => absurd h hother.2.2⟩

end Timed

/-! ## The actions -/

variable {s : Link U}

/-- The timer of a connection is right. -/
def Link.Timed (s : Link U) : Prop := Tcp.Timed s.conn.timerView

theorem deadline_armRtx (c : TcpConn) (now : ℕ) : (c.armRtx now).rtxDeadline ≠ none := by
  rw [TcpConn.armRtx_eq]
  simp

namespace Link.Timed

variable (htimed : s.Timed)
include htimed

theorem emit (seq : Seq) (flags : Flags) (payload : List Byte) :
    (s.emit seq flags payload).Timed := htimed

theorem finish [Upstream U] (reason : CloseReason) (reset : Bool) :
    (s.finish reason reset).Timed := by
  have hclosed : ¬State.timed .closed := by decide
  rw [Link.finish]
  split_ifs
  · exact htimed
  · exact Tcp.Timed.leave htimed hclosed (by rintro ⟨⟩)

/-- The SYN, or the SYN-ACK, was sent. -/
theorem syn {c : TcpConn} (hcwnd : 0 < c.cwnd) (htx : c.tx = s.conn.tx)
    (hstate : c.state = .synReceived ∨ c.state = .synSent) (huna : c.sndUna = c.iss)
    (hnxt : c.sndNxt = c.iss + 1) (hmax : c.sndMax = c.iss + 1) (hdeadline : c.rtxDeadline ≠ none) :
    Tcp.Timed c.timerView := by
  have hone : ahead c.iss (c.iss + 1) = 1 := ahead_add_ofNat_of_lt c.iss (by decide)
  refine ⟨hcwnd, ?_, ?_, ?_, fun _ _ => hdeadline, fun _ => ⟨huna, hnxt, hmax⟩, fun h => ?_⟩
  · change c.tx.length ≤ _
    rw [htx]
    exact htimed.waiting
  · change ahead c.sndUna c.sndNxt ≤ ahead c.sndUna c.sndMax
    rw [hnxt, hmax]
  · change ahead c.sndUna c.sndMax ≤ _
    rw [huna, hmax, hone]
    decide
  · change c.state = .connecting at h
    rw [h] at hstate
    rcases hstate with hstate | hstate <;> cases hstate

theorem sendSynAck (hstate : s.conn.state = .synReceived) (huna : s.conn.sndUna = s.conn.iss) :
    s.sendSynAck.Timed := by
  rw [Link.Timed, Link.sendSynAck, Link.armRtx, TcpConn.armRtx_eq]
  exact syn htimed htimed.cwnd rfl (.inl hstate) huna rfl rfl (by simp)


theorem ackNew {ack : Seq} (hsync : s.conn.isSynchronized = true)
    (hnew : seqLt s.conn.sndUna ack = true) (hmax : seqLt s.conn.sndMax ack = false) :
    (s.ackNew ack).Timed := by
  have hcwnd : ∀ more, 0 < saturatingAdd s.conn.cwnd more := fun more =>
    lt_min (Nat.lt_of_lt_of_le htimed.cwnd (Nat.le_add_right _ _)) (by decide)
  have hother : ∀ state, state ∈ [State.connecting, .synSent, .synReceived, .closed] →
      s.conn.state ≠ state := by
    rintro state hstate rfl
    rw [TcpConn.isSynchronized, decide_eq_true_iff] at hsync
    exact hsync hstate
  have hset : ∀ deadline : ℕ, ack ≠ s.conn.sndMax →
      (if ack ≠ s.conn.sndMax then some deadline else none) ≠ none := by
    intro deadline hne
    rw [if_pos hne]
    simp
  rw [Link.Timed, ackNew_eq]
  refine Tcp.Timed.ack htimed ⟨hother _ (by decide), hother _ (by decide)⟩ hnew hmax ?_ ?_ ?_
    (hother _ (by decide))
  · rw [List.length_drop]
    exact Nat.sub_le _ _
  · split_ifs <;> exact hcwnd _
  · exact hset _

theorem duplicateAck : s.duplicateAck.Timed := by
  have hcwnd : 0 < max (s.conn.inFlight / 2) (2 * s.conn.mss.value) :=
    lt_max_of_lt_right (Nat.mul_pos Nat.two_pos (Nat.lt_of_lt_of_le (by decide) s.conn.mss.least))
  have hfast : ∀ c : TcpConn, c.timerView = { s.conn.timerView with
      cwnd := max (s.conn.inFlight / 2) (2 * s.conn.mss.value) } → Tcp.Timed c.timerView := by
    intro c hview
    rw [hview]
    exact ⟨hcwnd, htimed.waiting, htimed.flight, htimed.bound, htimed.armed, htimed.opening,
      htimed.connecting⟩
  rw [Link.duplicateAck, Link.fastRetransmit]
  split_ifs
  · exact hfast _ rfl
  · exact hfast _ rfl
  · exact htimed

theorem takeAck (hsync : s.conn.isSynchronized = true) (h : TcpHeader) (payload : List Byte)
    (hmax : seqLt s.conn.sndMax h.ack = false) : (s.takeAck h payload).Timed := by
  have hwindow : ∀ t : Link U, t.Timed →
      ({ t with conn := updateWindow t.conn h } : Link U).Timed := by
    intro t ht
    rw [Link.Timed, updateWindow_eq]
    exact ht
  have halive : ∀ t : Link U, t = s.alive h.ack → t.Timed ∧ t.conn.isSynchronized = true ∧
      seqLt t.conn.sndMax h.ack = false := by
    rintro t rfl
    rw [alive_eq]
    exact ⟨htimed, hsync, hmax⟩
  obtain ⟨htimed', hsync', hmax'⟩ := halive _ rfl
  refine hwindow _ ?_
  split_ifs with hnew
  · exact htimed'.ackNew hsync' hnew hmax'
  · exact htimed'.duplicateAck
  · exact htimed'

theorem onFinAcked (now : ℕ) : ({ s with conn := onFinAcked s.conn now } : Link U).Timed := by
  have hfinWait2 : ¬State.timed .finWait2 := by decide
  have htimeWait : ¬State.timed .timeWait := by decide
  rw [Link.Timed, Link.onFinAcked]
  split
  · exact Tcp.Timed.leave htimed hfinWait2 (by simp)
  · exact Tcp.Timed.leave htimed htimeWait (by rintro ⟨⟩)
  · exact htimed

theorem settle [Upstream U] (hsync : s.conn.isSynchronized = true) (h : TcpHeader)
    (payload : List Byte) (hmax : seqLt s.conn.sndMax h.ack = false) :
    (s.settle h payload).Timed := by
  have htaken := htimed.takeAck hsync h payload hmax
  rw [Link.settle]
  split_ifs
  · exact htaken.finish _ _
  · exact htaken.onFinAcked _
  · exact htaken

/-- The ACK of a SYN-ACK is not before it and not past it. -/
theorem handshake (hstate : s.conn.state = .synReceived) {ack : Seq}
    (hnew : seqLt s.conn.sndUna ack = true) (hle : seqLe ack s.conn.sndMax = true) :
    ack = s.conn.sndMax := by
  obtain ⟨huna, -, hmax⟩ := htimed.opening (.inl hstate)
  change s.conn.sndUna = s.conn.iss at huna
  change s.conn.sndMax = s.conn.iss + 1 at hmax
  have hone : ahead s.conn.sndUna s.conn.sndMax = 1 := by
    rw [huna, hmax]
    exact ahead_add_ofNat_of_lt _ (by decide)
  have htrans := ahead_trans s.conn.sndUna ack s.conn.sndMax
  rw [seqLt_iff] at hnew
  rw [seqLe_iff] at hle
  rw [← ahead_eq_zero]
  omega

theorem takeFin (h : TcpHeader) (payload : List Byte) (complete : Bool) :
    (s.takeFin h payload complete).Timed := by
  have hcloseWait : State.sending .closeWait := by decide
  have hclosing : State.sending .closing := by decide
  have htimeWait : ¬State.timed .timeWait := by decide
  have hfrom : s.conn.state.sending → s.conn.timerView.state.timed := .inl
  rw [Link.takeFin]
  split_ifs
  · rw [onFin]
    cases hstate : s.conn.state with
    | established => exact Tcp.Timed.turn htimed (hfrom (hstate ▸ by decide)) hcloseWait
    | finWait1 => exact Tcp.Timed.turn htimed (hfrom (hstate ▸ by decide)) hclosing
    | finWait2 => exact Tcp.Timed.leave htimed htimeWait (by rintro ⟨⟩)
    | _ => exact htimed
  · exact htimed

theorem takeSegment (h : TcpHeader) (payload : List Byte) : (s.takeSegment h payload).Timed := by
  have hdata : (s.takeData h payload).1.Timed := by
    rw [takeData]
    dsimp only
    split_ifs <;> exact htimed
  exact hdata.takeFin h payload _

theorem readOnce [Upstream U] : s.readOnce.1.Timed := by
  have hread : ∀ (t : Link U) (room : ℕ) (answer : TcpRead), t.Timed →
      room ≤ txCapacity - t.conn.tx.length → (t.takeRead room answer).1.Timed := by
    intro t room answer ht hfits
    cases answer with
    | data bytes =>
      rw [takeRead]
      split_ifs
      · exact ht
      · refine ⟨ht.cwnd, ?_, ht.flight, ht.bound, ht.armed, ht.opening, ht.connecting⟩
        have hwaiting := ht.waiting
        change t.conn.tx.length ≤ txCapacity at hwaiting
        change (t.conn.tx ++ bytes.take room).length ≤ txCapacity
        rw [List.length_append, List.length_take]
        omega
    | wouldBlock => exact ht
    | eof => exact ht
    | reset => exact ht
  exact hread _ _ _ htimed (min_le_left _ _)

theorem sendOne (hsending : s.conn.state.sending) (hmore : s.conn.inFlight < s.conn.tx.length) :
    s.sendOne.Timed := by
  have hwaiting := htimed.waiting
  change s.conn.tx.length ≤ txCapacity at hwaiting
  rw [Link.Timed, Link.sendOne, Link.armRtx, TcpConn.armRtx_eq]
  refine Tcp.Timed.sent htimed hsending ?_ (by simp)
  change s.conn.inFlight + _ ≤ _
  omega

theorem sendFin (hsending : s.conn.state.sending) : s.sendFin.Timed := by
  have hwaiting := htimed.waiting
  change s.conn.tx.length ≤ txCapacity at hwaiting
  rw [Link.sendFin]
  split
  · exact htimed
  · rename_i state hfin
    obtain ⟨-, hall, -⟩ := finState_cases hfin
    rw [Link.Timed, armRtx, TcpConn.armRtx_eq]
    refine Tcp.Timed.sent htimed (sending_finState hfin hsending) ?_ (by simp)
    change s.conn.inFlight + 1 ≤ _
    omega

theorem goBack {t : Link U} (hcwnd : 0 < t.conn.cwnd)
    (hview : t.conn.timerView =
      { s.conn.timerView with cwnd := t.conn.cwnd, deadline := t.conn.rtxDeadline })
    (hstate : t.conn.state ≠ .synReceived ∧ t.conn.state ≠ .synSent) : t.goBack.Timed := by
  have hback : ∀ c : TcpConn, c.timerView = { t.conn.timerView with
      nxt := t.conn.sndUna, deadline := c.rtxDeadline } → c.rtxDeadline ≠ none →
      Tcp.Timed c.timerView := by
    intro c hnext hdeadline
    have hsame : t.conn.state = s.conn.state := congrArg TimerView.state hview
    rw [hsame] at hstate
    have huna : t.conn.sndUna = s.conn.sndUna := congrArg TimerView.una hview
    rw [hnext, hview, huna]
    refine ⟨hcwnd, htimed.waiting, ?_, htimed.bound, fun _ _ => hdeadline,
      fun h => absurd h (not_or.mpr hstate), htimed.connecting⟩
    change ahead s.conn.sndUna s.conn.sndUna ≤ _
    rw [ahead_self]
    exact Nat.zero_le _
  rw [Link.Timed, Link.goBack, Link.armRtx, TcpConn.armRtx_eq]
  split_ifs <;> exact hback _ rfl (by simp)

/-- A timeout; the timer is set again by what follows from it. -/
theorem expired [Upstream U] (hopen : s.conn.state ≠ .closed) : s.expired.Timed := by
  have hclosed : ¬State.timed .closed := by decide
  have hcwnd : 0 < (backOff { s.conn with
      rtxDeadline := none, retries := s.conn.retries + 1 }).cwnd := by
    rw [backOff]
    split_ifs
    · exact Nat.lt_of_lt_of_le (by decide) s.conn.mss.least
    · exact htimed.cwnd
  have hfinish : ∀ t : Link U, t.conn.timerView = { s.conn.timerView with deadline := none } →
      (t.finish .timeout true).Timed := by
    intro t hview
    have hstate : t.conn.state = s.conn.state := congrArg TimerView.state hview
    rw [Link.finish, if_neg (hstate ▸ hopen)]
    change Tcp.Timed { t.conn.timerView with state := .closed, deadline := none }
    rw [hview]
    exact Tcp.Timed.leave htimed hclosed (by simp)
  rw [Link.expired, Link.retransmit]
  dsimp only
  split_ifs with hretries hreceived hsent
  · exact hfinish _ rfl
  · rw [Link.Timed, Link.sendSynAck, Link.armRtx, TcpConn.armRtx_eq]
    exact syn htimed hcwnd rfl (.inl hreceived) (htimed.opening (.inl hreceived)).1 rfl rfl
      (by simp)
  · rw [Link.Timed, sendSyn, armRtx, TcpConn.armRtx_eq]
    exact syn htimed hcwnd rfl (.inr hsent) (htimed.opening (.inr hsent)).1 rfl rfl (by simp)
  · exact htimed.goBack hcwnd rfl ⟨hreceived, hsent⟩

theorem synAcked (hstate : s.conn.state = .synSent) (h : TcpHeader) (hack : h.ack = s.conn.sndMax) :
    (s.synAcked h).Timed := by
  obtain ⟨-, hnxt, hmax⟩ := htimed.opening (.inr hstate)
  change s.conn.sndNxt = s.conn.iss + 1 at hnxt
  change s.conn.sndMax = s.conn.iss + 1 at hmax
  have hcwnd : 0 < 10 * (Mss.agree h.mss s.conn.localMss).value :=
    Nat.mul_pos (by decide) (Nat.lt_of_lt_of_le (by decide) (Mss.agree _ _).least)
  have hzero : ahead h.ack s.conn.sndMax = 0 := by rw [hack, ahead_self]
  have hflight : ahead h.ack s.conn.sndNxt = 0 := by rw [hack, hnxt, hmax, ahead_self]
  rw [Link.Timed, Link.synAcked, TcpConn.takeSample_eq]
  refine ⟨hcwnd, htimed.waiting, ?_, ?_, fun _ hne => absurd hack hne, ?_, by rintro ⟨⟩⟩
  · exact hflight.trans_le (Nat.zero_le _)
  · exact hzero.trans_le (Nat.zero_le _)
  · rintro (h | h) <;> cases h

end Link.Timed

theorem sends_timed [Upstream U] : Sends (U := U) Link.Timed where
  readOnce hs _ _ _ := hs.readOnce
  sendOne hs hsending hmore _ := hs.sendOne hsending hmore
  sendFin hs hsending := hs.sendFin hsending
  persist hs := by
    rw [persist]
    split_ifs
    · rw [Link.Timed, armRtx, TcpConn.armRtx_eq]
      exact ⟨hs.cwnd, hs.waiting, hs.flight, hs.bound, fun _ _ => by rintro ⟨⟩, hs.opening,
        hs.connecting⟩
    · exact hs

theorem Link.Timed.delivered [Upstream U] (htimed : s.Timed) :
    s.writeRx.shutdownRx.windowUpdate.Timed := by
  refine delivered_of htimed (fun _ _ ht => ht) (fun t ht => ?_) fun _ ht => ht
  rw [shutdownRx]
  split_ifs <;> exact ht

/-- Every action keeps the timer right. -/
theorem kept_timed [Upstream U] : Kept (U := U) Link.Timed Link.Timed {} where
  moved hs _ := hs
  due hs := hs
  refuse hs h := by
    rw [refuse]
    split_ifs <;> exact hs
  pushRst hs _ := hs
  finish hs reason reset _ := hs.finish reason reset
  reset hs _ reason _ := (hs.emit _ _ _).finish reason true
  askStatus hs := hs
  refused hs _ reason _ := (hs.emit _ _ _).finish reason true
  opened hs hstate := by
    rw [Link.Timed, opened, sendSynAck, armRtx, TcpConn.armRtx_eq]
    exact Link.Timed.syn hs hs.cwnd rfl (.inl rfl) (hs.connecting hstate) rfl rfl (by simp)
  sendSynAck hs hstate := hs.sendSynAck hstate (hs.opening (.inl hstate)).1
  synAcked hs hstate h hack := hs.synAcked hstate h hack
  handshake hs hstate _ := hs.handshake hstate
  establish hs hstate h payload hack := by
    have hestablished : State.sending .established := by decide
    have hopen : (establish _ h).Timed := Tcp.Timed.turn hs (.inr (.inl hstate)) hestablished
    refine hopen.settle rfl h payload ?_
    rw [hack]
    exact seqLt_irrefl _
  settle hs hsync h payload hmax _ := hs.settle hsync h payload hmax
  takeSegment hs h payload _ := hs.takeSegment h payload
  cleared hs hall := ⟨hs.cwnd, hs.waiting, hs.flight, hs.bound, fun _ hne => absurd hall hne,
    hs.opening, hs.connecting⟩
  expired hs hopen := hs.expired hopen
  lapse hs _ := hs.finish .normal false
  exchange hs _ := by
    refine sends_timed.exchange hs.delivered (fun t ht => ?_) fun t ht => ?_
    · exact (ht.emit _ _ _).finish .remoteReset true
    · rw [flushAck]
      split_ifs <;> exact ht

theorem Link.Timed.passive (id : ℕ) (flow : Flow) (syn : TcpHeader) (iss : Seq)
    (localMss timeout : ℕ) (m : Moment U) :
    (fresh (TcpConn.new id flow syn iss localMss m.now timeout) m).Timed := by
  have hcwnd : 0 < 10 * (Mss.agree syn.mss localMss).value :=
    Nat.mul_pos (by decide) (Nat.lt_of_lt_of_le (by decide) (Mss.agree _ _).least)
  refine ⟨hcwnd, Nat.zero_le _, le_refl _, ?_, fun _ hne => absurd rfl hne, ?_, fun _ => rfl⟩
  · change ahead iss iss ≤ _
    rw [ahead_self]
    exact Nat.zero_le _
  · rintro (h | h) <;> cases h

theorem Link.Timed.active (id : ℕ) (flow : Flow) (iss : Seq) (localMss timeout : ℕ) (m : Moment U) :
    (fresh (TcpConn.newActive id flow iss localMss m.now timeout) m).startActive.Timed := by
  have hpassive := Link.Timed.passive id flow
    ⟨flow.guest.port, flow.remote.port, 0, 0, { syn := true }, 0, none⟩ iss localMss timeout m
  rw [startActive_newActive, Link.Timed, sendSyn, armRtx, TcpConn.armRtx_eq]
  exact Link.Timed.syn hpassive hpassive.cwnd rfl (.inr rfl) rfl rfl rfl (by simp)

theorem Link.Timed.reached [Upstream U] {ok : Link U → Event → Prop} (hreached : Reached ok s) :
    s.Timed :=
  kept_timed.reached (fun _ _ _ _ _ _ => ⟨fun _ => trivial,
    fun _ _ => trivial⟩) Link.Timed.passive Link.Timed.active hreached

/-! ## After an exchange -/

/-- One segment of data moves `sndNxt` by a byte at least. -/
theorem inFlight_sendOne (htimed : s.Timed) (hmore : s.conn.inFlight < s.conn.tx.length)
    (husable : usable s.conn ≠ 0) : s.conn.inFlight < s.sendOne.conn.inFlight := by
  have hwaiting := htimed.waiting
  change s.conn.tx.length ≤ txCapacity at hwaiting
  have hsmall := Tcp.Timed.txCapacity_small
  have hleast := s.conn.mss.least
  have hsent : s.sendOne.conn.inFlight = s.conn.inFlight + min (min s.conn.mss.value
      (usable s.conn)) (s.conn.tx.length - s.conn.inFlight) := by
    rw [sendOne, armRtx, TcpConn.armRtx_eq]
    exact ahead_add (by change s.conn.inFlight + _ < _; omega)
  omega

/-- The loop ends because there is nothing to send or no window. -/
theorem sendData_stops {fuel : ℕ} (htimed : s.Timed) (hsending : s.conn.state.sending)
    (hfuel : s.conn.tx.length ≤ s.conn.inFlight + fuel) :
    (sendData fuel s).conn.tx.length ≤ (sendData fuel s).conn.inFlight ∨
      usable (sendData fuel s).conn = 0 := by
  induction fuel generalizing s with
  | zero => exact .inl hfuel
  | succ fuel ih =>
    rw [sendData]
    split_ifs with hstop
    · exact hstop
    · rw [not_or, Nat.not_le] at hstop
      have hgrows := inFlight_sendOne htimed hstop.1 hstop.2
      have htx : s.sendOne.conn.tx = s.conn.tx := by rw [sendOne_eq]
      refine ih (htimed.sendOne hsending hstop.1) ?_ ?_
      · rw [state_sendOne]
        exact hsending
      · rw [htx]
        omega

/-- Something was sent and is not acknowledged, or was never sent. -/
def TcpConn.outstanding (c : TcpConn) : Prop := c.sndUna ≠ c.sndMax ∨ c.inFlight < c.tx.length

theorem armed_sendFin (s : Link U) : s.sendFin = s ∨ s.sendFin.conn.rtxDeadline ≠ none := by
  rw [sendFin]
  split
  · exact .inl rfl
  · refine .inr ?_
    rw [armRtx, TcpConn.armRtx_eq]
    simp

/-- With nothing in flight, the windows leave no room for the data only if the guest's
is closed. -/
theorem armed_persist (htimed : s.Timed)
    (hstop : s.conn.tx.length ≤ s.conn.inFlight ∨ usable s.conn = 0)
    (hall : s.conn.sndUna = s.conn.sndMax) (hmore : s.conn.inFlight < s.conn.tx.length) :
    s.persist.conn.rtxDeadline ≠ none := by
  have hflight : s.conn.inFlight ≤ ahead s.conn.sndUna s.conn.sndMax := htimed.flight
  rw [hall, ahead_self] at hflight
  have hcwnd : 0 < s.conn.cwnd := htimed.cwnd
  have husable := hstop.resolve_left (Nat.not_le.mpr hmore)
  rw [usable] at husable
  have hclosed : s.conn.sndWnd = 0 := by omega
  rw [persist, if_pos ⟨hclosed, hall, hmore⟩]
  exact deadline_armRtx _ _

theorem persist_eq (s : Link U) :
    s.persist = { s with conn := { s.conn with rtxDeadline := s.persist.conn.rtxDeadline } } := by
  rw [persist]
  split_ifs
  · rw [armRtx, TcpConn.armRtx_eq]
  · rfl

/-- Timed states stay so, and the timer is set when the loop has left something. -/
theorem armed_transmit [Upstream U] (htimed : s.Timed) (hsending : s.conn.state.sending)
    (houtstanding : s.transmit.conn.outstanding) : s.transmit.conn.rtxDeadline ≠ none := by
  have hstops := sendData_stops htimed hsending (Nat.le_add_left s.conn.tx.length _)
  have hsent : (sendData s.conn.tx.length s).Timed := sends_timed.sendData _ htimed hsending
  have hsending' : (sendData s.conn.tx.length s).conn.state.sending := by
    rw [state_sendData]
    exact hsending
  rw [transmit_of_sending hsending] at houtstanding ⊢
  generalize sendData s.conn.tx.length s = t at *
  rcases armed_sendFin t with hsame | harmed
  · rw [hsame] at houtstanding ⊢
    by_cases hall : t.conn.sndUna = t.conn.sndMax
    · refine armed_persist hsent hstops hall ?_
      rw [persist_eq] at houtstanding
      exact houtstanding.resolve_left (not_not.mpr hall)
    · have hset := hsent.armed (.inl hsending') hall
      rw [persist]
      split_ifs
      · exact deadline_armRtx _ _
      · exact hset
  · rw [persist]
    split_ifs
    · exact deadline_armRtx _ _
    · exact harmed

/-- The timer of a connection is set after an exchange. -/
structure TcpConn.Awake (c : TcpConn) : Prop where
  sending : c.state.sending → c.outstanding → c.rtxDeadline ≠ none
  opening : c.state = .synReceived → c.rtxDeadline ≠ none

theorem awake_of_sending (htimed : s.Timed)
    (hset : s.conn.state.sending → s.conn.outstanding → s.conn.rtxDeadline ≠ none) :
    s.conn.Awake := by
  refine ⟨hset, fun hstate => ?_⟩
  obtain ⟨huna, -, hmax⟩ := htimed.opening (.inl hstate)
  refine htimed.armed (.inr (.inl hstate)) ?_
  rw [huna, hmax]
  exact Tcp.Timed.ne_add_one _

variable [Upstream U]

theorem awake_finish (s : Link U) (reason : CloseReason) (reset : Bool) :
    (s.finish reason reset).conn.Awake := by
  have hclosed := state_finish s reason reset
  refine ⟨fun h => ?_, fun h => ?_⟩
  · rw [hclosed] at h
    exact absurd h (by decide)
  · rw [hclosed] at h
    cases h

theorem awake_transmit (htimed : s.Timed) : s.transmit.conn.Awake := by
  refine awake_of_sending (sends_timed.transmit htimed) fun hstate houtstanding => ?_
  by_cases hsending : s.conn.state.sending
  · exact armed_transmit htimed hsending houtstanding
  · rw [transmit_of_not_sending hsending] at hstate
    exact absurd hstate hsending

omit [Upstream U] in
theorem awake_flushAck (hawake : s.conn.Awake) : s.flushAck.conn.Awake := by
  rw [flushAck]
  split_ifs
  · exact ⟨hawake.sending, hawake.opening⟩
  · exact hawake

theorem awake_exchange (htimed : s.Timed) : s.exchange.conn.Awake := by
  have hfilled := sends_timed.readTx htimed.delivered
  rw [exchange]
  split_ifs
  · exact awake_finish _ _ _
  · exact awake_flushAck (awake_transmit hfilled)

theorem awake_process (htimed : s.Timed) : s.process.conn.Awake := by
  have hidle : ∀ t : Link U, t.conn.state = .connecting ∨ t.conn.state = .synSent ∨
      t.conn.state = .closed → t.conn.Awake := by
    intro t hstate
    rcases hstate with hstate | hstate | hstate <;>
      exact ⟨fun h => absurd (hstate ▸ h) (by decide), fun h => absurd h (by simp [hstate])⟩
  have hexchange := awake_exchange htimed
  rw [process]
  cases hstate : s.conn.state with
  | closed => exact hidle s (.inr (.inr hstate))
  | connecting =>
    dsimp only
    split
    · exact awake_exchange (kept_timed.opened (kept_timed.askStatus htimed) hstate)
    · exact awake_finish _ _ _
    · split_ifs
      · exact awake_finish _ _ _
      · exact hidle _ (.inl hstate)
  | synSent =>
    split_ifs
    · exact awake_finish _ _ _
    · exact hidle s (.inr (.inl hstate))
  | _ => exact hexchange

/-- As long as something is not acknowledged or not sent, the timer is set after every
exchange, and the connection reports it. -/
theorem deadline_of_outstanding (hreached : Reached (fun _ _ => True) s) (m : Moment U) :
    let c := (s.step m .process).conn
    (c.state ∈ [.established, .closeWait, .finWait1, .lastAck, .closing] ∧
        (c.sndUna ≠ c.sndMax ∨ c.inFlight < c.tx.length) ∨ c.state = .synReceived) →
      ∃ deadline, c.rtxDeadline = some deadline ∧ c.nextDeadline = some deadline := by
  intro c hcase
  have hawake : c.Awake := awake_process (kept_timed.moved (Link.Timed.reached hreached) m)
  have hset : c.rtxDeadline ≠ none := by
    rcases hcase with ⟨hsending, houtstanding⟩ | hopening
    · exact hawake.sending hsending houtstanding
    · exact hawake.opening hopening
  obtain ⟨deadline, hdeadline⟩ := Option.ne_none_iff_exists'.mp hset
  refine ⟨deadline, hdeadline, ?_⟩
  have hreported : c.nextDeadline = c.rtxDeadline := by
    rw [TcpConn.nextDeadline]
    cases hstate : c.state <;> rw [hstate] at hcase <;> first | rfl | simp at hcase
  rw [hreported, hdeadline]

/-- No byte for the guest. -/
def noByte : Moment HostEnd := ⟨0, { flow := ⟨⟨1, 1⟩, ⟨2, 2⟩⟩ }, 0⟩

/-- A connection of the guest right after the handshake. -/
def handshaken : Link HostEnd :=
  let syn : TcpHeader := ⟨1, 2, 0, 0, { syn := true }, 100, none⟩
  let s := fresh (TcpConn.new 0 ⟨⟨1, 1⟩, ⟨2, 2⟩⟩ syn 7 1460 noByte.now 0) noByte
  (s.step noByte .process).step noByte (.input ⟨1, 2, 1, 8, { ack := true }, 100, none⟩ [])

/-- Three bytes for the guest. -/
def threeBytes : Moment HostEnd := { noByte with up.toGuest := [1, 2, 3] }

/-- Three bytes are sent, and the guest acknowledges the first one. -/
def ackedOne : Link HostEnd :=
  (handshaken.step threeBytes .process).step noByte
    (.input ⟨1, 2, 1, 9, { ack := true }, 100, none⟩ [])

theorem reached_handshaken : Reached (fun _ _ => True) handshaken := by
  rw [handshaken]
  exact .step (.step (.passive 0 _ _ 7 1460 0 _) _ _ trivial) _ _ trivial

/-- An established connection with three bytes in flight. -/
theorem deadline_of_outstanding_established :
    let c := (handshaken.step threeBytes .process).conn
    c.state = .established ∧ c.sndUna = 8 ∧ c.sndMax = 11 ∧
      ∃ deadline, c.rtxDeadline = some deadline ∧ c.nextDeadline = some deadline :=
  ⟨by decide +kernel, by decide +kernel, by decide +kernel,
    deadline_of_outstanding reached_handshaken threeBytes
      (.inl ⟨by decide +kernel, .inl (by decide +kernel)⟩)⟩

/-- In every run the sender keeps within its buffer: what is outstanding, a SYN or FIN
included, is far less than half of the sequence numbers, and `sndNxt` lies in it. -/
theorem sender_bounded (hreached : Reached (fun _ _ => True) s) :
    0 < s.conn.cwnd ∧ s.conn.tx.length ≤ txCapacity ∧
      ahead s.conn.sndUna s.conn.sndNxt ≤ ahead s.conn.sndUna s.conn.sndMax ∧
      ahead s.conn.sndUna s.conn.sndMax ≤ txCapacity + 1 := by
  have htimed := Link.Timed.reached hreached
  exact ⟨htimed.cwnd, htimed.waiting, htimed.flight, htimed.bound⟩

/-- Data is sent and partly acknowledged. -/
theorem sender_bounded_ackedOne :
    ackedOne.conn.sndUna = 9 ∧ ackedOne.conn.sndMax = 11 ∧ ackedOne.conn.tx = [2, 3] ∧
      0 < ackedOne.conn.cwnd ∧ ackedOne.conn.tx.length ≤ txCapacity ∧
      ahead ackedOne.conn.sndUna ackedOne.conn.sndNxt ≤
        ahead ackedOne.conn.sndUna ackedOne.conn.sndMax ∧
      ahead ackedOne.conn.sndUna ackedOne.conn.sndMax ≤ txCapacity + 1 :=
  ⟨by decide +kernel, by decide +kernel, by decide +kernel,
    sender_bounded (.step (.step reached_handshaken _ _ trivial) _ _ trivial)⟩

end Vetro.Tcp
