import Vetro.Net.TcpTimer

/-!
# The stream towards the guest

Every segment with data carries the bytes of the upstream at the offset that its
sequence number stands for, and `tx` holds the stream from `sndUna` on.  This
rests on the corrections for the SYN and the FIN in the acknowledged bytes; the
one for the SYN is wrong when `sndUna` comes back to `iss` after 4 GiB.
-/

namespace Vetro.Tcp

open Bytes List Link
open Serial

variable {U : Type}

/-! ## Segments and the stream -/

/-- The data of a segment are those of `stream` at the offset of its sequence number,
and the offset is one of the last that the buffer can hold. -/
def Carries (iss : Seq) (stream : List Byte) (segment : Segment) : Prop :=
  ∃ offset, segment.seq = place (iss + 1) offset ∧
    segment.payload = (stream.drop offset).take segment.payload.length ∧
    offset + segment.payload.length ≤ stream.length ∧ stream.length ≤ offset + txCapacity

/-- Every segment with data was right when it was sent. -/
def Carried (iss : Seq) : List Act → Prop :=
  Trace.Always fun before act => ∀ segment, act = .sent segment → segment.payload ≠ [] →
    Carries iss (provided before) segment

/-- Nothing for the stream towards the guest. -/
def Act.quiet : Act → Prop
  | .sent segment => segment.payload = []
  | .read _ (.data _) => False
  | _ => True

variable {act : Act}

theorem Act.quiet.given (hquiet : act.quiet) : act.given = [] := by
  cases act with
  | read room answer =>
    cases answer with
    | data bytes => exact absurd hquiet id
    | _ => rfl
  | _ => rfl

theorem Carried.quiet {iss : Seq} {acts : List Act} (hcarried : Carried iss acts)
    (hquiet : act.quiet) : Carried iss (acts ++ [act]) := by
  refine Trace.Always.append hcarried fun segment heq hdata => ?_
  subst heq
  exact absurd hquiet hdata

/-! ## The invariant -/

/-- What the stream depends on. -/
structure SendView where
  state : State
  iss : Seq
  una : Seq
  max : Seq
  tx : List Byte
  txEof : Bool
  finSeq : Option Seq

def TcpConn.sendView (c : TcpConn) : SendView :=
  ⟨c.state, c.iss, c.sndUna, c.sndMax, c.tx, c.txEof, c.finSeq⟩

/-- The numbers in use: those of the bytes, and one for the FIN once it was sent. -/
def SendView.Reaches (v : SendView) (stream : List Byte) : Prop :=
  match v.finSeq with
  | none => ahead v.una v.max ≤ v.tx.length
  | some f => f = place (v.iss + 1) stream.length ∧ v.txEof = true ∧
    ahead v.una v.max = v.tx.length + 1

/-- `tx` is the stream from `una` on, of which `n` bytes are acknowledged. -/
def SendView.Aligned (v : SendView) (stream : List Byte) (n : ℕ) : Prop :=
  v.una = place (v.iss + 1) n ∧ v.tx = stream.drop n

/-- `tx` is the stream from `una` on; before the first ACK that is the whole of it. -/
def SendView.Holds (v : SendView) (stream : List Byte) : Prop :=
  (v.una = v.iss ∧ v.tx = stream) ∨ ∃ n ≤ stream.length + 1, v.Aligned stream n

structure Sent (v : SendView) (stream : List Byte) : Prop where
  opening : v.state = .connecting ∨ v.state = .synSent ∨ v.state = .synReceived →
    v.una = v.iss ∧ v.tx = stream ∧ v.finSeq = none
  sending : v.state.sending →
    ∃ n ≤ stream.length, v.Aligned stream n ∧ v.Reaches stream
  unsent : v.state = .established ∨ v.state = .closeWait → v.finSeq = none
  done : v.state = .finWait2 ∨ v.state = .timeWait →
    v.una = v.max ∧ v.Aligned stream (stream.length + 1)
  closed : v.state = .closed → v.Holds stream

variable {n : ℕ}

namespace Sent

variable {v : SendView} {stream : List Byte}

theorem of_opening (hstate : v.state = .connecting ∨ v.state = .synSent ∨ v.state = .synReceived)
    (huna : v.una = v.iss) (htx : v.tx = stream) (hfin : v.finSeq = none) : Sent v stream := by
  have hother : ¬v.state.sending ∧ ¬(v.state = .finWait2 ∨ v.state = .timeWait) ∧
      v.state ≠ .closed := by
    rcases hstate with hstate | hstate | hstate <;> rw [hstate] <;> decide
  exact ⟨fun _ => ⟨huna, htx, hfin⟩, fun h => absurd h hother.1, fun _ => hfin,
    fun h => absurd h hother.2.1, fun h => absurd h hother.2.2⟩

theorem of_sending (hstate : v.state.sending)
    (hunsent : v.state = .established ∨ v.state = .closeWait → v.finSeq = none)
    (hn : n ≤ stream.length) (haligned : v.Aligned stream n) (hreaches : v.Reaches stream) :
    Sent v stream := by
  have hother : ¬(v.state = .connecting ∨ v.state = .synSent ∨ v.state = .synReceived) ∧
      ¬(v.state = .finWait2 ∨ v.state = .timeWait) ∧ v.state ≠ .closed := by
    revert hstate
    cases v.state <;> decide
  exact ⟨fun h => absurd h hother.1, fun _ => ⟨n, hn, haligned, hreaches⟩, hunsent,
    fun h => absurd h hother.2.1, fun h => absurd h hother.2.2⟩

theorem of_done (hstate : v.state = .finWait2 ∨ v.state = .timeWait) (hall : v.una = v.max)
    (haligned : v.Aligned stream (stream.length + 1)) : Sent v stream := by
  refine ⟨fun h => ?_, fun h => ?_, fun h => ?_, fun _ => ⟨hall, haligned⟩, fun h => ?_⟩ <;>
    rcases hstate with hstate | hstate <;> rw [hstate] at h <;> exact absurd h (by decide)

theorem of_closed (hstate : v.state = .closed) (hholds : v.Holds stream) : Sent v stream := by
  refine ⟨fun h => ?_, fun h => ?_, fun h => ?_, fun h => ?_, fun _ => hholds⟩ <;>
    rw [hstate] at h <;> exact absurd h (by decide)

end Sent

variable {stream : List Byte}

theorem Sent.holds {v : SendView} (hsent : Sent v stream) : v.Holds stream := by
  have hopening := hsent.opening
  have hsending := hsent.sending
  have hdone := hsent.done
  have hcases : (v.state = .connecting ∨ v.state = .synSent ∨ v.state = .synReceived) ∨
      v.state.sending ∨ (v.state = .finWait2 ∨ v.state = .timeWait) ∨ v.state = .closed := by
    cases v.state <;> decide
  rcases hcases with h | h | h | h
  · exact .inl ⟨(hopening h).1, (hopening h).2.1⟩
  · obtain ⟨n, hn, haligned, -⟩ := hsending h
    exact .inr ⟨n, hn.trans (Nat.le_succ _), haligned⟩
  · exact .inr ⟨_, le_refl _, (hdone h).2⟩
  · exact hsent.closed h

/-! ## Acknowledgements -/

namespace SendView

variable {v : SendView} {stream : List Byte} {n : ℕ} {ack : Seq}

section

variable (haligned : v.Aligned stream n)
include haligned

theorem Aligned.una : v.una = place (v.iss + 1) n := haligned.1

theorem Aligned.tx : v.tx = stream.drop n := haligned.2

theorem Aligned.length (hn : n ≤ stream.length) : n + v.tx.length = stream.length := by
  rw [haligned.tx, length_drop]
  omega

/-- The number of an offset from `una` on. -/
theorem Aligned.place_add (k : ℕ) : v.una + BitVec.ofNat 32 k = place (v.iss + 1) (n + k) := by
  rw [haligned.una, Serial.place_add]

/-- An ACK of bytes only. -/
theorem Aligned.ack_data :
    Aligned { v with una := ack, tx := v.tx.drop (ahead v.una ack) } stream
      (n + ahead v.una ack) := by
  refine ⟨?_, ?_⟩
  · rw [← haligned.place_add, add_ahead]
  · rw [haligned.tx, drop_drop]

end

theorem Reaches.of_none (hreaches : v.Reaches stream) (hfin : v.finSeq = none) :
    ahead v.una v.max ≤ v.tx.length := by
  rwa [Reaches, hfin] at hreaches

theorem Reaches.of_some {f : Seq} (hreaches : v.Reaches stream) (hfin : v.finSeq = some f) :
    f = place (v.iss + 1) stream.length ∧ v.txEof = true ∧
      ahead v.una v.max = v.tx.length + 1 := by
  rwa [Reaches, hfin] at hreaches

theorem reaches_none (hfin : v.finSeq = none) (hmax : ahead v.una v.max ≤ v.tx.length) :
    v.Reaches stream := by
  rwa [Reaches, hfin]

theorem reaches_some {f : Seq} (hfin : v.finSeq = some f)
    (hf : f = place (v.iss + 1) stream.length) (heof : v.txEof = true)
    (hmax : ahead v.una v.max = v.tx.length + 1) : v.Reaches stream := by
  rw [Reaches, hfin]
  exact ⟨hf, heof, hmax⟩

theorem Reaches.ack_data (hreaches : v.Reaches stream)
    (hack : ahead v.una ack ≤ v.tx.length) (hle : ahead v.una ack ≤ ahead v.una v.max) :
    Reaches { v with una := ack, tx := v.tx.drop (ahead v.una ack) } stream := by
  have hrest := ahead_of_le hle
  cases hfin : v.finSeq with
  | none =>
    have hmax := hreaches.of_none hfin
    refine reaches_none rfl ?_
    dsimp only
    rw [length_drop]
    omega
  | some f =>
    obtain ⟨hf, heof, hmax⟩ := hreaches.of_some hfin
    refine reaches_some rfl hf heof ?_
    dsimp only
    rw [length_drop]
    omega

theorem Reaches.le (hreaches : v.Reaches stream) : ahead v.una v.max ≤ v.tx.length + 1 := by
  cases hfin : v.finSeq with
  | none => exact (hreaches.of_none hfin).trans (Nat.le_succ _)
  | some f => exact (hreaches.of_some hfin).2.2.le

/-- An ACK of everything, the FIN too. -/
theorem Aligned.ack_fin (haligned : v.Aligned stream n) (hn : n ≤ stream.length)
    (hack : ahead v.una ack = v.tx.length + 1) :
    Aligned { v with una := ack, tx := [] } stream (stream.length + 1) := by
  have hlength := haligned.length hn
  refine ⟨?_, ?_⟩
  · change ack = _
    rw [← add_ahead v.una ack, haligned.place_add, hack]
    congr 1
    omega
  · rw [drop_eq_nil_of_le (Nat.le_succ _)]

end SendView

/-- Right after the handshake nothing but the SYN is acknowledged. -/
theorem Sent.established {v : SendView} (hstate : v.state = .established) (hall : v.una = v.max)
    (huna : v.una = v.iss + 1) (htx : v.tx = stream) (hfin : v.finSeq = none) : Sent v stream := by
  refine of_sending (n := 0) ?_ (fun _ => hfin) (Nat.zero_le _) ⟨?_, ?_⟩
    (SendView.reaches_none hfin ?_)
  · rw [hstate]
    decide
  · rw [huna, place_zero]
  · rw [htx, drop_zero]
  · rw [hall, ahead_self]
    exact Nat.zero_le _

theorem toNat_sub_one {x : Seq} (hpos : 0 < x.toNat) : (x - 1).toNat = x.toNat - 1 := by
  have hone : (1 : Seq).toNat = 1 := rfl
  rw [BitVec.toNat_sub_of_le (BitVec.le_def.mpr (hone.trans_le hpos)), hone]

variable {c : TcpConn} {ack : Seq}

/-- The bytes that an ACK acknowledges, unless it is taken for the one of the SYN. -/
theorem toNat_ackedBytes (hstart : c.sndUna ≠ c.iss) (hnew : seqLt c.sndUna ack = true) :
    (ackedBytes c ack).toNat =
      if finAckedBy c ack then ahead c.sndUna ack - 1 else ahead c.sndUna ack := by
  rw [ackedBytes, if_neg hstart]
  split_ifs
  · exact toNat_sub_one (seqLt_iff.mp hnew).1
  · rfl

/-- The ACK of the SYN-ACK acknowledges no bytes. -/
theorem toNat_ackedBytes_syn (hstart : c.sndUna = c.iss) (hfin : c.finSeq = none) :
    (ackedBytes c (c.iss + 1)).toNat = 0 := by
  have hone : c.iss + 1 - c.iss - 1 = 0 := by grind
  rw [ackedBytes, if_pos hstart, finAckedBy, hfin, hstart]
  dsimp only
  rw [if_neg (by decide), hone]
  rfl

theorem ack_le (hnew : seqLt c.sndUna ack = true) (hmax : seqLt c.sndMax ack = false) :
    ahead c.sndUna ack ≤ ahead c.sndUna c.sndMax :=
  Timed.ack_le (v := c.timerView) hnew hmax

/-- The FIN is acknowledged by the ACK past all the bytes. -/
theorem finAckedBy_iff (htimed : Timed c.timerView) (haligned : c.sendView.Aligned stream n)
    (hn : n ≤ stream.length) (hreaches : c.sendView.Reaches stream)
    (hnew : seqLt c.sndUna ack = true) (hmax : seqLt c.sndMax ack = false) :
    finAckedBy c ack = true ↔ ahead c.sndUna ack = c.tx.length + 1 := by
  have hle := ack_le hnew hmax
  have hlength : n + c.tx.length = stream.length := haligned.length hn
  have hwaiting : c.tx.length ≤ txCapacity := htimed.waiting
  have hsmall := Timed.txCapacity_small
  rw [finAckedBy]
  cases hfin : c.finSeq with
  | none =>
    have hreach : ahead c.sndUna c.sndMax ≤ c.tx.length := hreaches.of_none hfin
    simp only [Bool.false_eq_true, false_iff]
    omega
  | some f =>
    have hsome := hreaches.of_some (v := c.sendView) hfin
    have hreach : ahead c.sndUna c.sndMax = c.tx.length + 1 := hsome.2.2
    have hplace : f = c.sndUna + BitVec.ofNat 32 c.tx.length := by
      rw [hsome.1, ← hlength]
      exact (haligned.place_add _).symm
    have hahead : ahead c.sndUna f = c.tx.length := by
      rw [hplace]
      exact ahead_add_ofNat_of_lt _ (by omega)
    have hcompare := seqLt_of_ahead c.sndUna (a := f) (b := ack) (by omega) (by omega)
    simp only [hnew, Bool.true_and]
    rw [hcompare, hahead]
    omega

/-! ## The actions -/

variable {s t : Link U}

/-- The stream towards the guest is right. -/
structure Link.Sending (s : Link U) : Prop where
  timed : s.Timed
  sent : Sent s.conn.sendView (provided s.ctx.acts)
  carried : Carried s.conn.iss s.ctx.acts

/-- The stream towards the guest is right, the timers apart. -/
structure Link.Carrying (s : Link U) : Prop where
  sent : Sent s.conn.sendView (provided s.ctx.acts)
  carried : Carried s.conn.iss s.ctx.acts

theorem Link.Carrying.sending (htimed : s.Timed) (hs : s.Carrying) : s.Sending :=
  ⟨htimed, hs.sent, hs.carried⟩

theorem Link.Sending.carrying (hs : s.Sending) : s.Carrying := ⟨hs.sent, hs.carried⟩

variable {h : TcpHeader}

namespace Link

/-- What an ACK of something new does to the stream. -/
theorem takeAck_new (hnew : seqLt s.conn.sndUna h.ack = true) (payload : List Byte) :
    (s.takeAck h payload).conn.sendView = { s.conn.sendView with
        una := h.ack
        tx := s.conn.tx.drop (min (ackedBytes s.conn h.ack).toNat s.conn.tx.length) } ∧
      (s.takeAck h payload).ctx.acts = s.ctx.acts := by
  have hwindow : ∀ r : Link U, (updateWindow r.conn h).sendView = r.conn.sendView := by
    intro r
    rw [updateWindow_eq]
    rfl
  have halive : seqLt (s.alive h.ack).conn.sndUna h.ack = true := by
    rw [alive_eq]
    exact hnew
  rw [takeAck]
  rw [hwindow, if_pos halive, ackNew_eq, alive_eq]
  exact ⟨rfl, rfl⟩

/-- The first bytes that are not acknowledged may be sent again. -/
def Repeats (s t : Link U) : Prop :=
  t.conn.sendView = s.conn.sendView ∧ (t.ctx.acts = s.ctx.acts ∨
    ∃ segment n, t.ctx.acts = s.ctx.acts ++ [.sent segment] ∧ segment.seq = s.conn.sndUna ∧
      segment.payload = s.conn.tx.take n ∧ n ≤ s.conn.tx.length ∧
      s.conn.sndUna ≠ s.conn.sndMax)

theorem repeats_duplicateAck (hopen : s.conn.sndUna ≠ s.conn.sndMax) :
    s.Repeats s.duplicateAck := by
  rw [duplicateAck, fastRetransmit]
  split_ifs
  · exact ⟨rfl, .inl rfl⟩
  · exact ⟨rfl, .inr ⟨_, _, rfl, rfl, rfl, (min_le_left _ _).trans (min_le_right _ _), hopen⟩⟩
  · exact ⟨rfl, .inl rfl⟩

/-- What any other ACK does. -/
theorem takeAck_old (hold : seqLt s.conn.sndUna h.ack = false) (payload : List Byte) :
    s.Repeats (s.takeAck h payload) := by
  have hwindow : ∀ r : Link U, s.Repeats r →
      s.Repeats { r with conn := updateWindow r.conn h } := by
    intro r hrepeats
    rw [updateWindow_eq]
    exact hrepeats
  have halive : s.alive h.ack =
      { s with conn := { s.conn with retries := (s.alive h.ack).conn.retries } } := alive_eq s h.ack
  rw [takeAck]
  refine hwindow _ ?_
  rw [halive]
  rw [if_neg (by rw [hold]; decide)]
  split_ifs with hduplicate
  · refine repeats_duplicateAck ?_
    simp only [isDuplicate, Bool.and_eq_true, decide_eq_true_eq] at hduplicate
    exact hduplicate.2.symm
  · exact ⟨rfl, .inl rfl⟩

end Link

namespace Link.Carrying

section

variable (hs : s.Carrying)
include hs

/-- A change of the connection alone. -/
theorem changed (hiss : t.conn.iss = s.conn.iss) (hacts : t.ctx.acts = s.ctx.acts)
    (hsent : Sent t.conn.sendView (provided s.ctx.acts)) : t.Carrying := by
  refine ⟨?_, ?_⟩
  · rwa [hacts]
  · rw [hiss, hacts]
    exact hs.carried

theorem same (hview : t.conn.sendView = s.conn.sendView) (hacts : t.ctx.acts = s.ctx.acts) :
    t.Carrying :=
  hs.changed (congrArg SendView.iss hview) hacts (hview ▸ hs.sent)

theorem acted (hsent : Sent t.conn.sendView (provided s.ctx.acts)) (hiss : t.conn.iss = s.conn.iss)
    (hacts : t.ctx.acts = s.ctx.acts ++ [act]) (hquiet : act.quiet) : t.Carrying := by
  refine ⟨?_, ?_⟩
  · rw [hacts, provided_append, hquiet.given, append_nil]
    exact hsent
  · rw [hiss, hacts]
    exact hs.carried.quiet hquiet

theorem emit (seq : Seq) (flags : Flags) : (s.emit seq flags []).Carrying :=
  hs.acted hs.sent rfl rfl rfl

end

theorem finished [Upstream U] (hopen : s.conn.state ≠ .closed)
    (hholds : s.conn.sendView.Holds (provided s.ctx.acts))
    (hcarried : Carried s.conn.iss s.ctx.acts) {reason : CloseReason} {reset : Bool} :
    (s.finish reason reset).Carrying := by
  have hquiet : (Act.close reset).quiet := trivial
  rw [finish, if_neg hopen]
  refine ⟨?_, hcarried.quiet hquiet⟩
  rw [provided_append, hquiet.given, append_nil]
  exact Sent.of_closed rfl hholds

variable (hs : s.Carrying)
include hs

theorem finish [Upstream U] (reason : CloseReason) (reset : Bool) :
    (s.finish reason reset).Carrying := by
  by_cases hclosed : s.conn.state = .closed
  · rw [Link.finish, if_pos hclosed]
    exact hs
  · exact finished hclosed hs.sent.holds hs.carried

/-- The FIN of the guest. -/
theorem takeFin (h : TcpHeader) (payload : List Byte) (complete : Bool) :
    (s.takeFin h payload complete).Carrying := by
  have hturn : ∀ state : State, s.conn.state.sending → state.sending →
      (state = .closeWait → s.conn.state = .established) → state ≠ .established →
      Sent { s.conn.sendView with state } (provided s.ctx.acts) := by
    intro state hsending hstate hclose hother
    obtain ⟨n, hn, haligned, hreaches⟩ := hs.sent.sending hsending
    refine Sent.of_sending hstate (fun h => ?_) hn haligned hreaches
    exact hs.sent.unsent (.inl (hclose (h.resolve_left hother)))
  rw [Link.takeFin]
  split_ifs with htake
  · rw [onFin]
    cases hstate : s.conn.state with
    | established =>
      rw [hstate] at hturn
      exact ⟨hturn .closeWait (by decide) (by decide) (fun _ => rfl) (by simp), hs.carried⟩
    | finWait1 =>
      rw [hstate] at hturn
      exact ⟨hturn .closing (by decide) (by decide) (by simp) (by simp), hs.carried⟩
    | finWait2 =>
      obtain ⟨hall, haligned⟩ := hs.sent.done (.inl hstate)
      exact ⟨Sent.of_done (.inr rfl) hall haligned, hs.carried⟩
    | _ => exact hs.same rfl rfl
  · exact hs

theorem takeSegment (h : TcpHeader) (payload : List Byte) : (s.takeSegment h payload).Carrying := by
  have hdata : (s.takeData h payload).1.Carrying := by
    rw [takeData]
    dsimp only
    split_ifs
    · exact hs.same rfl rfl
    · exact hs.same rfl rfl
    · exact hs.same rfl rfl
    · exact hs
  exact hdata.takeFin h payload _

/-- The SYN, or the SYN-ACK, was sent. -/
theorem syn
    (hfrom : s.conn.state = .connecting ∨ s.conn.state = .synSent ∨ s.conn.state = .synReceived)
    (hstate : t.conn.state = .synSent ∨ t.conn.state = .synReceived)
    (hview : t.conn.sendView = { s.conn.sendView with state := t.conn.state, max := t.conn.sndMax })
    (hacts : t.ctx.acts = s.ctx.acts ++ [act]) (hquiet : act.quiet) : t.Carrying := by
  obtain ⟨huna, htx, hfin⟩ := hs.sent.opening hfrom
  refine hs.acted ?_ (congrArg SendView.iss hview) hacts hquiet
  refine Sent.of_opening (.inr hstate) ?_ ?_ ?_
  · rw [hview]
    exact huna
  · rw [hview]
    exact htx
  · rw [hview]
    exact hfin

theorem sendSynAck (hstate : s.conn.state = .synReceived) : s.sendSynAck.Carrying := by
  rw [Link.sendSynAck, Link.armRtx, TcpConn.armRtx_eq]
  exact hs.syn (.inr (.inr hstate)) (.inr hstate) rfl rfl rfl

theorem opened (hstate : s.conn.state = .connecting) : s.opened.Carrying := by
  rw [Link.opened, Link.sendSynAck, Link.armRtx, TcpConn.armRtx_eq]
  exact hs.syn (.inl hstate) (.inr rfl) rfl rfl rfl

theorem goBack (hview : t.conn.sendView = s.conn.sendView) (hacts : t.ctx.acts = s.ctx.acts) :
    t.goBack.Carrying := by
  rw [Link.goBack, Link.armRtx, TcpConn.armRtx_eq]
  split_ifs
  · refine hs.acted ?_ (congrArg SendView.iss hview) (congrArg (· ++ [_]) hacts) rfl
    exact hview ▸ hs.sent
  · exact hs.same hview hacts

theorem expired [Upstream U] (hopen : s.conn.state ≠ .closed) : s.expired.Carrying := by
  have hfinished : ∀ t : Link U, t.conn.sendView = s.conn.sendView →
      t.ctx.acts = s.ctx.acts → (t.sendRst.finish .timeout true).Carrying := by
    intro t hview hacts
    have hopen' : t.sendRst.conn.state ≠ .closed := by
      have hstate : t.conn.state = s.conn.state := congrArg SendView.state hview
      exact hstate ▸ hopen
    refine finished hopen' ?_ ?_
    · change t.conn.sendView.Holds (provided (t.ctx.acts ++ [_]))
      rw [hview, hacts, provided_append, Act.given_sent, append_nil]
      exact hs.sent.holds
    · have hiss : t.conn.iss = s.conn.iss := congrArg SendView.iss hview
      change Carried t.conn.iss (t.ctx.acts ++ [_])
      rw [hiss, hacts]
      exact hs.carried.quiet rfl
  rw [Link.expired, Link.retransmit]
  dsimp only
  split_ifs with hretries hreceived hsent
  · exact hfinished _ rfl rfl
  · rw [Link.sendSynAck, Link.armRtx, TcpConn.armRtx_eq]
    exact hs.syn (.inr (.inr hreceived)) (.inr hreceived) rfl rfl rfl
  · rw [sendSyn, armRtx, TcpConn.armRtx_eq]
    exact hs.syn (.inr (.inl hsent)) (.inl hsent) rfl rfl rfl
  · exact hs.goBack rfl rfl

/-- Bytes of the upstream go to the end of `tx`. -/
theorem read (hreading : s.conn.state.reading) {bytes : List Byte}
    (hview : t.conn.sendView =
      { s.conn.sendView with tx := s.conn.tx ++ bytes, txEof := t.conn.txEof })
    (hacts : t.ctx.acts = s.ctx.acts ++ [act]) (hgiven : act.given = bytes)
    (hact : ∀ segment, act ≠ .sent segment) : t.Carrying := by
  refine ⟨?_, ?_⟩
  · rw [hview, hacts, provided_append, hgiven]
    by_cases hreceived : s.conn.state = .synReceived
    · obtain ⟨huna, htx, hfin⟩ := hs.sent.opening (.inr (.inr hreceived))
      refine Sent.of_opening (.inr (.inr hreceived)) huna ?_ hfin
      exact congrArg (· ++ bytes) htx
    · have hopen : s.conn.state = .established ∨ s.conn.state = .closeWait := by
        revert hreading hreceived
        cases s.conn.state <;> simp [State.reading]
      have hfin : s.conn.finSeq = none := hs.sent.unsent hopen
      have hsending : s.conn.state.sending := by
        rcases hopen with hopen | hopen <;> rw [hopen] <;> decide
      obtain ⟨n, hn, haligned, hreaches⟩ := hs.sent.sending hsending
      refine Sent.of_sending hsending (fun _ => hfin) (n := n) ?_ ⟨haligned.una, ?_⟩
        (SendView.reaches_none hfin ?_)
      · rw [length_append]
        omega
      · have htx : s.conn.tx = _ := haligned.tx
        rw [drop_append_of_le_length hn, htx]
      · have hmax : ahead s.conn.sndUna s.conn.sndMax ≤ s.conn.tx.length := hreaches.of_none hfin
        change ahead s.conn.sndUna s.conn.sndMax ≤ (s.conn.tx ++ bytes).length
        rw [length_append]
        omega
  · have hiss : t.conn.iss = s.conn.iss := congrArg SendView.iss hview
    rw [hiss, hacts]
    exact Trace.Always.append hs.carried fun segment heq _ => absurd heq (hact segment)

theorem readOnce [Upstream U] (hreading : s.conn.state.reading) : s.readOnce.1.Carrying := by
  have hempty : ∀ c : TcpConn, c.sendView = { s.conn.sendView with txEof := c.txEof } →
      c.sendView = { s.conn.sendView with tx := s.conn.tx ++ [], txEof := c.txEof } := by
    intro c hview
    rw [hview, append_nil]
    rfl
  rw [Link.readOnce]
  cases hanswer : (Upstream.tcpRead s.ctx.up s.ctx.now s.conn.id
      (min (txCapacity - s.conn.tx.length) readChunk)).1 with
  | data bytes =>
    rw [takeRead]
    split_ifs with hnone
    · exact hs.read hreading (hempty _ rfl) rfl hnone (by simp)
    · exact hs.read hreading rfl rfl rfl (by simp)
  | _ =>
    exact hs.read hreading (hempty _ rfl) rfl rfl (by simp)

theorem delivered [Upstream U] : s.writeRx.shutdownRx.windowUpdate.Carrying := by
  refine delivered_of hs (fun t k ht => ?_) (fun t ht => ?_) fun t ht => ?_
  · exact ht.acted ht.sent rfl rfl trivial
  · rw [shutdownRx]
    split_ifs
    · exact ht.acted ht.sent rfl rfl trivial
    · exact ht
  · exact ht.same rfl rfl

end Link.Carrying

namespace Link.Sending

variable (hs : s.Sending)
include hs

/-- Bytes that are sent again carry the stream. -/
theorem repeats (hsync : s.conn.isSynchronized = true) (hrepeats : s.Repeats t) :
    t.Carrying := by
  obtain ⟨hview, hsame | ⟨segment, n, hacts, hseq, hpayload, hn, hopen⟩⟩ := hrepeats
  · exact hs.carrying.same hview hsame
  · have hiss : t.conn.iss = s.conn.iss := congrArg SendView.iss hview
    have hsending : s.conn.state.sending :=
      (sending_or_done hsync).resolve_right fun h => hopen (hs.sent.done h).1
    obtain ⟨k, hk, haligned, -⟩ := hs.sent.sending hsending
    have hlength : k + s.conn.tx.length = (provided s.ctx.acts).length := haligned.length hk
    have hwaiting : s.conn.tx.length ≤ txCapacity := hs.timed.waiting
    have htx : s.conn.tx = (provided s.ctx.acts).drop k := haligned.tx
    have hsize : segment.payload.length = n := by
      rw [hpayload, length_take]
      omega
    have hcarries : Carries s.conn.iss (provided s.ctx.acts) segment := by
      refine ⟨k, hseq.trans haligned.una, ?_, ?_, ?_⟩
      · rw [hsize, ← htx, hpayload]
      · omega
      · omega
    have hsent : Sent t.conn.sendView (provided t.ctx.acts) := by
      rw [hview, hacts, provided_append, Act.given_sent, append_nil]
      exact hs.sent
    have hcarried : Carried t.conn.iss t.ctx.acts := by
      rw [hiss, hacts]
      refine Trace.Always.append hs.carried fun other heq _ => ?_
      cases heq
      exact hcarries
    exact ⟨hsent, hcarried⟩

/-- An ACK of bytes. -/
theorem settle_data (hsending : s.conn.state.sending) (payload : List Byte)
    (hnew : seqLt s.conn.sndUna h.ack = true) (hmax : seqLt s.conn.sndMax h.ack = false)
    (hstart : s.conn.sndUna ≠ s.conn.iss) (hfin : finAckedBy s.conn h.ack = false) :
    (s.takeAck h payload).Carrying := by
  obtain ⟨n, hn, haligned, hreaches⟩ := hs.sent.sending hsending
  obtain ⟨hview, hacts⟩ := takeAck_new hnew payload
  have hlength : n + s.conn.tx.length = (provided s.ctx.acts).length := haligned.length hn
  have hle := ack_le hnew hmax
  have hreach : ahead s.conn.sndUna s.conn.sndMax ≤ s.conn.tx.length + 1 := hreaches.le
  have hfin' := finAckedBy_iff hs.timed haligned hn hreaches hnew hmax
  rw [hfin] at hfin'
  have hbytes : ahead s.conn.sndUna h.ack ≤ s.conn.tx.length := by
    have hne : ahead s.conn.sndUna h.ack ≠ s.conn.tx.length + 1 := by simpa using hfin'
    omega
  have hall : n + ahead s.conn.sndUna h.ack ≤ (provided s.ctx.acts).length := by omega
  rw [toNat_ackedBytes hstart hnew, hfin, if_neg (by decide), min_eq_left hbytes] at hview
  have hiss : (s.takeAck h payload).conn.iss = s.conn.iss := congrArg SendView.iss hview
  have hsent : Sent (s.takeAck h payload).conn.sendView (provided s.ctx.acts) := by
    rw [hview]
    exact Sent.of_sending hsending hs.sent.unsent hall haligned.ack_data
      (hreaches.ack_data hbytes hle)
  exact hs.carrying.changed hiss hacts hsent

/-- The FIN is sent in these states only. -/
theorem state_of_finAckedBy (hsending : s.conn.state.sending)
    (hfin : finAckedBy s.conn ack = true) :
    s.conn.state = .lastAck ∨ s.conn.state = .finWait1 ∨ s.conn.state = .closing := by
  have hsome : s.conn.finSeq ≠ none := by
    intro hnone
    rw [finAckedBy, hnone] at hfin
    cases hfin
  have hother : ¬(s.conn.state = .established ∨ s.conn.state = .closeWait) :=
    fun h => hsome (hs.sent.unsent h)
  revert hsending hother
  cases s.conn.state <;> decide

/-- An ACK of the FIN. -/
theorem settle_fin [Upstream U] (hsending : s.conn.state.sending) (payload : List Byte)
    (hnew : seqLt s.conn.sndUna h.ack = true) (hmax : seqLt s.conn.sndMax h.ack = false)
    (hstart : s.conn.sndUna ≠ s.conn.iss) (hfin : finAckedBy s.conn h.ack = true) :
    (s.settle h payload).Carrying := by
  obtain ⟨n, hn, haligned, hreaches⟩ := hs.sent.sending hsending
  obtain ⟨hview, hacts⟩ := takeAck_new hnew payload
  have hall := (finAckedBy_iff hs.timed haligned hn hreaches hnew hmax).mp hfin
  have hlast : h.ack = s.conn.sndMax := by
    have hle := ack_le hnew hmax
    have hreach : ahead s.conn.sndUna s.conn.sndMax ≤ s.conn.tx.length + 1 := hreaches.le
    exact (ahead_left_inj (a := s.conn.sndUna)).mp (by omega)
  rw [toNat_ackedBytes hstart hnew, if_pos hfin, hall, Nat.add_sub_cancel, min_self,
    drop_length] at hview
  have haligned' := haligned.ack_fin hn hall
  have hsettled := state_of_finAckedBy hs hsending hfin
  rw [settle, if_pos hfin]
  have hstate := state_takeAck s h payload
  generalize s.takeAck h payload = t at *
  have hiss : t.conn.iss = s.conn.iss := congrArg SendView.iss hview
  have hunion : t.conn.sndUna = t.conn.sndMax := by
    have huna : t.conn.sndUna = h.ack := congrArg SendView.una hview
    have hmax' : t.conn.sndMax = s.conn.sndMax := congrArg SendView.max hview
    rw [huna, hmax', hlast]
  rw [← hview, ← hacts] at haligned'
  have hdone : ∀ c : TcpConn, c.sendView = { t.conn.sendView with state := c.state } →
      c.state = .finWait2 ∨ c.state = .timeWait → Sent c.sendView (provided t.ctx.acts) := by
    intro c hc hcstate
    refine Sent.of_done hcstate ?_ ?_
    · rw [hc]
      exact hunion
    · rw [hc]
      exact haligned'
  have hcarried : Carried t.conn.iss t.ctx.acts := by
    rw [hiss, hacts]
    exact hs.carried
  rcases hsettled with hlastAck | hfinWait1 | hclosing
  · rw [if_pos (hstate.trans hlastAck)]
    refine .finished ?_ (.inr ⟨_, le_refl _, haligned'⟩) hcarried
    rw [hstate, hlastAck]
    decide
  · rw [if_neg (by rw [hstate, hfinWait1]; decide), onFinAcked, hstate, hfinWait1]
    exact ⟨hdone _ rfl (.inl rfl), hcarried⟩
  · rw [if_neg (by rw [hstate, hclosing]; decide), onFinAcked, hstate, hclosing]
    exact ⟨hdone _ rfl (.inr rfl), hcarried⟩

theorem settle [Upstream U] (hsync : s.conn.isSynchronized = true) (h : TcpHeader)
    (payload : List Byte) (hmax : seqLt s.conn.sndMax h.ack = false)
    (hstart : seqLt s.conn.sndUna h.ack = true → s.conn.sndUna ≠ s.conn.iss) :
    (s.settle h payload).Carrying := by
  cases hnew : seqLt s.conn.sndUna h.ack with
  | false =>
    have hfin : finAckedBy s.conn h.ack = false := by
      rw [finAckedBy, hnew]
      split <;> rfl
    rw [Link.settle, if_neg (by rw [hfin]; decide)]
    exact hs.repeats hsync (takeAck_old hnew payload)
  | true =>
    have hsending : s.conn.state.sending := by
      refine (sending_or_done hsync).resolve_right fun hstate => ?_
      have hle := ack_le hnew hmax
      have hall : s.conn.sndUna = s.conn.sndMax := (hs.sent.done hstate).1
      rw [← hall, ahead_self] at hle
      exact absurd (seqLt_iff.mp hnew).1 (Nat.not_lt.mpr hle)
    cases hfin : finAckedBy s.conn h.ack with
    | false =>
      rw [Link.settle, if_neg (by rw [hfin]; decide)]
      exact hs.settle_data hsending payload hnew hmax (hstart hnew) hfin
    | true => exact hs.settle_fin hsending payload hnew hmax (hstart hnew) hfin

/-- The ACK of the SYN-ACK. -/
theorem establish [Upstream U] (hstate : s.conn.state = .synReceived) (h : TcpHeader)
    (payload : List Byte) (hack : h.ack = s.conn.sndMax) :
    ((s.establish h).settle h payload).Carrying := by
  obtain ⟨huna, htx, hfin⟩ := hs.sent.opening (.inr (.inr hstate))
  change s.conn.sndUna = s.conn.iss at huna
  change s.conn.finSeq = none at hfin
  have hmax : s.conn.sndMax = s.conn.iss + 1 := (hs.timed.opening (.inl hstate)).2.2
  have hone : ahead s.conn.iss (s.conn.iss + 1) = 1 := ahead_add_ofNat_of_lt _ (by decide)
  have hnew : seqLt (s.establish h).conn.sndUna h.ack = true := by
    change seqLt s.conn.sndUna h.ack = true
    rw [huna, hack, hmax, seqLt_iff, hone]
    decide
  have hnone : finAckedBy (s.establish h).conn h.ack = false := by
    change finAckedBy s.conn h.ack = false
    rw [finAckedBy, hfin]
  have hbytes : (ackedBytes (s.establish h).conn h.ack).toNat = 0 := by
    rw [hack, hmax]
    exact toNat_ackedBytes_syn huna hfin
  obtain ⟨hview, hacts⟩ := takeAck_new hnew payload
  rw [hbytes, Nat.zero_min, drop_zero] at hview
  rw [Link.settle, if_neg (by rw [hnone]; decide)]
  generalize (s.establish h).takeAck h payload = t at *
  refine hs.carrying.changed (congrArg SendView.iss hview) hacts ?_
  rw [hview]
  exact Sent.established rfl hack (hack.trans hmax) htx hfin

theorem synAcked (hstate : s.conn.state = .synSent) (h : TcpHeader) (hack : h.ack = s.conn.sndMax) :
    (s.synAcked h).Carrying := by
  obtain ⟨huna, htx, hfin⟩ := hs.sent.opening (.inr (.inl hstate))
  have hmax : s.conn.sndMax = s.conn.iss + 1 := (hs.timed.opening (.inr hstate)).2.2
  rw [Link.synAcked, TcpConn.takeSample_eq]
  exact ⟨Sent.established rfl hack (hack.trans hmax) htx hfin, hs.carried⟩

/-- More bytes in flight: `max` is past them. -/
theorem reaches_sent (hreaches : s.conn.sendView.Reaches stream)
    (hroom : s.conn.inFlight + n ≤ s.conn.tx.length) :
    SendView.Reaches { s.conn.sendView with
      max := if seqLt s.conn.sndMax (s.conn.sndNxt + BitVec.ofNat 32 n)
        then s.conn.sndNxt + BitVec.ofNat 32 n else s.conn.sndMax } stream := by
  have hwaiting : s.conn.tx.length ≤ txCapacity := hs.timed.waiting
  have hsmall := Timed.txCapacity_small
  have hbound : ahead s.conn.sndUna s.conn.sndMax ≤ txCapacity + 1 := hs.timed.bound
  have hstop : ahead s.conn.sndUna (s.conn.sndNxt + BitVec.ofNat 32 n) = s.conn.inFlight + n := by
    exact ahead_add (by rw [TcpConn.inFlight] at hroom; omega)
  have hcompare := seqLt_of_ahead s.conn.sndUna (a := s.conn.sndMax)
    (b := s.conn.sndNxt + BitVec.ofNat 32 n) (by omega) (by omega)
  cases hfin : s.conn.finSeq with
  | none =>
    have hmax : ahead s.conn.sndUna s.conn.sndMax ≤ s.conn.tx.length := hreaches.of_none hfin
    refine SendView.reaches_none hfin ?_
    split_ifs with hpast
    · exact hstop.trans_le hroom
    · exact hmax
  | some f =>
    obtain ⟨hf, heof, hmax⟩ := hreaches.of_some (v := s.conn.sendView) hfin
    refine SendView.reaches_some hfin hf heof ?_
    change ahead s.conn.sndUna s.conn.sndMax = s.conn.tx.length + 1 at hmax
    rw [if_neg (by rw [hcompare]; omega)]
    exact hmax

omit hs in
/-- The offset that is sent next. -/
theorem place_sndNxt (haligned : s.conn.sendView.Aligned stream n) :
    s.conn.sndNxt = place (s.conn.iss + 1) (n + s.conn.inFlight) :=
  (add_ahead s.conn.sndUna s.conn.sndNxt).symm.trans (haligned.place_add _)

theorem sendOne (hsending : s.conn.state.sending) (hmore : s.conn.inFlight < s.conn.tx.length) :
    s.sendOne.Carrying := by
  obtain ⟨n, hn, haligned, hreaches⟩ := hs.sent.sending hsending
  have hlength : n + s.conn.tx.length = (provided s.ctx.acts).length := haligned.length hn
  have hwaiting : s.conn.tx.length ≤ txCapacity := hs.timed.waiting
  have htx : s.conn.tx = (provided s.ctx.acts).drop n := haligned.tx
  have hnxt := place_sndNxt haligned
  have hfits : min (min s.conn.mss.value (usable s.conn))
      (s.conn.tx.length - s.conn.inFlight) ≤ s.conn.tx.length - s.conn.inFlight := min_le_right _ _
  rw [Link.sendOne, Link.armRtx, TcpConn.armRtx_eq]
  generalize min (min s.conn.mss.value (usable s.conn))
    (s.conn.tx.length - s.conn.inFlight) = k at *
  have hsize : ((s.conn.tx.drop s.conn.inFlight).take k).length = k := by
    rw [length_take, length_drop]
    omega
  refine ⟨?_, Trace.Always.append hs.carried fun segment heq _ => ?_⟩
  · change Sent _ (provided (s.ctx.acts ++ [_]))
    rw [provided_append, Act.given_sent, append_nil]
    exact Sent.of_sending hsending hs.sent.unsent hn haligned (hs.reaches_sent hreaches (by omega))
  · cases heq
    refine ⟨n + s.conn.inFlight, ?_, ?_, ?_, ?_⟩
    · exact hnxt
    · rw [hsize, htx, drop_drop]
    · rw [hsize]
      omega
    · omega

/-- The FIN takes the number after the bytes. -/
theorem reaches_fin {state : State} (hn : n ≤ stream.length)
    (haligned : s.conn.sendView.Aligned stream n) (hreaches : s.conn.sendView.Reaches stream)
    (heof : s.conn.txEof = true) (hall : s.conn.inFlight = s.conn.tx.length) :
    SendView.Reaches { s.conn.sendView with
      state, finSeq := some s.conn.sndNxt
      max := if seqLt s.conn.sndMax (s.conn.sndNxt + 1) then s.conn.sndNxt + 1
        else s.conn.sndMax } stream := by
  have hlength : n + s.conn.tx.length = stream.length := haligned.length hn
  have hwaiting : s.conn.tx.length ≤ txCapacity := hs.timed.waiting
  have hsmall := Timed.txCapacity_small
  have hbound : ahead s.conn.sndUna s.conn.sndMax ≤ s.conn.tx.length + 1 := hreaches.le
  have hstop : ahead s.conn.sndUna (s.conn.sndNxt + 1) = s.conn.inFlight + 1 :=
    ahead_add (n := 1) (by rw [TcpConn.inFlight] at hall; omega)
  have hcompare := seqLt_of_ahead s.conn.sndUna (a := s.conn.sndMax)
    (b := s.conn.sndNxt + 1) (by omega) (by omega)
  refine SendView.reaches_some rfl ?_ heof ?_
  · change s.conn.sndNxt = place (s.conn.iss + 1) _
    rw [place_sndNxt haligned, hall, hlength]
  · change _ = s.conn.tx.length + 1
    split_ifs with hpast
    · exact hstop.trans (by rw [hall])
    · rw [hcompare] at hpast
      change ahead s.conn.sndUna s.conn.sndMax = _
      omega

theorem sendFin (hsending : s.conn.state.sending) : s.sendFin.Carrying := by
  obtain ⟨n, hn, haligned, hreaches⟩ := hs.sent.sending hsending
  rw [Link.sendFin]
  cases hfin : finState s.conn with
  | none => exact hs.carrying
  | some state =>
    obtain ⟨heof, hall, hcases⟩ := finState_cases hfin
    have hother : ¬(state = .established ∨ state = .closeWait) := by
      obtain ⟨-, ⟨-, rfl⟩ | ⟨-, rfl⟩⟩ | ⟨hsome, rfl⟩ := hcases
      · simp
      · simp
      · intro hstate
        exact absurd (hsome.symm.trans (hs.sent.unsent hstate)) (by simp)
    dsimp only
    rw [armRtx, TcpConn.armRtx_eq]
    refine hs.carrying.acted ?_ rfl rfl rfl
    exact Sent.of_sending (sending_finState hfin hsending) (fun h => absurd h hother) hn
      haligned (hs.reaches_fin hn haligned hreaches heof hall)

end Link.Sending

section Upstream

variable [Upstream U]

theorem sends_sending : Sends (U := U) Link.Sending where
  readOnce hs hreading _ _ := (hs.carrying.readOnce hreading).sending hs.timed.readOnce
  sendOne hs hsending hmore _ :=
    (hs.sendOne hsending hmore).sending (hs.timed.sendOne hsending hmore)
  sendFin hs hsending := (hs.sendFin hsending).sending (hs.timed.sendFin hsending)
  persist {s} hs := by
    refine Link.Carrying.sending (sends_timed.persist hs.timed) ?_
    rw [persist_eq]
    exact hs.carrying.same rfl rfl

/-- An ACK past the handshake is not taken for the one of the SYN. -/
def startPassed : Guard where
  ack c h := seqLt c.sndUna h.ack = true → c.sndUna ≠ c.iss

/-- Every action keeps the stream right. -/
theorem kept_carrying : Kept (U := U) Link.Sending Link.Carrying startPassed where
  moved hs _ := hs.carrying.same rfl rfl
  due hs := hs.carrying.same rfl rfl
  refuse hs h := by
    rw [refuse]
    split_ifs
    · exact hs.carrying
    · exact hs.carrying.same rfl rfl
    · exact hs.carrying.same rfl rfl
  pushRst hs _ := hs.carrying.acted hs.sent rfl rfl rfl
  finish hs reason reset _ := hs.carrying.finish reason reset
  reset hs _ reason _ := (hs.carrying.emit _ _).finish reason true
  askStatus hs := hs.carrying.acted hs.sent rfl rfl trivial
  refused hs _ reason _ := (hs.carrying.emit _ _).finish reason true
  opened hs hstate := hs.carrying.opened hstate
  sendSynAck hs hstate := hs.carrying.sendSynAck hstate
  synAcked hs hstate h hack := hs.synAcked hstate h hack
  handshake hs hstate _ := hs.timed.handshake hstate
  establish hs hstate h payload hack := hs.establish hstate h payload hack
  settle hs hsync h payload hmax hstart := hs.settle hsync h payload hmax hstart
  takeSegment hs h payload _ := hs.carrying.takeSegment h payload
  cleared hs _ := hs.carrying.same rfl rfl
  expired hs hopen := hs.carrying.expired hopen
  lapse hs _ := hs.carrying.finish .normal false
  exchange hs _ := by
    have hdelivered := hs.carrying.delivered.sending hs.timed.delivered
    refine sends_sending.exchange hdelivered (fun t ht => ?_) fun t ht => ?_
    · exact (ht.carrying.emit _ _).finish .remoteReset true
    · rw [flushAck]
      split_ifs
      · exact ht.carrying.emit _ _
      · exact ht.carrying

theorem kept_sending : Kept (U := U) Link.Sending Link.Sending startPassed :=
  Kept.join Link.Sending.timed Link.Carrying.sending kept_timed kept_carrying

theorem Link.Sending.reached {ok : Link U → Event → Prop}
    (hallowed : ∀ s e, ok s e → Kept.Allows startPassed s e) (hreached : Reached ok s) :
    s.Sending := by
  refine kept_sending.reached hallowed (fun id flow syn iss localMss timeout m => ?_)
    (fun id flow iss localMss timeout m => ?_) hreached
  · exact ⟨Link.Timed.passive id flow syn iss localMss timeout m,
      Sent.of_opening (.inl rfl) rfl rfl rfl, Trace.always_nil⟩
  · have htimed := Link.Timed.active id flow iss localMss timeout m
    rw [startActive_newActive, sendSyn, armRtx, TcpConn.armRtx_eq] at htimed ⊢
    exact ⟨htimed, Sent.of_opening (.inr (.inl rfl)) rfl rfl rfl,
      Carried.quiet Trace.always_nil rfl⟩

/-- `sndUna` has not come back to `iss` when the guest acknowledges more. -/
def PastStart (s : Link U) (e : Event) : Prop :=
  ∀ h payload, e = .input h payload → s.conn.isSynchronized = true →
    seqLt s.conn.sndUna h.ack = true → s.conn.sndUna ≠ s.conn.iss

omit [Upstream U] in
theorem Link.Sending.aligned (hs : s.Sending) (hsync : s.conn.isSynchronized = true) :
    ∃ n ≤ (provided s.ctx.acts).length + 1, (provided s.ctx.acts).length ≤ n + txCapacity ∧
      s.conn.sndUna = place (s.conn.iss + 1) n ∧ s.conn.tx = (provided s.ctx.acts).drop n := by
  rcases sending_or_done hsync with hsending | hdone
  · obtain ⟨n, hn, haligned, -⟩ := hs.sent.sending hsending
    have hlength : n + s.conn.tx.length = (provided s.ctx.acts).length := haligned.length hn
    have hwaiting : s.conn.tx.length ≤ txCapacity := hs.timed.waiting
    exact ⟨n, by omega, by omega, haligned.una, haligned.tx⟩
  · obtain ⟨-, haligned⟩ := hs.sent.done hdone
    exact ⟨_, le_refl _, by omega, haligned.una, haligned.tx⟩

/-- In every run in which no ACK is taken for the one of the SYN, the segments carry the
stream of the upstream and `tx` is the stream from `sndUna` on. -/
theorem carried_of_pastStart (hreached : Reached PastStart s) :
    Carried s.conn.iss s.ctx.acts ∧
      (s.conn.isSynchronized = true → ∃ n ≤ (provided s.ctx.acts).length + 1,
        (provided s.ctx.acts).length ≤ n + txCapacity ∧
        s.conn.sndUna = place (s.conn.iss + 1) n ∧ s.conn.tx = (provided s.ctx.acts).drop n) ∧
      s.conn.sendView.Holds (provided s.ctx.acts) := by
  have hsending : s.Sending := by
    refine Link.Sending.reached (fun r e hok h payload hinput => ⟨fun hsync => ?_, ?_⟩) hreached
    · exact hok h payload hinput hsync
    · exact fun _ _ => trivial
  exact ⟨hsending.carried, hsending.aligned, hsending.sent.holds⟩

end Upstream

/-! ## After 4 GiB -/

section Wrap

/-- A connection in which nothing happens but bytes for the guest: `k` bytes are
acknowledged, `tx` is waiting and the first `flight` of its bytes were sent. -/
structure Plain (s : Link HostEnd) (k flight : ℕ) (tx : List Byte) : Prop where
  cwnd : 0 < s.conn.cwnd
  state : s.conn.state = .established
  una : s.conn.sndUna = place (s.conn.iss + 1) k
  nxt : s.conn.sndNxt = s.conn.sndUna + BitVec.ofNat 32 flight
  max : s.conn.sndMax = s.conn.sndNxt
  tx : s.conn.tx = tx
  eof : s.conn.txEof = false
  fin : s.conn.finSeq = none
  window : s.conn.sndWnd = 100
  rx : s.conn.rx = []
  rxFin : s.conn.rxFin = false

/-- The connection `t` is `s` with other bytes to send. -/
structure Fed (s t : Link HostEnd) (tx more : List Byte) : Prop where
  conn : t.conn = { s.conn with tx := tx, bytesToGuest := t.conn.bytesToGuest }
  acts : provided t.ctx.acts = provided s.ctx.acts ++ more
  up : t.ctx.up.toGuest = [] ∧ t.ctx.up.shutdown = false

variable {s : Link HostEnd}

/-- The loop of reads ends with an upstream that has nothing left. -/
theorem fillTx_nil (fuel : ℕ) (hup : s.ctx.up.toGuest = []) (hopen : s.ctx.up.shutdown = false)
    (hroom : s.conn.tx.length < txCapacity) :
    ∃ t, fillTx (fuel + 1) s = (t, false) ∧ Fed s t s.conn.tx [] := by
  have hread : ∀ room, Upstream.tcpRead s.ctx.up s.ctx.now s.conn.id room =
      (.wouldBlock, s.ctx.up) := by
    intro room
    change s.ctx.up.tcpRead room = _
    rw [HostEnd.tcpRead, if_pos hup, hopen]
    rfl
  have honce : s.readOnce = ({ s with ctx.acts := s.ctx.acts ++
      [.read (min (txCapacity - s.conn.tx.length) readChunk) .wouldBlock] }, .ready) := by
    rw [readOnce, hread]
    rfl
  rw [fillTx, if_pos hroom, honce]
  exact ⟨_, rfl, rfl, provided_append _ _, hup, hopen⟩

/-- A read of an upstream with one byte. -/
theorem readOnce_one {b : Byte} (hup : s.ctx.up.toGuest = [b]) (hopen : s.ctx.up.shutdown = false)
    (hroom : s.conn.tx.length < txCapacity) :
    ∃ t, s.readOnce = (t, .again) ∧ Fed s t (s.conn.tx ++ [b]) [b] := by
  have hroom' : 0 < min (txCapacity - s.conn.tx.length) readChunk :=
    lt_min (Nat.sub_pos_of_lt hroom) (by decide)
  obtain ⟨room, hsucc⟩ := Nat.exists_eq_succ_of_ne_zero hroom'.ne'
  have hread : Upstream.tcpRead s.ctx.up s.ctx.now s.conn.id (room + 1) =
      (.data [b], { s.ctx.up with toGuest := [] }) := by
    change s.ctx.up.tcpRead (room + 1) = _
    rw [HostEnd.tcpRead, hup]
    simp
  rw [readOnce, hsucc]
  rw [hread, takeRead]
  rw [if_neg (by simp)]
  refine ⟨_, rfl, ?_, ?_, rfl, hopen⟩
  · simp [logEvent]
  · simp [logEvent, Act.given]

variable {k : ℕ}

theorem Plain.of_conn {t : Link HostEnd} {flight n : ℕ} {tx tx' : List Byte} {b : Bool}
    (hplain : Plain s k flight tx)
    (hconn : t.conn = { s.conn with tx := tx', bytesToGuest := n, ackPending := b }) :
    Plain t k flight tx' := by
  refine ⟨?_, ?_, ?_, ?_, ?_, ?_, ?_, ?_, ?_, ?_, ?_⟩ <;> rw [hconn]
  exacts [hplain.cwnd, hplain.state, hplain.una, hplain.nxt, hplain.max, hplain.eof, hplain.fin,
    hplain.window, hplain.rx, hplain.rxFin]

/-- The loop of reads takes the byte, if there is one, and ends. -/
theorem readTx_plain {tx more : List Byte} (hplain : Plain s k 0 tx) (hup : s.ctx.up.toGuest = more)
    (hopen : s.ctx.up.shutdown = false) (hone : tx ++ more = [0]) :
    ∃ t, s.readTx = (t, false) ∧ Fed s t [0] more := by
  have hreading : s.conn.state ∈ [.synReceived, .established, .closeWait] ∧ ¬s.conn.txEof := by
    rw [hplain.state, hplain.eof]
    decide
  rw [readTx, if_pos hreading]
  rcases append_eq_singleton_iff.mp hone with ⟨htx, hmore⟩ | ⟨htx, hmore⟩
  · have hroom : s.conn.tx.length < txCapacity := by
      rw [hplain.tx, htx]
      decide
    have hfuel : txCapacity - s.conn.tx.length = 262142 + 1 + 1 := by
      rw [hplain.tx, htx]
      rfl
    obtain ⟨r, hread, hfed⟩ := readOnce_one (hup.trans hmore) hopen hroom
    have htx' : s.conn.tx ++ [0] = [0] := by rw [hplain.tx, htx]; rfl
    rw [htx'] at hfed
    have hrtx : r.conn.tx = [0] := by rw [hfed.conn]
    obtain ⟨t, hfill, hfed'⟩ := fillTx_nil 262142 hfed.up.1 hfed.up.2 (by rw [hrtx]; decide)
    rw [hfuel, fillTx, if_pos hroom, hread]
    refine ⟨t, hfill, ?_, ?_, hfed'.up⟩
    · rw [hfed'.conn, hfed.conn]
    · rw [hfed'.acts, hfed.acts, hmore, append_nil]
  · have hroom : s.conn.tx.length < txCapacity := by
      rw [hplain.tx, htx]
      decide
    have hfuel : txCapacity - s.conn.tx.length = 262142 + 1 := by
      rw [hplain.tx, htx]
      rfl
    obtain ⟨t, hfill, hfed⟩ := fillTx_nil 262142 (hup.trans hmore) hopen hroom
    subst hmore
    rw [hplain.tx, htx] at hfed
    rw [hfuel]
    exact ⟨t, hfill, hfed⟩

/-- Nothing to deliver. -/
theorem delivered_plain {flight : ℕ} {tx : List Byte} (hplain : Plain s k flight tx) :
    ∃ b, s.writeRx.shutdownRx.windowUpdate =
      { s with conn := { s.conn with ackPending := b } } := by
  have hwrite : s.writeRx = s := if_pos hplain.rx
  have hshutdown : s.shutdownRx = s := if_neg (by simp [hplain.rxFin])
  rw [hwrite, hshutdown, windowUpdate]
  split_ifs
  · exact ⟨true, rfl⟩
  · exact ⟨s.conn.ackPending, rfl⟩

/-- The byte that is waiting is sent, and nothing else. -/
theorem transmit_plain (hplain : Plain s k 0 [0]) : s.transmit.flushAck = s.sendOne := by
  have hsending : s.conn.state.sending := by
    rw [hplain.state]
    decide
  have hflight : s.conn.inFlight = 0 := by
    rw [TcpConn.inFlight, hplain.nxt]
    simp
  have husable : usable s.conn ≠ 0 := by
    have hcwnd := hplain.cwnd
    rw [usable, hflight, hplain.window]
    omega
  have hdata : sendData s.conn.tx.length s = s.sendOne := by
    rw [hplain.tx]
    change sendData 1 s = _
    rw [sendData, if_neg, sendData]
    rw [hflight, hplain.tx]
    exact not_or.mpr ⟨by decide, husable⟩
  have hfin : finState s.sendOne.conn = none := by
    rw [finState, if_neg]
    rw [sendOne_eq]
    simp [hplain.eof]
  rw [transmit_of_sending hsending, hdata, sendFin, hfin]
  have hpersist : s.sendOne.persist = s.sendOne := by
    rw [persist, if_neg]
    rw [sendOne_eq]
    simp [hplain.window]
  rw [hpersist, flushAck, if_neg]
  rw [sendOne_eq]
  simp

/-- The segment with the byte. -/
theorem sendOne_plain (hplain : Plain s k 0 [0]) :
    Plain s.sendOne k 1 [0] ∧ ∃ segment, s.sendOne.ctx.acts = s.ctx.acts ++ [.sent segment] ∧
      segment.seq = s.conn.sndUna ∧ segment.payload = [0] := by
  have hnxt : s.conn.sndNxt = s.conn.sndUna := by simpa using hplain.nxt
  have hflight : s.conn.inFlight = 0 := by
    rw [TcpConn.inFlight, hnxt, ahead_self]
  have hone : min (min s.conn.mss.value (usable s.conn))
      (s.conn.tx.length - s.conn.inFlight) = 1 := by
    have hleast := s.conn.mss.least
    have hcwnd := hplain.cwnd
    rw [usable, hflight, hplain.window, hplain.tx]
    simp only [length_singleton]
    omega
  have hpast : seqLt s.conn.sndMax (s.conn.sndNxt + BitVec.ofNat 32 1) = true := by
    rw [hplain.max, seqLt_iff, ahead_add_ofNat_of_lt _ (by decide)]
    decide
  have hsndNxt : s.sendOne.conn.sndNxt = s.conn.sndUna + BitVec.ofNat 32 1 := by
    simp only [sendOne, hone, armRtx, TcpConn.armRtx_eq, hnxt]
  have hsndMax : s.sendOne.conn.sndMax = s.sendOne.conn.sndNxt := by
    simp only [sendOne, hone, armRtx, TcpConn.armRtx_eq]
    exact if_pos hpast
  refine ⟨?_, ?_⟩
  · rw [sendOne_eq]
    exact ⟨hplain.cwnd, hplain.state, hplain.una, hsndNxt, hsndMax, hplain.tx, hplain.eof,
      hplain.fin, hplain.window, hplain.rx, hplain.rxFin⟩
  · simp only [sendOne, hone, armRtx, emit]
    refine ⟨_, rfl, hnxt, ?_⟩
    rw [hflight, hplain.tx]
    rfl

/-- An exchange in which the upstream may have a byte. -/
theorem process_plain {tx more : List Byte} (hplain : Plain s k 0 tx) (m : Moment HostEnd)
    (hup : m.up.toGuest = more) (hopen : m.up.shutdown = false) (hone : tx ++ more = [0]) :
    Plain (s.step m .process) k 1 [0] ∧ (s.step m .process).conn.iss = s.conn.iss ∧
      ∃ acts segment, (s.step m .process).ctx.acts = acts ++ [.sent segment] ∧
        provided acts = provided s.ctx.acts ++ more ∧
        segment.seq = s.conn.sndUna ∧ segment.payload = [0] := by
  obtain rfl := hplain.tx
  have hmoved : Plain (s.moved m) k 0 s.conn.tx := hplain.of_conn rfl
  have hsync : (s.moved m).conn.isSynchronized = true := by
    rw [TcpConn.isSynchronized, hmoved.state]
    rfl
  obtain ⟨b, hdelivered⟩ := delivered_plain hmoved
  have hready : Plain { s.moved m with conn := { (s.moved m).conn with ackPending := b } } k 0
      s.conn.tx := hplain.of_conn rfl
  obtain ⟨t, hread, hfed⟩ := readTx_plain hready hup hopen hone
  have hfilled : Plain t k 0 [0] := hready.of_conn hfed.conn
  have hstep : s.step m .process = t.sendOne := by
    rw [← transmit_plain hfilled]
    change (s.moved m).process = _
    rw [process_of_isSynchronized hsync, exchange, hdelivered, hread]
    rfl
  obtain ⟨hsent, segment, hacts, hseq, hpayload⟩ := sendOne_plain hfilled
  rw [hstep]
  refine ⟨hsent, ?_, t.ctx.acts, segment, hacts, hfed.acts, ?_, hpayload⟩
  · rw [sendOne_eq, hfed.conn]
    rfl
  · rw [hseq, hfed.conn]
    rfl

/-- The ACK of the byte. -/
def ackOne (s : Link HostEnd) : TcpHeader :=
  ⟨0, 0, s.conn.rcvNxt, s.conn.sndUna + 1, { ack := true }, 100, none⟩

/-- The ACK of the byte is taken, and does nothing else. -/
theorem input_ackOne (hplain : Plain s k 1 [0]) (m : Moment HostEnd) :
    s.step m (.input (ackOne s) []) = (s.moved m).takeAck (ackOne s) [] := by
  have hsync : (s.moved m).conn.isSynchronized = true := by
    have hstate : (s.moved m).conn.state = .established := hplain.state
    rw [TcpConn.isSynchronized, hstate]
    rfl
  have hflags : (ackOne s).flags = { ack := true } := rfl
  have haccept : acceptable (s.moved m).conn (ackOne s) [] = true := by
    have hempty : (s.moved m).conn.rcvWnd = 65535 := by
      change rxCapacity - s.conn.rx.length = _
      rw [hplain.rx]
      rfl
    have hle : seqLe s.conn.rcvNxt s.conn.rcvNxt = true := by
      rw [seqLe_iff, ahead_self]
      decide
    have hlt : seqLt s.conn.rcvNxt (s.conn.rcvNxt + BitVec.ofNat 32 65535) = true := by
      rw [seqLt_iff, ahead_add_ofNat_of_lt _ (by decide)]
      decide
    rw [acceptable, hflags, if_pos (by decide), hempty, if_neg (by decide), inWindow, hempty]
    change (seqLe s.conn.rcvNxt s.conn.rcvNxt && _) = true
    rw [hle, Bool.true_and]
    exact hlt
  have hmax : seqLt (s.moved m).conn.sndMax (ackOne s).ack = false := by
    change seqLt s.conn.sndMax (s.conn.sndUna + 1) = false
    rw [hplain.max, hplain.nxt]
    exact seqLt_irrefl _
  have hfin : finAckedBy (s.moved m).conn (ackOne s).ack = false := by
    change finAckedBy s.conn _ = false
    rw [finAckedBy, hplain.fin]
  have hsettle : (s.moved m).settle (ackOne s) [] = (s.moved m).takeAck (ackOne s) [] := by
    rw [settle, hfin]
    rfl
  have hreceived : (s.moved m).conn.state ≠ .synReceived := by
    change s.conn.state ≠ _
    rw [hplain.state]
    decide
  change (s.moved m).input (ackOne s) [] = _
  rw [input_of_isSynchronized hsync, inputOpen, haccept, hflags]
  rw [if_neg (by decide), if_neg (by decide), if_neg (by decide), if_neg (by decide),
    if_neg hreceived, inputAck_eq, hmax, hfin, hsettle]
  simp [takeSegment, takeData, takeFin, ackOne]

theorem ackOne_plain (hplain : Plain s k 1 [0]) (m : Moment HostEnd) :
    Plain (s.step m (.input (ackOne s) [])) (k + 1) 0
        (if s.conn.sndUna = s.conn.iss then [0] else []) ∧
      (s.step m (.input (ackOne s) [])).ctx.acts = s.ctx.acts ∧
      (s.step m (.input (ackOne s) [])).conn.iss = s.conn.iss := by
  have hack : (ackOne s).ack = s.conn.sndUna + BitVec.ofNat 32 1 := rfl
  have hnew : seqLt (s.moved m).conn.sndUna (ackOne s).ack = true := by
    change seqLt s.conn.sndUna (s.conn.sndUna + BitVec.ofNat 32 1) = true
    rw [seqLt_iff, ahead_add_ofNat_of_lt _ (by decide)]
    decide
  have halive : seqLt ((s.moved m).alive (ackOne s).ack).conn.sndUna (ackOne s).ack = true := by
    rw [alive_eq]
    exact hnew
  have hbytes : (ackedBytes s.conn (ackOne s).ack).toNat =
      if s.conn.sndUna = s.conn.iss then 0 else 1 := by
    have hone : s.conn.sndUna + BitVec.ofNat 32 1 - s.conn.sndUna = 1 := by grind
    have hfin : finAckedBy s.conn (ackOne s).ack = false := by
      rw [finAckedBy, hplain.fin]
    rw [ackedBytes, hfin, if_neg Bool.false_ne_true, hack, hone]
    split_ifs <;> rfl
  have hwindow : ∀ c : TcpConn, c.sndWnd = 100 →
      (updateWindow c (ackOne s)).sndWnd = 100 := by
    intro c hc
    rw [updateWindow]
    split_ifs
    · rfl
    · exact hc
  have hcwnd : ∀ more, 0 < saturatingAdd s.conn.cwnd more := fun more =>
    lt_min (Nat.lt_of_lt_of_le hplain.cwnd (Nat.le_add_right _ _)) (by decide)
  rw [input_ackOne hplain m, takeAck, if_pos halive, ackNew_eq, alive_eq, updateWindow_eq]
  refine ⟨⟨?_, hplain.state, ?_, ?_, ?_, ?_, hplain.eof, hplain.fin, hwindow _ hplain.window,
    hplain.rx, hplain.rxFin⟩, rfl, rfl⟩
  · split_ifs <;> exact hcwnd _
  · rw [hack, hplain.una, Serial.place_add]
    rfl
  · change (if seqLt s.conn.sndNxt _ then _ else s.conn.sndNxt) = _
    rw [hack, hplain.nxt, seqLt_irrefl]
    simp
  · change s.conn.sndMax = if seqLt s.conn.sndNxt _ then _ else s.conn.sndNxt
    rw [hack, hplain.max, hplain.nxt, seqLt_irrefl]
    simp
  · change s.conn.tx.drop (min (ackedBytes s.conn (ackOne s).ack).toNat s.conn.tx.length) = _
    rw [hbytes, hplain.tx]
    split_ifs <;> rfl

/-- One byte for the guest. -/
def oneByte : Moment HostEnd := ⟨0, { flow := ⟨⟨1, 1⟩, ⟨2, 2⟩⟩, toGuest := [0] }, 0⟩

theorem plain_handshaken : Plain handshaken 0 0 [] :=
  ⟨by decide +kernel, by decide +kernel, by decide +kernel, by decide +kernel, by decide +kernel,
    by decide +kernel, by decide +kernel, by decide +kernel, by decide +kernel, by decide +kernel,
    by decide +kernel⟩

theorem pastStart_handshaken : Reached PastStart handshaken := by
  rw [handshaken]
  refine .step (.step (.passive 0 _ _ 7 1460 0 _) _ _ ?_) _ _ ?_
  · rintro _ _ ⟨⟩
  · exact fun _ _ _ hsync => absurd hsync (by decide +kernel)

theorem pastStart_ackedOne : Reached PastStart ackedOne := by
  rw [ackedOne]
  refine .step (.step pastStart_handshaken _ _ ?_) _ _ ?_
  · rintro _ _ ⟨⟩
  · exact fun _ _ _ _ _ => by decide +kernel

/-- The first of three bytes is acknowledged, and the timer makes the others be sent again. -/
theorem carried_of_pastStart_resent :
    let s := (ackedOne.step { noByte with now := 10 ^ 7 } .timer).step
      { noByte with now := 10 ^ 7 } .process
    (∃ acts segment, s.ctx.acts = acts ++ [.sent segment] ∧ segment.seq = 9 ∧
      segment.payload = [2, 3]) ∧
    Carried s.conn.iss s.ctx.acts ∧ (∃ n, s.conn.sndUna = place (s.conn.iss + 1) n ∧
      s.conn.tx = (provided s.ctx.acts).drop n) ∧
    s.conn.sendView.Holds (provided s.ctx.acts) := by
  intro s
  have hreached : Reached PastStart s := by
    refine .step (.step pastStart_ackedOne _ _ ?_) _ _ ?_
    · rintro _ _ ⟨⟩
    · rintro _ _ ⟨⟩
  obtain ⟨hcarried, haligned, hholds⟩ := carried_of_pastStart hreached
  obtain ⟨n, -, -, hplace⟩ := haligned (by decide +kernel)
  have hsent : s.ctx.acts = s.ctx.acts.dropLast ++
      [.sent ⟨9, 1, { psh := true, ack := true }, 65535, none, [2, 3]⟩] := by
    decide +kernel
  exact ⟨⟨_, _, hsent, rfl, rfl⟩, hcarried, ⟨n, hplace⟩, hholds⟩

theorem place_ne_start {iss : Seq} (hk : k + 1 < 2 ^ 32) : place (iss + 1) k ≠ iss := by
  intro heq
  have hahead : ahead iss (place iss (k + 1)) = k + 1 := ahead_add_ofNat_of_lt iss hk
  have hplace : place iss (k + 1) = iss := by
    rw [Nat.add_comm, ← place_place]
    exact heq
  rw [hplace, ahead_self] at hahead
  omega

/-- `k` bytes were sent and acknowledged, one by one. -/
theorem rounds (k : ℕ) (hk : k < 2 ^ 32) : ∃ s : Link HostEnd, Reached (fun _ _ => True) s ∧
    Plain s k 0 [] ∧ (provided s.ctx.acts).length = k := by
  induction k with
  | zero =>
    exact ⟨handshaken, reached_handshaken, plain_handshaken, by decide +kernel⟩
  | succ k ih =>
    obtain ⟨s, hreached, hplain, hlength⟩ := ih (by omega)
    obtain ⟨hsent, -, acts, segment, hacts, hgiven, -, -⟩ :=
      process_plain hplain oneByte (show oneByte.up.toGuest = [0] from rfl) rfl rfl
    obtain ⟨hacked, hsame, -⟩ := ackOne_plain hsent noByte
    have hstart : (s.step oneByte .process).conn.sndUna ≠
        (s.step oneByte .process).conn.iss := by
      rw [hsent.una]
      exact place_ne_start hk
    rw [if_neg hstart] at hacked
    refine ⟨_, .step (.step hreached oneByte .process trivial) noByte _ trivial, hacked, ?_⟩
    rw [hsame, hacts, provided_append, hgiven]
    simp [hlength]

theorem place_start (iss : Seq) : place (iss + 1) (2 ^ 32 - 1) = iss := by
  have hall : place iss (1 + (2 ^ 32 - 1)) = iss := by
    rw [place]
    simp
  rw [← place_place] at hall
  exact hall

/-- After 4 GiB the ACK of a byte is taken for the one of the SYN, and the byte is sent
once more, at a number past the end of the stream. -/
theorem not_carried_after_wrap : ∃ s : Link HostEnd, Reached (fun _ _ => True) s ∧
    ¬Carried s.conn.iss s.ctx.acts := by
  obtain ⟨s, hreached, hplain, hlength⟩ := rounds (2 ^ 32 - 1) (by decide)
  obtain ⟨hsent, -, acts, _, hacts, hgiven, -, -⟩ :=
    process_plain hplain oneByte (show oneByte.up.toGuest = [0] from rfl) rfl rfl
  have hreached' := hreached.step oneByte .process trivial
  generalize s.step oneByte .process = r at *
  have hstart : r.conn.sndUna = r.conn.iss := hsent.una.trans (place_start _)
  obtain ⟨hacked, hsame, -⟩ := ackOne_plain hsent noByte
  have hreached'' := hreached'.step noByte (.input (ackOne r) []) trivial
  rw [if_pos hstart] at hacked
  generalize r.step noByte (.input (ackOne r) []) = t at *
  obtain ⟨hagain, hiss, acts', segment, hacts', hgiven', hseq, hpayload⟩ :=
    process_plain hacked noByte (show noByte.up.toGuest = [] from rfl) rfl rfl
  refine ⟨_, hreached''.step noByte .process trivial, fun hcarried => ?_⟩
  have hcount : (provided acts').length = 2 ^ 32 := by
    rw [hgiven', hsame, hacts, provided_append, hgiven]
    simp [hlength]
  rw [hacts'] at hcarried
  obtain ⟨offset, hplace, -, hend, hnear⟩ :=
    Trace.Always.last hcarried segment rfl (by rw [hpayload]; decide)
  rw [hcount] at hend hnear
  rw [hseq, hacked.una, hiss] at hplace
  -- the segment would be one whole turn before the end of the stream
  have hsmall := Timed.txCapacity_small
  have hsame := place_inj_of_near (m := offset) (n := 2 ^ 32 - 1 + 1) (by omega) (by omega)
    hplace.symm
  rw [hpayload, hsame] at hend
  exact absurd hend (by decide)

end Wrap

end Vetro.Tcp
