import Vetro.Vsock.Run

/-!
# The credit of the guest

The guest may send while the host's buffer, as it knows it, has room.  When the
host has read everything and the guest sees little room, a CREDIT_UPDATE is
wanted.  That holds as long as the count of an earlier connection with the same
ports is not still on its way when a connection opens: the decision is taken with
that count, and the next packet takes it back.
-/

namespace Vetro.Vsock

open Bytes VirtioVsock List Option Std.TreeMap

/-- The guest learns of the room it has. -/
structure CreditOk (k : Conn) (queue : List Hdr) : Prop where
  /-- No packet in the queue takes the count back. -/
  counts : k.state ≠ .closed → ∀ h ∈ queue, h.fwdCnt = 0
  last : k.state ≠ .closed → queue ≠ [] → k.lastFwdSent = 0
  count : k.rxCnt = k.fwdCnt + BitVec.ofNat 32 k.rxBuf.length
  connecting : k.state = .connecting → k.rxBuf = []
  update : k.state = .connecting ∨ k.state = .connected → k.rxBuf = [] →
    k.seenFree < creditThreshold → k.creditUpdate = true

/-- The invariant of one connection. -/
def CreditInv (v : View) : Prop := ∀ k, v.conn = some k → CreditOk k v.queue

variable {h : Hdr}

section Step

variable {c : VsockConn} {given : Given} {v w : View} {k k' : Conn} {queue queue' : List Hdr}

/-- The whole buffer is free when everything received was read and told. -/
theorem seenFree_of_told (hcount : k.rxCnt = k.lastFwdSent) : ¬ k.seenFree < creditThreshold := by
  rw [Conn.seenFree, hcount, BitVec.sub_self]
  decide

theorem creditOk_closed (hstate : k.state = .closed)
    (hcount : k.rxCnt = k.fwdCnt + BitVec.ofNat 32 k.rxBuf.length) : CreditOk k queue := by
  refine ⟨fun hne => absurd hstate hne, fun hne => absurd hstate hne, hcount, fun hconn => ?_,
    fun hconn => ?_⟩
  · rw [hstate] at hconn
    cases hconn
  · rcases hconn with hconn | hconn <;> rw [hstate] at hconn <;> cases hconn

/-- A new connection, whose queue holds no count. -/
theorem creditOk_new (state : VsockState) (bufAlloc fwdCnt : BitVec 32)
    (hqueue : ∀ h ∈ queue, h.fwdCnt = 0) :
    CreditOk { Conn.new state with peerBufAlloc := bufAlloc, peerFwdCnt := fwdCnt } queue := by
  refine ⟨fun _ => hqueue, fun _ _ => rfl, rfl, fun _ => rfl, fun _ _ hfree => ?_⟩
  exact absurd hfree (seenFree_of_told rfl)

/-- A packet with the current count was sent. -/
theorem CreditOk.told (hok : CreditOk k queue) (hqueue : queue = [])
    (hstate : k'.state = k.state) (hrx : k'.rxBuf = k.rxBuf) (hcnt : k'.rxCnt = k.rxCnt)
    (hfwd : k'.fwdCnt = k.fwdCnt) (hlast : k'.lastFwdSent = k.fwdCnt) : CreditOk k' queue := by
  refine ⟨?_, fun _ hne => absurd hqueue hne, ?_, ?_, fun _ hempty hfree => ?_⟩
  · rw [hqueue]
    simp
  · rw [hcnt, hfwd, hrx, hok.count]
  · rw [hstate, hrx]
    exact hok.connecting
  · refine absurd hfree (seenFree_of_told ?_)
    rw [hlast, hcnt, hok.count, ← hrx, hempty]
    simp

/-- Changes that no counter sees. -/
theorem CreditOk.congr (hok : CreditOk k queue) (hopen : k.state = .closed → k'.state = .closed)
    (hconnecting : k'.state = .connecting → k.state = .connecting)
    (hconnected : k'.state = .connected → k.state = .connecting ∨ k.state = .connected)
    (hrx : k'.rxBuf = k.rxBuf) (hcnt : k'.rxCnt = k.rxCnt) (hfwd : k'.fwdCnt = k.fwdCnt)
    (hlast : k'.lastFwdSent = k.lastFwdSent)
    (hupdate : k.creditUpdate = true → k'.creditUpdate = true) : CreditOk k' queue where
  counts hne := hok.counts fun hclosed => hne (hopen hclosed)
  last hne hqueue := by
    rw [hlast]
    exact hok.last (fun hclosed => hne (hopen hclosed)) hqueue
  count := by rw [hcnt, hfwd, hrx, hok.count]
  connecting hstate := by
    rw [hrx]
    exact hok.connecting (hconnecting hstate)
  update hstate hempty hfree := by
    have hbefore : k.state = .connecting ∨ k.state = .connected := by
      rcases hstate with hstate | hstate
      · exact .inl (hconnecting hstate)
      · exact hconnected hstate
    have hsame : k'.seenFree = k.seenFree := by rw [Conn.seenFree, Conn.seenFree, hcnt, hlast]
    exact hupdate (hok.update hbefore (hrx ▸ hempty) (hsame ▸ hfree))

theorem CreditOk.tail (hok : CreditOk k (h :: queue)) : CreditOk k queue where
  counts hne p hp := hok.counts hne p (mem_cons_of_mem h hp)
  last hne _ := hok.last hne (cons_ne_nil h queue)
  count := hok.count
  connecting := hok.connecting
  update := hok.update

/-- A control packet of an open connection tells nothing new. -/
theorem CreditOk.control (hok : CreditOk k (h :: queue)) :
    CreditOk { k with lastFwdSent := h.fwdCnt } queue := by
  by_cases hclosed : k.state = .closed
  · exact creditOk_closed hclosed hok.count
  · have hlast : h.fwdCnt = k.lastFwdSent := by
      rw [hok.counts hclosed h (mem_cons_self ..), hok.last hclosed (cons_ne_nil h queue)]
    exact hok.tail.congr id id .inr rfl rfl rfl hlast id

theorem CreditOk.payload (hok : CreditOk k queue) (hopen : k.isOpen = true) (data : List Byte) :
    CreditOk { k with
      rxCnt := k.rxCnt + BitVec.ofNat 32 data.length, rxBuf := k.rxBuf ++ data } queue := by
  refine ⟨hok.counts, hok.last, ?_, fun hstate => ?_, fun hstate hempty hfree => ?_⟩
  · rw [hok.count, length_append, BitVec.ofNat_add, BitVec.add_assoc]
  · rcases isOpen_iff.mp hopen with hnot | hnot <;> rw [hnot] at hstate <;> cases hstate
  · obtain ⟨hrx, rfl⟩ := append_eq_nil_iff.mp hempty
    refine hok.update hstate hrx ?_
    simpa [Conn.seenFree] using hfree

theorem CreditOk.returned {n : ℕ} {update : Bool} (hok : CreditOk k queue)
    (hlen : n ≤ k.rxBuf.length) (hkeep : k.creditUpdate = true → update = true)
    (hwanted : 0 < n → k.seenFree < creditThreshold → k.state = .connected → update = true) :
    CreditOk { k with
      rxBuf := k.rxBuf.drop n, fwdCnt := k.fwdCnt + BitVec.ofNat 32 n,
      creditUpdate := update } queue := by
  refine ⟨hok.counts, hok.last, ?_, fun hstate => ?_, fun hstate hempty hfree => ?_⟩
  · rw [hok.count, length_drop, BitVec.add_assoc, ← BitVec.ofNat_add, Nat.add_sub_cancel' hlen]
  · rw [hok.connecting hstate, drop_nil]
  · rcases Nat.eq_zero_or_pos n with hzero | hpos
    · subst hzero
      exact hkeep (hok.update hstate hempty hfree)
    · rcases hstate with hstate | hstate
      · rw [hok.connecting hstate, length_nil] at hlen
        omega
      · exact hwanted hpos hfree hstate

theorem CreditInv.some (hok : CreditOk k queue) {log : List Act} {waiting : ℕ} :
    CreditInv ⟨some k, queue, log, waiting⟩ := by
  intro k' hk
  rw [← some.inj hk]
  exact hok

/-- What happens to a connection under a settled event keeps the credit. -/
theorem creditInv_move (hinv : CreditInv v) (hsettled : given.settled) (hmove : Move c given v w) :
    CreditInv w := by
  cases hmove with
  | requested bufAlloc fwdCnt _ hzeros _ _ hzero =>
    apply CreditInv.some
    refine creditOk_new .connected bufAlloc fwdCnt fun p hp => ?_
    rcases mem_append.mp hp with hold | hnew
    · exact hzeros hsettled p hold
    · rw [mem_singleton.mp hnew, hzero]
  | connected _ hzeros _ hzero =>
    apply CreditInv.some
    refine creditOk_new .connecting 0 0 fun p hp => ?_
    rcases mem_append.mp hp with hold | hnew
    · exact hzeros hsettled p hold
    · rw [mem_singleton.mp hnew, hzero]
  | refused hclosed _ _ =>
    exact fun k hk => creditOk_closed (hclosed hsettled k hk) (hinv k hk).count
  | accepted _ _ => exact hinv
  | forgotten => exact hinv
  | sent data hconn _ _ =>
    apply CreditInv.some
    exact (hinv _ hconn).congr id id .inr rfl rfl rfl rfl id
  | returned n update hconn hlen hkeep hwanted =>
    apply CreditInv.some
    exact (hinv _ hconn).returned hlen hkeep hwanted
  | shut state pending hconn hstate hbefore =>
    apply CreditInv.some
    refine (hinv _ hconn).congr (fun hclosed => ?_) (fun hafter => ?_)
      (fun _ => hbefore) rfl rfl rfl rfl id
    · rcases hbefore with hnot | hnot <;> rw [hnot] at hclosed <;> cases hclosed
    · rcases hstate with hsame | ⟨_, hclosing⟩
      · exact hsame ▸ hafter
      · rw [hclosing] at hafter
        cases hafter
  | told bufAlloc fwdCnt hconn _ =>
    apply CreditInv.some
    exact (hinv _ hconn).congr id id .inr rfl rfl rfl rfl id
  | guestClosed hconn _ =>
    apply CreditInv.some
    exact creditOk_closed rfl (hinv _ hconn).count
  | answered state hconn hstate hafter =>
    apply CreditInv.some
    refine (hinv _ hconn).congr (fun hclosed => ?_) (fun _ => hstate)
      (fun _ => .inl hstate) rfl rfl rfl rfl id
    rw [hstate] at hclosed
    cases hclosed
  | payload data hconn hopen =>
    apply CreditInv.some
    exact (hinv _ hconn).payload hopen data
  | asked hconn =>
    apply CreditInv.some
    exact (hinv _ hconn).congr id id .inr rfl rfl rfl rfl fun _ => rfl
  | ended hconn =>
    apply CreditInv.some
    exact (hinv _ hconn).congr id id .inr rfl rfl rfl rfl id
  | reset hconn _ _ =>
    apply CreditInv.some
    exact creditOk_closed rfl (hinv _ hconn).count
  | dropped =>
    intro k hk
    obtain ⟨old, hold, rfl⟩ := map_eq_some_iff.mp hk
    exact creditOk_closed rfl (hinv old hold).count
  | released _ => rintro _ ⟨⟩
  | control hqueue =>
    intro k hk
    obtain ⟨old, hold, rfl⟩ := map_eq_some_iff.mp hk
    have hok := hinv old hold
    rw [hqueue] at hok
    exact hok.control
  | data n hconn hqueue _ _ _ _ _ =>
    apply CreditInv.some
    exact (hinv _ hconn).told hqueue rfl rfl rfl rfl rfl
  | shutdown hconn hqueue _ _ _ =>
    apply CreditInv.some
    exact (hinv _ hconn).told hqueue rfl rfl rfl rfl rfl
  | credit hconn hqueue _ _ =>
    apply CreditInv.some
    exact (hinv _ hconn).told hqueue rfl rfl rfl rfl rfl

end Step

/-! ## Runs -/

variable {s : VirtioVsock} {guestCid : BitVec 64}

theorem creditInv_run {events : List Event}
    (hrun : (new guestCid).run events = some s) (hsettled : EachStep Settled (new guestCid) events)
    (c : VsockConn) : CreditInv (s.view c) :=
  view_run CreditInv Settled (fun hset hinv hmove => creditInv_move hinv hset hmove)
    (by rintro _ ⟨⟩) hsettled hrun

variable {k : Conn} {c : VsockConn}

/-- A packet of a connection tells the count of the connection. -/
theorem fwdCnt_of_packetOf {room : ℕ} {h : Hdr} {data : List Byte} {t : VirtioVsock}
    (hpacket : s.packetOf room c k = some (h, data, t)) : hostConn h = c ∧ h.fwdCnt = k.fwdCnt := by
  have hcount : ∀ (k' : Conn) op len, k'.fwdCnt = k.fwdCnt →
      ((s.amend c k' [] []).hdr c op len).fwdCnt = k.fwdCnt := by
    intro k' op len hsame
    rw [hdr]
    simp [amend, hsame]
  rw [packetOf] at hpacket
  split_ifs at hpacket
  · cases hpacket
    exact ⟨rfl, hcount _ _ _ rfl⟩
  · cases hpacket
    exact ⟨rfl, hcount _ opShutdown 0 rfl⟩
  · cases hpacket
    exact ⟨rfl, hcount _ _ _ rfl⟩

/-- A connection that wants to tell its count has something to say, and says it unless an
earlier one has. -/
theorem deliver_of_update (hcontrol : s.control = []) (hk : s.conns[c]? = some k)
    (hstate : k.state = .connected) (hupdate : k.creditUpdate = true) (size : ℕ) :
    (s.deliver size).isSome = true ∧
      ∀ earlier later, s.conns.toList = earlier ++ (c, k) :: later →
        (∀ entry ∈ earlier, s.packetOf (min (size - hdrLen) maxPkt) entry.1 entry.2 = none) →
        ∃ h data t, s.deliver size = some (h, data, t) ∧ hostConn h = c ∧
          h.fwdCnt = k.fwdCnt := by
  have hpacket : (s.packetOf (min (size - hdrLen) maxPkt) c k).isSome = true := by
    rw [packetOf]
    split
    · rfl
    split
    · rfl
    · rw [if_pos ⟨hupdate, hstate⟩]
      rfl
  rw [deliver, isSome_map, hcontrol]
  refine ⟨List.findSome?_isSome_iff.mpr
    ⟨(c, k), mem_toList_iff_getElem?_eq_some.mpr hk, hpacket⟩,
    fun earlier later hsplit hsilent => ?_⟩
  obtain ⟨⟨h, data, t⟩, hsome⟩ := isSome_iff_exists.mp hpacket
  have hnext : s.nextData (min (size - hdrLen) maxPkt) = some (h, data, t) := by
    rw [nextData, hsplit, findSome?_append, findSome?_eq_none_iff.mpr hsilent, Option.none_or,
      findSome?_cons, hsome]
  exact ⟨h, data, t.putPacket h data, by rw [hnext]; rfl, fwdCnt_of_packetOf hsome⟩

/-- In every run in which no connection opens over a count of an earlier one, a
connection that was read to the end and whose guest sees little room has its
update wanted, so that the next buffer is used: for a packet of this connection, with its
count, unless an earlier connection has something to say. -/
theorem credit_update_of_clear {guestCid : BitVec 64} {events : List Event} {s : VirtioVsock}
    (hrun : (new guestCid).run events = some s) (hstream : ∀ event ∈ events, event.StreamType)
    (hclear : EachStep Clear (new guestCid) events)
    (hcontrol : s.control = []) {c : VsockConn} {k : Conn} (hk : s.conns[c]? = some k)
    (hstate : k.state = .connected) (hempty : k.rxBuf = []) (hfree : k.seenFree < creditThreshold) :
    k.creditUpdate = true ∧ ∀ size, (s.deliver size).isSome = true ∧
      ∀ earlier later, s.conns.toList = earlier ++ (c, k) :: later →
        (∀ entry ∈ earlier, s.packetOf (min (size - hdrLen) maxPkt) entry.1 entry.2 = none) →
        ∃ h data t, s.deliver size = some (h, data, t) ∧ hostConn h = c ∧
          h.fwdCnt = k.fwdCnt := by
  have hinv : CreditInv (s.view c) := by
    refine creditInv_run hrun (hclear.mono fun event hmem m hclear => ?_) c
    exact ⟨hstream event hmem, hclear⟩
  have hupdate := (hinv k hk).update (.inr hstate) hempty hfree
  exact ⟨hupdate, deliver_of_update hcontrol hk hstate hupdate⟩

/-! ## A count of an earlier connection -/

theorem parse_packet (h : Hdr) (data : List Byte) :
    Hdr.parse ((h.toBytes ++ data).take hdrLen) = h := by
  simpa using h.parse_toBytes []

/-- A packet with the payload. -/
theorem transmitChain_toBytes (s : VirtioVsock) {data : List Byte}
    (hlen : h.len.toNat = data.length) (hmax : data.length ≤ maxPkt) :
    s.transmitChain (h.toBytes ++ data) = s.receive h data := by
  have hdrop : (h.toBytes ++ data).drop hdrLen = data := drop_left' h.length_toBytes
  rw [transmitChain]
  simp only [parse_packet, hdrop, hlen, length_append, Hdr.length_toBytes, take_length]
  rw [if_neg (by omega)]

/-- Data of the guest's port 7 for the host's port 5. -/
def dataHdr (length : ℕ) : Hdr :=
  ⟨3, hostCid, 7, 5, BitVec.ofNat 32 length, typeStream, opRw, 0, 0, 0⟩

def dataEvent (data : List Byte) : Event := .transmit ((dataHdr data.length).toBytes ++ data)

theorem step_dataEvent (data : List Byte) (hcid : s.guestCid = 3)
    (hk : s.conns[(⟨5, 7⟩ : VsockConn)]? = some k) (hstate : k.state = .connected)
    (hmax : data.length ≤ maxPkt) :
    ∃ t, s.step (dataEvent data) = some t ∧ t.guestCid = 3 ∧ t.control = s.control ∧
      t.conns[(⟨5, 7⟩ : VsockConn)]? = some { k with
        state := .connected, peerBufAlloc := 0, peerFwdCnt := 0
        rxCnt := k.rxCnt + BitVec.ofNat 32 data.length, rxBuf := k.rxBuf ++ data } := by
  have hlen : (dataHdr data.length).len.toNat = data.length := by
    rw [maxPkt] at hmax
    exact Nat.mod_eq_of_lt (by omega)
  have hconn : guestConn (dataHdr data.length) = ⟨5, 7⟩ := rfl
  refine ⟨_, congrArg some (transmitChain_toBytes s hlen hmax), ?_⟩
  rw [receive, if_neg (by simp [dataHdr, hcid]), if_neg (by simp [dataHdr])]
  simp only [hconn, hk, hstate, reduceCtorEq, if_false]
  have hop : (dataHdr data.length).op = opRw := rfl
  rw [receiveOpen, if_neg (by rw [hop]; decide), if_neg (by simp), if_pos hop]
  refine ⟨hcid, by simp [amend], ?_⟩
  rw [amend, getElem?_insert_self]
  rfl

theorem step_recv (max : ℕ) (hk : s.conns[c]? = some k)
    (hall : k.rxBuf.length = max) :
    ∃ t k', s.step (.recv c max) = some t ∧ t.control = s.control ∧ t.conns[c]? = some k' ∧
      k'.state = k.state ∧ k'.rxBuf = [] ∧ k'.rxCnt = k.rxCnt ∧
      k'.lastFwdSent = k.lastFwdSent ∧
      (¬ k.seenFree < creditThreshold → k'.creditUpdate = k.creditUpdate) := by
  have hmin : min max k.rxBuf.length = max := by rw [hall, Nat.min_self]
  have hdrop : k.rxBuf.drop max = [] := drop_of_length_le hall.le
  rw [VirtioVsock.step, recv, hk]
  dsimp only
  rw [hmin, hdrop]
  split
  · rename_i hupdate
    refine ⟨_, _, rfl, by simp [amend], getElem?_insert_self, rfl, rfl, rfl, rfl, ?_⟩
    exact fun hfree => absurd hupdate.2.1 hfree
  · exact ⟨_, _, rfl, by simp [amend], getElem?_insert_self, rfl, rfl, rfl, rfl,
      fun _ => rfl⟩

theorem step_buffer_control (hcontrol : s.control = [h]) (hk : s.conns[hostConn h]? = some k) :
    ∃ t, s.step (.buffer 64) = some t ∧ t.control = [] ∧
      t.conns[hostConn h]? = some { k with lastFwdSent := h.fwdCnt } := by
  refine ⟨_, rfl, ?_⟩
  rw [receiveQueue, if_neg (by decide), deliver, hcontrol]
  simp [receiveQueue, putPacket, hk]

/-- The guest sends 192 KiB and a byte, and the host reads them. -/
def readAll (block : List Byte) : List Event :=
  [dataEvent block, dataEvent block, dataEvent block, dataEvent [0], .recv ⟨5, 7⟩ 196609]

theorem run_readAll {block : List Byte} (last : BitVec 32) (hblock : block.length = maxPkt)
    (hcid : s.guestCid = 3)
    (hk : s.conns[(⟨5, 7⟩ : VsockConn)]? = some { Conn.new .connected with lastFwdSent := last }) :
    ∃ t k, s.run (readAll block) = some t ∧ t.control = s.control ∧
      t.conns[(⟨5, 7⟩ : VsockConn)]? = some k ∧ k.state = .connected ∧ k.rxBuf = [] ∧
      k.rxCnt = 196609 ∧ k.lastFwdSent = last ∧ (last = 1 → k.creditUpdate = false) := by
  obtain ⟨s₁, hstep₁, hcid₁, hcontrol₁, hk₁⟩ := step_dataEvent block hcid hk rfl hblock.le
  obtain ⟨s₂, hstep₂, hcid₂, hcontrol₂, hk₂⟩ := step_dataEvent block hcid₁ hk₁ rfl hblock.le
  obtain ⟨s₃, hstep₃, hcid₃, hcontrol₃, hk₃⟩ := step_dataEvent block hcid₂ hk₂ rfl hblock.le
  obtain ⟨s₄, hstep₄, _, hcontrol₄, hk₄⟩ := step_dataEvent [0] hcid₃ hk₃ rfl (by decide)
  obtain ⟨s₅, k, hstep₅, hcontrol₅, hk₅, hstate, hempty, hrx, hlast, hupdate⟩ :=
    step_recv 196609 hk₄ (by simp [Conn.new, hblock, maxPkt])
  refine ⟨s₅, k, ?_, ?_, hk₅, hstate, hempty, ?_, hlast, fun hone => ?_⟩
  · exact run_cons.mpr ⟨s₁, hstep₁, run_cons.mpr ⟨s₂, hstep₂, run_cons.mpr ⟨s₃, hstep₃,
      run_cons.mpr ⟨s₄, hstep₄, run_cons.mpr ⟨s₅, hstep₅, rfl⟩⟩⟩⟩⟩
  · rw [hcontrol₅, hcontrol₄, hcontrol₃, hcontrol₂, hcontrol₁]
  · rw [hrx]
    simp [Conn.new, hblock, maxPkt]
  · refine hupdate ?_
    simp [Conn.seenFree, Conn.new, hone, hblock, maxPkt, hostBufAlloc, creditThreshold]

def requestEvent : Event :=
  .transmit (Hdr.toBytes ⟨3, hostCid, 7, 5, 0, typeStream, opRequest, 0, 0, 0⟩ ++ [])

theorem streamType_packet (hty : h.ty = typeStream) (data : List Byte) :
    (Event.transmit (h.toBytes ++ data)).StreamType := by
  rw [Event.StreamType, parse_packet, hty]

theorem clear_packet (hop : h.op ≠ opRequest) (data : List Byte) (s : VirtioVsock) :
    Clear s (.transmit (h.toBytes ++ data)) := by
  rw [Clear, parse_packet]
  exact fun hrequest => absurd hrequest hop

theorem streamType_readAll (block : List Byte) : ∀ event ∈ readAll block, event.StreamType := by
  have hdata (data : List Byte) : (dataEvent data).StreamType := streamType_packet rfl data
  simp only [readAll, forall_mem_cons]
  exact ⟨hdata _, hdata _, hdata _, hdata _, trivial, by simp⟩

theorem clear_readAll (block : List Byte) : ∀ event ∈ readAll block, ∀ s, Clear s event := by
  have hdata (data : List Byte) : ∀ s, Clear s (dataEvent data) :=
    clear_packet (by simp [dataHdr, opRw, opRequest]) data
  simp only [readAll, forall_mem_cons]
  exact ⟨hdata _, hdata _, hdata _, hdata _, fun _ => trivial, by simp⟩

/-- A connection that opens, and its RESPONSE. -/
def opened : List Event := [.listen 5, requestEvent, .buffer 64]

theorem streamType_opened : ∀ event ∈ opened, event.StreamType := by
  simp only [opened, forall_mem_cons]
  exact ⟨trivial, streamType_packet rfl [], trivial, by simp⟩

/-- The first connection reads one byte and is reset; the second one opens before
the RST is sent. -/
def reopened : List Event :=
  opened ++ [dataEvent [0], .recv ⟨5, 7⟩ 1, .reset ⟨5, 7⟩, requestEvent, .buffer 64]

/-- A connection read to the end in a run that meets the condition. -/
theorem credit_update_of_clear_opened : ∃ s k,
    (new 3).run (opened ++ readAll (List.replicate maxPkt 0)) = some s ∧ s.control = [] ∧
    s.conns[(⟨5, 7⟩ : VsockConn)]? = some k ∧ k.state = .connected ∧ k.rxBuf = [] ∧
    k.seenFree < creditThreshold ∧ k.creditUpdate = true := by
  have hmap : ((new 3).run opened).map (fun s =>
      (s.guestCid, s.control, s.conns[(⟨5, 7⟩ : VsockConn)]?)) =
      some (3, [], some { Conn.new .connected with lastFwdSent := 0 }) := by
    decide +kernel
  obtain ⟨s, hopened, hs⟩ := map_eq_some_iff.mp hmap
  simp only [Prod.mk.injEq] at hs
  obtain ⟨t, k, hread, hcontrol, hk, hstate, hempty, hrx, hlast, _⟩ :=
    run_readAll 0 (length_replicate (n := maxPkt) (a := 0)) hs.1 hs.2.2
  have hrun := run_append hopened hread
  have hfree : k.seenFree < creditThreshold := by
    rw [Conn.seenFree, hrx, hlast]
    decide
  have hcontrol' : t.control = [] := hcontrol.trans hs.2.1
  refine ⟨t, k, hrun, hcontrol', hk, hstate, hempty, hfree, ?_⟩
  refine (credit_update_of_clear hrun ?_ ?_ hcontrol' hk hstate hempty hfree).1
  · intro event hmem
    rcases mem_append.mp hmem with hleft | hright
    · exact streamType_opened event hleft
    · exact streamType_readAll _ event hright
  · refine ⟨trivial, fun m hm => ⟨fun _ p hp => ?_, fun _ _ => ⟨trivial, fun m' _ =>
      eachStep_of_forall (clear_readAll _) m'⟩⟩⟩
    obtain rfl := some.inj hm
    cases hp

/-- The host has read everything, the guest sees less than the threshold, and no
update is wanted. -/
theorem not_credit_update_reopened :
    ∃ (events : List Event) (s : VirtioVsock) (c : VsockConn) (k : Conn),
      (∀ event ∈ events, event.StreamType) ∧ (new 3).run events = some s ∧
      s.control = [] ∧ s.conns[c]? = some k ∧ k.state = .connected ∧ k.rxBuf = [] ∧
      k.seenFree < creditThreshold ∧ k.creditUpdate = false := by
  have hmap : ((new 3).run reopened).map (fun s => (s.guestCid, decide
      (s.control = [s.hdr ⟨5, 7⟩ opResponse 0]), s.conns[(⟨5, 7⟩ : VsockConn)]?)) =
      some (3, true, some { Conn.new .connected with lastFwdSent := 1 }) := by
    decide +kernel
  obtain ⟨s, hreopened, hs⟩ := map_eq_some_iff.mp hmap
  simp only [Prod.mk.injEq, decide_eq_true_eq] at hs
  obtain ⟨t, k, hread, hcontrol, hk, hstate, hempty, hrx, _, hupdate⟩ :=
    run_readAll 1 (length_replicate (n := maxPkt) (a := 0)) hs.1 hs.2.2
  obtain ⟨u, hstep, hsent, hk'⟩ := step_buffer_control (hcontrol.trans hs.2.1) hk
  have hcount : (s.hdr ⟨5, 7⟩ opResponse 0).fwdCnt = 0 := hdr_fwdCnt hs.2.2 opResponse 0
  refine ⟨reopened ++ (readAll (List.replicate maxPkt 0) ++ [.buffer 64]), u, _, _, ?_,
    run_append hreopened (run_append hread (run_cons.mpr ⟨u, hstep, rfl⟩)), hsent, hk', hstate,
    hempty, ?_, hupdate rfl⟩
  · simp only [reopened, forall_mem_append, forall_mem_cons]
    exact ⟨⟨streamType_opened, streamType_packet rfl [0], trivial, trivial,
      streamType_packet rfl [], trivial, by simp⟩, streamType_readAll _, trivial, by simp⟩
  · rw [Conn.seenFree, hcount]
    change hostBufAlloc - (k.rxCnt - 0).toNat < creditThreshold
    rw [hrx]
    decide

end Vetro.Vsock
