import Vetro.Vsock.Device

/-!
# One connection of the device

What concerns one connection is its entry, its packets in the control queue and
its part of the log (`View`).  `Move` lists what can happen to it; every function
of the device makes such moves for the connection it is called for and leaves
the others as they are, so that a property of one connection is checked move by
move.
-/

namespace Vetro.Vsock

open Bytes List Option Std.TreeMap Relation.ReflTransGen Prod

instance : Std.TransOrd VsockConn :=
  inferInstanceAs (Std.TransCmp (compareLex (compareOn VsockConn.hostPort)
    (compareOn VsockConn.guestPort)))

instance : Std.LawfulEqOrd VsockConn where
  eq_of_compare := by
    rintro ⟨hostPort, guestPort⟩ ⟨hostPort', guestPort'⟩ hcompare
    change (compare hostPort hostPort').then (compare guestPort guestPort') = .eq at hcompare
    obtain ⟨hhost, hguest⟩ := Ordering.then_eq_eq.mp hcompare
    rw [Std.LawfulEqOrd.eq_of_compare hhost, Std.LawfulEqOrd.eq_of_compare hguest]

open VirtioVsock

/-- The connection an act is about; a drop is about all of them. -/
def Act.about : Act → Option VsockConn
  | .requested c _ _ => some c
  | .connected c => some c
  | .accepted c => some c
  | .sent c _ => some c
  | .returned c _ => some c
  | .told c _ _ => some c
  | .payload c _ => some c
  | .closed c => some c
  | .discarded c => some c
  | .dropped => none
  | .packet h _ => some (hostConn h)

def Act.concerns (c : VsockConn) (act : Act) : Bool := act.about.getD c = c

/-- What concerns one connection. -/
structure View where
  conn : Option Conn
  queue : List Hdr
  log : List Act
  /-- How often it is in the backlog. -/
  waiting : ℕ

def VirtioVsock.view (s : VirtioVsock) (c : VsockConn) : View where
  conn := s.conns[c]?
  queue := s.control.filter fun h => hostConn h = c
  log := s.log.filter (Act.concerns c)
  waiting := ((s.backlog[c.hostPort]?).getD []).count c

/-- Conditions on the event that moves belong to. -/
structure Given where
  /-- A connection opens with no count of an earlier one in the queue, and no packet
  is refused while it is open. -/
  settled : Prop
  /-- A connection that waits is not closed when it is accepted, nor opened again. -/
  live : Prop

/-- What can happen to connection `c`. -/
inductive Move (c : VsockConn) (given : Given) : View → View → Prop
  | requested {v : View} {h : Hdr} (bufAlloc fwdCnt : BitVec 32)
      (hclosed : ∀ k, v.conn = some k → k.state = .closed)
      (hsettled : given.settled → ∀ p ∈ v.queue, p.fwdCnt = 0)
      (hlive : given.live → v.conn ≠ none → v.waiting = 0)
      (hop : h.op = opResponse) (hzero : h.fwdCnt = 0) :
      Move c given v
        ⟨some { Conn.new .connected with peerBufAlloc := bufAlloc, peerFwdCnt := fwdCnt },
          v.queue ++ [h], v.log ++ [.requested c bufAlloc fwdCnt], v.waiting + 1⟩
  | connected {v : View} {h : Hdr} (hnone : v.conn = none)
      (hsettled : given.settled → ∀ p ∈ v.queue, p.fwdCnt = 0)
      (hop : h.op = opRequest) (hzero : h.fwdCnt = 0) :
      Move c given v { v with
        conn := some (Conn.new .connecting), queue := v.queue ++ [h]
        log := v.log ++ [.connected c] }
  | refused {v : View} {h : Hdr}
      (hclosed : given.settled → ∀ k, v.conn = some k → k.state = .closed)
      (hop : h.op = opRst) (hzero : h.fwdCnt = 0) :
      Move c given v { v with queue := v.queue ++ [h] }
  | accepted {v : View} (hwaiting : 0 < v.waiting)
      (hlive : given.live → ∃ k, v.conn = some k ∧ k.state ≠ .closed) :
      Move c given v { v with log := v.log ++ [.accepted c], waiting := v.waiting - 1 }
  | forgotten {v : View} : Move c given v { v with waiting := 0 }
  | sent {v : View} {k : Conn} (data : List Byte) (hconn : v.conn = some k)
      (hsend : k.sendClosed = false) (hstate : k.state ≠ .closing ∧ k.state ≠ .closed) :
      Move c given v { v with
        conn := some { k with txBuf := k.txBuf ++ data }, log := v.log ++ [.sent c data] }
  | returned {v : View} {k : Conn} (n : ℕ) (update : Bool) (hconn : v.conn = some k)
      (hlen : n ≤ k.rxBuf.length) (hkeep : k.creditUpdate = true → update = true)
      (hwanted : 0 < n → k.seenFree < creditThreshold → k.state = .connected →
        update = true) :
      Move c given v { v with
        conn := some { k with
          rxBuf := k.rxBuf.drop n, fwdCnt := k.fwdCnt + BitVec.ofNat 32 n,
          creditUpdate := update }
        log := v.log ++ [.returned c (k.rxBuf.take n)] }
  | shut {v : View} {k : Conn} (state : VsockState) (pending : BitVec 32)
      (hconn : v.conn = some k)
      (hstate : state = k.state ∨ k.state = .connected ∧ state = .closing)
      (hbefore : k.state = .connecting ∨ k.state = .connected) :
      Move c given v { v with
        conn := some { k with
          state := state, sendClosed := true, shutdownPending := pending } }
  | told {v : View} {k : Conn} (bufAlloc fwdCnt : BitVec 32) (hconn : v.conn = some k)
      (hstate : k.state ≠ .closed) :
      Move c given v { v with
        conn := some { k with peerBufAlloc := bufAlloc, peerFwdCnt := fwdCnt }
        log := v.log ++ [.told c bufAlloc fwdCnt] }
  | guestClosed {v : View} {k : Conn} (hconn : v.conn = some k) (hstate : k.state ≠ .closed) :
      Move c given v { v with
        conn := some { k with state := .closed }, log := v.log ++ [.closed c] }
  | answered {v : View} {k : Conn} (state : VsockState) (hconn : v.conn = some k)
      (hstate : k.state = .connecting) (hafter : state = .connected ∨ state = .closing) :
      Move c given v { v with conn := some { k with state := state } }
  | payload {v : View} {k : Conn} (data : List Byte) (hconn : v.conn = some k)
      (hopen : k.isOpen = true) :
      Move c given v { v with
        conn := some { k with
          rxCnt := k.rxCnt + BitVec.ofNat 32 data.length, rxBuf := k.rxBuf ++ data }
        log := v.log ++ [.payload c data] }
  | asked {v : View} {k : Conn} (hconn : v.conn = some k) :
      Move c given v { v with conn := some { k with creditUpdate := true } }
  | ended {v : View} {k : Conn} (hconn : v.conn = some k) :
      Move c given v { v with conn := some { k with peerEof := true } }
  | reset {v : View} {k : Conn} {h : Hdr} (hconn : v.conn = some k)
      (hstate : k.state ≠ .closed) (hop : h.op = opRst) :
      Move c given v { v with
        conn := some { k with state := .closed, txBuf := [] }, queue := v.queue ++ [h]
        log := v.log ++ [.closed c, .discarded c] }
  | dropped {v : View} :
      Move c given v
        ⟨v.conn.map fun k => { k with state := .closed, txBuf := [] }, [],
          v.log ++ [.dropped], 0⟩
  | released {v : View} (hclosed : ∀ k, v.conn = some k → k.state = .closed) :
      Move c given v { v with conn := none, waiting := 0 }
  | control {v : View} {h : Hdr} {rest : List Hdr} (hqueue : v.queue = h :: rest) :
      Move c given v { v with
        conn := v.conn.map fun k => { k with lastFwdSent := h.fwdCnt }, queue := rest
        log := v.log ++ [.packet h []] }
  | data {v : View} {k : Conn} {h : Hdr} (n : ℕ) (hconn : v.conn = some k)
      (hqueue : v.queue = []) (hopen : k.isOpen = true) (hpos : 0 < n)
      (hlen : n ≤ k.txBuf.length) (hcredit : n ≤ k.peerCredit)
      (hop : h.op = opRw) :
      Move c given v { v with
        conn := some { k with
          txBuf := k.txBuf.drop n, txCnt := k.txCnt + BitVec.ofNat 32 n,
          lastFwdSent := k.fwdCnt }
        log := v.log ++ [.packet h (k.txBuf.take n)] }
  | shutdown {v : View} {k : Conn} {h : Hdr} (hconn : v.conn = some k) (hqueue : v.queue = [])
      (hopen : k.isOpen = true) (hempty : k.txBuf = [])
      (hop : h.op = opShutdown) :
      Move c given v { v with
        conn := some { k with shutdownPending := 0, lastFwdSent := k.fwdCnt }
        log := v.log ++ [.packet h []] }
  | credit {v : View} {k : Conn} {h : Hdr} (hconn : v.conn = some k) (hqueue : v.queue = [])
      (hstate : k.state = .connected) (hop : h.op = opCreditUpdate) :
      Move c given v { v with
        conn := some { k with creditUpdate := false, lastFwdSent := k.fwdCnt }
        log := v.log ++ [.packet h []] }

/-- Some moves, one after the other. -/
abbrev Moves (c : VsockConn) (given : Given) : View → View → Prop :=
  Relation.ReflTransGen (Move c given)

section Moves

variable {s : VirtioVsock} {c d : VsockConn} {k : Conn} {packets : List Hdr} {acts : List Act}
  {given : Given}

@[simp]
theorem concerns_of_about {act : Act} (habout : act.about = some c) :
    act.concerns d = decide (c = d) := by
  simp [Act.concerns, habout]

theorem filter_packets_self (hpackets : ∀ h ∈ packets, hostConn h = c) :
    (packets.filter fun h => hostConn h = c) = packets :=
  filter_eq_self.mpr fun h hh => decide_eq_true (hpackets h hh)

theorem filter_packets_other (hpackets : ∀ h ∈ packets, hostConn h = c) (hne : d ≠ c) :
    (packets.filter fun h => hostConn h = d) = [] :=
  filter_eq_nil_iff.mpr fun h hh hd => hne ((of_decide_eq_true hd).symm.trans (hpackets h hh))

theorem filter_acts_self (hacts : ∀ act ∈ acts, act.about = some c) :
    acts.filter (Act.concerns c) = acts :=
  filter_eq_self.mpr fun act hact => by rw [concerns_of_about (hacts act hact)]; simp

theorem filter_acts_other (hacts : ∀ act ∈ acts, act.about = some c) (hne : d ≠ c) :
    acts.filter (Act.concerns d) = [] :=
  filter_eq_nil_iff.mpr fun act hact => by
    rw [concerns_of_about (hacts act hact)]
    simp [hne.symm]

variable {t : VirtioVsock}

/-- Two devices with the same entries, control packets and log of `d`. -/
theorem view_congr {s : VirtioVsock} (hconns : t.conns[d]? = s.conns[d]?)
    (hcontrol : (t.control.filter fun h => hostConn h = d) =
      s.control.filter fun h => hostConn h = d)
    (hlog : t.log.filter (Act.concerns d) = s.log.filter (Act.concerns d))
    (hbacklog : ((t.backlog[d.hostPort]?).getD []).count d =
      ((s.backlog[d.hostPort]?).getD []).count d) : t.view d = s.view d := by
  simp only [view, hconns, hcontrol, hlog, hbacklog]

/-- A device that differs from `s` in what concerns `c` only. -/
theorem moves_of_update (hother : ∀ d, d ≠ c → t.view d = s.view d)
    (hmoves : Moves c given (s.view c) (t.view c)) (d : VsockConn) :
    Moves d given (s.view d) (t.view d) := by
  by_cases hd : d = c
  · subst hd
    exact hmoves
  · rw [hother d hd]

theorem view_amend_self (hpackets : ∀ h ∈ packets, hostConn h = c)
    (hacts : ∀ act ∈ acts, act.about = some c) :
    (s.amend c k packets acts).view c = { s.view c with
      conn := some k, queue := (s.view c).queue ++ packets
      log := (s.view c).log ++ acts } := by
  simp only [view, amend, filter_append, filter_packets_self hpackets,
    filter_acts_self hacts, getElem?_insert_self]

theorem view_amend_other (hpackets : ∀ h ∈ packets, hostConn h = c)
    (hacts : ∀ act ∈ acts, act.about = some c) (hne : d ≠ c) :
    (s.amend c k packets acts).view d = s.view d := by
  apply view_congr
  · simp [amend, Std.TreeMap.getElem?_insert, hne.symm]
  · simp only [amend, filter_append, filter_packets_other hpackets hne, append_nil]
  · simp only [amend, filter_append, filter_acts_other hacts hne, append_nil]
  · rfl

theorem moves_amend (hpackets : ∀ h ∈ packets, hostConn h = c)
    (hacts : ∀ act ∈ acts, act.about = some c)
    (hmoves : Moves c given (s.view c) { s.view c with
      conn := some k, queue := (s.view c).queue ++ packets
      log := (s.view c).log ++ acts }) (d : VsockConn) :
    Moves d given (s.view d) ((s.amend c k packets acts).view d) := by
  apply moves_of_update
  · intro d hne
    exact view_amend_other hpackets hacts hne
  · rw [view_amend_self hpackets hacts]
    exact hmoves

/-! ## Host calls -/

theorem hostConn_hdr (op : BitVec 16) (len : ℕ) : hostConn (s.hdr c op len) = c := rfl

theorem hdr_fwdCnt (hk : s.conns[c]? = some k) (op : BitVec 16) (len : ℕ) :
    (s.hdr c op len).fwdCnt = k.fwdCnt := by
  simp [hdr, hk]

theorem moves_reset (s : VirtioVsock) (c d : VsockConn) :
    Moves d given (s.view d) ((s.reset c).view d) := by
  rw [reset]
  cases hk : s.conns[c]? with
  | none => exact .refl
  | some k =>
    dsimp only
    by_cases hstate : k.state = .closed
    · rw [if_pos hstate]
    · rw [if_neg hstate]
      exact moves_amend (by simp [hostConn_hdr]) (by simp [Act.about])
        (.single (.reset hk hstate rfl)) d

theorem moves_foldl_reset (cs : List VsockConn) (s : VirtioVsock) (d : VsockConn) :
    Moves d given (s.view d) ((cs.foldl reset s).view d) := by
  induction cs generalizing s with
  | nil => exact .refl
  | cons c cs ih => exact (moves_reset s c d).trans (ih (s.reset c))

/-- A port that is not listened to any more, with its queue forgotten. -/
theorem moves_forget (s : VirtioVsock) (port : BitVec 32) (d : VsockConn) :
    Moves d given (s.view d) (VirtioVsock.view { s with
      listening := s.listening.erase port, backlog := s.backlog.erase port } d) := by
  by_cases hport : port = d.hostPort
  · apply single
    have hmove : Move d given (s.view d) { s.view d with waiting := 0 } := .forgotten
    simpa [view, hport] using hmove
  · have hcount : (((s.backlog.erase port)[d.hostPort]?).getD []).count d =
        ((s.backlog[d.hostPort]?).getD []).count d := by
      simp [getElem?_erase, hport]
    simp only [view, hcount]
    exact .refl

theorem moves_unlisten (s : VirtioVsock) (port : BitVec 32) (d : VsockConn) :
    Moves d given (s.view d) ((s.unlisten port).view d) :=
  (moves_forget s port d).trans (moves_foldl_reset ((s.backlog[port]?).getD []) _ d)

/-- The connections of a queue are for the port of the queue. -/
def Placed (s : VirtioVsock) : Prop :=
  ∀ (port : BitVec 32) (waiting : List VsockConn), s.backlog[port]? = some waiting →
    ∀ c ∈ waiting, c.hostPort = port

theorem moves_accept (hplaced : Placed s) (port : BitVec 32)
    (hlive : given.live → ∀ c rest, s.backlog[port]? = some (c :: rest) →
      ∃ k, s.conns[c]? = some k ∧ k.state ≠ .closed) (d : VsockConn) :
    Moves d given (s.view d) ((s.accept port).2.view d) := by
  rw [accept]
  split
  · rename_i c rest hwaiting
    have hport : c.hostPort = port := hplaced port _ hwaiting c (mem_cons_self ..)
    have hacts : ∀ act ∈ [Act.accepted c], act.about = some c := by simp [Act.about]
    apply moves_of_update (c := c)
    · intro d hne
      refine view_congr rfl rfl ?_ ?_
      · simp only [filter_append, filter_acts_other hacts hne, append_nil]
      · by_cases hd : port = d.hostPort
        · subst hd
          simp [hwaiting, hne.symm]
        · simp [Std.TreeMap.getElem?_insert, hd]
    · apply single
      have hcount : (s.view c).waiting = rest.count c + 1 := by
        simp [view, hport, hwaiting]
      have hmove : Move c given (s.view c) { s.view c with
          log := (s.view c).log ++ [.accepted c], waiting := (s.view c).waiting - 1 } :=
        .accepted (by omega) fun hgiven => hlive hgiven c rest hwaiting
      rw [hcount] at hmove
      simpa [view, filter_append, filter_acts_self hacts, hport] using hmove
  · exact .refl
  · exact .refl

/-- A port that is found is free. -/
theorem hostPortFree_of_findPort {bound : ℕ} {port found : BitVec 32}
    (hfind : s.findPort bound port = some found) : s.hostPortFree found = true := by
  induction bound generalizing port with
  | zero => cases hfind
  | succ bound ih =>
    rw [findPort] at hfind
    split at hfind
    · rename_i hfree
      exact some.inj hfind ▸ hfree
    · exact ih hfind

theorem conns_none_of_free {port : BitVec 32} (hfree : s.hostPortFree port = true)
    (guestPort : BitVec 32) : s.conns[(⟨port, guestPort⟩ : VsockConn)]? = none := by
  rw [hostPortFree, Bool.and_eq_true, Bool.not_eq_true', Bool.not_eq_true', List.any_eq_false]
    at hfree
  by_contra hsome
  obtain ⟨k, hk⟩ := ne_none_iff_exists'.mp hsome
  have hmem : (⟨port, guestPort⟩ : VsockConn) ∈ s.conns.keys := by
    rw [Std.TreeMap.mem_keys, mem_iff_isSome_getElem?, hk]
    rfl
  simpa using hfree.2 _ hmem

theorem moves_connect {guestPort : BitVec 32} (hconnect : s.connect guestPort = some (c, t))
    (hsettled : given.settled → ∀ p ∈ s.control, p.dstPort = guestPort → p.fwdCnt = 0)
    (d : VsockConn) : Moves d given (s.view d) (t.view d) := by
  rw [connect] at hconnect
  cases hport : s.findPort (2 ^ 32) s.nextPort with
  | none =>
    rw [hport] at hconnect
    cases hconnect
  | some port =>
    rw [hport] at hconnect
    obtain ⟨rfl, rfl⟩ := mk.inj (some.inj hconnect)
    have hnone := conns_none_of_free (hostPortFree_of_findPort hport) guestPort
    refine moves_amend (by simp [hostConn_hdr]) (by simp [Act.about])
      (.single (.connected hnone ?_ rfl (by simp [hdr, Conn.new]))) d
    intro hset p hp
    obtain ⟨hmem, hhost⟩ := mem_filter.mp hp
    exact hsettled hset p hmem (congrArg VsockConn.guestPort (of_decide_eq_true hhost))

theorem moves_send (s : VirtioVsock) (c : VsockConn) (data : List Byte) (d : VsockConn) :
    Moves d given (s.view d) ((s.send c data).2.view d) := by
  rw [send]
  cases hk : s.conns[c]? with
  | none => exact .refl
  | some k =>
    dsimp only
    split
    · exact .refl
    · rename_i hopen
      simp only [not_or, Bool.not_eq_true] at hopen
      refine moves_amend (by simp) (by simp [Act.about]) (.single ?_) d
      rw [append_nil]
      exact .sent data hk hopen.1 hopen.2

theorem moves_recv (s : VirtioVsock) (c : VsockConn) (max : ℕ) (d : VsockConn) :
    Moves d given (s.view d) ((s.recv c max).2.view d) := by
  rw [recv]
  cases hk : s.conns[c]? with
  | none => exact .refl
  | some k =>
    dsimp only
    refine moves_amend (by simp) (by simp [Act.about]) (.single ?_) d
    rw [append_nil]
    split
    · exact .returned _ true hk (Nat.min_le_right ..) (fun _ => rfl) (fun _ _ _ => rfl)
    · rename_i hnot
      refine .returned _ k.creditUpdate hk (Nat.min_le_right ..) id fun hpos hfree hstate => ?_
      exact absurd ⟨hpos, hfree, hstate⟩ hnot

theorem moves_shutdownSend (s : VirtioVsock) (c d : VsockConn) :
    Moves d given (s.view d) ((s.shutdownSend c).view d) := by
  rw [shutdownSend]
  cases hk : s.conns[c]? with
  | none => exact .refl
  | some k =>
    dsimp only
    split
    · rename_i hstate
      refine moves_amend (by simp) (by simp) (.single ?_) d
      rw [append_nil, append_nil]
      exact .shut k.state shutdownSendBit hk (.inl rfl) hstate.1
    · exact .refl

theorem moves_close (s : VirtioVsock) (c d : VsockConn) :
    Moves d given (s.view d) ((s.close c).view d) := by
  rw [close]
  cases hk : s.conns[c]? with
  | none => exact .refl
  | some k =>
    dsimp only
    split
    · rename_i hstate
      refine moves_amend (by simp) (by simp) (.single ?_) d
      rw [append_nil, append_nil]
      split
      · rename_i hconnected
        exact .shut .closing _ hk (.inr ⟨hconnected, rfl⟩) hstate
      · exact .shut k.state _ hk (.inl rfl) hstate
    · exact .refl

/-- After a reset the connection is closed or was not there. -/
theorem closed_of_reset (hk : (s.reset c).conns[c]? = some k) : k.state = .closed := by
  rw [reset] at hk
  cases hold : s.conns[c]? with
  | none => simp [hold] at hk
  | some old =>
    simp only [hold] at hk
    split at hk
    · rename_i hclosed
      rw [hold] at hk
      rwa [← some.inj hk]
    · rw [amend, getElem?_insert_self] at hk
      rw [← some.inj hk]

theorem moves_release (s : VirtioVsock) (c d : VsockConn) :
    Moves d given (s.view d) ((s.release c).view d) := by
  refine (moves_reset s c d).trans ?_
  rw [release]
  apply moves_of_update (c := c)
  · intro d hne
    refine view_congr ?_ rfl rfl ?_
    · simp [getElem?_erase, hne.symm]
    · rw [Std.TreeMap.getElem?_map]
      cases (s.reset c).backlog[d.hostPort]? with
      | none => rfl
      | some waiting => exact count_filter (by simpa using hne)
  · apply single
    have hview : Move c given ((s.reset c).view c)
        { (s.reset c).view c with conn := none, waiting := 0 } :=
      .released fun k hk => closed_of_reset hk
    have hcount : (((s.reset c).backlog.map fun _ waiting =>
        waiting.filter fun other => decide (other ≠ c))[c.hostPort]?.getD []).count c = 0 := by
      rw [Std.TreeMap.getElem?_map]
      cases (s.reset c).backlog[c.hostPort]? with
      | none => rfl
      | some waiting => exact count_eq_zero.mpr (by simp)
    simpa only [view, hcount, getElem?_erase_self] using hview

theorem moves_dropAll (s : VirtioVsock) (d : VsockConn) :
    Moves d given (s.view d) (s.dropAll.view d) := by
  apply single
  have hview : Move d given (s.view d)
      ⟨(s.view d).conn.map fun k => { k with state := .closed, txBuf := [] }, [],
        (s.view d).log ++ [.dropped], 0⟩ := .dropped
  simpa [view, dropAll, getElem?_map, Act.concerns, Act.about] using hview

/-! ## Packets of the guest -/

theorem moves_rstReply (s : VirtioVsock) (h : Hdr)
    (hclosed : given.settled → ∀ k, s.conns[guestConn h]? = some k → k.state = .closed)
    (d : VsockConn) : Moves d given (s.view d) ((s.rstReply h).view d) := by
  have hpackets : ∀ p ∈ [s.rstHdr h], hostConn p = guestConn h := by
    simp [rstHdr, hostConn, guestConn]
  apply moves_of_update (c := guestConn h)
  · intro d hne
    refine view_congr rfl ?_ rfl rfl
    simp only [rstReply, filter_append, filter_packets_other hpackets hne, append_nil]
  · apply single
    have hmove : Move (guestConn h) given (s.view (guestConn h))
        { s.view (guestConn h) with queue := (s.view (guestConn h)).queue ++ [s.rstHdr h] } :=
      .refused hclosed rfl rfl
    simpa only [view, rstReply, filter_append, filter_packets_self hpackets] using hmove

theorem moves_receiveUnknown (s : VirtioVsock) (h : Hdr)
    (hclosed : ∀ k, s.conns[guestConn h]? = some k → k.state = .closed)
    (hsettled : given.settled → h.op = opRequest →
      ∀ p ∈ s.control, hostConn p = guestConn h → p.fwdCnt = 0)
    (hlive : given.live → h.op = opRequest → s.conns[guestConn h]? ≠ none →
      (s.view (guestConn h)).waiting = 0) (d : VsockConn) :
    Moves d given (s.view d) ((s.receiveUnknown (guestConn h) h).view d) := by
  rw [receiveUnknown]
  split
  · rename_i hrequest
    dsimp only
    generalize hp : VirtioVsock.hdr _ _ _ _ = p
    have hpackets : ∀ q ∈ [p], hostConn q = guestConn h := by simp [← hp, hostConn_hdr]
    have hacts : ∀ act ∈ [Act.requested (guestConn h) h.bufAlloc h.fwdCnt],
        act.about = some (guestConn h) := by simp [Act.about]
    apply moves_of_update (c := guestConn h)
    · intro d hne
      refine view_congr ?_ ?_ ?_ ?_
      · simp [Std.TreeMap.getElem?_insert, hne.symm]
      · simp only [filter_append, filter_packets_other hpackets hne, append_nil]
      · simp only [filter_append, filter_acts_other hacts hne, append_nil]
      · by_cases hd : h.dstPort = d.hostPort
        · simp [hd, hne.symm]
        · simp [Std.TreeMap.getElem?_insert, hd]
    · apply single
      have hmove : Move (guestConn h) given (s.view (guestConn h)) _ :=
        .requested (h := p) h.bufAlloc h.fwdCnt hclosed (fun hset q hq => ?_)
          (fun hgiven => hlive hgiven hrequest.1) (by rw [← hp]; rfl)
          (by rw [← hp]; simp [hdr, Conn.new])
      · have hport : (guestConn h).hostPort = h.dstPort := rfl
        simpa [view, hport, filter_append, filter_packets_self hpackets,
          filter_acts_self hacts] using hmove
      · obtain ⟨hmem, hhost⟩ := mem_filter.mp hq
        exact hsettled hset hrequest.1 q hmem (of_decide_eq_true hhost)
  · split
    · exact moves_rstReply s h (fun _ => hclosed) d
    · exact .refl

theorem isOpen_iff : k.isOpen = true ↔ k.state = .connected ∨ k.state = .closing := by
  simp [Conn.isOpen]

theorem isOpen_of_ne (hclosed : k.state ≠ .closed) (hconnecting : k.state ≠ .connecting) :
    k.isOpen = true := by
  rw [isOpen_iff]
  cases hstate : k.state <;> simp_all

variable {h : Hdr}

theorem moves_receiveOpen (payload : List Byte) (hk : s.conns[c]? = some k)
    (hstate : k.state ≠ .closed) (d : VsockConn) :
    Moves d given (s.view d) ((s.receiveOpen c k h payload).view d) := by
  have hmove {k' : Conn} {acts : List Act} (hacts : ∀ act ∈ acts, act.about = some c)
      (hmove : Move c given (s.view c)
        { s.view c with conn := some k', log := (s.view c).log ++ acts }) :
      Moves d given (s.view d) ((s.amend c k' [] acts).view d) := by
    refine moves_amend (by simp) hacts (.single ?_) d
    rwa [append_nil]
  have hsilent {k' : Conn} (hmove' : Move c given (s.view c)
        { s.view c with conn := some k' }) :
      Moves d given (s.view d) ((s.amend c k' [] []).view d) :=
    hmove (by simp) (by simpa using hmove')
  rw [receiveOpen]
  split
  · exact hmove (by simp [Act.about]) (.guestClosed hk hstate)
  split
  · rename_i hconnecting
    split
    · refine hsilent (.answered _ hk hconnecting ?_)
      split
      · exact .inr rfl
      · exact .inl rfl
    · exact moves_reset s c d
  rename_i hconnecting
  have hopen := isOpen_of_ne hstate hconnecting
  split
  · exact hmove (by simp [Act.about]) (.payload payload hk hopen)
  split
  · exact .refl
  split
  · exact hsilent (.asked hk)
  split
  · have hended : Moves d given (s.view d) ((if h.flags &&& shutdownSendBit ≠ 0 then
        s.amend c { k with peerEof := true } [] [] else s).view d) := by
      split
      · exact hsilent (.ended hk)
      · exact .refl
    dsimp only
    split
    · exact hended.trans (moves_reset _ c d)
    · exact hended
  · exact moves_reset s c d

/-- A packet of the guest, with the condition that the moves stand under. -/
theorem moves_receive (s : VirtioVsock) (h : Hdr) (payload : List Byte)
    (hsettled : given.settled → h.ty = typeStream ∧ (h.op = opRequest →
      ∀ p ∈ s.control, hostConn p = guestConn h → p.fwdCnt = 0))
    (hlive : given.live → h.op = opRequest →
      (∀ k, s.conns[guestConn h]? = some k → k.state = .closed) →
      s.conns[guestConn h]? ≠ none → (s.view (guestConn h)).waiting = 0) (d : VsockConn) :
    Moves d given (s.view d) ((s.receive h payload).view d) := by
  rw [receive]
  split
  · exact .refl
  split
  · rename_i hty
    split
    · exact moves_rstReply s h (fun hset => absurd (hsettled hset).1 hty) d
    · exact .refl
  dsimp only
  cases hk : s.conns[guestConn h]? with
  | none =>
    exact moves_receiveUnknown s h (by simp [hk]) (fun hset => (hsettled hset).2)
      (fun _ _ hsome => absurd hk hsome) d
  | some k =>
    dsimp only
    split
    · rename_i hclosed
      have hclosed' : ∀ k, s.conns[guestConn h]? = some k → k.state = .closed := by
        intro k' hk'
        rw [hk] at hk'
        rwa [← some.inj hk']
      exact moves_receiveUnknown s h hclosed' (fun hset => (hsettled hset).2)
        (fun hgiven hop => hlive hgiven hop hclosed') d
    · rename_i hstate
      have htold : Moves d given (s.view d) ((s.amend (guestConn h)
          { k with peerBufAlloc := h.bufAlloc, peerFwdCnt := h.fwdCnt } []
          [.told (guestConn h) h.bufAlloc h.fwdCnt]).view d) := by
        refine moves_amend (by simp) (by simp [Act.about]) (.single ?_) d
        rw [append_nil]
        exact .told _ _ hk hstate
      refine htold.trans (moves_receiveOpen payload ?_ ?_ d)
      · rw [amend, getElem?_insert_self]
      · exact hstate

/-! ## Packets for the guest -/

variable {data : List Byte}

/-- What `packetOf` gives: data within the credit, the end of the stream after
the last data, or the count of what was read. -/
theorem packetOf_spec (given : Given) {room : ℕ} (hk : s.conns[c]? = some k)
    (hpacket : s.packetOf room c k = some (h, data, t)) :
    ∃ k', t = s.amend c k' [] [] ∧ hostConn h = c ∧ h.fwdCnt = k.fwdCnt ∧
      ((s.view c).queue = [] →
        Move c given (s.view c) { s.view c with
          conn := some { k' with lastFwdSent := k.fwdCnt }
          log := (s.view c).log ++ [.packet h data] }) := by
  have hfwd {k' : Conn} (op : BitVec 16) (len : ℕ) (heq : k'.fwdCnt = k.fwdCnt) :
      ((s.amend c k' [] []).hdr c op len).fwdCnt = k.fwdCnt := by
    rw [hdr_fwdCnt (k := k') (by rw [amend, getElem?_insert_self]), heq]
  rw [packetOf] at hpacket
  split at hpacket
  · rename_i hdata
    obtain ⟨rfl, hrest⟩ := mk.inj (some.inj hpacket)
    obtain ⟨rfl, rfl⟩ := mk.inj hrest
    have hlength := length_pos_of_ne_nil hdata.2.1
    refine ⟨_, rfl, rfl, hfwd _ _ rfl, fun hqueue => ?_⟩
    refine .data _ hk hqueue hdata.1 ?_ ?_ ?_ rfl
    · rw [maxPkt]
      omega
    · omega
    · omega
  split at hpacket
  · rename_i hshutdown
    obtain ⟨rfl, hrest⟩ := mk.inj (some.inj hpacket)
    obtain ⟨rfl, rfl⟩ := mk.inj hrest
    exact ⟨_, rfl, rfl, hfwd opShutdown 0 rfl, fun hqueue =>
      .shutdown (k := k) hk hqueue hshutdown.1 hshutdown.2.1 rfl⟩
  split at hpacket
  · rename_i hcredit
    obtain ⟨rfl, hrest⟩ := mk.inj (some.inj hpacket)
    obtain ⟨rfl, rfl⟩ := mk.inj hrest
    exact ⟨_, rfl, rfl, hfwd _ _ rfl, fun hqueue => .credit (k := k) hk hqueue hcredit.2 rfl⟩
  · cases hpacket

/-- The packet for a buffer: the first control packet, or what a connection has
to say. -/
theorem deliver_cases {size : ℕ} (hdeliver : s.deliver size = some (h, data, t)) :
    (∃ rest, s.control = h :: rest ∧ data = [] ∧
      t = { s with control := rest }.putPacket h []) ∨
    (s.control = [] ∧ ∃ c k m, s.conns[c]? = some k ∧
      s.packetOf (min (size - hdrLen) maxPkt) c k = some (h, data, m) ∧
      t = m.putPacket h data) := by
  rw [deliver, map_eq_some_iff] at hdeliver
  obtain ⟨⟨h', data', m⟩, hpacket, heq⟩ := hdeliver
  simp only [Prod.mk.injEq] at heq
  obtain ⟨rfl, rfl, rfl⟩ := heq
  cases hcontrol : s.control with
  | cons p rest =>
    simp only [hcontrol, some.injEq, Prod.mk.injEq] at hpacket
    obtain ⟨rfl, rfl, rfl⟩ := hpacket
    exact .inl ⟨rest, rfl, rfl, rfl⟩
  | nil =>
    rw [hcontrol] at hpacket
    obtain ⟨⟨c, k⟩, hmem, hof⟩ := exists_of_findSome?_eq_some hpacket
    have hk := mem_toList_iff_getElem?_eq_some.mp hmem
    exact .inr ⟨rfl, c, k, m, hk, hof, rfl⟩

theorem moves_deliver {size : ℕ} (hdeliver : s.deliver size = some (h, data, t)) (d : VsockConn) :
    Moves d given (s.view d) (t.view d) := by
  have hacts : ∀ act ∈ [Act.packet h data], act.about = some (hostConn h) := by
    simp [Act.about]
  rcases deliver_cases hdeliver with ⟨rest, hcontrol, rfl, rfl⟩ |
    ⟨hcontrol, c, k, m, hk, hof, rfl⟩
  · apply moves_of_update (c := hostConn h)
    · intro d hne
      refine view_congr ?_ ?_ ?_ rfl
      · simp [putPacket, Std.TreeMap.getElem?_modify, hne.symm]
      · simp [putPacket, hcontrol, hne.symm]
      · simp only [putPacket, filter_append, filter_acts_other hacts hne, append_nil]
    · apply single
      have hqueue : (s.view (hostConn h)).queue =
          h :: rest.filter fun q => hostConn q = hostConn h := by
        simp [view, hcontrol]
      have hmove : Move (hostConn h) given (s.view (hostConn h)) _ := .control hqueue
      simpa [view, putPacket, Std.TreeMap.getElem?_modify, filter_append,
        filter_acts_self hacts] using hmove
  · obtain ⟨k', rfl, hhost, hfwd, hmove⟩ := packetOf_spec given hk hof
    have hqueue : (s.view c).queue = [] := by simp [view, hcontrol]
    rw [hhost] at hacts
    apply moves_of_update (c := c)
    · intro d hne
      refine view_congr ?_ ?_ ?_ rfl
      · simp [putPacket, hhost, amend, Std.TreeMap.getElem?_modify,
          Std.TreeMap.getElem?_insert, hne.symm]
      · simp [putPacket, amend]
      · simp only [putPacket, amend, append_nil, filter_append, filter_acts_other hacts hne]
    · apply single
      have hmove := hmove hqueue
      rw [← hfwd] at hmove
      simpa [view, putPacket, hhost, amend, hcontrol, Std.TreeMap.getElem?_modify,
        filter_append, filter_acts_self hacts] using hmove

end Moves

end Vetro.Vsock
