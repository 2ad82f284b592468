import Vetro.Net.TcpTimer

/-!
# The orderly end of a connection

The stack calls a connection in turns: a segment or a timer call, and then an
exchange with the upstream.  A connection that ends in the normal way should
have handed over everything the guest sent, and the end of it.  It does so if
the upstream takes what it is offered in the turn in which the FIN of the guest
arrives; a FIN of the guest that finds the upstream full can be lost with the
bytes before it.
-/

namespace Vetro.Tcp

open Bytes List Link
open Serial

variable {U : Type}

/-- What the end of a connection depends on. -/
structure CloseView where
  state : State
  rx : List Byte
  rxFin : Bool
  shutdownDone : Bool
  closeReason : Option CloseReason
  bytesToRemote : ℕ
  acts : List Act

def Link.closeView (s : Link U) : CloseView :=
  ⟨s.conn.state, s.conn.rx, s.conn.rxFin, s.conn.shutdownDone, s.conn.closeReason,
    s.conn.bytesToRemote, s.ctx.acts⟩

/-- The states after the FIN of the guest. -/
def State.late (state : State) : Prop := state ∈ [.closeWait, .lastAck, .closing, .timeWait]

instance (state : State) : Decidable state.late :=
  inferInstanceAs (Decidable (state ∈ [_, _, _, _]))

theorem State.ne_closed {p : State → Prop} {state : State} (hp : p state) (hclosed : ¬p .closed) :
    state ≠ .closed :=
  fun heq => hclosed (heq ▸ hp)

namespace CloseView

/-- Everything of the guest was handed over, and the end of it. -/
def Drained (v : CloseView) : Prop := v.rx = [] ∧ v.shutdownDone = true

/-- The upstream heard of the end of the stream before the end of the connection. -/
def Announced (v : CloseView) : Prop :=
  ∃ before rest, v.acts = before ++ .close false :: rest ∧ .shutdown ∈ before

/-- What holds in the middle of a turn. -/
structure Orderly (v : CloseView) : Prop where
  room : v.rx.length ≤ rxCapacity
  early : v.state.early → v.rxFin = false
  late : v.state.late → v.rxFin = true
  last : v.state = .lastAck → v.Drained
  running : v.state ≠ .closed → v.closeReason = none
  marked : v.shutdownDone = true → .shutdown ∈ v.acts
  count : v.bytesToRemote = (accepted v.acts).length + v.rx.length
  ended : v.closeReason = some .normal → v.rx = [] ∧ v.rxFin = true ∧ v.Announced

/-- What holds between two turns. -/
structure Settled (v : CloseView) : Prop where
  orderly : v.Orderly
  drained : v.state ≠ .closed → v.rxFin = true → v.Drained

/-- Acts in which no bytes are handed over. -/
def Quiet (v w : CloseView) : Prop :=
  ∃ more : List Act, (∀ act ∈ more, act.taken = []) ∧ w = { v with acts := v.acts ++ more }

theorem Quiet.refl (v : CloseView) : v.Quiet v :=
  ⟨[], by simp, by rw [append_nil]⟩

theorem Quiet.one (v : CloseView) {act : Act} (htaken : act.taken = []) :
    v.Quiet { v with acts := v.acts ++ [act] } :=
  ⟨[act], fun _ hmem => mem_singleton.mp hmem ▸ htaken, rfl⟩

theorem accepted_quiet {acts more : List Act} (hquiet : ∀ act ∈ more, act.taken = []) :
    accepted (acts ++ more) = accepted acts := by
  have hnone : more.flatMap Act.taken = [] := flatMap_eq_nil_iff.mpr hquiet
  rw [accepted, accepted, flatMap_append, hnone, append_nil]

namespace Orderly

variable {v w : CloseView}

variable (hv : v.Orderly)
include hv

theorem quiet (hquiet : v.Quiet w) : w.Orderly := by
  obtain ⟨more, htaken, rfl⟩ := hquiet
  refine ⟨hv.room, hv.early, hv.late, hv.last, hv.running, fun hdone => ?_, ?_, fun hnormal => ?_⟩
  · exact mem_append_left _ (hv.marked hdone)
  · rw [accepted_quiet htaken]
    exact hv.count
  · obtain ⟨hrx, hfin, before, rest, hacts, hmem⟩ := hv.ended hnormal
    refine ⟨hrx, hfin, before, rest ++ more, ?_, hmem⟩
    rw [hacts, append_assoc, cons_append]

/-- From one state of an open connection to another. -/
theorem turn (hopen : v.state ≠ .closed) {state : State} {rxFin : Bool}
    (hearly : state.early → rxFin = false) (hlate : state.late → rxFin = true)
    (hlast : state = .lastAck → v.Drained) : Orderly { v with state, rxFin } :=
  ⟨hv.room, hearly, hlate, hlast, fun _ => hv.running hopen, hv.marked, hv.count,
    fun hnormal => absurd hnormal (by simp [hv.running hopen])⟩

/-- Bytes of the guest, before its FIN. -/
theorem data (hstate : v.state ∈ [.established, .finWait1, .finWait2]) (bytes : List Byte)
    (hroom : v.rx.length + bytes.length ≤ rxCapacity) :
    Orderly { v with rx := v.rx ++ bytes, bytesToRemote := v.bytesToRemote + bytes.length } := by
  have hother : v.state ≠ .closed ∧ v.state ≠ .lastAck := by
    revert hstate
    cases v.state <;> decide
  refine ⟨?_, hv.early, hv.late, fun h => absurd h hother.2, hv.running, hv.marked, ?_,
    fun hnormal => absurd hnormal (by simp [hv.running hother.1])⟩
  · rw [length_append]
    exact hroom
  · have hcount := hv.count
    simp only [length_append]
    omega

/-- An end that is not the normal one. -/
theorem cut {reason : CloseReason} (hreason : reason ≠ .normal) {act : Act}
    (htaken : act.taken = []) :
    Orderly { v with
      state := .closed, closeReason := some reason, acts := v.acts ++ [act] } := by
  refine ⟨hv.room, by simp [State.early], by simp [State.late], by simp, fun h => absurd rfl h,
    fun hdone => mem_append_left _ (hv.marked hdone), ?_, fun hnormal => ?_⟩
  · rw [accepted_append, htaken, append_nil]
    exact hv.count
  · exact absurd (Option.some.inj hnormal) hreason

/-- The normal end, after everything was handed over. -/
theorem finish (hfin : v.rxFin = true) (hdrained : v.Drained) :
    Orderly { v with
      state := .closed, closeReason := some .normal, acts := v.acts ++ [.close false] } := by
  have htaken : (Act.close false).taken = [] := rfl
  refine ⟨hv.room, by simp [State.early], by simp [State.late], by simp, fun h => absurd rfl h,
    fun hdone => mem_append_left _ (hv.marked hdone), ?_,
    fun _ => ⟨hdrained.1, hfin, v.acts, [], rfl, hv.marked hdrained.2⟩⟩
  rw [accepted_append, htaken, append_nil]
  exact hv.count

/-- Bytes that the upstream accepts. -/
theorem write {n k : ℕ} (hn : n ≤ (v.rx.take k).length) :
    Orderly { v with
      rx := v.rx.drop n, acts := v.acts ++ [.write (v.rx.take k) n] } := by
  have hsize : (Act.write (v.rx.take k) n).taken.length = n := by
    rw [Act.taken, length_take, min_eq_left hn]
  have hempty : v.rx = [] → v.rx.drop n = [] := fun h => by rw [h, drop_nil]
  refine ⟨?_, hv.early, hv.late, fun hlast => ?_, hv.running,
    fun hdone => mem_append_left _ (hv.marked hdone), ?_, fun hnormal => ?_⟩
  · rw [length_drop]
    exact (Nat.sub_le _ _).trans hv.room
  · exact ⟨hempty (hv.last hlast).1, (hv.last hlast).2⟩
  · have hcount := hv.count
    rw [length_take] at hn
    simp only [accepted_append, length_append, hsize, length_drop]
    omega
  · obtain ⟨hrx, hfin, before, rest, hacts, hmem⟩ := hv.ended hnormal
    refine ⟨hempty hrx, hfin, before, rest ++ [.write (v.rx.take k) n], ?_, hmem⟩
    rw [hacts, append_assoc, cons_append]

/-- The end of the stream is passed on. -/
theorem shutdown (hrx : v.rx = []) :
    Orderly { v with shutdownDone := true, acts := v.acts ++ [.shutdown] } := by
  have htaken : Act.shutdown.taken = [] := rfl
  have hquiet := hv.quiet (Quiet.one v htaken)
  exact ⟨hquiet.room, hquiet.early, hquiet.late, fun _ => ⟨hrx, rfl⟩, hquiet.running,
    fun _ => mem_append_right _ mem_cons_self, hquiet.count, hquiet.ended⟩

end Orderly

theorem Settled.quiet {v w : CloseView} (hv : v.Settled) (hquiet : v.Quiet w) : w.Settled := by
  refine ⟨hv.orderly.quiet hquiet, ?_⟩
  obtain ⟨more, -, rfl⟩ := hquiet
  exact hv.drained

end CloseView

/-! ## The actions -/

variable {s t : Link U}

def Link.Orderly (s : Link U) : Prop := s.closeView.Orderly

def Link.Settled (s : Link U) : Prop := s.closeView.Settled

/-- Acts without bytes for the upstream, and changes that do not matter here. -/
def Link.Quiet (s t : Link U) : Prop := s.closeView.Quiet t.closeView

theorem Link.Quiet.same (hview : t.closeView = s.closeView) : s.Quiet t := by
  rw [Link.Quiet, hview]
  exact CloseView.Quiet.refl _

theorem Link.Quiet.sent {segment : Segment}
    (hview : t.closeView = { s.closeView with acts := s.ctx.acts ++ [.sent segment] }) :
    s.Quiet t := by
  have htaken : (Act.sent segment).taken = [] := rfl
  rw [Link.Quiet, hview]
  exact CloseView.Quiet.one _ htaken

theorem Link.quiet_takeAck (s : Link U) (h : TcpHeader) (payload : List Byte) :
    s.Quiet (s.takeAck h payload) := by
  have hwindow : ∀ t : Link U,
      ({ t with conn := updateWindow t.conn h } : Link U).closeView = t.closeView := by
    intro t
    rw [updateWindow_eq]
    rfl
  have halive : (s.alive h.ack).closeView = s.closeView := by
    rw [alive_eq]
    rfl
  rw [Link.Quiet, takeAck, hwindow, ← halive]
  split_ifs
  · refine Link.Quiet.same (s := s.alive h.ack) ?_
    rw [ackNew_eq]
    rfl
  · rw [duplicateAck, fastRetransmit]
    split_ifs
    · exact CloseView.Quiet.refl _
    · exact Link.Quiet.sent (s := s.alive h.ack) rfl
    · exact CloseView.Quiet.refl _
  · exact CloseView.Quiet.refl _

theorem Link.up_takeAck (s : Link U) (h : TcpHeader) (payload : List Byte) :
    (s.takeAck h payload).ctx.up = s.ctx.up := by
  have halive : (s.alive h.ack).ctx.up = s.ctx.up := by
    rw [alive_eq]
  rw [takeAck, ← halive]
  split_ifs
  · rw [ackNew_eq]
  · rw [duplicateAck, fastRetransmit]
    split_ifs <;> rfl
  · rfl

section Upstream

theorem Link.closeView_finish [Upstream U] (hopen : s.conn.state ≠ .closed) (reason : CloseReason)
    (reset : Bool) : (s.finish reason reset).closeView = { s.closeView with
      state := .closed, closeReason := some reason, acts := s.ctx.acts ++ [.close reset] } := by
  rw [finish, if_neg hopen]
  rfl

section

variable (hs : s.Orderly)
include hs

theorem Link.Orderly.cut [Upstream U] (reason : CloseReason) (reset : Bool)
    (hreason : reason ≠ .normal) : (s.finish reason reset).Orderly := by
  by_cases hclosed : s.conn.state = .closed
  · rw [finish, if_pos hclosed]
    exact hs
  · have htaken : (Act.close reset).taken = [] := rfl
    rw [Link.Orderly, closeView_finish hclosed]
    exact CloseView.Orderly.cut hs hreason htaken

theorem Link.Orderly.finish [Upstream U] (hlate : s.conn.state.late)
    (hdrained : s.closeView.Drained) : (s.finish .normal false).Orderly := by
  rw [Link.Orderly, closeView_finish (State.ne_closed hlate (by decide))]
  exact CloseView.Orderly.finish hs (hs.late hlate) hdrained

theorem Link.Orderly.onFinAcked (now : ℕ) :
    ({ s with conn := onFinAcked s.conn now } : Link U).Orderly := by
  have hopen : ∀ state, s.conn.state = state → state ≠ .closed → s.closeView.state ≠ .closed := by
    rintro state hstate hne hclosed
    exact hne (hstate.symm.trans hclosed)
  rw [Link.onFinAcked]
  split
  · rename_i hstate
    have hfin : s.conn.rxFin = false := by
      refine hs.early ?_
      change s.conn.state.early
      rw [hstate]
      decide
    exact CloseView.Orderly.turn hs (hopen _ hstate (by simp)) (fun _ => hfin)
      (by simp [State.late]) (by simp)
  · rename_i hstate
    have hfin : s.conn.rxFin = true := by
      refine hs.late ?_
      change s.conn.state.late
      rw [hstate]
      decide
    exact CloseView.Orderly.turn hs (hopen _ hstate (by simp))
      (by simp [State.early, TcpConn.enterTimeWait]) (fun _ => hfin) (by rintro ⟨⟩)
  · exact hs

theorem Link.Orderly.settle [Upstream U] (h : TcpHeader) (payload : List Byte) :
    (s.settle h payload).Orderly := by
  have htaken : (s.takeAck h payload).Orderly := hs.quiet (quiet_takeAck s h payload)
  rw [Link.settle]
  split_ifs with hacked hlast
  · refine htaken.finish ?_ (htaken.last hlast)
    rw [hlast]
    decide
  · exact htaken.onFinAcked _
  · exact htaken

theorem Link.Orderly.takeData (h : TcpHeader) (payload : List Byte) :
    (s.takeData h payload).1.Orderly := by
  have hmore : ∀ (t : Link U) (bytes : List Byte) (n : ℕ), s.conn.state.taking →
      n = bytes.length → n ≤ s.conn.rcvWnd → t.closeView = { s.closeView with
        rx := s.conn.rx ++ bytes, bytesToRemote := s.conn.bytesToRemote + n } → t.Orderly := by
    rintro t bytes n htaking rfl hfits hview
    have hroom : s.conn.rx.length ≤ rxCapacity := hs.room
    rw [TcpConn.rcvWnd] at hfits
    rw [Link.Orderly, hview]
    refine CloseView.Orderly.data hs htaking bytes ?_
    change s.conn.rx.length + _ ≤ _
    omega
  rw [Link.takeData]
  dsimp only
  split_ifs with htake hahead hsome
  · exact hs
  · refine hmore _ _ _ htake.2 ?_ (min_le_right _ _) rfl
    rw [length_take, min_eq_left (min_le_left _ _)]
  · refine hmore _ _ _ htake.2 ?_ (min_le_right _ _) rfl
    rw [length_take, min_eq_left (min_le_left _ _)]
  · exact hs

theorem Link.Orderly.takeFin (h : TcpHeader) (payload : List Byte) (complete : Bool) :
    (s.takeFin h payload complete).Orderly := by
  rw [Link.takeFin]
  split_ifs
  · cases hnext : onFin s.conn s.ctx.now with
    | some c =>
      obtain ⟨htaking, hstate, hc⟩ := onFin_cases hnext
      have hopen : s.closeView.state ≠ .closed := State.ne_closed htaking (by decide)
      have hother : ¬c.state.early ∧ c.state ≠ .lastAck := by
        revert hstate
        cases c.state <;> decide
      have hfin := CloseView.Orderly.turn hs hopen (fun h => absurd h hother.1)
        (fun _ => rfl) fun h => absurd h hother.2
      have hview : ({ s with conn := { c with
          rcvNxt := c.rcvNxt + 1, rxFin := true, ackPending := true } } : Link U).closeView =
          { s.closeView with state := c.state, rxFin := true } := by
        rw [hc]
        rfl
      rw [← hview] at hfin
      exact hfin
    | none => exact hs
  · exact hs

theorem Link.Orderly.takeSegment (h : TcpHeader) (payload : List Byte) :
    (s.takeSegment h payload).Orderly := (hs.takeData h payload).takeFin h payload _

theorem Link.Orderly.expired [Upstream U] : s.expired.Orderly := by
  rw [Link.expired, Link.retransmit]
  dsimp only
  split_ifs
  · refine Link.Orderly.cut (s := sendRst _) ?_ _ _ (by simp)
    exact hs.quiet (Link.Quiet.sent (s := s) rfl)
  · rw [sendSynAck, armRtx, TcpConn.armRtx_eq]
    exact hs.quiet (Link.Quiet.sent (s := s) rfl)
  · rw [sendSyn, armRtx, TcpConn.armRtx_eq]
    exact hs.quiet (Link.Quiet.sent (s := s) rfl)
  · rw [goBack, armRtx, TcpConn.armRtx_eq]
    split_ifs
    · exact hs.quiet (Link.Quiet.sent (s := s) rfl)
    · exact hs

/-- The handshake changes the state before any data. -/
theorem Link.Orderly.opening (hfrom : s.conn.state.early) (hto : t.conn.state.early)
    (hview : t.closeView = { s.closeView with state := t.conn.state }) : t.Orderly := by
  have hfin : s.conn.rxFin = false := hs.early hfrom
  have hopen : s.closeView.state ≠ .closed := State.ne_closed hfrom (by decide)
  have hother : ¬t.conn.state.late ∧ t.conn.state ≠ .lastAck := by
    revert hto
    cases t.conn.state <;> decide
  rw [Link.Orderly, hview]
  exact CloseView.Orderly.turn hs hopen (fun _ => hfin) (fun h => absurd h hother.1)
    fun h => absurd h hother.2

theorem Link.Orderly.synAcked (hstate : s.conn.state = .synSent) (h : TcpHeader) :
    (s.synAcked h).Orderly := by
  have hearly : State.early .established := by decide
  rw [Link.synAcked, TcpConn.takeSample_eq]
  exact hs.opening (hstate ▸ by decide) hearly rfl

theorem Link.Orderly.establish (hstate : s.conn.state = .synReceived) (h : TcpHeader) :
    (s.establish h).Orderly := by
  have hearly : State.early .established := by decide
  exact hs.opening (hstate ▸ by decide) hearly rfl

end

/-! ## Before the exchange of a turn -/

/-- The part of a turn before its exchange: the upstream is as at the start, and all of the
guest was handed over, if its FIN does not come in this turn. -/
structure Link.Within (up : U) (fin : Bool) (s : Link U) : Prop where
  timed : s.Timed
  orderly : s.Orderly
  waits : s.conn.state ≠ .closed →
    s.ctx.up = up ∧ (s.conn.rxFin = true → s.closeView.Drained ∨ fin = true)

/-- The same, the timers apart. -/
structure Link.Unturned (up : U) (fin : Bool) (s : Link U) : Prop where
  orderly : s.Orderly
  waits : s.conn.state ≠ .closed →
    s.ctx.up = up ∧ (s.conn.rxFin = true → s.closeView.Drained ∨ fin = true)

section

variable {up : U} {fin : Bool}

theorem Link.Within.unturned (hs : s.Within up fin) : s.Unturned up fin := ⟨hs.orderly, hs.waits⟩

theorem Link.Unturned.within (htimed : s.Timed) (hs : s.Unturned up fin) : s.Within up fin :=
  ⟨htimed, hs.orderly, hs.waits⟩

namespace Link.Unturned

variable (hs : s.Unturned up fin)
include hs

theorem of_view (horderly : t.Orderly)
    (hopen : t.conn.state ≠ .closed → s.conn.state ≠ .closed) (hup : t.ctx.up = s.ctx.up)
    (hrx : t.conn.rxFin = true → s.conn.rxFin = true ∧ t.conn.rx = s.conn.rx ∧
      t.conn.shutdownDone = s.conn.shutdownDone) : t.Unturned up fin := by
  refine ⟨horderly, fun h => ?_⟩
  obtain ⟨hsame, hdrained⟩ := hs.waits (hopen h)
  refine ⟨hup.trans hsame, fun hfin => ?_⟩
  obtain ⟨hfin', hrx', hdone⟩ := hrx hfin
  refine (hdrained hfin').imp_left fun hempty => ⟨?_, ?_⟩
  · exact hrx'.trans hempty.1
  · exact hdone.trans hempty.2

theorem quiet (hup : t.ctx.up = s.ctx.up) (hquiet : s.Quiet t) : t.Unturned up fin := by
  have horderly : t.Orderly := hs.orderly.quiet hquiet
  obtain ⟨more, -, hview⟩ := hquiet
  have hstate : t.conn.state = s.conn.state := congrArg CloseView.state hview
  have hfin : t.conn.rxFin = s.conn.rxFin := congrArg CloseView.rxFin hview
  exact hs.of_view horderly (fun h => hstate ▸ h) hup fun h =>
    ⟨hfin ▸ h, congrArg CloseView.rx hview, congrArg CloseView.shutdownDone hview⟩

omit hs in
theorem of_closed (horderly : t.Orderly) (hclosed : t.conn.state = .closed) : t.Unturned up fin :=
  ⟨horderly, fun h => absurd hclosed h⟩

theorem cut [Upstream U] (reason : CloseReason) (reset : Bool) (hreason : reason ≠ .normal) :
    (s.finish reason reset).Unturned up fin :=
  of_closed (hs.orderly.cut reason reset hreason) (state_finish s reason reset)

theorem onFinAcked (now : ℕ) :
    ({ s with conn := onFinAcked s.conn now } : Link U).Unturned up fin := by
  have horderly := hs.orderly.onFinAcked now
  refine hs.of_view horderly ?_ rfl ?_
  · rw [Link.onFinAcked]
    split
    · rename_i hstate
      rw [hstate]
      exact fun _ => by simp
    · rename_i hstate
      rw [hstate]
      exact fun _ => by simp
    · exact id
  · rw [Link.onFinAcked]
    split <;> exact fun h => ⟨h, rfl, rfl⟩

theorem settle [Upstream U] (h : TcpHeader) (payload : List Byte) :
    (s.settle h payload).Unturned up fin := by
  have htaken : (s.takeAck h payload).Unturned up fin :=
    hs.quiet (up_takeAck s h payload) (quiet_takeAck s h payload)
  have horderly := hs.orderly.settle h payload
  rw [Link.settle] at horderly ⊢
  split_ifs at horderly ⊢
  · exact of_closed horderly (state_finish _ _ _)
  · exact htaken.onFinAcked _
  · exact htaken

theorem takeData (h : TcpHeader) (payload : List Byte) :
    (s.takeData h payload).1.Unturned up fin := by
  have horderly := hs.orderly.takeData h payload
  by_cases htake : payload ≠ [] ∧ s.conn.state.taking
  · have hfin : s.conn.rxFin = false := by
      refine hs.orderly.early ?_
      have htaking := htake.2
      change s.conn.state.early
      revert htaking
      cases s.conn.state <;> decide
    have hframe : (s.takeData h payload).1.conn.state = s.conn.state ∧
        (s.takeData h payload).1.ctx.up = s.ctx.up ∧
        (s.takeData h payload).1.conn.rxFin = s.conn.rxFin := by
      rw [Link.takeData]
      dsimp only
      split_ifs <;> exact ⟨rfl, rfl, rfl⟩
    exact hs.of_view horderly (fun hopen => hframe.1 ▸ hopen) hframe.2.1 fun htrue =>
      absurd (hframe.2.2.symm.trans htrue) (by simp [hfin])
  · have hnothing : s.takeData h payload = (s, true) := if_neg htake
    rw [hnothing]
    exact hs

theorem takeSegment (h : TcpHeader) (payload : List Byte) (hfin : h.flags.fin = true → fin = true) :
    (s.takeSegment h payload).Unturned up fin := by
  have hdata := hs.takeData h payload
  have horderly := hs.orderly.takeSegment h payload
  rw [Link.takeSegment] at horderly ⊢
  generalize s.takeData h payload = t at *
  rw [takeFin] at horderly ⊢
  split_ifs at horderly ⊢ with hflag
  · cases hnext : onFin t.1.conn t.1.ctx.now with
    | some c =>
      rw [hnext] at horderly
      refine ⟨horderly, fun _ => ⟨?_, fun _ => .inr (hfin hflag.1)⟩⟩
      exact (hdata.waits (State.ne_closed (onFin_cases hnext).1 (by decide))).1
    | none =>
      rw [hnext] at horderly
      exact hdata.of_view horderly id rfl fun h => ⟨h, rfl, rfl⟩
  · exact hdata

theorem expired [Upstream U] : s.expired.Unturned up fin := by
  have horderly := hs.orderly.expired
  rw [Link.expired, Link.retransmit] at horderly ⊢
  dsimp only at horderly ⊢
  split_ifs at horderly ⊢
  · exact of_closed horderly (state_finish _ _ _)
  · rw [sendSynAck, armRtx, TcpConn.armRtx_eq]
    exact hs.quiet rfl (Link.Quiet.sent rfl)
  · rw [sendSyn, armRtx, TcpConn.armRtx_eq]
    exact hs.quiet rfl (Link.Quiet.sent rfl)
  · rw [goBack, armRtx, TcpConn.armRtx_eq]
    split_ifs
    · exact hs.quiet rfl (Link.Quiet.sent rfl)
    · exact hs.quiet rfl (Link.Quiet.same rfl)

end Link.Unturned

end

variable [Upstream U]

theorem steady_unturned (up : U) (fin : Bool) : Steady (Link.Within up fin) (Link.Unturned up fin)
    { data := fun _ h _ => h.flags.fin = true → fin = true } where
  due hs := hs.unturned.quiet rfl (Link.Quiet.same rfl)
  refuse {s} hs h := by
    rw [refuse]
    by_cases hrst : h.flags.rst = true
    · rw [if_pos hrst]
      exact hs.unturned
    · rw [if_neg hrst]
      exact hs.unturned.quiet rfl (Link.Quiet.same rfl)
  pushRst hs _ := hs.unturned.quiet rfl (Link.Quiet.sent rfl)
  finish hs reason reset hreason := hs.unturned.cut reason reset hreason
  reset hs _ reason hreason :=
    Link.Unturned.cut (s := sendRst _) (hs.unturned.quiet rfl (Link.Quiet.sent rfl)) reason true
      hreason
  sendSynAck hs hstate := by
    rw [sendSynAck, armRtx, TcpConn.armRtx_eq]
    exact hs.unturned.quiet rfl (Link.Quiet.sent rfl)
  synAcked {s} hs hstate h hack := by
    have horderly := hs.orderly.synAcked hstate h
    rw [synAcked, TcpConn.takeSample_eq] at horderly ⊢
    exact hs.unturned.of_view horderly (fun _ => by simp [hstate]) rfl fun h => ⟨h, rfl, rfl⟩
  handshake hs hstate _ := hs.timed.handshake hstate
  establish {s} hs hstate h payload _ := by
    have hopen : (s.establish h).Unturned up fin :=
      hs.unturned.of_view (hs.orderly.establish hstate h) (fun _ => by simp [hstate]) rfl
        fun h => ⟨h, rfl, rfl⟩
    exact hopen.settle h payload
  settle hs _ h payload _ _ := hs.unturned.settle h payload
  takeSegment hs h payload hfin := hs.unturned.takeSegment h payload hfin
  cleared hs _ := hs.unturned.quiet rfl (Link.Quiet.same rfl)
  expired hs _ := hs.unturned.expired

theorem steady_within (up : U) (fin : Bool) : Steady (Link.Within up fin) (Link.Within up fin)
    { data := fun _ h _ => h.flags.fin = true → fin = true } :=
  Steady.join Link.Within.timed Link.Unturned.within kept_timed.toSteady (steady_unturned up fin)

/-! ## The exchange -/

/-- An upstream that takes everything it is offered in one exchange. -/
def Eager (up : U) : Prop := ∀ now id (first second : List Byte),
  first.length + second.length ≤ rxCapacity →
  first.length ≤ (Upstream.tcpWrite up now id first).1 ∧
    second.length ≤
      (Upstream.tcpWrite (Upstream.tcpWrite up now id first).2 now id second).1

/-- An upstream that takes everything leaves nothing in `rx`. -/
theorem rx_writeRx (heager : Eager s.ctx.up) (hroom : s.conn.rx.length ≤ rxCapacity) :
    s.writeRx.conn.rx = [] := by
  have hchunk : ∀ (t : Link U) (chunk : List Byte),
      chunk.length ≤ (Upstream.tcpWrite t.ctx.up t.ctx.now t.conn.id chunk).1 →
      (t.writeChunk chunk).2 = true ∧
        (t.writeChunk chunk).1.conn.rx = t.conn.rx.drop chunk.length := by
    intro t chunk hall
    rw [writeChunk, min_eq_right hall]
    exact ⟨decide_eq_true rfl, rfl⟩
  rw [writeRx]
  split_ifs with hempty
  · exact hempty
  · dsimp only
    have hk : min (max s.ctx.slice 1) s.conn.rx.length ≤ s.conn.rx.length := min_le_right _ _
    generalize min (max s.ctx.slice 1) s.conn.rx.length = k at hk
    have hsize : (s.conn.rx.take k).length + (s.conn.rx.drop k).length = s.conn.rx.length := by
      rw [← length_append, take_append_drop]
    have hfirst := hchunk s (s.conn.rx.take k) (heager _ _ _ [] (by rw [length_nil]; omega)).1
    have hdrop : (s.writeChunk (s.conn.rx.take k)).1.conn.rx = s.conn.rx.drop k := by
      rw [hfirst.2, length_take, min_eq_left hk]
    have hsecond := hchunk (s.writeChunk (s.conn.rx.take k)).1 (s.conn.rx.drop k)
      (heager _ _ (s.conn.rx.take k) _ (by omega)).2
    split_ifs with hmore
    · rw [hdrop, hsecond.2, hdrop, drop_length]
    · rw [not_and, not_not] at hmore
      exact hmore hfirst.1

/-- Reception while bytes are handed over: only `rx` gets shorter. -/
structure Link.Writing (s t : Link U) : Prop where
  orderly : t.Orderly
  state : t.conn.state = s.conn.state
  rxFin : t.conn.rxFin = s.conn.rxFin
  shutdownDone : t.conn.shutdownDone = s.conn.shutdownDone

theorem writing_writeRx (hs : s.Orderly) : s.Writing s.writeRx := by
  have hstart : s.Writing s := ⟨hs, rfl, rfl, rfl⟩
  refine written_of hstart fun t k ht => ?_
  have hn : min (Upstream.tcpWrite t.ctx.up t.ctx.now t.conn.id (t.conn.rx.take k)).1
      (t.conn.rx.take k).length ≤ (t.closeView.rx.take k).length := min_le_right _ _
  exact ⟨CloseView.Orderly.write ht.orderly hn, ht.state, ht.rxFin, ht.shutdownDone⟩

/-- After the end of the stream is passed on, if it was all handed over. -/
theorem settled_shutdownRx (hs : s.Orderly)
    (hrx : s.conn.rxFin = true → s.conn.rx = []) : s.shutdownRx.Settled := by
  rw [shutdownRx]
  split_ifs with hdone
  · exact ⟨CloseView.Orderly.shutdown hs hdone.1, fun _ _ => ⟨hdone.1, rfl⟩⟩
  · refine ⟨hs, fun _ hfin => ⟨hrx hfin, ?_⟩⟩
    by_contra hundone
    exact hdone ⟨hrx hfin, hfin, hundone⟩

theorem settled_delivered (hs : s.Orderly)
    (hready : s.conn.rxFin = true → s.closeView.Drained ∨ Eager s.ctx.up) :
    s.writeRx.shutdownRx.windowUpdate.Settled := by
  have hwriting := writing_writeRx hs
  have hshutdown : s.writeRx.shutdownRx.Settled := by
    refine settled_shutdownRx hwriting.orderly fun hfin => ?_
    rw [hwriting.rxFin] at hfin
    rcases hready hfin with hdrained | heager
    · have hempty : s.conn.rx = [] := hdrained.1
      rw [writeRx, if_pos hempty]
      exact hempty
    · exact rx_writeRx heager hs.room
  rw [windowUpdate]
  split_ifs <;> exact hshutdown

theorem sends_settled : Sends (U := U) Link.Settled where
  readOnce {s} hs _ _ _ := by
    have htake : ∀ (t : Link U) (room : ℕ) (answer : TcpRead),
        (t.takeRead room answer).1.closeView = t.closeView := by
      intro t room answer
      cases answer with
      | data bytes =>
        rw [takeRead]
        split_ifs <;> rfl
      | _ => rfl
    have hread : ∀ t : Link U, (∃ room answer, t.closeView =
        { s.closeView with acts := s.ctx.acts ++ [.read room answer] }) → t.Settled := by
      rintro t ⟨room, answer, hview⟩
      have htaken : (Act.read room answer).taken = [] := rfl
      rw [Link.Settled, hview]
      exact hs.quiet (CloseView.Quiet.one _ htaken)
    exact hread _ ⟨_, _, htake _ _ _⟩
  sendOne {s} hs _ _ _ := by
    rw [sendOne, armRtx, TcpConn.armRtx_eq]
    exact CloseView.Settled.quiet hs (Link.Quiet.sent (s := s) rfl)
  sendFin {s} hs hsending := by
    rw [sendFin]
    split
    · exact hs
    · rename_i state hfin
      have hopen : s.closeView.state ≠ .closed := State.ne_closed hsending (by decide)
      have hnext : state = .finWait1 ∧ s.conn.state = .established ∨ state = .lastAck ∧
          s.conn.state = .closeWait ∨ state = s.conn.state := by
        obtain ⟨-, -, ⟨-, ⟨hstate, hto⟩ | ⟨hstate, hto⟩⟩ | ⟨-, hto⟩⟩ := finState_cases hfin
        · exact .inl ⟨hto, hstate⟩
        · exact .inr (.inl ⟨hto, hstate⟩)
        · exact .inr (.inr hto)
      have hfrom : (state.early ↔ s.conn.state.early) ∧ (state.late ↔ s.conn.state.late) := by
        rcases hnext with ⟨rfl, hstate⟩ | ⟨rfl, hstate⟩ | rfl
        · rw [hstate]
          decide
        · rw [hstate]
          decide
        · exact ⟨Iff.rfl, Iff.rfl⟩
      have hturned : CloseView.Settled { s.closeView with state } := by
        refine ⟨CloseView.Orderly.turn hs.orderly hopen (fun h => hs.orderly.early (hfrom.1.mp h))
          (fun h => hs.orderly.late (hfrom.2.mp h)) fun hlast => ?_, fun _ => hs.drained hopen⟩
        refine hs.drained hopen (hs.orderly.late (hfrom.2.mp ?_))
        rw [hlast]
        decide
      rw [armRtx, TcpConn.armRtx_eq]
      exact hturned.quiet (Link.Quiet.sent (s := { s with conn := { s.conn with
        state, finSeq := some s.conn.sndNxt } }) rfl)
  persist {s} hs := by
    rw [persist_eq]
    exact hs

/-- An exchange in which everything of the guest that ends is handed over. -/
theorem settled_exchange (hs : s.Orderly)
    (hready : s.conn.rxFin = true → s.closeView.Drained ∨ Eager s.ctx.up) : s.exchange.Settled := by
  refine sends_settled.exchange (settled_delivered hs hready) (fun t ht => ?_) fun t ht => ?_
  · have hrst : t.sendRst.Orderly := ht.orderly.quiet (Link.Quiet.sent (s := t) rfl)
    exact ⟨hrst.cut _ _ (by simp), fun h => absurd (state_finish _ _ _) h⟩
  · rw [flushAck]
    split_ifs
    · exact ht.quiet (Link.Quiet.sent (s := t) rfl)
    · exact ht

theorem settled_process (hs : s.Orderly) (hready : s.conn.state ≠ .closed → s.conn.rxFin = true →
      s.closeView.Drained ∨ Eager s.ctx.up) : s.process.Settled := by
  have hbefore : ∀ t : Link U, t.Orderly → t.conn.state.early → t.Settled := fun t ht hearly =>
    ⟨ht, fun _ hfin => absurd hfin (by simp [ht.early hearly])⟩
  have hcut : ∀ t : Link U, t.Orderly → ∀ reason reset, reason ≠ .normal →
      (t.finish reason reset).Settled := fun t ht reason reset hreason =>
    ⟨ht.cut reason reset hreason, fun h => absurd (state_finish _ _ _) h⟩
  have hasked : s.askStatus.2.Orderly := by
    have htaken : (Act.status s.askStatus.1).taken = [] := rfl
    exact hs.quiet (CloseView.Quiet.one _ htaken)
  have hrefused : (s.askStatus.2.emit 0 { rst := true, ack := true } []).Orderly :=
    hasked.quiet (Link.Quiet.sent (s := s.askStatus.2) rfl)
  rcases Steady.open_cases s.conn with hstate | hstate | hstate | hstate | hsync
  · rw [process, hstate]
    exact ⟨hs, fun h => absurd hstate h⟩
  · rw [process, hstate]
    dsimp only
    split
    · have hearly : State.early .synReceived := by decide
      have hopening : Link.Orderly
          { s.askStatus.2 with conn := { s.conn with state := .synReceived } } :=
        hasked.opening (hstate ▸ by decide) hearly rfl
      have hopened : s.askStatus.2.opened.Orderly := by
        rw [opened, sendSynAck, armRtx, TcpConn.armRtx_eq]
        exact hopening.quiet (Link.Quiet.sent rfl)
      refine settled_exchange hopened fun hfin => ?_
      have hstill : s.askStatus.2.opened.conn.state.early := by
        rw [state_opened]
        decide
      exact absurd ((hopened.early hstill).symm.trans hfin) (by simp)
    · exact hcut _ hrefused _ _ (by simp)
    · split_ifs
      · exact hcut _ hrefused _ _ (by simp)
      · exact hbefore _ hasked (by change s.conn.state.early; rw [hstate]; decide)
  · rw [process, hstate]
    dsimp only
    split_ifs
    · exact hcut _ hs _ _ (by simp)
    · exact hbefore _ hs (hstate ▸ by decide)
  · rw [process, hstate]
    exact settled_exchange hs (hready (by simp [hstate]))
  · rw [process_of_isSynchronized hsync]
    exact settled_exchange hs (hready (heard_of_open (.inr hsync)).2)

/-! ## Turns -/

/-- One turn of the stack on a connection. -/
def Link.turn (s : Link U) (m : Moment U) : Event → Link U
  | .input h payload => ((s.moved m).input h payload).process
  | .timer => (s.moved m).onTimer.process
  | e => s.step m e

/-- The states between the turns when every turn meets `ok`. -/
inductive Turned (ok : Moment U → Event → Prop) : Link U → Prop where
  | passive (id : ℕ) (flow : Flow) (syn : TcpHeader) (iss : Seq) (localMss timeout : ℕ)
      (m : Moment U) :
      Turned ok (fresh (TcpConn.new id flow syn iss localMss m.now timeout) m)
  | active (id : ℕ) (flow : Flow) (iss : Seq) (localMss timeout : ℕ) (m : Moment U) :
      Turned ok
        (fresh (TcpConn.newActive id flow iss localMss m.now timeout) m).startActive
  | turn {s : Link U} (hturned : Turned ok s) (m : Moment U) (e : Event) (hok : ok m e) :
      Turned ok (s.turn m e)

/-- A FIN of the guest finds an upstream that takes everything. -/
def TakesFin (m : Moment U) (e : Event) : Prop :=
  ∀ h payload, e = .input h payload → h.flags.fin = true → Eager m.up

/-- Between two turns. -/
structure Link.Rested (s : Link U) : Prop where
  timed : s.Timed
  settled : s.Settled

namespace Link.Rested

omit [Upstream U] in
theorem within (hs : s.Rested) (m : Moment U) (fin : Bool) : (s.moved m).Within m.up fin :=
  ⟨hs.timed, hs.settled.orderly, fun hopen =>
    ⟨rfl, fun hfin => .inl (hs.settled.drained hopen hfin)⟩⟩

/-- TIME-WAIT ends between turns, when everything was handed over. -/
theorem lapse (hs : s.Rested) (m : Moment U) (fin : Bool)
    (hstate : (s.moved m).conn.state = .timeWait) :
    ((s.moved m).finish .normal false).Within m.up fin := by
  have hlate : s.conn.state.late := by
    change s.conn.state = .timeWait at hstate
    rw [hstate]
    decide
  have hdrained := hs.settled.drained (State.ne_closed hlate (by decide))
    (hs.settled.orderly.late hlate)
  have hwithin := hs.within m fin
  exact (Link.Unturned.of_closed (hwithin.orderly.finish hlate hdrained)
    (state_finish _ _ _)).within (hwithin.timed.finish _ _)

theorem process (up : U) (fin : Bool) {t : Link U} (ht : t.Within up fin)
    (heager : fin = true → Eager up) : t.process.Rested := by
  refine ⟨kept_timed.process ht.timed, settled_process ht.orderly fun hopen hfin => ?_⟩
  obtain ⟨hup, hready⟩ := ht.waits hopen
  refine (hready hfin).imp_right fun hset => ?_
  rw [hup]
  exact heager hset

omit [Upstream U] in
/-- A connection that was closed by the call has nothing more to hand over. -/
theorem of_within {up : U} {t : Link U} (ht : t.Within up false) : t.Rested := by
  refine ⟨ht.timed, ht.orderly, fun hopen hfin => ?_⟩
  exact ((ht.waits hopen).2 hfin).resolve_right (by simp)

theorem turn (hs : s.Rested) {m : Moment U} {e : Event} (htakes : TakesFin m e) :
    (s.turn m e).Rested := by
  cases e with
  | input h payload =>
    refine process m.up h.flags.fin ?_ (htakes h payload rfl)
    exact (steady_within m.up h.flags.fin).input (hs.within m _) (fun _ => trivial) fun _ _ => id
  | timer =>
    refine process m.up false ?_ (by simp)
    exact (steady_within m.up false).onTimer (hs.within m _) (hs.lapse m false)
  | process => exact process m.up false (hs.within m false) (by simp)
  | abort => exact of_within ((steady_within m.up false).abort (hs.within m _))
  | endTimeWait => exact of_within (Steady.endTimeWait (hs.within m _) (hs.lapse m false))

end Link.Rested

theorem Link.Rested.turned (hturned : Turned TakesFin s) : s.Rested := by
  induction hturned with
  | passive id flow syn iss localMss timeout m =>
    exact ⟨Link.Timed.passive id flow syn iss localMss timeout m,
      ⟨Nat.zero_le _, fun _ => rfl, fun h => absurd h (by decide : ¬State.late .connecting),
        by rintro ⟨⟩, fun _ => rfl, by rintro ⟨⟩, rfl, by rintro ⟨⟩⟩, by rintro _ ⟨⟩⟩
  | active id flow iss localMss timeout m =>
    refine ⟨Link.Timed.active id flow iss localMss timeout m, ?_⟩
    rw [startActive_newActive, sendSyn, armRtx, TcpConn.armRtx_eq]
    exact ⟨⟨Nat.zero_le _, fun _ => rfl, fun h => absurd h (by decide : ¬State.late .synSent),
      by rintro ⟨⟩, fun _ => rfl, by rintro ⟨⟩, rfl, by rintro ⟨⟩⟩, by rintro _ ⟨⟩⟩
  | turn _ m e hok ih => exact ih.turn hok

/-- If every FIN of the guest finds an upstream that takes everything, a connection that
ends in the normal way has handed over every byte of the guest, and the upstream has heard
of the end of them before the end of the connection. -/
theorem handed_over_of_takesFin (hturned : Turned TakesFin s)
    (hnormal : s.conn.closeReason = some .normal) :
    s.conn.rx = [] ∧ s.conn.rxFin = true ∧
      (accepted s.ctx.acts).length = s.conn.bytesToRemote ∧
      ∃ before rest, s.ctx.acts = before ++ .close false :: rest ∧ Act.shutdown ∈ before := by
  have horderly := (Link.Rested.turned hturned).settled.orderly
  obtain ⟨hrx, hfin, hannounced⟩ := horderly.ended hnormal
  have hcount : s.conn.bytesToRemote = (accepted s.ctx.acts).length + s.conn.rx.length :=
    horderly.count
  refine ⟨hrx, hfin, ?_, hannounced⟩
  change s.conn.rx = [] at hrx
  rw [hcount, hrx, length_nil, Nat.add_zero]

end Upstream

/-! ## A full upstream -/

/-- An upstream whose buffer for the guest's bytes is full and that has sent everything. -/
structure Full where

instance : Upstream Full where
  tcpStatus up _ _ := (.connected, up)
  tcpWrite up _ _ _ := (0, up)
  tcpRead up _ _ _ := (.eof, up)
  tcpShutdown up _ _ := up
  tcpClose up _ _ _ := up

/-- The guest sends a byte with its FIN and acknowledges ours: the connection ends in the
normal way, and the upstream has heard of neither. -/
theorem not_handed_over_full : ∃ s : Link Full, Turned (fun _ _ => True) s ∧
    s.conn.closeReason = some .normal ∧ s.conn.rx = [9] ∧ s.conn.bytesToRemote = 1 ∧
    accepted s.ctx.acts = [] ∧ Act.shutdown ∉ s.ctx.acts := by
  let flow : Flow := ⟨⟨1, 1⟩, ⟨2, 2⟩⟩
  let m : Moment Full := ⟨0, {}, 0⟩
  let syn : TcpHeader := ⟨1, 2, 0, 0, { syn := true }, 100, none⟩
  let data : TcpHeader := ⟨1, 2, 1, 8, { fin := true, ack := true }, 100, none⟩
  let last : TcpHeader := ⟨1, 2, 3, 9, { ack := true }, 100, none⟩
  let s := fresh (TcpConn.new 0 flow syn 7 1460 0 0) m
  refine ⟨((s.turn m .process).turn m (.input data [9])).turn m (.input last []),
    .turn (.turn (.turn (.passive 0 flow syn 7 1460 0 m) m _ trivial) m _ trivial) m _ trivial, ?_⟩
  decide +kernel

/-- The host side takes everything while it has room for a full window. -/
theorem eager_hostEnd {up : HostEnd} (hroom : up.fromGuest.length + rxCapacity ≤ hostBuffer) :
    Eager up := by
  intro now id first second hsize
  change first.length ≤ min _ _ ∧ second.length ≤ min _ (hostBuffer -
    (up.fromGuest ++ first.take (min first.length (hostBuffer - up.fromGuest.length))).length)
  rw [length_append, length_take]
  omega

/-- The same run with the host side, which has room. -/
theorem handed_over_of_takesFin_one :
    let flow : Flow := ⟨⟨1, 1⟩, ⟨2, 2⟩⟩
    let m : Moment HostEnd := ⟨0, { flow, shutdown := true }, 0⟩
    let syn : TcpHeader := ⟨1, 2, 0, 0, { syn := true }, 100, none⟩
    let data : TcpHeader := ⟨1, 2, 1, 8, { fin := true, ack := true }, 100, none⟩
    let last : TcpHeader := ⟨1, 2, 3, 9, { ack := true }, 100, none⟩
    let s := fresh (TcpConn.new 0 flow syn 7 1460 0 0) m
    let t := ((s.turn m .process).turn m (.input data [9])).turn m (.input last [])
    t.conn.closeReason = some .normal ∧ accepted t.ctx.acts = [9] ∧ t.conn.rx = [] := by
  intro flow m syn data last s t
  have heager : Eager m.up := eager_hostEnd (by decide)
  have hturned : Turned TakesFin t :=
    .turn (.turn (.turn (.passive 0 flow syn 7 1460 0 m) m _ (by rintro _ _ ⟨⟩)) m _
      fun _ _ _ _ => heager) m _ fun _ _ _ _ => heager
  have hnormal : t.conn.closeReason = some .normal := by decide +kernel
  exact ⟨hnormal, by decide +kernel, (handed_over_of_takesFin hturned hnormal).1⟩

end Vetro.Tcp
