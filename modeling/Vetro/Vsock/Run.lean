import Vetro.Vsock.View

/-!
# Runs of the device

An event is a host call or one buffer of a queue; `service` is some of them, one
after the other.  The conditions under which a connection keeps its credit and
its place in the backlog are conditions on the single events.
-/

namespace Vetro.Vsock

open Bytes VirtioVsock List Option

/-- A host call, a chain of the transmit queue, a buffer of the receive queue or
of the event queue. -/
inductive Event where
  | listen (port : BitVec 32)
  | unlisten (port : BitVec 32)
  | accept (port : BitVec 32)
  | connect (guestPort : BitVec 32)
  | send (c : VsockConn) (data : List Byte)
  | recv (c : VsockConn) (max : ℕ)
  | shutdownSend (c : VsockConn)
  | close (c : VsockConn)
  | reset (c : VsockConn)
  | release (c : VsockConn)
  | transportReset
  | deviceReset
  | event (buffer : Option ℕ)
  | transmit (bytes : List Byte)
  | buffer (size : ℕ)
  deriving Repr, DecidableEq

/-- The device after the event; without one the source does not return. -/
def VirtioVsock.step (s : VirtioVsock) : Event → Option VirtioVsock
  | .listen port => some (s.listen port).2
  | .unlisten port => some (s.unlisten port)
  | .accept port => some (s.accept port).2
  | .connect guestPort => (s.connect guestPort).map Prod.snd
  | .send c data => some (s.send c data).2
  | .recv c max => some (s.recv c max).2
  | .shutdownSend c => some (s.shutdownSend c)
  | .close c => some (s.close c)
  | .reset c => some (s.reset c)
  | .release c => some (s.release c)
  | .transportReset => some s.transportReset
  | .deviceReset => some s.deviceReset
  | .event buffer => some (s.eventQueue buffer).2
  | .transmit bytes => some (s.transmitChain bytes)
  | .buffer size => some (s.receiveQueue [size]).2.2

/-- The device after the events. -/
def VirtioVsock.run (s : VirtioVsock) (events : List Event) : Option VirtioVsock :=
  events.foldlM step s

/-- A packet of the guest has the stream type. -/
def Event.StreamType : Event → Prop
  | .transmit bytes => (Hdr.parse (bytes.take hdrLen)).ty = typeStream
  | _ => True

/-- No connection opens while a packet with a count of an earlier connection with
its ports is queued. -/
def Clear (s : VirtioVsock) : Event → Prop
  | .transmit bytes =>
    let h := Hdr.parse (bytes.take hdrLen)
    h.op = opRequest → ∀ p ∈ s.control, hostConn p = guestConn h → p.fwdCnt = 0
  | .connect guestPort => ∀ p ∈ s.control, p.dstPort = guestPort → p.fwdCnt = 0
  | _ => True

def Settled (s : VirtioVsock) (event : Event) : Prop := event.StreamType ∧ Clear s event

/-- No closed connection is requested again while it waits for `accept`, and none
is accepted. -/
def Live (s : VirtioVsock) : Event → Prop
  | .transmit bytes =>
    let h := Hdr.parse (bytes.take hdrLen)
    h.op = opRequest → ∀ k, s.conns[guestConn h]? = some k → k.state = .closed →
      guestConn h ∉ (s.backlog[h.dstPort]?).getD []
  | .accept port => ∀ c rest, s.backlog[port]? = some (c :: rest) →
    ∃ k, s.conns[c]? = some k ∧ k.state ≠ .closed
  | _ => True

def given (s : VirtioVsock) (event : Event) : Given := ⟨Settled s event, Live s event⟩

theorem receiveQueue_singleton (s : VirtioVsock) (size : ℕ) : (s.receiveQueue [size]).2.2 = s ∨
      ∃ h data, s.deliver size = some (h, data, (s.receiveQueue [size]).2.2) := by
  rw [receiveQueue]
  split
  · exact .inl rfl
  · split
    · exact .inl rfl
    · rename_i h data t hdeliver
      exact .inr ⟨h, data, hdeliver⟩

variable {s : VirtioVsock} {event : Event} {t : VirtioVsock}

/-- An event makes moves for every connection. -/
theorem moves_step (hplaced : Placed s) (hstep : s.step event = some t)
    (d : VsockConn) : Moves d (given s event) (s.view d) (t.view d) := by
  cases event with
  | connect guestPort =>
    obtain ⟨⟨c, t'⟩, hconnect, rfl⟩ := map_eq_some_iff.mp hstep
    exact moves_connect hconnect And.right d
  | transmit bytes =>
    obtain rfl := some.inj hstep
    rw [transmitChain]
    split
    · exact .refl
    · refine moves_receive s _ _ id (fun hlive hop hclosed hsome => ?_) d
      obtain ⟨k, hk⟩ := ne_none_iff_exists'.mp hsome
      exact count_eq_zero.mpr (hlive hop k hk (hclosed k hk))
  | buffer size =>
    obtain rfl := some.inj hstep
    rcases receiveQueue_singleton s size with heq | ⟨h, data, hdeliver⟩
    · rw [heq]
    · exact moves_deliver hdeliver d
  | listen port =>
    obtain rfl := some.inj hstep
    rw [VirtioVsock.listen]
    split <;> exact .refl
  | event buffer =>
    obtain rfl := some.inj hstep
    unfold eventQueue
    split <;> exact .refl
  | unlisten port => exact some.inj hstep ▸ moves_unlisten s port d
  | accept port => exact some.inj hstep ▸ moves_accept hplaced port id d
  | send c data => exact some.inj hstep ▸ moves_send s c data d
  | recv c max => exact some.inj hstep ▸ moves_recv s c max d
  | shutdownSend c => exact some.inj hstep ▸ moves_shutdownSend s c d
  | close c => exact some.inj hstep ▸ moves_close s c d
  | reset c => exact some.inj hstep ▸ moves_reset s c d
  | release c => exact some.inj hstep ▸ moves_release s c d
  | transportReset => exact some.inj hstep ▸ moves_dropAll { s with resetEvent := true } d
  | deviceReset => exact some.inj hstep ▸ moves_dropAll s d

/-! ### The queues of the backlog -/

theorem Placed.congr (hplaced : Placed s) (heq : t.backlog = s.backlog) :
    Placed t := by
  rw [Placed, heq]
  exact hplaced

@[simp]
theorem reset_backlog (s : VirtioVsock) (c : VsockConn) : (s.reset c).backlog = s.backlog := by
  rw [reset]
  split
  · split <;> rfl
  · rfl

theorem foldl_reset_backlog (cs : List VsockConn) (s : VirtioVsock) :
    (cs.foldl reset s).backlog = s.backlog := by
  induction cs generalizing s with
  | nil => rfl
  | cons c cs ih => rw [foldl_cons, ih, reset_backlog]

theorem receiveOpen_backlog (s : VirtioVsock) (c : VsockConn) (k : Conn) (h : Hdr)
    (payload : List Byte) : (s.receiveOpen c k h payload).backlog = s.backlog := by
  rw [receiveOpen]
  repeat' split
  all_goals simp only [reset_backlog, amend]

theorem placed_receiveUnknown (hplaced : Placed s) (h : Hdr) :
    Placed (s.receiveUnknown (guestConn h) h) := by
  rw [receiveUnknown]
  split
  · intro port waiting hwaiting c hc
    rw [Std.TreeMap.getElem?_insert] at hwaiting
    split at hwaiting
    · rename_i hport
      rw [← some.inj hwaiting, mem_append, mem_singleton] at hc
      rcases hc with hold | rfl
      · cases hq : s.backlog[h.dstPort]? with
        | none => simp [hq] at hold
        | some queue =>
          rw [hq] at hold
          rw [← Std.LawfulEqOrd.eq_of_compare hport]
          exact hplaced h.dstPort queue hq c hold
      · exact Std.LawfulEqOrd.eq_of_compare hport
    · exact hplaced port waiting hwaiting c hc
  · split <;> exact hplaced

theorem placed_receive (hplaced : Placed s) (h : Hdr) (payload : List Byte) :
    Placed (s.receive h payload) := by
  rw [receive]
  split
  · exact hplaced
  split
  · split <;> exact hplaced
  dsimp only
  split
  · split
    · exact placed_receiveUnknown hplaced h
    · exact hplaced.congr (receiveOpen_backlog ..)
  · exact placed_receiveUnknown hplaced h

theorem placed_accept (hplaced : Placed s) (port : BitVec 32) : Placed (s.accept port).2 := by
  rw [accept]
  split
  · rename_i c rest hqueue
    intro port' waiting hwaiting d hd
    rw [Std.TreeMap.getElem?_insert] at hwaiting
    split at hwaiting
    · rename_i hport
      rw [← some.inj hwaiting] at hd
      rw [← Std.LawfulEqOrd.eq_of_compare hport]
      exact hplaced port _ hqueue d (mem_cons_of_mem c hd)
    · exact hplaced port' waiting hwaiting d hd
  · exact hplaced
  · exact hplaced

theorem placed_release (hplaced : Placed s) (c : VsockConn) : Placed (s.release c) := by
  intro port waiting hwaiting d hd
  simp only [release, Std.TreeMap.getElem?_map, reset_backlog] at hwaiting
  obtain ⟨queue, hqueue, rfl⟩ := map_eq_some_iff.mp hwaiting
  exact hplaced port queue hqueue d (mem_of_mem_filter hd)

theorem placed_unlisten (hplaced : Placed s) (port : BitVec 32) : Placed (s.unlisten port) := by
  intro port' waiting hwaiting d hd
  rw [unlisten, foldl_reset_backlog] at hwaiting
  rw [Std.TreeMap.getElem?_erase] at hwaiting
  split at hwaiting
  · cases hwaiting
  · exact hplaced port' waiting hwaiting d hd

theorem placed_dropAll (s : VirtioVsock) : Placed s.dropAll := by
  intro port waiting hwaiting
  simp [dropAll] at hwaiting

theorem deliver_backlog {size : ℕ} {h : Hdr} {data : List Byte}
    (hdeliver : s.deliver size = some (h, data, t)) : t.backlog = s.backlog := by
  rcases deliver_cases hdeliver with ⟨rest, _, rfl, rfl⟩ | ⟨_, c, k, m, hk, hof, rfl⟩
  · rfl
  · obtain ⟨k', rfl, _⟩ := packetOf_spec ⟨True, True⟩ hk hof
    rfl

theorem placed_step (hplaced : Placed s) (hstep : s.step event = some t) :
    Placed t := by
  cases event with
  | connect guestPort =>
    obtain ⟨⟨c, t'⟩, hconnect, rfl⟩ := map_eq_some_iff.mp hstep
    rw [connect] at hconnect
    split at hconnect
    · cases hconnect
    · obtain ⟨rfl, rfl⟩ := Prod.mk.inj (some.inj hconnect)
      exact hplaced
  | transmit bytes =>
    obtain rfl := some.inj hstep
    rw [transmitChain]
    split
    · exact hplaced
    · exact placed_receive hplaced _ _
  | buffer size =>
    obtain rfl := some.inj hstep
    rcases receiveQueue_singleton s size with heq | ⟨h, data, hdeliver⟩
    · rw [heq]
      exact hplaced
    · exact hplaced.congr (deliver_backlog hdeliver)
  | accept port => exact some.inj hstep ▸ placed_accept hplaced port
  | release c => exact some.inj hstep ▸ placed_release hplaced c
  | unlisten port => exact some.inj hstep ▸ placed_unlisten hplaced port
  | transportReset => exact some.inj hstep ▸ placed_dropAll _
  | deviceReset => exact some.inj hstep ▸ (placed_dropAll s).congr rfl
  | reset c => exact some.inj hstep ▸ hplaced.congr (reset_backlog s c)
  | listen port =>
    obtain rfl := some.inj hstep
    rw [VirtioVsock.listen]
    split <;> exact hplaced
  | event buffer =>
    obtain rfl := some.inj hstep
    unfold eventQueue
    split <;> exact hplaced
  | send c data =>
    obtain rfl := some.inj hstep
    rw [send]
    split
    · exact hplaced
    · split <;> exact hplaced
  | recv c max =>
    obtain rfl := some.inj hstep
    rw [recv]
    split <;> exact hplaced
  | shutdownSend c =>
    obtain rfl := some.inj hstep
    rw [shutdownSend]
    split
    · split <;> exact hplaced
    · exact hplaced
  | close c =>
    obtain rfl := some.inj hstep
    rw [close]
    split
    · split <;> exact hplaced
    · exact hplaced

@[simp]
theorem run_nil (s : VirtioVsock) : s.run [] = some s := rfl

variable {events : List Event}

theorem run_cons :
    s.run (event :: events) = some t ↔ ∃ m, s.step event = some m ∧ m.run events = some t := by
  simp [run, foldlM_cons, bind_eq_some_iff]

/-- Every step of the run meets the condition. -/
def EachStep (condition : VirtioVsock → Event → Prop) : VirtioVsock → List Event → Prop
  | _, [] => True
  | s, event :: events =>
    condition s event ∧ ∀ m, s.step event = some m → EachStep condition m events

/-- What every step keeps under a condition holds at the end of every run whose
steps meet it. -/
theorem run_induction (keep : VirtioVsock → Prop) (condition : VirtioVsock → Event → Prop)
    (hstep : ∀ {s t event}, keep s → condition s event → s.step event = some t → keep t)
    (hkeep : keep s) (heach : EachStep condition s events)
    (hrun : s.run events = some t) : keep t := by
  induction events generalizing s with
  | nil =>
    exact some.inj hrun ▸ hkeep
  | cons event events ih =>
    obtain ⟨m, hfirst, hrest⟩ := run_cons.mp hrun
    exact ih (hstep hkeep heach.1 hfirst) (heach.2 m hfirst) hrest

theorem EachStep.mono {condition condition' : VirtioVsock → Event → Prop}
    (heach : EachStep condition s events)
    (himp : ∀ event ∈ events, ∀ s, condition s event → condition' s event) :
    EachStep condition' s events := by
  induction events generalizing s with
  | nil => trivial
  | cons event events ih =>
    refine ⟨himp event (by simp) s heach.1, fun m hm => ih (heach.2 m hm) ?_⟩
    exact fun event' hmem => himp event' (by simp [hmem])

theorem eachStep_of_forall {condition : VirtioVsock → Event → Prop}
    (hall : ∀ event ∈ events, ∀ s, condition s event) (s : VirtioVsock) :
    EachStep condition s events := by
  induction events generalizing s with
  | nil => trivial
  | cons event events ih =>
    exact ⟨hall event (by simp) s, fun m _ => ih (fun e he => hall e (by simp [he])) m⟩

variable {guestCid : BitVec 64}

theorem placed_run (hrun : (new guestCid).run events = some s) :
    Placed s := by
  refine run_induction Placed (fun _ _ => True) (fun hplaced _ hstep => placed_step hplaced hstep)
    ?_ (eachStep_of_forall (fun _ _ _ => trivial) _) hrun
  intro port waiting hwaiting
  simp [new] at hwaiting

theorem keep_of_moves {keep : View → Prop} {c : VsockConn} {given : Given} {v w : View}
    (hmove : ∀ {v w}, keep v → Move c given v w → keep w) (hkeep : keep v)
    (hmoves : Moves c given v w) : keep w := by
  induction hmoves with
  | refl => exact hkeep
  | tail _ hlast ih => exact hmove ih hlast

/-- A property of one connection that every move keeps, under a condition on the
step, holds at the end of every run. -/
theorem view_run (keep : View → Prop) (condition : VirtioVsock → Event → Prop) {c : VsockConn}
    (hmove : ∀ {s event v w}, condition s event → keep v → Move c (given s event) v w → keep w)
    (hstart : keep ⟨none, [], [], 0⟩)
    (heach : EachStep condition (new guestCid) events) (hrun : (new guestCid).run events = some s) :
    keep (s.view c) := by
  have hboth : Placed s ∧ keep (s.view c) := by
    refine run_induction (fun s => Placed s ∧ keep (s.view c)) condition ?_ ?_ heach hrun
    · intro s t event hkeep hcondition hstep
      refine ⟨placed_step hkeep.1 hstep, ?_⟩
      exact keep_of_moves (hmove hcondition) hkeep.2 (moves_step hkeep.1 hstep c)
    · have hplaced : Placed (new guestCid) := placed_run (run_nil (new guestCid))
      refine ⟨hplaced, ?_⟩
      exact hstart
  exact hboth.2

theorem run_append {m t : VirtioVsock} {left right : List Event} (hleft : s.run left = some m)
    (hright : m.run right = some t) : s.run (left ++ right) = some t := by
  rw [run, foldlM_append, ← run, hleft]
  exact hright

theorem run_transmit (chains : List (List Byte)) (s : VirtioVsock) :
    s.run (chains.map .transmit) = some (s.transmitQueue chains) := by
  induction chains generalizing s with
  | nil => rfl
  | cons bytes chains ih => exact run_cons.mpr ⟨s.transmitChain bytes, rfl, ih _⟩

end Vetro.Vsock
