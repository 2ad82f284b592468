import Vetro.Core.Trace
import Vetro.Vsock.Run

/-!
# Connections that wait to be accepted

A REQUEST puts its connection at the end of the queue of its port and `accept`
takes the first one.  A connection that is closed while it waits stays in the
queue, and a second REQUEST puts it there again; in the runs in which that does
not happen a connection waits at most once, and is handed out again only after it
was closed and requested again.
-/

namespace Vetro.Vsock

open Bytes Trace VirtioVsock List Option

/-- Where a connection is since it was last accepted. -/
inductive Phase where
  | fresh
  | accepted
  | closed
  | ready
  deriving Repr, DecidableEq

namespace Phase

def next : Phase → Act → Phase
  | _, .accepted _ => .accepted
  | .accepted, .closed _ => .closed
  | .accepted, .dropped => .closed
  | .closed, .requested _ _ _ => .ready
  | phase, _ => phase

def ofLog (log : List Act) : Phase := log.foldl next .fresh

/-- The connection may be handed out. -/
def Ready (phase : Phase) : Prop := phase ≠ .accepted ∧ phase ≠ .closed

@[simp]
theorem ofLog_append (log acts : List Act) : ofLog (log ++ acts) = acts.foldl next (ofLog log) :=
  foldl_append

/-- An act that neither accepts, closes nor requests. -/
def quiet : Act → Bool
  | .accepted _ => false
  | .closed _ => false
  | .dropped => false
  | .requested _ _ _ => false
  | _ => true

variable {act : Act}

theorem next_of_quiet (hquiet : quiet act = true) (phase : Phase) : phase.next act = phase := by
  cases act <;> cases phase <;> first | rfl | cases hquiet

variable {c : VsockConn}

theorem next_closing (hact : act = .closed c ∨ act = .dropped) (phase : Phase) :
    phase.next act ≠ .accepted ∧ (phase.Ready → phase.next act = phase) := by
  rcases hact with rfl | rfl <;> cases phase <;> simp [next, Ready]

theorem next_accepted (phase : Phase) (c : VsockConn) : phase.next (.accepted c) = .accepted := by
  cases phase <;> rfl

/-- What ends the time since an accept, and what makes the connection ready. -/
theorem next_cases (hconcerns : Act.concerns c act = true) (phase : Phase) :
    phase.next act = phase ∨ phase.next act = .accepted ∨
    (phase = .accepted ∧ phase.next act = .closed ∧ (act = .closed c ∨ act = .dropped)) ∨
    (phase = .closed ∧ ∃ bufAlloc fwdCnt, act = .requested c bufAlloc fwdCnt) := by
  cases act with
  | accepted d => exact .inr (.inl (by cases phase <;> rfl))
  | closed d =>
    obtain rfl : d = c := of_decide_eq_true hconcerns
    cases phase <;> simp [next]
  | dropped => cases phase <;> simp [next]
  | requested d bufAlloc fwdCnt =>
    obtain rfl : d = c := of_decide_eq_true hconcerns
    cases phase <;> simp [next]
  | connected d => exact .inl (next_of_quiet rfl phase)
  | sent d data => exact .inl (next_of_quiet rfl phase)
  | returned d data => exact .inl (next_of_quiet rfl phase)
  | told d bufAlloc fwdCnt => exact .inl (next_of_quiet rfl phase)
  | payload d data => exact .inl (next_of_quiet rfl phase)
  | discarded d => exact .inl (next_of_quiet rfl phase)
  | packet h data => exact .inl (next_of_quiet rfl phase)

/-- After an accept the connection is ready again once it was closed and then
requested. -/
theorem sublist_of_ready {log : List Act} (hconcerns : ∀ act ∈ log, Act.concerns c act = true)
    {phase : Phase} (hready : (log.foldl next phase).Ready) :
    (phase = .closed → ∃ bufAlloc fwdCnt, [.requested c bufAlloc fwdCnt].Sublist log) ∧
    (phase = .accepted → ∃ closing bufAlloc fwdCnt,
      (closing = .closed c ∨ closing = .dropped) ∧
      [closing, .requested c bufAlloc fwdCnt].Sublist log) := by
  induction log generalizing phase with
  | nil => exact ⟨fun hphase => absurd hphase hready.2, fun hphase => absurd hphase hready.1⟩
  | cons act log ih =>
    obtain ⟨hclosed, haccepted⟩ :=
      ih (fun other hother => hconcerns other (by simp [hother])) hready
    have hdrop {acts : List Act} (hsub : acts.Sublist log) : acts.Sublist (act :: log) :=
      hsub.trans (sublist_cons_self act log)
    -- an accept in between starts anew, and what follows it is enough
    have hanew (hnext : phase.next act = .accepted) : ∃ closing bufAlloc fwdCnt,
        (closing = .closed c ∨ closing = .dropped) ∧
        [closing, .requested c bufAlloc fwdCnt].Sublist (act :: log) := by
      obtain ⟨closing, bufAlloc, fwdCnt, hclosing, hsub⟩ := haccepted hnext
      exact ⟨closing, bufAlloc, fwdCnt, hclosing, hdrop hsub⟩
    have htail (hnext : phase.next act = .accepted) : ∃ bufAlloc fwdCnt,
        [.requested c bufAlloc fwdCnt].Sublist (act :: log) := by
      obtain ⟨closing, bufAlloc, fwdCnt, _, hsub⟩ := hanew hnext
      exact ⟨bufAlloc, fwdCnt, (sublist_cons_self closing _).trans hsub⟩
    rcases next_cases (hconcerns act (by simp)) phase with
      hsame | hnext | ⟨rfl, hnext, hact⟩ | ⟨rfl, bufAlloc, fwdCnt, rfl⟩
    · rw [hsame] at hclosed haccepted
      refine ⟨fun hphase => ?_, fun hphase => hanew (hsame.trans hphase)⟩
      obtain ⟨bufAlloc, fwdCnt, hsub⟩ := hclosed hphase
      exact ⟨bufAlloc, fwdCnt, hdrop hsub⟩
    · exact ⟨fun _ => htail hnext, fun _ => hanew hnext⟩
    · refine ⟨by simp, fun _ => ?_⟩
      obtain ⟨bufAlloc, fwdCnt, hsub⟩ := hclosed hnext
      exact ⟨act, bufAlloc, fwdCnt, hact, hsub.cons_cons act⟩
    · exact ⟨fun _ => ⟨bufAlloc, fwdCnt, (nil_sublist log).cons_cons _⟩, by simp⟩

end Phase

/-- A connection is accepted when it may be handed out. -/
def AcceptOk (before : List Act) (act : Act) : Prop :=
  ∀ c, act = .accepted c → (Phase.ofLog before).Ready

structure BacklogInv (v : View) : Prop where
  once : v.waiting ≤ 1
  known : 0 < v.waiting → v.conn ≠ none
  ready : 0 < v.waiting → (Phase.ofLog v.log).Ready
  live : Phase.ofLog v.log = .accepted → ∃ k, v.conn = some k ∧ k.state ≠ .closed
  accepts : Always AcceptOk v.log

section Step

variable {c : VsockConn} {given : Given} {v w : View} {k k' : Conn}

variable (hinv : BacklogInv v)
include hinv

theorem BacklogInv.change (hconn : v.conn = some k)
    (hstate : k.state ≠ .closed → k'.state ≠ .closed) (queue : List Hdr) :
    BacklogInv { v with conn := some k', queue := queue } where
  once := hinv.once
  known _ := some_ne_none k'
  ready := hinv.ready
  live hphase := by
    obtain ⟨old, hold, hopen⟩ := hinv.live hphase
    rw [hconn] at hold
    exact ⟨k', rfl, hstate (some.inj hold ▸ hopen)⟩
  accepts := hinv.accepts

theorem BacklogInv.quiet (act : Act) (hquiet : Phase.quiet act = true) :
    BacklogInv { v with log := v.log ++ [act] } := by
  have hphase : Phase.ofLog (v.log ++ [act]) = Phase.ofLog v.log := by
    rw [Phase.ofLog_append]
    exact Phase.next_of_quiet hquiet _
  refine ⟨hinv.once, hinv.known, ?_, ?_, hinv.accepts.append fun d hd => ?_⟩
  · rw [hphase]
    exact hinv.ready
  · rw [hphase]
    exact hinv.live
  · rw [hd] at hquiet
    cases hquiet

theorem BacklogInv.record (act : Act) (hquiet : Phase.quiet act = true) (hconn : v.conn = some k)
    (hstate : k.state ≠ .closed → k'.state ≠ .closed) :
    BacklogInv { v with conn := some k', log := v.log ++ [act] } :=
  (hinv.quiet act hquiet).change hconn hstate v.queue

/-- Closing ends the time since the accept. -/
theorem BacklogInv.close {conn : Option Conn} {waiting : ℕ} (hconn : 0 < waiting → conn ≠ none)
    (hle : waiting ≤ v.waiting) {act : Act} (hact : act = .closed c ∨ act = .dropped)
    (queue : List Hdr) : BacklogInv ⟨conn, queue, v.log ++ [act], waiting⟩ := by
  have hnext := Phase.next_closing hact (Phase.ofLog v.log)
  have hphase : Phase.ofLog (v.log ++ [act]) = (Phase.ofLog v.log).next act := Phase.ofLog_append ..
  refine ⟨hle.trans hinv.once, hconn, fun hpos => ?_, fun hlive => ?_,
    hinv.accepts.append fun d hd => ?_⟩
  · have hready := hinv.ready (hpos.trans_le hle)
    rw [hphase, hnext.2 hready]
    exact hready
  · rw [hphase] at hlive
    exact absurd hlive hnext.1
  · rw [hd] at hact
    rcases hact with hact | hact <;> cases hact

/-- A REQUEST opens a connection that does not wait. -/
theorem BacklogInv.request {bufAlloc fwdCnt : BitVec 32} (hzero : v.waiting = 0)
    (hclosed : ∀ k, v.conn = some k → k.state = .closed) (hopen : k.state ≠ .closed)
    (queue : List Hdr) :
    BacklogInv ⟨some k, queue, v.log ++ [.requested c bufAlloc fwdCnt], v.waiting + 1⟩ := by
  have hnot : Phase.ofLog v.log ≠ .accepted := by
    intro hphase
    obtain ⟨old, hold, hlive⟩ := hinv.live hphase
    exact hlive (hclosed old hold)
  have hphase : Phase.ofLog (v.log ++ [.requested c bufAlloc fwdCnt]) =
      (Phase.ofLog v.log).next (.requested c bufAlloc fwdCnt) := Phase.ofLog_append ..
  refine ⟨(Nat.add_le_add_right hzero.le 1), fun _ => some_ne_none k, fun _ => ?_,
    fun _ => ⟨k, rfl, hopen⟩,
    hinv.accepts.append (by rintro _ ⟨⟩)⟩
  rw [hphase]
  cases hold : Phase.ofLog v.log with
  | accepted => exact absurd hold hnot
  | fresh => exact ⟨by rintro ⟨⟩, by rintro ⟨⟩⟩
  | closed => exact ⟨by rintro ⟨⟩, by rintro ⟨⟩⟩
  | ready => exact ⟨by rintro ⟨⟩, by rintro ⟨⟩⟩

theorem BacklogInv.accept (hwaiting : 0 < v.waiting)
    (hlive : ∃ k, v.conn = some k ∧ k.state ≠ .closed) :
    BacklogInv { v with log := v.log ++ [.accepted c], waiting := v.waiting - 1 } := by
  have honce := hinv.once
  refine ⟨?_, ?_, ?_, fun _ => hlive, hinv.accepts.append fun _ _ => hinv.ready hwaiting⟩
  · change v.waiting - 1 ≤ 1
    omega
  · intro hpos
    change 0 < v.waiting - 1 at hpos
    omega
  · intro hpos
    change 0 < v.waiting - 1 at hpos
    omega

theorem BacklogInv.waiting_zero (hlive : v.conn ≠ none → v.waiting = 0) : v.waiting = 0 := by
  by_contra hne
  exact hne (hlive (hinv.known (Nat.pos_of_ne_zero hne)))

/-- What happens to a connection under a live event keeps its place. -/
theorem backlogInv_move (hgiven : given.live) (hmove : Move c given v w) : BacklogInv w := by
  cases hmove with
  | requested bufAlloc fwdCnt hclosed _ hlive _ _ =>
    exact hinv.request (hinv.waiting_zero (hlive hgiven)) hclosed (by simp [Conn.new]) _
  | connected hnone _ _ _ =>
    have hquiet := hinv.quiet (.connected c) rfl
    refine ⟨hquiet.once, fun _ => some_ne_none _, hquiet.ready, fun hphase => ?_, hquiet.accepts⟩
    exact ⟨_, rfl, by simp [Conn.new]⟩
  | refused _ _ _ => exact ⟨hinv.once, hinv.known, hinv.ready, hinv.live, hinv.accepts⟩
  | accepted hwaiting hlive => exact hinv.accept hwaiting (hlive hgiven)
  | forgotten => exact ⟨Nat.zero_le 1, by simp, by simp, hinv.live, hinv.accepts⟩
  | sent data hconn _ _ =>
    apply hinv.record (.sent c data) rfl hconn
    exact id
  | returned n update hconn _ _ _ =>
    apply hinv.record (.returned c _) rfl hconn
    exact id
  | shut state pending hconn hstate hbefore =>
    refine hinv.change hconn (fun hopen hclosed => ?_) v.queue
    rcases hstate with hsame | ⟨_, hclosing⟩
    · exact hopen (hsame ▸ hclosed)
    · rw [hclosing] at hclosed
      cases hclosed
  | told bufAlloc fwdCnt hconn _ =>
    apply hinv.record (.told c bufAlloc fwdCnt) rfl hconn
    exact id
  | guestClosed hconn _ =>
    exact hinv.close (fun _ => some_ne_none _) le_rfl (.inl rfl) v.queue
  | answered state hconn _ hafter =>
    refine hinv.change hconn (fun _ hclosed => ?_) v.queue
    rcases hafter with hafter | hafter <;> rw [hafter] at hclosed <;> cases hclosed
  | payload data hconn _ =>
    apply hinv.record (.payload c data) rfl hconn
    exact id
  | asked hconn =>
    apply hinv.change hconn
    exact id
  | ended hconn =>
    apply hinv.change hconn
    exact id
  | reset hconn _ _ =>
    rename_i k h _ _
    have hclosed : BacklogInv
        ⟨some { k with state := .closed, txBuf := [] }, v.queue ++ [h], v.log ++ [.closed c],
          v.waiting⟩ :=
      hinv.close (fun _ => some_ne_none _) le_rfl (.inl rfl) _
    have hreset := hclosed.quiet (.discarded c) rfl
    rw [append_assoc] at hreset
    exact hreset
  | dropped =>
    apply hinv.close (c := c)
    · exact fun hpos => absurd hpos (Nat.lt_irrefl 0)
    · exact Nat.zero_le _
    · exact .inr rfl
  | released hclosed =>
    refine ⟨Nat.zero_le 1, by simp, by simp, fun hphase => ?_, hinv.accepts⟩
    obtain ⟨k, hk, hopen⟩ := hinv.live hphase
    exact absurd (hclosed k hk) hopen
  | control hqueue =>
    rename_i h rest
    have hquiet := hinv.quiet (.packet h []) rfl
    refine ⟨hquiet.once, fun hpos => ?_, hquiet.ready, fun hphase => ?_, hquiet.accepts⟩
    · simpa using hquiet.known hpos
    · obtain ⟨k, hk, hopen⟩ := hquiet.live hphase
      exact ⟨_, map_eq_some_iff.mpr ⟨k, hk, rfl⟩, hopen⟩
  | data n hconn _ _ _ _ _ _ =>
    apply hinv.record (.packet _ _) rfl hconn
    exact id
  | shutdown hconn _ _ _ _ =>
    apply hinv.record (.packet _ _) rfl hconn
    exact id
  | credit hconn _ _ _ =>
    apply hinv.record (.packet _ _) rfl hconn
    exact id

end Step

/-! ## Runs -/

/-- What `accept` returns is recorded. -/
theorem log_accept (s : VirtioVsock) (port : BitVec 32) :
    (∀ c, (s.accept port).1 = some c → (s.accept port).2.log = s.log ++ [.accepted c]) ∧
      ((s.accept port).1 = none → (s.accept port).2 = s) := by
  rw [accept]
  split
  · refine ⟨fun c hc => ?_, fun hnone => by cases hnone⟩
    cases hc
    rfl
  · exact ⟨by rintro _ ⟨⟩, fun _ => rfl⟩
  · exact ⟨by rintro _ ⟨⟩, fun _ => rfl⟩

/-- In every run in which no closed connection is requested again or accepted
while it waits: a connection waits at most once, in the queue of its port, and is
known; between two accepts of a connection it is closed and then requested; and the accepts are
what `accept` returns. -/
theorem accepted_once_of_live {guestCid : BitVec 64} {events : List Event} {s : VirtioVsock}
    (hrun : (new guestCid).run events = some s) (hlive : EachStep Live (new guestCid) events) :
    (∀ (port : BitVec 32) (waiting : List VsockConn), s.backlog[port]? = some waiting →
      waiting.Nodup ∧ ∀ c ∈ waiting, c.hostPort = port ∧ s.conns[c]? ≠ none) ∧
    (∀ c before between after,
      s.log = before ++ .accepted c :: (between ++ .accepted c :: after) →
      ∃ closing bufAlloc fwdCnt, (closing = .closed c ∨ closing = .dropped) ∧
        [closing, .requested c bufAlloc fwdCnt].Sublist between) ∧
    ∀ port, (∀ c, (s.accept port).1 = some c → (s.accept port).2.log = s.log ++ [.accepted c]) ∧
      ((s.accept port).1 = none → (s.accept port).2 = s) := by
  have hinv (c : VsockConn) : BacklogInv (s.view c) :=
    view_run BacklogInv Live (fun hgiven hkeep hmove => backlogInv_move hkeep hgiven hmove)
      ⟨Nat.zero_le 1, by simp, by simp, by decide, always_nil⟩ hlive hrun
  have hplaced := placed_run hrun
  refine ⟨?_, ?_, log_accept s⟩
  · intro port waiting hwaiting
    have hcount {c : VsockConn} (hc : c ∈ waiting) : (s.view c).waiting = waiting.count c := by
      simp [view, hplaced port waiting hwaiting c hc, hwaiting]
    refine ⟨nodup_iff_count_le_one.mpr fun c => ?_, fun c hc => ?_⟩
    · by_cases hc : c ∈ waiting
      · rw [← hcount hc]
        exact (hinv c).once
      · rw [count_eq_zero.mpr hc]
        exact Nat.zero_le 1
    · refine ⟨hplaced port waiting hwaiting c hc, (hinv c).known ?_⟩
      rw [hcount hc]
      exact count_pos_iff.mpr hc
  · intro c before between after hlog
    have hself : Act.concerns c (.accepted c) = true := by simp [Act.concerns, Act.about]
    have hview : (s.view c).log = (before.filter (Act.concerns c) ++ .accepted c ::
        between.filter (Act.concerns c)) ++ .accepted c :: after.filter (Act.concerns c) := by
      simp [view, hlog, filter_append, hself]
    have hready := (hinv c).accepts.at_append hview c rfl
    rw [Phase.ofLog_append, foldl_cons, Phase.next_accepted] at hready
    have hconcerns : ∀ act ∈ between.filter (Act.concerns c), Act.concerns c act = true :=
      fun act hact => (mem_filter.mp hact).2
    obtain ⟨closing, bufAlloc, fwdCnt, hclosing, hsub⟩ :=
      (Phase.sublist_of_ready hconcerns hready).2 rfl
    exact ⟨closing, bufAlloc, fwdCnt, hclosing, hsub.trans filter_sublist⟩

instance (s : VirtioVsock) (event : Event) : Decidable (Live s event) := by
  cases event with
  | transmit bytes =>
    have hdecide : ∀ h : Hdr, Decidable (h.op = opRequest → ∀ k ∈ s.conns[guestConn h]?,
        k.state = .closed → guestConn h ∉ (s.backlog[h.dstPort]?).getD []) :=
      fun h => inferInstance
    exact hdecide (Hdr.parse (bytes.take hdrLen))
  | accept port =>
    refine decidable_of_iff (∀ waiting ∈ s.backlog[port]?, ∀ c ∈ waiting.head?,
      (s.conns[c]?).any (·.state ≠ .closed) = true) ⟨fun hall c rest hqueue => ?_, ?_⟩
    · obtain ⟨k, hk, hstate⟩ := (Option.any_eq_true _ _).mp (hall _ hqueue c rfl)
      exact ⟨k, hk, of_decide_eq_true hstate⟩
    · intro hlive waiting hqueue c hc
      obtain ⟨rest, rfl⟩ := head?_eq_some_iff.mp hc
      obtain ⟨k, hk, hstate⟩ := hlive c rest hqueue
      simp [hk, hstate]
  | _ => exact .isTrue trivial

instance (condition : VirtioVsock → Event → Prop) [∀ s event, Decidable (condition s event)]
    (s : VirtioVsock) (events : List Event) : Decidable (EachStep condition s events) := by
  induction events generalizing s with
  | nil => exact .isTrue trivial
  | cons event events ih =>
    have : ∀ m, Decidable (EachStep condition m events) := ih
    exact inferInstanceAs (Decidable (condition s event ∧
      ∀ m ∈ s.step event, EachStep condition m events))

/-- A packet without data of a port of the guest for the host's port 5. -/
def packetFrom (port : BitVec 32) (op : BitVec 16) : Event :=
  .transmit (Hdr.toBytes ⟨3, hostCid, port, 5, 0, typeStream, op, 0, 0, 0⟩)

def guestPacket (op : BitVec 16) : Event := packetFrom 7 op

/-- A connection is accepted, reset, requested and accepted again; two others wait. -/
def acceptedTwice : List Event :=
  [.listen 5, guestPacket opRequest, .accept 5, guestPacket opRst, guestPacket opRequest,
    .accept 5, packetFrom 8 opRequest, packetFrom 9 opRequest]

theorem accepted_once_of_live_twice : ∃ s before between after,
    (new 3).run acceptedTwice = some s ∧
    s.backlog[(5 : BitVec 32)]? = some [⟨5, 8⟩, ⟨5, 9⟩] ∧
    (∀ c ∈ [(⟨5, 8⟩ : VsockConn), ⟨5, 9⟩], s.conns[c]? ≠ none) ∧
    s.log = before ++ .accepted ⟨5, 7⟩ :: (between ++ .accepted ⟨5, 7⟩ :: after) ∧
    (∃ closing bufAlloc fwdCnt, (closing = .closed ⟨5, 7⟩ ∨ closing = .dropped) ∧
      [closing, .requested ⟨5, 7⟩ bufAlloc fwdCnt].Sublist between) ∧
    (s.accept 5).2.log = s.log ++ [.accepted ⟨5, 8⟩] := by
  let before : List Act := [.requested ⟨5, 7⟩ 0 0]
  let between : List Act := [.told ⟨5, 7⟩ 0 0, .closed ⟨5, 7⟩, .requested ⟨5, 7⟩ 0 0]
  let after : List Act := [.requested ⟨5, 8⟩ 0 0, .requested ⟨5, 9⟩ 0 0]
  have hmap : ((new 3).run acceptedTwice).map
      (fun s => (s.backlog[(5 : BitVec 32)]?, (s.accept 5).1, s.log)) =
      some (some [⟨5, 8⟩, ⟨5, 9⟩], some ⟨5, 8⟩,
        before ++ .accepted ⟨5, 7⟩ :: (between ++ .accepted ⟨5, 7⟩ :: after)) := by
    decide +kernel
  obtain ⟨s, hrun, hs⟩ := map_eq_some_iff.mp hmap
  simp only [Prod.mk.injEq] at hs
  obtain ⟨hwaiting, hagain, haccept⟩ := accepted_once_of_live hrun (by decide +kernel)
  exact ⟨s, before, between, after, hrun, hs.1,
    fun c hc => ((hwaiting 5 _ hs.1).2 c hc).2, hs.2.2, hagain _ _ _ _ hs.2.2,
    (haccept 5).1 _ hs.2.1⟩

/-- A connection that the guest resets and requests again while it waits is handed
out twice. -/
theorem not_accepted_once_requested_again : ∃ s,
    (new 3).run [.listen 5, guestPacket opRequest, guestPacket opRst, guestPacket opRequest] =
      some s ∧
    s.backlog[(5 : BitVec 32)]? = some [⟨5, 7⟩, ⟨5, 7⟩] ∧
    (s.accept 5).1 = some ⟨5, 7⟩ ∧ ((s.accept 5).2.accept 5).1 = some ⟨5, 7⟩ := by
  have hmap : ((new 3).run [.listen 5, guestPacket opRequest, guestPacket opRst,
      guestPacket opRequest]).map (fun s => (s.backlog[(5 : BitVec 32)]?, (s.accept 5).1,
        ((s.accept 5).2.accept 5).1)) =
      some (some [⟨5, 7⟩, ⟨5, 7⟩], some ⟨5, 7⟩, some ⟨5, 7⟩) := by
    decide +kernel
  obtain ⟨s, hrun, hs⟩ := map_eq_some_iff.mp hmap
  simp only [Prod.mk.injEq] at hs
  exact ⟨s, hrun, hs⟩

end Vetro.Vsock
