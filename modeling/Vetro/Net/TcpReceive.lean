import Vetro.Net.TcpTimer

/-!
# The stream from the guest

Segments that carry pieces of one stream, in any order and cut in any way, reach
the upstream as that stream.  What the upstream has accepted and what waits in
`rx` are always the first bytes of it, and the right edge of the window that the
guest is told never moves left.
-/

namespace Vetro.Tcp

open Bytes List Link
open Serial

variable {U : Type}

/-- What reception depends on. -/
structure RecvState where
  state : State
  irs : Seq
  rcvNxt : Seq
  rx : List Byte
  rxFin : Bool
  shutdownDone : Bool
  advEdge : Seq
  ackPending : Bool
  acts : List Act

def Link.recvState (s : Link U) : RecvState :=
  ⟨s.conn.state, s.conn.irs, s.conn.rcvNxt, s.conn.rx, s.conn.rxFin, s.conn.shutdownDone,
    s.conn.advEdge, s.conn.ackPending, s.ctx.acts⟩

/-- Right edge that a segment tells the guest. -/
def Act.edge : Act → Option Seq
  | .sent segment =>
    if segment.flags.ack then some (segment.ack + BitVec.ofNat 32 segment.window) else none
  | _ => none

/-- Right edges that the guest was told, in order. -/
def edges (acts : List Act) : List Seq := acts.filterMap Act.edge

@[simp]
theorem edges_append (acts : List Act) (act : Act) :
    edges (acts ++ [act]) = edges acts ++ act.edge.toList := by
  rw [edges, edges, filterMap_append, filterMap_cons]
  cases act.edge <;> rfl

theorem edges_same {act : Act} (hedge : act.edge = none) (acts : List Act) :
    edges (acts ++ [act]) = edges acts := by
  rw [edges_append, hedge, Option.toList_none, append_nil]

namespace RecvState

/-- Bytes taken from the guest. -/
def got (r : RecvState) : List Byte := accepted r.acts ++ r.rx

/-- Position of `rcvNxt` in the stream, with the FIN at its end. -/
def position (r : RecvState) : ℕ := r.got.length + r.rxFin.toNat

/-- Position of the right edge of the window. -/
def edge (r : RecvState) : ℕ := (accepted r.acts).length + rxCapacity + r.rxFin.toNat

/-- The guest has not been heard yet. -/
def Unheard (r : RecvState) : Prop := r.irs = 0 ∧ r.rcvNxt = 0 ∧ r.got = []

/-- The numbers of the guest and the positions in its stream go together. -/
def Placed (r : RecvState) : Prop := r.rcvNxt = place (r.irs + 1) r.position

/-! ## The stream -/

/-- What was taken is the beginning of the stream. -/
structure Received (stream : List Byte) (r : RecvState) : Prop where
  taken : r.got = stream.take r.got.length
  room : r.rx.length ≤ rxCapacity
  all : r.rxFin = true → r.got = stream
  early : r.state ∈ [.connecting, .synSent, .synReceived, .established, .finWait1, .finWait2] →
    r.rxFin = false
  placed : r.state ≠ .synSent → r.state ≠ .closed → r.Placed
  unheard : r.state = .synSent → r.Unheard
  closed : r.state = .closed → r.Placed ∨ r.Unheard
  undone : r.shutdownDone = false → Act.shutdown ∉ r.acts
  once : Trace.Always (fun before act => act = .shutdown →
    accepted before = stream ∧ Act.shutdown ∉ before) r.acts

end RecvState

/-- Nothing for the stream from the guest. -/
def Act.silent : Act → Prop
  | .write _ _ => False
  | .shutdown => False
  | _ => True

theorem Act.silent.taken {act : Act} (hsilent : act.silent) : act.taken = [] := by
  cases act with
  | write offered n => exact absurd hsilent id
  | _ => rfl

variable {state : State} {ackPending : Bool}

namespace RecvState.Received

variable {stream : List Byte} {r : RecvState}

variable (hr : Received stream r)
include hr

theorem got_le : r.got.length ≤ stream.length := by
  have hlength := congrArg List.length hr.taken
  rw [length_take] at hlength
  omega

theorem heard (hheard : r.state.heard) : r.Placed := hr.placed hheard.1 hheard.2

/-- `rcvNxt` with the window is the right edge. -/
theorem place_edge (hplaced : r.Placed) :
    r.rcvNxt + BitVec.ofNat 32 (rxCapacity - r.rx.length) = place (r.irs + 1) r.edge := by
  have hroom := hr.room
  rw [hplaced, ← place_add, position, edge, got, length_append]
  congr 1
  omega

/-- The bytes move from `rx` to the upstream, or stay. -/
theorem moved {r' : RecvState} (hgot : r'.got = r.got)
    (hsame : r'.state = r.state ∧ r'.irs = r.irs ∧ r'.rcvNxt = r.rcvNxt ∧ r'.rxFin = r.rxFin)
    (hroom : r'.rx.length ≤ rxCapacity) (hundone : r'.shutdownDone = false → Act.shutdown ∉ r'.acts)
    (honce : Trace.Always (fun before act => act = .shutdown → accepted before = stream ∧
      Act.shutdown ∉ before) r'.acts) : Received stream r' := by
  obtain ⟨hstate, hirs, hnxt, hfin⟩ := hsame
  have hposition : r'.position = r.position := by rw [position, position, hgot, hfin]
  have hplaced : r'.Placed ↔ r.Placed := by rw [Placed, Placed, hnxt, hirs, hposition]
  have hunheard : r'.Unheard ↔ r.Unheard := by rw [Unheard, Unheard, hnxt, hirs, hgot]
  refine ⟨?_, hroom, ?_, ?_, ?_, ?_, ?_, hundone, honce⟩
  · rw [hgot]
    exact hr.taken
  · rw [hfin, hgot]
    exact hr.all
  · rw [hstate, hfin]
    exact hr.early
  · rw [hstate, hplaced]
    exact hr.placed
  · rw [hstate, hunheard]
    exact hr.unheard
  · rw [hstate, hplaced, hunheard]
    exact hr.closed

/-- A silent act changes nothing. -/
theorem act {act : Act} (hsilent : act.silent) {advEdge : Seq} :
    Received stream { r with acts := r.acts ++ [act], advEdge, ackPending } := by
  have hother : act ≠ .shutdown := by
    rintro rfl
    exact hsilent
  refine hr.moved ?_ ⟨rfl, rfl, rfl, rfl⟩ hr.room (fun hundone => ?_) ?_
  · rw [got, accepted_append, hsilent.taken, append_nil]
    rfl
  · rw [mem_append, mem_singleton, not_or]
    exact ⟨hr.undone hundone, hother.symm⟩
  · exact Trace.Always.append hr.once fun heq => absurd heq hother

/-- The flags of the last segment do not matter. -/
theorem flags {advEdge : Seq} : Received stream { r with advEdge, ackPending } :=
  ⟨hr.taken, hr.room, hr.all, hr.early, hr.placed, hr.unheard, hr.closed, hr.undone, hr.once⟩

/-- From one state of an open connection to another. -/
theorem turn (hheard : r.state.heard) (hstate : state ≠ .synSent)
    (hearly : state.early → r.rxFin = false) : Received stream { r with state } :=
  ⟨hr.taken, hr.room, hr.all, hearly, fun _ _ => hr.heard hheard,
    fun h => absurd h hstate, fun _ => .inl (hr.heard hheard), hr.undone, hr.once⟩

/-- The end of the connection. -/
theorem finish {act : Act} (hsilent : act.silent) :
    Received stream { r with state := .closed, acts := r.acts ++ [act] } := by
  have hact : Received stream { r with acts := r.acts ++ [act] } := hr.act hsilent
  refine ⟨hact.taken, hact.room, hact.all, by simp, fun _ h => absurd rfl h, by simp, fun _ => ?_,
    hact.undone, hact.once⟩
  by_cases hsent : r.state = .synSent
  · exact .inr (hact.unheard hsent)
  · by_cases hclosed : r.state = .closed
    · exact hact.closed hclosed
    · exact .inl (hact.placed hsent hclosed)

/-- Bytes that the upstream accepts. -/
theorem write {n k : ℕ} (hn : n ≤ (r.rx.take k).length) :
    Received stream { r with
      rx := r.rx.drop n, acts := r.acts ++ [.write (r.rx.take k) n] } := by
  have hfirst : (r.rx.take k).take n = r.rx.take n := by
    rw [take_take, min_eq_left]
    rw [length_take] at hn
    exact hn.trans (min_le_left _ _)
  refine hr.moved ?_ ⟨rfl, rfl, rfl, rfl⟩ ?_ (fun hundone => ?_) ?_
  · rw [got, accepted_append, Act.taken, hfirst, append_assoc, take_append_drop]
    rfl
  · rw [length_drop]
    exact (Nat.sub_le _ _).trans hr.room
  · rw [mem_append, mem_singleton, not_or]
    exact ⟨hr.undone hundone, by simp⟩
  · exact Trace.Always.append hr.once (by simp)

/-- The end of the stream is passed on after all of it. -/
theorem shutdown (hrx : r.rx = []) (hfin : r.rxFin = true) (hundone : r.shutdownDone = false) :
    Received stream { r with shutdownDone := true, acts := r.acts ++ [.shutdown] } := by
  refine hr.moved ?_ ⟨rfl, rfl, rfl, rfl⟩ hr.room (by simp) ?_
  · have hnone : Act.shutdown.taken = [] := rfl
    rw [got, accepted_append, hnone, append_nil]
    rfl
  · refine Trace.Always.append hr.once fun _ => ⟨?_, hr.undone hundone⟩
    have hall := hr.all hfin
    rwa [got, hrx, append_nil] at hall

end RecvState.Received

/-! ## Pieces of the stream -/

/-- The data of a segment are a piece of the stream at the position of its number, at
most half a turn away from what is expected next; a FIN is at its end. -/
def Piece (stream : List Byte) (key : RecvKey) (h : TcpHeader) (payload : List Byte) : Prop :=
  payload ≠ [] ∨ h.flags.fin = true → ∃ start,
    h.seq = place (key.irs + 1) start ∧
    payload = (stream.drop start).take payload.length ∧
    start + payload.length ≤ stream.length ∧
    (h.flags.fin = true → start + payload.length = stream.length) ∧
    start ≤ (key.accepted ++ key.rx).length + key.rxFin.toNat + 2 ^ 31 ∧
    (key.accepted ++ key.rx).length + key.rxFin.toNat ≤ start + 2 ^ 31

/-- What is left of a piece after the bytes that were taken before. -/
theorem take_drop_piece {stream payload : List Byte} {start next n : ℕ} (hle : start ≤ next)
    (hpiece : payload = (stream.drop start).take payload.length)
    (hn : n ≤ (payload.drop (min (next - start) payload.length)).length) :
    (payload.drop (min (next - start) payload.length)).take n = (stream.drop next).take n := by
  rcases Nat.le_total (next - start) payload.length with hinside | hpast
  · rw [min_eq_left hinside] at hn ⊢
    rw [length_drop] at hn
    conv_lhs => rw [hpiece]
    rw [drop_take, take_take, drop_drop, min_eq_left hn]
    congr 2
    omega
  · rw [min_eq_right hpast, drop_length] at hn ⊢
    have hzero : n = 0 := Nat.le_zero.mp hn
    rw [hzero, take_zero, take_zero]

namespace RecvState.Received

variable {stream : List Byte} {r : RecvState}

/-- The next bytes of the stream. -/
theorem data (hr : Received stream r) (hheard : r.state.heard) (hfin : r.rxFin = false)
    {n : ℕ} (hn : r.got.length + n ≤ stream.length) (hroom : r.rx.length + n ≤ rxCapacity) :
    Received stream { r with
      rx := r.rx ++ (stream.drop r.got.length).take n
      rcvNxt := r.rcvNxt + BitVec.ofNat 32 n } := by
  have hsize : ((stream.drop r.got.length).take n).length = n := by
    rw [length_take, length_drop]
    omega
  have hgot : got { r with
      rx := r.rx ++ (stream.drop r.got.length).take n
      rcvNxt := r.rcvNxt + BitVec.ofNat 32 n } = stream.take (r.got.length + n) := by
    rw [take_add, ← hr.taken, got, got, append_assoc]
  have hlength : (stream.take (r.got.length + n)).length = r.got.length + n := by
    rw [length_take, min_eq_left hn]
  have hplaced : Placed { r with
      rx := r.rx ++ (stream.drop r.got.length).take n
      rcvNxt := r.rcvNxt + BitVec.ofNat 32 n } := by
    rw [Placed, position, hgot, hlength]
    rw [hr.heard hheard, position, hfin, Bool.toNat_false, Nat.add_zero, Nat.add_zero,
      place_add]
  refine ⟨?_, ?_, ?_, fun _ => hfin, fun _ _ => hplaced, fun h => absurd h hheard.1,
    fun h => absurd h hheard.2, hr.undone, hr.once⟩
  · rw [hgot, hlength]
  · rw [length_append, hsize]
    exact hroom
  · rw [hfin]
    simp

/-- The FIN after the whole stream. -/
theorem fin (hr : Received stream r) (hheard : r.state.heard) (hfin : r.rxFin = false)
    (hall : r.got = stream)
    (hstate : state ∈ [.closeWait, .closing, .timeWait]) :
    Received stream { r with
      state, rcvNxt := r.rcvNxt + 1, rxFin := true, ackPending } := by
  have hplaced : Placed { r with state, rcvNxt := r.rcvNxt + 1, rxFin := true, ackPending } := by
    have hbefore := hr.heard hheard
    rw [Placed, position, hfin, Bool.toNat_false, Nat.add_zero] at hbefore
    change r.rcvNxt + BitVec.ofNat 32 1 = place (r.irs + 1) (r.got.length + 1)
    rw [hbefore, place_add]
  have hother : state ≠ .synSent ∧ state ≠ .closed ∧ ¬state.early := by
    revert hstate
    cases state <;> decide
  exact ⟨hr.taken, hr.room, fun _ => hall, fun h => absurd h hother.2.2, fun _ _ => hplaced,
    fun h => absurd h hother.1, fun h => absurd h hother.2.1, hr.undone, hr.once⟩

end RecvState.Received

theorem State.taking.open (htaking : state.taking) : state.heard ∧ state.early := by
  revert htaking
  cases state <;> simp +decide [State.heard]

namespace RecvState

/-- What taking data leaves as it is. -/
structure Keeps (r r' : RecvState) : Prop where
  state : r'.state = r.state
  acts : r'.acts = r.acts
  irs : r'.irs = r.irs
  advEdge : r'.advEdge = r.advEdge
  rxFin : r'.rxFin = r.rxFin
  rx : r.rxFin = true → r'.rx = r.rx
  ackPending : r.ackPending = true → r'.ackPending = true

end RecvState

variable {r : RecvState}

section Segments

variable {stream : List Byte} {s : Link U} {h : TcpHeader} {payload : List Byte}

/-- The number of a segment that is not ahead is at most half a turn behind. -/
theorem behind_of_not_seqLt {base seq : Seq} {start next : ℕ} (hseq : seq = place base start)
    (hbehind : seqLt (place base next) seq = false) (hnear : start ≤ next + 2 ^ 31)
    (hback : next ≤ start + 2 ^ 31) :
    start ≤ next ∧ ahead seq (place base next) = next - start := by
  have hle : start ≤ next := by
    by_contra hahead
    have hsteps : ahead (place base next) (place base start) = start - next :=
      ahead_place (by omega) (by omega)
    rw [hseq, not_seqLt_iff, hsteps] at hbehind
    omega
  exact ⟨hle, hseq ▸ ahead_place hle (by omega)⟩

theorem RecvState.Received.got_eq (hr : r.Received stream)
    (hlength : stream.length ≤ r.got.length) :
    r.got = stream := by
  rw [hr.taken, take_of_length_le hlength]

/-- What a segment does to the stream, and that a FIN that follows the data comes after
all of it. -/
structure Took (stream : List Byte) (s : Link U) (h : TcpHeader) (payload : List Byte)
    (t : Link U × Bool) : Prop where
  received : t.1.recvState.Received stream
  keeps : s.recvState.Keeps t.1.recvState
  all : t.2 = true → h.flags.fin = true → s.conn.state.taking →
    h.seq + BitVec.ofNat 32 payload.length = t.1.conn.rcvNxt → t.1.recvState.got = stream

variable (hr : s.recvState.Received stream)
include hr

variable (hpiece : Piece stream s.recvKey h payload)
include hpiece

/-- A segment without data, or in a state in which they are not taken. -/
theorem took_nothing (hskip : ¬(payload ≠ [] ∧ s.conn.state.taking)) :
    Took stream s h payload (s, true) := by
  refine ⟨hr, ⟨rfl, rfl, rfl, rfl, rfl, fun _ => rfl, id⟩, fun _ hfin htaking heq => ?_⟩
  have hnone : payload = [] := not_not.mp fun hdata => hskip ⟨hdata, htaking⟩
  obtain ⟨hheard, hearly⟩ := htaking.open
  obtain ⟨start, hseq, -, -, hend, hnear, -⟩ := hpiece (.inr hfin)
  have hstart := hend hfin
  have hrxFin : s.conn.rxFin = false := hr.early hearly
  have hplaced : s.conn.rcvNxt =
    place (s.conn.irs + 1) (s.recvState.got.length + s.conn.rxFin.toNat) :=
    hr.heard hheard
  have hgot := hr.got_le
  rw [hnone, length_nil] at hstart heq
  change start ≤ s.recvState.got.length + s.conn.rxFin.toNat + 2 ^ 31 at hnear
  rw [hrxFin, Bool.toNat_false, Nat.add_zero] at hplaced hnear
  have hsame : place (s.conn.irs + 1) s.recvState.got.length = place (s.conn.irs + 1) start := by
    rw [← hplaced]
    refine Eq.trans ?_ hseq
    simpa using heq.symm
  have hlast := place_inj_of_near (by omega) (by omega) hsame
  exact hr.got_eq (by omega)

/-- The data of a segment that is not ahead of what is expected. -/
theorem took_data (hdata : payload ≠ []) (htaking : s.conn.state.taking)
    (hbehind : seqLt s.conn.rcvNxt h.seq = false) :
    Took stream s h payload (s.takeData h payload) := by
  obtain ⟨start, hseq, hbytes, hend, hfin, hnear, hback⟩ := hpiece (.inl hdata)
  obtain ⟨hheard, hearly⟩ := htaking.open
  have hrxFin : s.conn.rxFin = false := hr.early hearly
  have hplaced : s.conn.rcvNxt =
    place (s.conn.irs + 1) (s.recvState.got.length + s.conn.rxFin.toNat) :=
    hr.heard hheard
  change start ≤ s.recvState.got.length + s.conn.rxFin.toNat + 2 ^ 31 at hnear
  change s.recvState.got.length + s.conn.rxFin.toNat ≤ start + 2 ^ 31 at hback
  rw [hrxFin, Bool.toNat_false, Nat.add_zero] at hplaced hnear hback
  change h.seq = place (s.conn.irs + 1) start at hseq
  obtain ⟨hle, hskip⟩ := behind_of_not_seqLt hseq (hplaced ▸ hbehind) hnear hback
  rw [← hplaced] at hskip
  have hgot := hr.got_le
  have hroom := hr.room
  change s.conn.rx.length ≤ rxCapacity at hroom
  have htake := take_drop_piece hle hbytes (min_le_left _ s.conn.rcvWnd)
  have hsize := length_drop (i := min (s.recvState.got.length - start) payload.length)
    (l := payload)
  rw [takeData, if_pos ⟨hdata, htaking⟩, if_neg (by rw [hbehind]; decide), hskip]
  dsimp only
  rw [htake]
  generalize (payload.drop (min (s.recvState.got.length - start) payload.length)).length = m at *
  have hwindow : min m s.conn.rcvWnd ≤ rxCapacity - s.conn.rx.length := min_le_right _ _
  have hnext := hr.data hheard hrxFin (n := min m s.conn.rcvWnd) (by omega)
    (by change s.conn.rx.length + _ ≤ _; omega)
  have hrecv : ∀ t : Link U, t.recvState = { s.recvState with
      rx := s.conn.rx ++ (stream.drop s.recvState.got.length).take (min m s.conn.rcvWnd)
      rcvNxt := s.conn.rcvNxt + BitVec.ofNat 32 (min m s.conn.rcvWnd)
      ackPending := true } →
      Took stream s h payload (t, decide (min m s.conn.rcvWnd = m)) := by
    intro t ht
    refine ⟨?_, ?_, fun hcomplete hflag _ heq => ?_⟩
    · rw [ht]
      exact hnext.flags
    · rw [ht]
      exact ⟨rfl, rfl, rfl, rfl, rfl, fun hset => absurd (hrxFin.symm.trans hset) (by simp),
        fun _ => rfl⟩
    · have hmore : t.recvState.got = s.recvState.got ++
          (stream.drop s.recvState.got.length).take (min m s.conn.rcvWnd) := by
        rw [ht]
        exact (append_assoc _ _ _).symm
      have hlength : t.recvState.got.length = s.recvState.got.length + m := by
        have hcomplete' : min m s.conn.rcvWnd = m := of_decide_eq_true hcomplete
        rw [hmore, length_append, length_take, length_drop, hcomplete']
        omega
      have hlast := hfin hflag
      have hreceived : t.recvState.Received stream := by
        rw [ht]
        exact hnext.flags
      exact hreceived.got_eq (by omega)
  split_ifs
  · exact hrecv _ rfl
  · exact hrecv _ rfl

theorem took_takeData : Took stream s h payload (s.takeData h payload) := by
  by_cases htake : payload ≠ [] ∧ s.conn.state.taking
  · cases hahead : seqLt s.conn.rcvNxt h.seq with
    | true =>
      have hlater : s.takeData h payload =
          ({ s with conn := { s.conn with ackPending := true } }, false) := by
        exact (if_pos htake).trans (if_pos hahead)
      rw [hlater]
      exact ⟨hr.flags, ⟨rfl, rfl, rfl, rfl, rfl, fun _ => rfl, fun _ => rfl⟩, by simp⟩
    | false => exact took_data hr hpiece htake.1 htake.2 hahead
  · have hnothing : s.takeData h payload = (s, true) := if_neg htake
    rw [hnothing]
    exact took_nothing hr hpiece htake

end Segments

/-! ## The right edge -/

namespace RecvState

/-- The edge at position `told` was the last that the guest was told. -/
structure Told (r : RecvState) (told : ℕ) : Prop where
  behind : told ≤ r.edge
  advEdge : r.advEdge = place (r.irs + 1) told
  last : ∀ edge ∈ (edges r.acts).getLast?, edge = r.advEdge

theorem Told.mono {r r' : RecvState} {told : ℕ} (htold : r.Told told) (hedge : r.edge ≤ r'.edge)
    (hsame : r'.advEdge = r.advEdge ∧ r'.irs = r.irs ∧ edges r'.acts = edges r.acts) :
    r'.Told told := by
  obtain ⟨hadv, hirs, hacts⟩ := hsame
  refine ⟨htold.behind.trans hedge, ?_, ?_⟩
  · rw [hadv, hirs]
    exact htold.advEdge
  · rw [hacts, hadv]
    exact htold.last

theorem edge_act (r : RecvState) {act : Act} {shutdownDone : Bool} (htaken : act.taken = []) :
    edge { r with acts := r.acts ++ [act], shutdownDone } = r.edge := by
  simp only [edge, accepted_append, htaken, append_nil]

/-- The right edges that the guest was told never move left. -/
def Rising (r : RecvState) : Prop := (edges r.acts).IsChain fun a b => seqLe a b = true

/-- The edge moves by so much before the guest is told, if it can send. -/
def lag : ℕ := rxCapacity / 2

/-- The edge moves by so much at most before the guest is told. -/
def maxLag : ℕ := lag + rxCapacity + 1

/-- Between two calls. -/
structure Advertised (r : RecvState) : Prop where
  rising : r.Rising
  unheard : r.state = .synSent → edges r.acts = []
  told : r.state ≠ .synSent → r.state ≠ .closed →
    edges r.acts = [] ∧ r.ackPending = true ∨
      ∃ told, r.Told told ∧ (r.rxFin = false → r.edge ≤ told + lag) ∧
        (r.rxFin = true → r.edge + r.rx.length ≤ told + maxLag)

/-- While the upstream takes bytes: the edge moves as `rx` gets shorter. -/
structure Delivering (r : RecvState) : Prop where
  rising : r.Rising
  told : edges r.acts = [] ∧ r.ackPending = true ∨
    ∃ told, r.Told told ∧ r.edge + r.rx.length ≤ told + maxLag

/-- After the check for an update of the window. -/
structure Answering (r : RecvState) : Prop where
  delivering : r.Delivering
  due : r.ackPending = false → r.rxFin = false → ∃ told, r.Told told ∧ r.edge ≤ told + lag

variable {stream : List Byte} {r : RecvState}

/-- A segment with an ACK. -/
def emitted (r : RecvState) (segment : Segment) : RecvState :=
  { r with
    advEdge := r.rcvNxt + BitVec.ofNat 32 (rxCapacity - r.rx.length)
    ackPending := false
    acts := r.acts ++ [.sent segment] }

/-- The segment has the fields of reception. -/
structure Answers (r : RecvState) (segment : Segment) : Prop where
  ack : segment.ack = r.rcvNxt
  window : segment.window = rxCapacity - r.rx.length
  flag : segment.flags.ack = true

variable {segment : Segment}

theorem Answers.edge (hanswers : r.Answers segment) :
    (Act.sent segment).edge = some (r.rcvNxt + BitVec.ofNat 32 (rxCapacity - r.rx.length)) := by
  rw [Act.edge, if_pos hanswers.flag, hanswers.ack, hanswers.window]

theorem maxLag_small : 2 * maxLag ≤ 2 ^ 32 := by decide

theorem edge_emitted (r : RecvState) (segment : Segment) : (r.emitted segment).edge = r.edge := by
  have hsame : edge { r with acts := r.acts ++ [.sent segment] } = r.edge := r.edge_act rfl
  exact hsame

/-- The guest is told the present edge. -/
theorem told_emitted (hr : r.Received stream) (hplaced : r.Placed) (hanswers : r.Answers segment) :
    (r.emitted segment).Told r.edge := by
  refine ⟨?_, hr.place_edge hplaced, ?_⟩
  · rw [edge_emitted]
  · intro last hlast
    rw [emitted, edges_append, hanswers.edge] at hlast
    change last = r.rcvNxt + _
    simpa using hlast.symm

theorem rising_emitted (hr : r.Received stream) (hplaced : r.Placed) (hrising : r.Rising)
    (htold : edges r.acts = [] ∨ ∃ told, r.Told told ∧ r.edge ≤ told + maxLag)
    (hanswers : r.Answers segment) : (r.emitted segment).Rising := by
  rw [Rising, emitted, edges_append, hanswers.edge, isChain_append]
  refine ⟨hrising, isChain_singleton _, fun last hlast next hnext => ?_⟩
  rcases htold with hnone | ⟨told, htold, hlag⟩
  · rw [hnone] at hlast
    cases hlast
  · have hsmall := maxLag_small
    have hbehind := htold.behind
    have heq : next = place (r.irs + 1) r.edge := by
      rw [← hr.place_edge hplaced]
      simpa using hnext.symm
    rw [htold.last last hlast, htold.advEdge, heq, seqLe_iff, ahead_place hbehind (by omega)]
    omega

namespace Advertised

variable (ha : r.Advertised)
include ha

/-- The guest was told something that is not too old, or nothing. -/
theorem recent (hheard : r.state.heard) :
    edges r.acts = [] ∨ ∃ told, r.Told told ∧ r.edge ≤ told + maxLag := by
  rcases ha.told hheard.1 hheard.2 with ⟨hnone, -⟩ | ⟨told, htold, hearly, hlate⟩
  · exact .inl hnone
  · refine .inr ⟨told, htold, ?_⟩
    cases hfin : r.rxFin with
    | false => exact (hearly hfin).trans (by rw [maxLag]; omega)
    | true => exact (Nat.le_add_right _ _).trans (hlate hfin)

omit ha in
theorem of_told (hrising : r.Rising) (hsent : r.state ≠ .synSent) {told : ℕ}
    (htold : r.Told told) (hearly : r.rxFin = false → r.edge ≤ told + lag)
    (hlate : r.rxFin = true → r.edge + r.rx.length ≤ told + maxLag) : r.Advertised :=
  ⟨hrising, fun h => absurd h hsent, fun _ _ => .inr ⟨told, htold, hearly, hlate⟩⟩

/-- After a segment with an ACK. -/
theorem emitted (hr : r.Received stream) (hheard : r.state.heard)
    (hanswers : r.Answers segment) : (r.emitted segment).Advertised := by
  have hplaced := hr.heard hheard
  have hroom := hr.room
  refine of_told (rising_emitted hr hplaced ha.rising (ha.recent hheard) hanswers) hheard.1
    (told_emitted hr hplaced hanswers) (fun _ => ?_) fun _ => ?_
  · rw [edge_emitted]
    exact Nat.le_add_right _ _
  · rw [edge_emitted]
    change r.edge + r.rx.length ≤ _
    rw [maxLag]
    omega

/-- Other acts. -/
theorem act {act : Act} (hsilent : act.silent) (hedge : act.edge = none) :
    Advertised { r with acts := r.acts ++ [act] } := by
  have hedges := edges_same hedge r.acts
  have hsame : RecvState.edge { r with acts := r.acts ++ [act] } = r.edge :=
    r.edge_act hsilent.taken
  refine ⟨?_, ?_, ?_⟩
  · rw [Rising, hedges]
    exact ha.rising
  · rw [hedges]
    exact ha.unheard
  · rw [hedges, hsame]
    intro hsent hopen
    refine (ha.told hsent hopen).imp_right ?_
    rintro ⟨told, htold, hlimits⟩
    exact ⟨told, htold.mono hsame.ge ⟨rfl, rfl, hedges⟩, hlimits⟩

theorem due : Advertised { r with ackPending := true } := by
  refine ⟨ha.rising, ha.unheard, fun hsent hopen => ?_⟩
  rcases ha.told hsent hopen with ⟨hnone, -⟩ | ⟨told, htold, hlimits⟩
  · exact .inl ⟨hnone, rfl⟩
  · exact .inr ⟨told, ⟨htold.behind, htold.advEdge, htold.last⟩, hlimits⟩

theorem turn (hheard : r.state.heard) (hstate : state ≠ .synSent) :
    Advertised { r with state } := by
  refine ⟨ha.rising, fun h => absurd h hstate, fun _ _ => ?_⟩
  rcases ha.told hheard.1 hheard.2 with hnone | ⟨told, htold, hlimits⟩
  · exact .inl hnone
  · exact .inr ⟨told, ⟨htold.behind, htold.advEdge, htold.last⟩, hlimits⟩

omit ha in
theorem closed (hrising : r.Rising) {act : Act} (hedge : act.edge = none) :
    Advertised { r with state := .closed, acts := r.acts ++ [act] } := by
  refine ⟨?_, by simp, fun _ h => absurd rfl h⟩
  rw [Rising, edges_same hedge]
  exact hrising

/-- More data of the guest. -/
theorem keeps {r' : RecvState} (hkeeps : r.Keeps r') : r'.Advertised := by
  have hedge : r'.edge = r.edge := by
    rw [RecvState.edge, RecvState.edge, hkeeps.acts, hkeeps.rxFin]
  refine ⟨?_, ?_, ?_⟩
  · rw [Rising, hkeeps.acts]
    exact ha.rising
  · rw [hkeeps.state, hkeeps.acts]
    exact ha.unheard
  · rw [hkeeps.state, hkeeps.acts, hkeeps.rxFin, hedge]
    intro hsent hopen
    rcases ha.told hsent hopen with ⟨hnone, hpending⟩ | ⟨told, htold, hearly, hlate⟩
    · exact .inl ⟨hnone, hkeeps.ackPending hpending⟩
    · refine .inr ⟨told, htold.mono hedge.ge
        ⟨hkeeps.advEdge, hkeeps.irs, congrArg edges hkeeps.acts⟩, hearly, fun hfin => ?_⟩
      rw [hkeeps.rx hfin]
      exact hlate hfin

/-- The FIN of the guest moves the edge by one. -/
theorem fin (hr : r.Received stream) (hheard : r.state.heard) (hfin : r.rxFin = false)
    (hstate : state ≠ .synSent) {rcvNxt : Seq} :
    Advertised { r with state, rcvNxt, rxFin := true, ackPending := true } := by
  have hroom := hr.room
  have hedge : RecvState.edge { r with state, rcvNxt, rxFin := true, ackPending := true } =
      r.edge + 1 := by
    simp only [RecvState.edge, hfin, Bool.toNat_false, Bool.toNat_true]
  refine ⟨ha.rising, fun h => absurd h hstate, fun _ _ => ?_⟩
  rcases ha.told hheard.1 hheard.2 with ⟨hnone, -⟩ | ⟨told, htold, hearly, -⟩
  · exact .inl ⟨hnone, rfl⟩
  · refine .inr ⟨told, htold.mono (by omega) ⟨rfl, rfl, rfl⟩, by simp, fun _ => ?_⟩
    have hlag := hearly hfin
    rw [hedge, maxLag]
    change r.edge + 1 + r.rx.length ≤ _
    omega

end Advertised

/-! ### During an exchange -/

theorem Advertised.delivering (ha : r.Advertised) (hr : r.Received stream)
    (hheard : r.state.heard) : r.Delivering := by
  have hroom := hr.room
  refine ⟨ha.rising, ?_⟩
  rcases ha.told hheard.1 hheard.2 with hnone | ⟨told, htold, hearly, hlate⟩
  · exact .inl hnone
  · refine .inr ⟨told, htold, ?_⟩
    cases hfin : r.rxFin with
    | false =>
      have hlag := hearly hfin
      rw [maxLag]
      omega
    | true => exact hlate hfin

namespace Delivering

theorem write (hd : r.Delivering) {n k : ℕ} (hn : n ≤ (r.rx.take k).length) :
    Delivering { r with rx := r.rx.drop n, acts := r.acts ++ [.write (r.rx.take k) n] } := by
  have hedges : edges (r.acts ++ [.write (r.rx.take k) n]) = edges r.acts := edges_same rfl _
  have hsize : (Act.write (r.rx.take k) n).taken.length = n := by
    rw [Act.taken, length_take, min_eq_left hn]
  have hedge : RecvState.edge { r with
      rx := r.rx.drop n, acts := r.acts ++ [.write (r.rx.take k) n] } = r.edge + n := by
    simp only [RecvState.edge, accepted_append, length_append, hsize]
    omega
  refine ⟨?_, ?_⟩
  · rw [Rising, hedges]
    exact hd.rising
  · rw [hedges, hedge]
    refine hd.told.imp_right ?_
    rintro ⟨told, htold, hlag⟩
    refine ⟨told, htold.mono (by omega) ⟨rfl, rfl, hedges⟩, ?_⟩
    rw [length_take] at hn
    rw [length_drop]
    omega

theorem act (hd : r.Delivering) {act : Act} {shutdownDone : Bool} (htaken : act.taken = [])
    (hedge : act.edge = none) :
    Delivering { r with acts := r.acts ++ [act], shutdownDone } := by
  have hedges := edges_same hedge r.acts
  have hsame : RecvState.edge { r with acts := r.acts ++ [act], shutdownDone } = r.edge :=
    r.edge_act htaken
  refine ⟨?_, ?_⟩
  · rw [Rising, hedges]
    exact hd.rising
  · rw [hedges, hsame]
    refine hd.told.imp_right ?_
    rintro ⟨told, htold, hlag⟩
    exact ⟨told, htold.mono hsame.ge ⟨rfl, rfl, hedges⟩, hlag⟩

theorem due (hd : r.Delivering) : Answering { r with ackPending := true } := by
  refine ⟨⟨hd.rising, ?_⟩, by simp⟩
  rcases hd.told with ⟨hnone, -⟩ | ⟨told, htold, hlag⟩
  · exact .inl ⟨hnone, rfl⟩
  · exact .inr ⟨told, ⟨htold.behind, htold.advEdge, htold.last⟩, hlag⟩

/-- Without an update of the window, the edge has not moved much. -/
theorem answering (hd : r.Delivering) (hr : r.Received stream) (hplaced : r.Placed) (size : ℕ)
    (hsame : r.rxFin = false →
      ¬(seqLt r.advEdge (r.rcvNxt + BitVec.ofNat 32 (rxCapacity - r.rx.length)) = true ∧
        min size lag ≤
          ahead r.advEdge (r.rcvNxt + BitVec.ofNat 32 (rxCapacity - r.rx.length)))) :
    r.Answering := by
  refine ⟨hd, fun hpending hfin => ?_⟩
  rcases hd.told with ⟨-, hdue⟩ | ⟨told, htold, hlag⟩
  · exact absurd hdue (by simp [hpending])
  · have hbehind := htold.behind
    have hsmall := maxLag_small
    have hstill := hsame hfin
    rw [hr.place_edge hplaced, htold.advEdge, seqLt_iff, ahead_place hbehind (by omega)] at hstill
    refine ⟨told, htold, ?_⟩
    omega

end Delivering

namespace Answering

variable (ha : r.Answering)
include ha

theorem recent : edges r.acts = [] ∨ ∃ told, r.Told told ∧ r.edge ≤ told + maxLag := by
  rcases ha.delivering.told with ⟨hnone, -⟩ | ⟨told, htold, hlag⟩
  · exact .inl hnone
  · exact .inr ⟨told, htold, (Nat.le_add_right _ _).trans hlag⟩

theorem emitted (hr : r.Received stream) (hplaced : r.Placed) (hanswers : r.Answers segment) :
    (r.emitted segment).Answering := by
  have hroom := hr.room
  have htold := told_emitted hr hplaced hanswers
  refine ⟨⟨rising_emitted hr hplaced ha.delivering.rising ha.recent hanswers,
    .inr ⟨_, htold, ?_⟩⟩, fun _ _ => ⟨_, htold, ?_⟩⟩
  · rw [edge_emitted]
    change r.edge + r.rx.length ≤ _
    rw [maxLag]
    omega
  · rw [edge_emitted]
    exact Nat.le_add_right _ _

theorem act {act : Act} (htaken : act.taken = []) (hedge : act.edge = none) :
    Answering { r with acts := r.acts ++ [act] } := by
  have hsame : RecvState.edge { r with acts := r.acts ++ [act] } = r.edge := r.edge_act htaken
  refine ⟨ha.delivering.act htaken hedge, fun hpending hfin => ?_⟩
  obtain ⟨told, htold, hlag⟩ := ha.due hpending hfin
  exact ⟨told, htold.mono hsame.ge ⟨rfl, rfl, edges_same hedge r.acts⟩, hsame.trans_le hlag⟩

theorem turn : Answering { r with state } := by
  refine ⟨⟨ha.delivering.rising, ?_⟩, fun hpending hfin => ?_⟩
  · refine ha.delivering.told.imp_right ?_
    rintro ⟨told, htold, hlag⟩
    exact ⟨told, ⟨htold.behind, htold.advEdge, htold.last⟩, hlag⟩
  · obtain ⟨told, htold, hlag⟩ := ha.due hpending hfin
    exact ⟨told, ⟨htold.behind, htold.advEdge, htold.last⟩, hlag⟩

/-- No ACK is due at the end. -/
theorem advertised (hsent : r.state ≠ .synSent) (hpending : r.ackPending = false) :
    r.Advertised := by
  rcases ha.delivering.told with ⟨-, hdue⟩ | ⟨told, htold, hlag⟩
  · exact absurd hdue (by simp [hpending])
  · cases hfin : r.rxFin with
    | false =>
      obtain ⟨told', htold', hlag'⟩ := ha.due hpending hfin
      exact Advertised.of_told ha.delivering.rising hsent htold' (fun _ => hlag')
        fun h => absurd h (by simp [hfin])
    | true =>
      exact Advertised.of_told ha.delivering.rising hsent htold
        (fun h => absurd h (by simp [hfin])) fun _ => hlag

end Answering

end RecvState

/-! ## The actions -/

variable {stream : List Byte} {s t : Link U}

/-- Reception is right, between two calls. -/
structure Link.Receiving (stream : List Byte) (s : Link U) : Prop where
  timed : s.Timed
  received : s.recvState.Received stream
  advertised : s.recvState.Advertised

/-- Reception is right, the timers apart. -/
structure Link.Hearing (stream : List Byte) (s : Link U) : Prop where
  received : s.recvState.Received stream
  advertised : s.recvState.Advertised

theorem Link.Receiving.hearing (hs : s.Receiving stream) : s.Hearing stream :=
  ⟨hs.received, hs.advertised⟩

theorem Link.Hearing.receiving (htimed : s.Timed) (hs : s.Hearing stream) : s.Receiving stream :=
  ⟨htimed, hs.received, hs.advertised⟩

/-- `t` is `s` after a segment with an ACK. -/
def Link.Emits (s t : Link U) : Prop :=
  ∃ segment, s.recvState.Answers segment ∧ t.recvState = s.recvState.emitted segment

theorem Link.emits_emit (s : Link U) (seq : Seq) {flags : Flags} (hack : flags.ack = true)
    (payload : List Byte) : s.Emits (s.emit seq flags payload) :=
  ⟨_, ⟨rfl, rfl, hack⟩, rfl⟩

theorem Link.recvState_finish [Upstream U] (hopen : s.conn.state ≠ .closed)
    (reason : CloseReason) (reset : Bool) : (s.finish reason reset).recvState =
      { s.recvState with state := .closed, acts := s.ctx.acts ++ [.close reset] } := by
  rw [finish, if_neg hopen]
  rfl

namespace Link.Hearing

theorem of_recv (hrecv : t.recvState = r) (hr : r.Received stream) (ha : r.Advertised) :
    t.Hearing stream := by
  subst hrecv
  exact ⟨hr, ha⟩

section

variable (hs : s.Hearing stream)
include hs

theorem emits (hheard : s.conn.state.heard) (hemits : s.Emits t) : t.Hearing stream := by
  obtain ⟨segment, hanswers, ht⟩ := hemits
  have hsilent : (Act.sent segment).silent := trivial
  exact of_recv ht (hs.received.act hsilent) (hs.advertised.emitted hs.received hheard hanswers)

theorem same (hrecv : t.recvState = s.recvState) : t.Hearing stream :=
  of_recv hrecv hs.received hs.advertised

theorem acted {act : Act} (hrecv : t.recvState = { s.recvState with acts := s.ctx.acts ++ [act] })
    (hsilent : act.silent) (hedge : act.edge = none) : t.Hearing stream :=
  of_recv hrecv (hs.received.act hsilent) (hs.advertised.act hsilent hedge)

theorem due (hrecv : t.recvState = { s.recvState with ackPending := true }) : t.Hearing stream :=
  of_recv hrecv hs.received.flags hs.advertised.due

theorem turn (hheard : s.conn.state.heard) (hstate : t.conn.state ≠ .synSent)
    (hrecv : t.recvState = { s.recvState with state := t.conn.state })
    (hearly : t.conn.state.early → s.conn.rxFin = false) : t.Hearing stream :=
  of_recv hrecv (hs.received.turn hheard hstate hearly) (hs.advertised.turn hheard hstate)

end

section Upstream

variable [Upstream U]

/-- The end of a connection, from a state that was right. -/
theorem finished {reason : CloseReason} {reset : Bool} (hopen : s.conn.state ≠ .closed)
    (hr : s.recvState.Received stream) (hrising : s.recvState.Rising) :
    (s.finish reason reset).Hearing stream := by
  have hsilent : (Act.close reset).silent := trivial
  exact of_recv (recvState_finish hopen reason reset) (hr.finish hsilent) (.closed hrising rfl)

/-- A segment with an ACK, and then the end of the connection.  Before the SYN-ACK of the
guest there is no other such segment. -/
theorem refused (hs : s.Hearing stream) (hopen : s.conn.state ≠ .closed) (hemits : s.Emits t) :
    (t.finish reason reset).Hearing stream := by
  obtain ⟨segment, hanswers, ht⟩ := hemits
  have hstate : t.conn.state = s.conn.state := congrArg RecvState.state ht
  have hreceived : t.recvState.Received stream := by
    have hsilent : (Act.sent segment).silent := trivial
    rw [ht]
    exact hs.received.act hsilent
  refine finished (hstate ▸ hopen) hreceived ?_
  rw [ht]
  by_cases hsent : s.conn.state = .synSent
  · have hnone : edges s.recvState.acts = [] := hs.advertised.unheard hsent
    rw [RecvState.Rising, RecvState.emitted, edges_append, hnone, hanswers.edge]
    exact isChain_singleton _
  · exact RecvState.rising_emitted hs.received (hs.received.placed hsent hopen)
      hs.advertised.rising (hs.advertised.recent ⟨hsent, hopen⟩) hanswers

theorem finish (hs : s.Hearing stream) (reason : CloseReason) (reset : Bool) :
    (s.finish reason reset).Hearing stream := by
  by_cases hclosed : s.conn.state = .closed
  · rw [Link.finish, if_pos hclosed]
    exact hs
  · exact finished hclosed hs.received hs.advertised.rising

end Upstream

end Link.Hearing

/-! ### Acknowledgements -/

/-- Reception goes on as it was, perhaps after a segment with an ACK. -/
def Link.Answered (s t : Link U) : Prop := t.recvState = s.recvState ∨ s.Emits t

theorem Link.Hearing.answered (hs : s.Hearing stream) (hheard : s.conn.state.heard)
    (hanswered : s.Answered t) : t.Hearing stream := by
  rcases hanswered with hsame | hemits
  · exact hs.same hsame
  · exact hs.emits hheard hemits

theorem Link.recvState_ackNew (s : Link U) (ack : Seq) :
    (s.ackNew ack).recvState = s.recvState := by
  rw [ackNew_eq]
  rfl

theorem Link.answered_duplicateAck (s : Link U) : s.Answered s.duplicateAck := by
  rw [duplicateAck, fastRetransmit]
  split_ifs
  · exact .inl rfl
  · exact .inr ⟨_, ⟨rfl, rfl, rfl⟩, rfl⟩
  · exact .inl rfl

theorem Link.answered_takeAck (s : Link U) (h : TcpHeader) (payload : List Byte) :
    s.Answered (s.takeAck h payload) := by
  have hwindow : ∀ t : Link U, s.Answered t →
      s.Answered { t with conn := updateWindow t.conn h } := by
    intro t ht
    rw [updateWindow_eq]
    exact ht
  have halive : (s.alive h.ack).recvState = s.recvState := by
    rw [alive_eq]
    rfl
  have hduplicate := answered_duplicateAck (s.alive h.ack)
  rw [Link.Answered, Link.Emits, halive] at hduplicate
  refine hwindow _ ?_
  split_ifs
  · exact .inl ((recvState_ackNew _ _).trans halive)
  · exact hduplicate
  · exact .inl halive

/-- Before the FIN of the guest. -/
theorem RecvState.Received.rxFin_of_state (hr : s.recvState.Received stream)
    (hstate : s.conn.state ∈ [.connecting, .synSent, .synReceived, .finWait1, .established]) :
    s.conn.rxFin = false := by
  apply hr.early
  change s.conn.state ∈ _
  revert hstate
  cases s.conn.state <;> decide

section

variable (hs : s.Hearing stream)
include hs

theorem Link.Hearing.onFinAcked (now : ℕ) :
    ({ s with conn := onFinAcked s.conn now } : Link U).Hearing stream := by
  rw [Link.onFinAcked]
  cases hstate : s.conn.state with
  | finWait1 =>
    exact hs.turn (by rw [hstate]; exact ⟨by simp, by simp⟩) (by simp) rfl
      fun _ => hs.received.rxFin_of_state (by rw [hstate]; decide)
  | closing =>
    exact hs.turn (by rw [hstate]; exact ⟨by simp, by simp⟩) (by rintro ⟨⟩) rfl
      (by simp [State.early, TcpConn.enterTimeWait])
  | _ =>
    exact hs

theorem Link.Hearing.settle [Upstream U] (hsync : s.conn.isSynchronized = true) (h : TcpHeader)
    (payload : List Byte) : (s.settle h payload).Hearing stream := by
  have htaken : (s.takeAck h payload).Hearing stream :=
    hs.answered (heard_of_open (.inr hsync)) (answered_takeAck s h payload)
  rw [Link.settle]
  split_ifs
  · exact htaken.finish _ _
  · exact htaken.onFinAcked _
  · exact htaken

/-! ### Segments with data -/

theorem Link.Hearing.takeFin {h : TcpHeader} {payload : List Byte} {complete : Bool}
    (hall : complete = true → h.flags.fin = true → s.conn.state.taking →
      h.seq + BitVec.ofNat 32 payload.length = s.conn.rcvNxt → s.recvState.got = stream) :
    (s.takeFin h payload complete).Hearing stream := by
  rw [Link.takeFin]
  split_ifs with hfin
  · have hgot := fun htaking => hall hfin.2.1 hfin.1 htaking hfin.2.2
    have hend : ∀ t : Link U, s.conn.state.taking →
        t.conn.state ∈ [.closeWait, .closing, .timeWait] →
        t.recvState = { s.recvState with
          state := t.conn.state, rcvNxt := s.conn.rcvNxt + 1, rxFin := true
          ackPending := true } → t.Hearing stream := by
      intro t htaking hlast hrecv
      obtain ⟨hheard, hearly⟩ := htaking.open
      have hnot : t.conn.state ≠ .synSent := by
        rintro heq
        rw [heq] at hlast
        exact absurd hlast (by decide)
      have hrxFin := hs.received.early hearly
      exact .of_recv hrecv (hs.received.fin hheard hrxFin (hgot htaking) hlast)
        (hs.advertised.fin hs.received hheard hrxFin hnot)
    cases hnext : onFin s.conn s.ctx.now with
    | some c =>
      obtain ⟨htaking, hlast, hc⟩ := onFin_cases hnext
      refine hend _ htaking hlast ?_
      rw [hc]
      rfl
    | none => exact hs.due rfl
  · exact hs

theorem Link.Hearing.takeSegment (h : TcpHeader) (payload : List Byte)
    (hpiece : Piece stream s.recvKey h payload) : (s.takeSegment h payload).Hearing stream := by
  have htook := took_takeData hs.received hpiece
  have hdata : (s.takeData h payload).1.Hearing stream :=
    ⟨htook.received, hs.advertised.keeps htook.keeps⟩
  have hstate : (s.takeData h payload).1.conn.state = s.conn.state := htook.keeps.state
  refine hdata.takeFin fun hcomplete hfin htaking heq => ?_
  exact htook.all hcomplete hfin (hstate ▸ htaking) heq

end

/-! ### Exchanges -/

/-- Reception in an exchange, while bytes are handed over. -/
structure Link.Handing (stream : List Byte) (s : Link U) : Prop where
  heard : s.conn.state.heard
  received : s.recvState.Received stream
  delivering : s.recvState.Delivering

/-- Reception in an exchange, after the bytes were handed over. -/
structure Link.Exchanging (stream : List Byte) (s : Link U) : Prop where
  heard : s.conn.state.heard
  received : s.recvState.Received stream
  answering : s.recvState.Answering

section Exchange

theorem Link.Handing.writeChunk [Upstream U] (hs : s.Handing stream) (k : ℕ) :
    (s.writeChunk (s.conn.rx.take k)).1.Handing stream := by
  have hn : min (Upstream.tcpWrite s.ctx.up s.ctx.now s.conn.id (s.conn.rx.take k)).1
      (s.conn.rx.take k).length ≤ (s.recvState.rx.take k).length := min_le_right _ _
  exact ⟨hs.heard, hs.received.write hn, hs.delivering.write hn⟩

theorem Link.Handing.shutdownRx [Upstream U] (hs : s.Handing stream) :
    s.shutdownRx.Handing stream := by
  rw [Link.shutdownRx]
  split_ifs with hdone
  · obtain ⟨hrx, hfin, hundone⟩ := hdone
    rw [Bool.not_eq_true] at hundone
    exact ⟨hs.heard, hs.received.shutdown hrx hfin hundone, hs.delivering.act rfl rfl⟩
  · exact hs

theorem Link.Handing.windowUpdate (hs : s.Handing stream) : s.windowUpdate.Exchanging stream := by
  rw [Link.windowUpdate]
  split_ifs with hreopened
  · exact ⟨hs.heard, hs.received.flags, hs.delivering.due⟩
  · refine ⟨hs.heard, hs.received,
      hs.delivering.answering hs.received (hs.received.heard hs.heard)
        s.conn.mss.value fun hfin hmoved => hreopened ?_⟩
    change s.conn.rxFin = false at hfin
    rw [reopened, hfin, Bool.and_eq_true, Bool.and_eq_true, decide_eq_true_iff]
    exact ⟨⟨rfl, hmoved.1⟩, hmoved.2⟩

theorem Link.Hearing.delivered [Upstream U] (hs : s.Hearing stream)
    (hheard : s.conn.state.heard) : s.writeRx.shutdownRx.windowUpdate.Exchanging stream := by
  have hstart : s.Handing stream :=
    ⟨hheard, hs.received, hs.advertised.delivering hs.received hheard⟩
  exact (written_of hstart fun _ k ht => ht.writeChunk k).shutdownRx.windowUpdate

namespace Link.Exchanging

theorem of_recv (hrecv : t.recvState = r) (hheard : r.state.heard) (hr : r.Received stream)
    (ha : r.Answering) : t.Exchanging stream := by
  subst hrecv
  exact ⟨hheard, hr, ha⟩

variable (hs : s.Exchanging stream)
include hs

theorem emits (hemits : s.Emits t) : t.Exchanging stream := by
  obtain ⟨segment, hanswers, ht⟩ := hemits
  have hsilent : (Act.sent segment).silent := trivial
  exact of_recv ht hs.heard (hs.received.act hsilent)
    (hs.answering.emitted hs.received (hs.received.heard hs.heard) hanswers)

theorem turn (hheard : t.conn.state.heard)
    (hrecv : t.recvState = { s.recvState with state := t.conn.state })
    (hearly : t.conn.state.early → s.conn.rxFin = false) : t.Exchanging stream :=
  of_recv hrecv hheard (hs.received.turn hs.heard hheard.1 hearly) hs.answering.turn

theorem readOnce [Upstream U] : s.readOnce.1.Exchanging stream := by
  have htake : ∀ (t : Link U) (room : ℕ) (answer : TcpRead),
      (t.takeRead room answer).1.recvState = t.recvState := by
    intro t room answer
    cases answer with
    | data bytes =>
      rw [takeRead]
      split_ifs <;> rfl
    | _ => rfl
  have hsilent : ∀ room answer, (Act.read room answer).silent := fun _ _ => trivial
  exact of_recv (htake _ _ _) hs.heard (hs.received.act (hsilent _ _)) (hs.answering.act rfl rfl)

theorem sendOne : s.sendOne.Exchanging stream := by
  refine hs.emits ?_
  rw [Link.sendOne, Link.armRtx, TcpConn.armRtx_eq]
  exact ⟨_, ⟨rfl, rfl, rfl⟩, rfl⟩

theorem sendFin (hsending : s.conn.state.sending) : s.sendFin.Exchanging stream := by
  rw [Link.sendFin]
  split
  · exact hs
  · rename_i state hfin
    have hheard : state.heard := by
      have hnext := sending_finState hfin hsending
      refine ⟨?_, ?_⟩ <;> rintro rfl <;> exact absurd hnext (by decide)
    have hearly : state.early → s.conn.rxFin = false := by
      obtain ⟨-, -, ⟨-, ⟨hfrom, -⟩ | ⟨-, rfl⟩⟩ | ⟨-, rfl⟩⟩ := finState_cases hfin
      · exact fun _ => hs.received.rxFin_of_state (by rw [hfrom]; decide)
      · intro hlast
        exact absurd hlast (by decide)
      · exact hs.received.early
    have hturned : ({ s with conn := { s.conn with
        state, finSeq := some s.conn.sndNxt } } : Link U).Exchanging stream :=
      hs.turn hheard rfl hearly
    refine hturned.emits ?_
    rw [armRtx, TcpConn.armRtx_eq]
    exact ⟨_, ⟨rfl, rfl, rfl⟩, rfl⟩

theorem flushAck : s.flushAck.Hearing stream := by
  rw [Link.flushAck]
  split_ifs with hpending
  · have hsent : (s.emit s.conn.sndNxt { ack := true } []).Exchanging stream :=
      hs.emits (s.emits_emit _ rfl _)
    exact ⟨hsent.received, hsent.answering.advertised hsent.heard.1 rfl⟩
  · exact ⟨hs.received, hs.answering.advertised hs.heard.1 (Bool.eq_false_iff.mpr hpending)⟩

end Link.Exchanging

variable [Upstream U]

theorem sends_exchanging : Sends (U := U) (Link.Exchanging stream) where
  readOnce hs _ _ _ := hs.readOnce
  sendOne hs _ _ _ := hs.sendOne
  sendFin hs hsending := hs.sendFin hsending
  persist {s} hs := by
    refine .of_recv ?_ hs.heard hs.received hs.answering
    rw [persist_eq]
    rfl

theorem Link.Hearing.exchange (hs : s.Hearing stream)
    (hopen : s.conn.state = .synReceived ∨ s.conn.isSynchronized = true) :
    s.exchange.Hearing stream := by
  refine sends_exchanging.exchange (hs.delivered (heard_of_open hopen)) (fun t ht => ?_)
    fun t ht => ht.flushAck
  have hrst : t.sendRst.Exchanging stream := ht.emits (t.emits_emit _ rfl _)
  exact .finished hrst.heard.2 hrst.received hrst.answering.delivering.rising

end Exchange

/-! ### Opening and timeouts -/

namespace Link.Hearing

/-- Our SYN tells the guest nothing about a window. -/
theorem sendSyn (hs : s.Hearing stream) (hstate : s.conn.state = .synSent)
    (hrecv : ∃ segment : Segment, segment.flags.ack = false ∧
      t.recvState = s.recvState.emitted segment) : t.Hearing stream := by
  obtain ⟨segment, hflag, ht⟩ := hrecv
  have hsilent : (Act.sent segment).silent := trivial
  have hedge : (Act.sent segment).edge = none := by
    rw [Act.edge, hflag]
    rfl
  have hnone : edges (s.ctx.acts ++ [.sent segment]) = [] := by
    have hbefore : edges s.ctx.acts = [] := hs.advertised.unheard hstate
    rw [edges_append, hedge, hbefore]
    rfl
  refine of_recv ht (hs.received.act hsilent) ⟨?_, fun _ => hnone, fun h => absurd hstate h⟩
  change (edges (s.ctx.acts ++ [.sent segment])).IsChain _
  rw [hnone]
  exact isChain_nil

/-- The SYN-ACK of the guest says where its stream starts. -/
theorem synAcked (hs : s.Hearing stream) (hstate : s.conn.state = .synSent) {irs : Seq}
    (hrecv : t.recvState = { s.recvState with
      state := .established, irs, rcvNxt := irs + 1, ackPending := true }) :
    t.Hearing stream := by
  have hr := hs.received
  have hgot : s.recvState.got = [] := (hr.unheard hstate).2.2
  have hrxFin : s.conn.rxFin = false := hr.rxFin_of_state (by rw [hstate]; decide)
  have hplaced : RecvState.Placed { s.recvState with
      state := .established, irs, rcvNxt := irs + 1, ackPending := true } := by
    change irs + 1 = place (irs + 1) (s.recvState.got.length + s.conn.rxFin.toNat)
    rw [hgot, hrxFin]
    exact (place_zero _).symm
  exact of_recv hrecv
    ⟨hr.taken, hr.room, hr.all, fun _ => hrxFin, fun _ _ => hplaced, by simp, by simp, hr.undone,
      hr.once⟩
    ⟨hs.advertised.rising, by simp, fun _ _ => .inl ⟨hs.advertised.unheard hstate, rfl⟩⟩

end Link.Hearing

/-- Nothing was received or sent yet. -/
structure RecvState.Start (r : RecvState) : Prop where
  rx : r.rx = []
  rxFin : r.rxFin = false
  acts : r.acts = []

namespace RecvState.Start

variable {r : RecvState}

theorem got (hstart : r.Start) : r.got = [] := by
  rw [RecvState.got, hstart.rx, hstart.acts]
  rfl

theorem received (hstart : r.Start) (stream : List Byte) (hopen : r.state ≠ .closed)
    (hplaced : r.state ≠ .synSent → r.rcvNxt = r.irs + 1)
    (hunheard : r.state = .synSent → r.irs = 0 ∧ r.rcvNxt = 0) : r.Received stream := by
  have hgot := hstart.got
  refine ⟨?_, ?_, fun h => ?_, fun _ => hstart.rxFin, fun hsent _ => ?_, fun hsent => ?_,
    fun h => absurd h hopen, fun _ => ?_, ?_⟩
  · rw [hgot]
    rfl
  · rw [hstart.rx]
    exact Nat.zero_le _
  · rw [hstart.rxFin] at h
    cases h
  · rw [Placed, position, hgot, hstart.rxFin]
    exact (hplaced hsent).trans (place_zero _).symm
  · exact ⟨(hunheard hsent).1, (hunheard hsent).2, hgot⟩
  · rw [hstart.acts]
    exact not_mem_nil
  · rw [hstart.acts]
    exact Trace.always_nil

theorem advertised (hstart : r.Start)
    (hedge : r.state ≠ .synSent → r.advEdge = place (r.irs + 1) rxCapacity) : r.Advertised := by
  have hnone : edges r.acts = [] := by
    rw [hstart.acts]
    rfl
  have hposition : r.edge = rxCapacity := by
    rw [RecvState.edge, hstart.acts, hstart.rxFin]
    exact Nat.zero_add _
  refine ⟨?_, fun _ => hnone, fun hsent _ => .inr ⟨rxCapacity, ⟨hposition.ge, hedge hsent, ?_⟩,
    fun _ => ?_, fun h => ?_⟩⟩
  · rw [Rising, hnone]
    exact isChain_nil
  · rw [hnone]
    simp
  · rw [hposition]
    exact Nat.le_add_right _ _
  · rw [hstart.rxFin] at h
    cases h

end RecvState.Start

/-- A passive connection knows the number of the guest from its SYN. -/
theorem Link.Receiving.passive (stream : List Byte) (id : ℕ) (flow : Flow) (syn : TcpHeader)
    (iss : Seq) (localMss timeout : ℕ) (m : Moment U) :
    (fresh (TcpConn.new id flow syn iss localMss m.now timeout) m).Receiving stream := by
  have hstart : RecvState.Start
      (fresh (TcpConn.new id flow syn iss localMss m.now timeout) m).recvState :=
    ⟨rfl, rfl, rfl⟩
  exact ⟨Link.Timed.passive id flow syn iss localMss timeout m,
    hstart.received stream (by rintro ⟨⟩) (fun _ => rfl) (by rintro ⟨⟩),
    hstart.advertised fun _ => rfl⟩

section Runs

variable [Upstream U]

omit [Upstream U] in
theorem Link.Receiving.active (stream : List Byte) (id : ℕ) (flow : Flow) (iss : Seq)
    (localMss timeout : ℕ) (m : Moment U) :
    (fresh (TcpConn.newActive id flow iss localMss m.now timeout) m).startActive.Receiving
      stream := by
  have htimed := Link.Timed.active id flow iss localMss timeout m
  have hstart : RecvState.Start
      (fresh (TcpConn.newActive id flow iss localMss m.now timeout) m).recvState :=
    ⟨rfl, rfl, rfl⟩
  have hhearing : (fresh (TcpConn.newActive id flow iss localMss m.now timeout) m).Hearing stream :=
    ⟨hstart.received stream (by rintro ⟨⟩) (fun h => absurd rfl h) fun _ => ⟨rfl, rfl⟩,
      hstart.advertised fun h => absurd rfl h⟩
  exact Link.Hearing.receiving htimed (hhearing.sendSyn rfl ⟨_, rfl, rfl⟩)

theorem Link.Hearing.expired (hs : s.Hearing stream) (hopen : s.conn.state ≠ .closed) :
    s.expired.Hearing stream := by
  rw [Link.expired, Link.retransmit]
  dsimp only
  split_ifs with hretries hreceived hsent
  · exact hs.refused hopen ⟨_, ⟨rfl, rfl, rfl⟩, rfl⟩
  · rw [sendSynAck, armRtx, TcpConn.armRtx_eq]
    exact hs.emits (heard_of_open (.inl hreceived)) ⟨_, ⟨rfl, rfl, rfl⟩, rfl⟩
  · rw [Link.sendSyn, Link.armRtx, TcpConn.armRtx_eq]
    exact hs.sendSyn hsent ⟨_, rfl, rfl⟩
  · rw [goBack, armRtx, TcpConn.armRtx_eq]
    split_ifs
    · exact hs.emits ⟨hsent, hopen⟩ ⟨_, ⟨rfl, rfl, rfl⟩, rfl⟩
    · exact hs.same rfl

/-- Every action keeps reception right, for segments with pieces of the stream. -/
theorem kept_hearing :
    Kept (U := U) (Link.Receiving stream) (Link.Hearing stream) { data := Piece stream } where
  moved hs _ := hs.hearing.same rfl
  due hs := hs.hearing.due rfl
  refuse {s} hs h := by
    rw [refuse]
    by_cases hrst : h.flags.rst = true
    · rw [if_pos hrst]
      exact hs.hearing
    · rw [if_neg hrst]
      exact hs.hearing.due rfl
  pushRst hs _ := hs.hearing.acted rfl trivial rfl
  finish hs reason reset _ := hs.hearing.finish reason reset
  reset hs hopen reason _ := hs.hearing.refused hopen (emits_emit _ _ rfl _)
  askStatus hs := hs.hearing.acted rfl trivial rfl
  refused hs hstate reason _ := by
    refine hs.hearing.refused ?_ (emits_emit _ _ rfl _)
    rw [hstate]
    simp
  opened {s} hs hstate := by
    have hheard : s.conn.state.heard := by
      rw [hstate]
      exact ⟨by simp, by simp⟩
    have hearly : s.conn.rxFin = false := hs.received.rxFin_of_state (by rw [hstate]; decide)
    have hopened : ({ s with conn := { s.conn with state := .synReceived } } : Link U).Hearing
        stream := hs.hearing.turn hheard (by simp) rfl fun _ => hearly
    rw [opened, sendSynAck, armRtx, TcpConn.armRtx_eq]
    exact hopened.emits ⟨by simp, by simp⟩ ⟨_, ⟨rfl, rfl, rfl⟩, rfl⟩
  sendSynAck hs hstate := by
    rw [sendSynAck, armRtx, TcpConn.armRtx_eq]
    exact hs.hearing.emits (heard_of_open (.inl hstate)) ⟨_, ⟨rfl, rfl, rfl⟩, rfl⟩
  synAcked hs hstate h hack := by
    rw [synAcked, TcpConn.takeSample_eq]
    exact hs.hearing.synAcked hstate rfl
  handshake hs hstate _ := hs.timed.handshake hstate
  establish {s} hs hstate h payload _ := by
    have hearly : s.conn.rxFin = false := hs.received.rxFin_of_state (by rw [hstate]; decide)
    have hopen : (s.establish h).Hearing stream :=
      hs.hearing.turn (heard_of_open (.inl hstate)) (by rintro ⟨⟩) rfl fun _ => hearly
    exact hopen.settle rfl h payload
  settle hs hsync h payload _ _ := hs.hearing.settle hsync h payload
  takeSegment hs h payload hpiece := hs.hearing.takeSegment h payload hpiece
  cleared hs _ := hs.hearing.same rfl
  expired hs hopen := hs.hearing.expired hopen
  lapse hs _ := hs.hearing.finish .normal false
  exchange hs hopen := hs.hearing.exchange hopen

theorem kept_receiving :
    Kept (U := U) (Link.Receiving stream) (Link.Receiving stream) { data := Piece stream } :=
  Kept.join Link.Receiving.timed Link.Hearing.receiving kept_timed kept_hearing

/-- Whatever the upstream accepts and however the segments cut and repeat the stream: what
was taken is its beginning, `rcvNxt` counts it, the buffer and the window keep their limits,
and the end of the stream is passed on once, after all of it. -/
theorem received_of_pieces
    (hreached : Reached (fun r e => ∀ h payload, e = .input h payload →
      r.conn.state = .synReceived ∨ r.conn.isSynchronized = true → h.ordinary →
        Piece stream r.recvKey h payload) s) :
    (∃ n, accepted s.ctx.acts ++ s.conn.rx = stream.take n ∧ n ≤ stream.length ∧
      (s.conn.rxFin = true → n = stream.length) ∧
      (s.conn.rcvNxt = place (s.conn.irs + 1) (n + s.conn.rxFin.toNat) ∨
        (s.conn.state = .synSent ∨ s.conn.state = .closed) ∧
          n = 0 ∧ s.conn.irs = 0 ∧ s.conn.rcvNxt = 0)) ∧
    s.conn.rx.length ≤ 65535 ∧
    ((edges s.ctx.acts).IsChain fun a b => seqLe a b = true) ∧
    Trace.Always (fun before act => act = .shutdown →
      accepted before = stream ∧ Act.shutdown ∉ before) s.ctx.acts := by
  have hs : s.Receiving stream := by
    refine kept_receiving.reached (fun r e hok h payload hinput => ⟨fun _ => trivial, ?_⟩)
      (Link.Receiving.passive stream) (Link.Receiving.active stream) hreached
    exact hok h payload hinput
  have hr := hs.received
  refine ⟨⟨s.recvState.got.length, hr.taken, hr.got_le, fun hfin => ?_, ?_⟩, hr.room,
    hs.advertised.rising, hr.once⟩
  · exact congrArg List.length (hr.all hfin)
  · by_cases hsent : s.conn.state = .synSent
    · obtain ⟨hirs, hnxt, hgot⟩ := hr.unheard hsent
      exact .inr ⟨.inl hsent, congrArg List.length hgot, hirs, hnxt⟩
    · by_cases hclosed : s.conn.state = .closed
      · rcases hr.closed hclosed with hplaced | ⟨hirs, hnxt, hgot⟩
        · exact .inl hplaced
        · exact .inr ⟨.inr hclosed, congrArg List.length hgot, hirs, hnxt⟩
      · exact .inl (hr.placed hsent hclosed)

end Runs

/-- One byte, which ends the handshake. -/
theorem received_of_pieces_one :
    let flow : Flow := ⟨⟨1, 1⟩, ⟨2, 2⟩⟩
    let m : Moment HostEnd := ⟨0, { flow }, 0⟩
    let h : TcpHeader := ⟨1, 2, 1, 8, { ack := true }, 100, none⟩
    let s := fresh (TcpConn.new 0 flow ⟨1, 2, 0, 0, { syn := true }, 100, none⟩ 7 1460 0 0) m
    let t := ((s.step m .process).step m (.input h [9])).step m .process
    accepted t.ctx.acts = [9] ∧ t.conn.rx.length ≤ 65535 := by
  intro flow m h s t
  have hreached : Reached (fun r e => ∀ h payload, e = .input h payload →
      r.conn.state = .synReceived ∨ r.conn.isSynchronized = true → h.ordinary →
        Piece [9] r.recvKey h payload) t := by
    refine .step (.step (.step (.passive 0 flow _ 7 1460 0 m) m .process (by simp)) m _ ?_) m
      .process (by simp)
    rintro h' payload hinput - - -
    cases hinput
    refine ⟨0, ?_, rfl, by decide, by simp, by decide, ?_⟩
    · decide +kernel
    · decide +kernel
  exact ⟨by decide +kernel, (received_of_pieces hreached).2.1⟩

end Vetro.Tcp
