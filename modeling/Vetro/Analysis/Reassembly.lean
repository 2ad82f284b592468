import Vetro.Core.Bytes
import Vetro.Core.Intervals
import Vetro.Core.Machine

/-!
# Reassembly of a TCP stream

One direction of a captured flow.  A segment that continues the bytes so far is
appended, one past a hole waits in a table by offset until the hole is filled.
The bytes are then the longest beginning of the stream that the segments cover,
as long as no waiting segment is turned away.
-/

namespace Vetro.Flow

open Bytes List Intervals

/-- Bytes that may wait beyond a hole. -/
def maxPending : ℕ := 16 <<< 20

/-- One direction of a flow. -/
structure Stream where
  bytes : List Byte
  /-- From each offset on, the bytes arrived at the instant. -/
  marks : List (ℕ × ℕ)
  fin : Bool
  missing : ℕ
  isn : Option (BitVec 32)
  /-- Waiting bytes, by offset. -/
  pending : Table (List Byte)
  pendingLen : ℕ
  finAt : Option ℕ
  deriving Repr, DecidableEq

namespace Stream

def default : Stream := ⟨[], [], false, 0, none, [], 0, none⟩

def start (s : Stream) (isn : BitVec 32) : Stream :=
  if s.isn = none then { s with isn := some isn } else s

/-- The offset of a sequence number, unwrapped around the current position. -/
def offset (s : Stream) (seq : BitVec 32) : Option ℕ :=
  match s.isn with
  | none => none
  | some isn =>
    let base := isn + 1
    let next := s.bytes.length
    let rel := (seq - base - BitVec.ofNat 32 next).toInt
    if 0 ≤ (next : ℤ) + rel then some ((next : ℤ) + rel).toNat else none

def append (s : Stream) (time : ℕ) (data : List Byte) : Stream :=
  { s with
    marks := if s.marks.getLast?.any (fun mark => mark.2 == time) then s.marks
      else s.marks ++ [(s.bytes.length, time)]
    bytes := s.bytes ++ data }

/-- Pieces that do not start past the end are taken out of the table, in order. -/
def drainLoop (time : ℕ) : Table (List Byte) → Stream → Stream
  | [], s => { s with pending := [] }
  | (off, data) :: rest, s =>
    let next := s.bytes.length
    if next < off then { s with pending := (off, data) :: rest }
    else
      let s := { s with pendingLen := s.pendingLen - data.length }
      drainLoop time rest
        (if next < off + data.length then s.append time (data.drop (next - off)) else s)

def drain (s : Stream) (time : ℕ) : Stream := drainLoop time s.pending s

/-- The waiting piece at the offset. -/
def entry (s : Stream) (off : ℕ) : List Byte := (s.pending.lookup off).getD []

/-- A segment past a hole waits, unless a longer one with its offset does. -/
def keep (s : Stream) (off : ℕ) (data : List Byte) : Stream :=
  if s.pendingLen + data.length ≤ maxPending then
    if (s.entry off).length < data.length then
      { s with
        pendingLen := s.pendingLen + (data.length - (s.entry off).length)
        pending := Intervals.insert off data s.pending }
    else s
  else { s with missing := s.missing + data.length }

/-- The data of a segment. -/
def place (s : Stream) (time off : ℕ) (data : List Byte) : Stream :=
  let next := s.bytes.length
  if data ≠ [] ∧ next < off + data.length then
    if off ≤ next then (s.append time (data.drop (next - off))).drain time
    else s.keep off data
  else s

def segment (s : Stream) (time : ℕ) (seq : BitVec 32) (data : List Byte) (fin : Bool) : Stream :=
  match s.offset seq with
  | none => s
  | some off =>
    let s := if fin then { s with finAt := some (off + data.length) } else s
    let s := s.place time off data
    if s.finAt = some s.bytes.length then { s with fin := true } else s

end Stream

/-- A piece of the stream `data`, with the end of the stream if it is marked. -/
structure Piece (data : List Byte) where
  time : ℕ
  off : ℕ
  len : ℕ
  fin : Bool
  fits : off + len ≤ data.length
  last : fin = true → off + len = data.length

namespace Piece

variable {data : List Byte}

def bytes (piece : Piece data) : List Byte := (data.drop piece.off).take piece.len

/-- Its sequence number after a SYN with `isn`. -/
def seq (piece : Piece data) (isn : BitVec 32) : BitVec 32 := isn + 1 + BitVec.ofNat 32 piece.off

@[simp]
theorem length_bytes (piece : Piece data) : piece.bytes.length = piece.len := by
  have hfits := piece.fits
  rw [bytes, length_take, length_drop]
  omega

end Piece

/-- The stream after the pieces. -/
def receive {data : List Byte} (isn : BitVec 32) (s : Stream) (pieces : List (Piece data)) :
    Stream :=
  pieces.foldl (fun s piece => s.segment piece.time (piece.seq isn) piece.bytes piece.fin) s

/-- Some piece holds the position. -/
def Covered {data : List Byte} (pieces : List (Piece data)) (position : ℕ) : Prop :=
  ∃ piece ∈ pieces, piece.off ≤ position ∧ position < piece.off + piece.len

/-! ## Offsets -/

section Proofs

variable {data : List Byte} {isn : BitVec 32} {s : Stream}

variable {off : ℕ}

/-- A sequence number less than half a turn away is unwrapped to its offset. -/
theorem offset_eq (hisn : s.isn = some isn) (hlow : s.bytes.length ≤ off + 2 ^ 31)
    (hhigh : off < s.bytes.length + 2 ^ 31) :
    s.offset (isn + 1 + BitVec.ofNat 32 off) = some off := by
  have hsub : isn + 1 + BitVec.ofNat 32 off - (isn + 1) - BitVec.ofNat 32 s.bytes.length =
      BitVec.ofNat 32 off - BitVec.ofNat 32 s.bytes.length := by
    rw [BitVec.add_comm, BitVec.add_sub_cancel]
  have hrel : (BitVec.ofNat 32 off - BitVec.ofNat 32 s.bytes.length).toInt =
      (off : ℤ) - s.bytes.length := by
    rw [BitVec.toInt_sub, ← BitVec.ofInt_natCast, ← BitVec.ofInt_natCast, BitVec.toInt_ofInt,
      BitVec.toInt_ofInt, Int.bmod_sub_bmod, Int.sub_bmod_bmod]
    exact Int.bmod_eq_of_le (by omega) (by omega)
  rw [Stream.offset, hisn]
  simp only [hsub, hrel]
  rw [if_pos (by omega)]
  congr 1
  omega

/-! ## Appending pieces of the stream -/

/-- The bytes of the stream from `off` on. -/
def Slice (data : List Byte) (off : ℕ) (bytes : List Byte) : Prop :=
  bytes = (data.drop off).take bytes.length ∧ off + bytes.length ≤ data.length

theorem Piece.slice (piece : Piece data) : Slice data piece.off piece.bytes := by
  constructor
  · rw [piece.length_bytes]
    rfl
  · rw [piece.length_bytes]
    exact piece.fits

variable {bytes : List Byte}

/-- What is left of a piece that starts inside the beginning makes it longer. -/
theorem take_append_slice (hslice : Slice data off bytes) {next : ℕ} (hstart : off ≤ next)
    (hend : next ≤ off + bytes.length) :
    data.take next ++ bytes.drop (next - off) = data.take (off + bytes.length) := by
  have hdrop : bytes.drop (next - off) =
      (data.drop next).take (off + bytes.length - next) := by
    rw [hslice.1, drop_take, drop_drop, ← hslice.1]
    congr 1
    · omega
    · congr 1
      omega
  have hsum : off + bytes.length = next + (off + bytes.length - next) := by omega
  rw [hdrop, hsum, take_add, ← hsum]

theorem length_take_le {next : ℕ} (hle : next ≤ data.length) : (data.take next).length = next :=
  length_take_of_le hle

/-- The bytes are the beginning of the stream of their length. -/
def Beginning (data : List Byte) (s : Stream) : Prop :=
  s.bytes = data.take s.bytes.length ∧ s.bytes.length ≤ data.length

theorem beginning_append (hbegin : Beginning data s) (hslice : Slice data off bytes)
    (hstart : off ≤ s.bytes.length) (hend : s.bytes.length ≤ off + bytes.length) (time : ℕ) :
    Beginning data (s.append time (bytes.drop (s.bytes.length - off))) ∧
      (s.append time (bytes.drop (s.bytes.length - off))).bytes.length = off + bytes.length := by
  have hbytes : (s.append time (bytes.drop (s.bytes.length - off))).bytes =
      data.take (off + bytes.length) := by
    calc
      (s.append time (bytes.drop (s.bytes.length - off))).bytes =
          s.bytes ++ bytes.drop (s.bytes.length - off) := rfl
      _ = data.take s.bytes.length ++ bytes.drop (s.bytes.length - off) := by rw [← hbegin.1]
      _ = data.take (off + bytes.length) := take_append_slice hslice hstart hend
  have hlength : (s.append time (bytes.drop (s.bytes.length - off))).bytes.length =
      off + bytes.length := by
    rw [hbytes, length_take_le hslice.2]
  refine ⟨⟨?_, ?_⟩, hlength⟩
  · rw [hlength]
    exact hbytes
  · rw [hlength]
    exact hslice.2

/-! ## The waiting pieces -/

/-- The waiting pieces hold the position. -/
def Waits (table : Table (List Byte)) (position : ℕ) : Prop :=
  ∃ x ∈ table, x.1 ≤ position ∧ position < x.1 + x.2.length

/-- A table of pieces of the stream, by offset. -/
structure Pieces (data : List Byte) (table : Table (List Byte)) : Prop where
  sorted : table.Pairwise fun x y => x.1 < y.1
  slices : ∀ x ∈ table, Slice data x.1 x.2

/-- Bytes in the table. -/
def total (table : Table (List Byte)) : ℕ := (table.map fun x => x.2.length).sum

@[simp]
theorem total_cons (x : ℕ × List Byte) (table : Table (List Byte)) :
    total (x :: table) = x.2.length + total table := by
  simp [total]

/-- What draining does. -/
structure Drained (data : List Byte) (table : Table (List Byte)) (s t : Stream) :
    Prop where
  beginning : Beginning data t
  le : s.bytes.length ≤ t.bytes.length
  pieces : Pieces data t.pending
  above : ∀ x ∈ t.pending, t.bytes.length < x.1
  left : ∀ x ∈ t.pending, x ∈ table
  taken : ∀ position, s.bytes.length ≤ position → position < t.bytes.length →
    Waits table position
  rest : ∀ x ∈ table, x ∈ t.pending ∨ x.1 + x.2.length ≤ t.bytes.length
  pendingLen : s.pendingLen = total table → t.pendingLen = total t.pending
  isn : t.isn = s.isn
  finAt : t.finAt = s.finAt
  fin : t.fin = s.fin
  missing : t.missing = s.missing

variable {table : Table (List Byte)}

theorem Drained.cons {x : ℕ × List Byte} {m t : Stream}
    (hdrained : Drained data table m t) (hle : s.bytes.length ≤ m.bytes.length)
    (htaken : ∀ position, s.bytes.length ≤ position → position < m.bytes.length →
      x.1 ≤ position ∧ position < x.1 + x.2.length)
    (hend : x.1 + x.2.length ≤ m.bytes.length)
    (hlen : m.pendingLen = s.pendingLen - x.2.length) (hisn : m.isn = s.isn)
    (hfinAt : m.finAt = s.finAt) (hfin : m.fin = s.fin) (hmissing : m.missing = s.missing) :
    Drained data (x :: table) s t where
  beginning := hdrained.beginning
  le := hle.trans hdrained.le
  pieces := hdrained.pieces
  above := hdrained.above
  left y hy := mem_cons_of_mem x (hdrained.left y hy)
  taken position hlow hhigh := by
    by_cases hm : position < m.bytes.length
    · exact ⟨x, mem_cons_self .., htaken position hlow hm⟩
    · obtain ⟨y, hy, hin⟩ := hdrained.taken position (Nat.le_of_not_lt hm) hhigh
      exact ⟨y, mem_cons_of_mem x hy, hin⟩
  rest y hy := by
    rcases mem_cons.mp hy with rfl | hmem
    · exact .inr (hend.trans hdrained.le)
    · exact hdrained.rest y hmem
  pendingLen htotal := by
    apply hdrained.pendingLen
    rw [hlen, htotal, total_cons, Nat.add_sub_cancel_left]
  isn := hdrained.isn.trans hisn
  finAt := hdrained.finAt.trans hfinAt
  fin := hdrained.fin.trans hfin
  missing := hdrained.missing.trans hmissing

theorem drained_drainLoop (time : ℕ) (table : Table (List Byte)) (htable : Pieces data table)
    (s : Stream) (hbegin : Beginning data s) :
    Drained data table s (Stream.drainLoop time table s) := by
  induction table generalizing s with
  | nil =>
    refine ⟨hbegin, le_rfl, htable, by rintro _ ⟨⟩, by rintro _ ⟨⟩, ?_, by simp, id, rfl, rfl, rfl,
      rfl⟩
    exact fun position hlow hhigh => absurd hhigh (Nat.not_lt.mpr hlow)
  | cons x table ih =>
    obtain ⟨off, bytes⟩ := x
    have hsorted := pairwise_cons.mp htable.sorted
    have hslice : Slice data off bytes := htable.slices (off, bytes) (mem_cons_self ..)
    have hrest : Pieces data table :=
      ⟨hsorted.2, fun y hy => htable.slices y (mem_cons_of_mem _ hy)⟩
    rw [Stream.drainLoop]
    by_cases hpast : s.bytes.length < off
    · -- the first piece starts past the end, and so do the others
      rw [if_pos hpast]
      refine ⟨hbegin, le_rfl, htable, ?_, fun y hy => hy, ?_, fun y hy => .inl hy, id, rfl,
        rfl, rfl, rfl⟩
      · intro y hy
        rcases mem_cons.mp hy with rfl | hmem
        · exact hpast
        · exact hpast.trans (hsorted.1 y hmem)
      · exact fun position hlow hhigh => absurd hhigh (Nat.not_lt.mpr hlow)
    · rw [if_neg hpast]
      have hstart := Nat.le_of_not_lt hpast
      split_ifs with hmore
      · obtain ⟨hbegin', hlength⟩ := beginning_append
          (s := { s with pendingLen := s.pendingLen - bytes.length }) hbegin hslice hstart
          hmore.le time
        refine (ih hrest _ hbegin').cons ?_ ?_ ?_ rfl rfl rfl rfl rfl
        · rw [hlength]
          exact hmore.le
        · rw [hlength]
          exact fun position hlow hhigh => ⟨hstart.trans hlow, hhigh⟩
        · rw [hlength]
      · refine (ih hrest { s with pendingLen := s.pendingLen - bytes.length } hbegin).cons le_rfl
          ?_ (Nat.le_of_not_lt hmore) rfl rfl rfl rfl rfl
        exact fun position hlow hhigh => absurd hhigh (Nat.not_lt.mpr hlow)

theorem pieces_insert (htable : Pieces data table)
    (hslice : Slice data off bytes) :
    Pieces data (Intervals.insert off bytes table) where
  sorted := sorted_insert htable.sorted off bytes
  slices x hx := by
    rcases mem_insert.mp hx with rfl | ⟨hmem, _⟩
    · exact hslice
    · exact htable.slices x hmem

section Entry

variable {table : Table (List Byte)} {off : ℕ}

/-- The piece at an offset is the one that is looked up. -/
theorem lookup_eq_of_mem (hsorted : table.Pairwise fun x y => x.1 < y.1)
    (hmem : (off, bytes) ∈ table) : table.lookup off = some bytes := by
  induction table with
  | nil => cases hmem
  | cons x table ih =>
    obtain ⟨start, piece⟩ := x
    obtain ⟨hfirst, hrest⟩ := pairwise_cons.mp hsorted
    rcases mem_cons.mp hmem with heq | htail
    · obtain ⟨rfl, rfl⟩ := Prod.mk.inj heq
      exact lookup_cons_self
    · have hne : off ≠ start := (hfirst (off, bytes) htail).ne'
      rw [lookup_cons, beq_false_of_ne hne]
      exact ih hrest htail

theorem lookup_eq_none (hall : ∀ x ∈ table, off ≠ x.1) : table.lookup off = none := by
  rw [lookup_eq_none_iff]
  exact fun x hx => bne_iff_ne.mpr (hall x hx)

/-- The bytes below, at and above an offset. -/
theorem total_split (hsorted : table.Pairwise fun x y => x.1 < y.1) (off : ℕ) :
    total table = total (table.filter fun x => x.1 < off) + ((table.lookup off).getD []).length +
      total (table.filter fun x => off < x.1) := by
  induction table with
  | nil => rfl
  | cons x table ih =>
    obtain ⟨start, piece⟩ := x
    obtain ⟨hfirst, hrest⟩ := pairwise_cons.mp hsorted
    rw [total_cons, ih hrest]
    rcases Nat.lt_trichotomy start off with hlt | rfl | hgt
    · simp [hlt, hlt.not_gt, lookup_cons, beq_false_of_ne hlt.ne']
      omega
    · have hnone := lookup_eq_none fun x hx => (hfirst x hx).ne
      simp [hnone]
      omega
    · have hnone := lookup_eq_none fun x hx => (hgt.trans (hfirst x hx)).ne
      simp [hgt, hgt.not_gt, lookup_cons, beq_false_of_ne hgt.ne, hnone]
      omega

theorem total_append (left right : Table (List Byte)) :
    total (left ++ right) = total left + total right := by
  simp [total]

theorem total_insert (hsorted : table.Pairwise fun x y => x.1 < y.1)
    (hshort : ((table.lookup off).getD []).length < bytes.length) :
    total (Intervals.insert off bytes table) =
      total table + (bytes.length - ((table.lookup off).getD []).length) := by
  rw [Intervals.insert, total_append, total_cons, total_split hsorted off]
  dsimp only
  omega

theorem waits_insert (htable : Pieces data table)
    (hshort : ((table.lookup off).getD []).length < bytes.length) (position : ℕ) :
    Waits (Intervals.insert off bytes table) position ↔
      Waits table position ∨ off ≤ position ∧ position < off + bytes.length := by
  constructor
  · rintro ⟨x, hx, hin⟩
    rcases mem_insert.mp hx with rfl | ⟨hmem, _⟩
    · exact .inr hin
    · exact .inl ⟨x, hmem, hin⟩
  · rintro (⟨⟨start, piece⟩, hmem, hin⟩ | hin)
    · by_cases hstart : start = off
      · -- the piece with this offset was shorter
        subst hstart
        rw [lookup_eq_of_mem htable.sorted hmem] at hshort
        refine ⟨(start, bytes), mem_insert.mpr (.inl rfl), hin.1, ?_⟩
        exact hin.2.trans (Nat.add_lt_add_left hshort start)
      · exact ⟨(start, piece), mem_insert.mpr (.inr ⟨hmem, hstart⟩), hin⟩
    · exact ⟨(off, bytes), mem_insert.mpr (.inl rfl), hin⟩

end Entry

/-! ## What the stream has seen -/

/-- The stream after the pieces: a beginning of the data, all of it covered, and
past it the same positions covered by what waits. -/
structure SeenData (data : List Byte) (pieces : List (Piece data)) (s : Stream) : Prop where
  beginning : Beginning data s
  table : Pieces data s.pending
  above : ∀ x ∈ s.pending, s.bytes.length < x.1
  below : ∀ position < s.bytes.length, Covered pieces position
  beyond : ∀ position, s.bytes.length ≤ position →
    (Covered pieces position ↔ Waits s.pending position)
  pendingLen : s.pendingLen = total s.pending

/-- The stream and the end that it knows of. -/
structure Seen (data : List Byte) (isn : BitVec 32) (pieces : List (Piece data)) (s : Stream) :
    Prop extends SeenData data pieces s where
  isn : s.isn = some isn
  finAt : ∀ position, s.finAt = some position ↔
    position = data.length ∧ ∃ piece ∈ pieces, piece.fin = true
  fin : s.fin = true ↔ s.finAt = some s.bytes.length

section Pieces

variable {pieces : List (Piece data)} {piece : Piece data}

theorem covered_append {position : ℕ} :
    Covered (pieces ++ [piece]) position ↔
      Covered pieces position ∨ piece.off ≤ position ∧ position < piece.off + piece.len := by
  simp only [Covered, mem_append, mem_singleton]
  constructor
  · rintro ⟨other, hmem | rfl, hin⟩
    · exact .inl ⟨other, hmem, hin⟩
    · exact .inr hin
  · rintro (⟨other, hmem, hin⟩ | hin)
    · exact ⟨other, .inl hmem, hin⟩
    · exact ⟨piece, .inr rfl, hin⟩

/-- A piece that ends inside the beginning changes nothing. -/
theorem SeenData.inside (hseen : SeenData data pieces s)
    (hinside : piece.len = 0 ∨ piece.off + piece.len ≤ s.bytes.length) :
    SeenData data (pieces ++ [piece]) s where
  beginning := hseen.beginning
  table := hseen.table
  above := hseen.above
  below position hlt := covered_append.mpr (.inl (hseen.below position hlt))
  beyond position hle := by
    rw [covered_append, ← hseen.beyond position hle, or_iff_left]
    rintro ⟨hstart, hend⟩
    omega
  pendingLen := hseen.pendingLen

/-- A piece that continues the beginning, and the pieces that waited for it. -/
theorem SeenData.continue (hseen : SeenData data pieces s) (time : ℕ)
    (hstart : piece.off ≤ s.bytes.length) (hend : s.bytes.length < piece.off + piece.len) :
    SeenData data (pieces ++ [piece])
      ((s.append time (piece.bytes.drop (s.bytes.length - piece.off))).drain time) := by
  have hlen := piece.length_bytes
  obtain ⟨hbegin, hlength⟩ := beginning_append hseen.beginning piece.slice hstart
    (by rw [hlen]; exact hend.le) time
  rw [hlen] at hlength
  have hdrained := drained_drainLoop time s.pending hseen.table _ hbegin
  have hle := hdrained.le
  rw [hlength] at hle
  refine ⟨hdrained.beginning, hdrained.pieces, hdrained.above, ?_, ?_,
    hdrained.pendingLen hseen.pendingLen⟩
  · intro position hlt
    rw [covered_append]
    rcases Nat.lt_or_ge position s.bytes.length with hold | hnew
    · exact Or.inl (hseen.below position hold)
    rcases Nat.lt_or_ge position (piece.off + piece.len) with hpiece | hpast
    · exact Or.inr ⟨hstart.trans hnew, hpiece⟩
    · apply Or.inl
      rw [hseen.beyond position hnew]
      exact hdrained.taken position (hlength.le.trans hpast) hlt
  · intro position hpast
    have hnew : s.bytes.length ≤ position := (hend.le.trans hle).trans hpast
    rw [covered_append, hseen.beyond position hnew, or_iff_left]
    · constructor
      · rintro ⟨x, hx, hin⟩
        rcases hdrained.rest x hx with hmem | hdone
        · exact ⟨x, hmem, hin⟩
        · exact absurd hin.2 (Nat.not_lt.mpr (hdone.trans hpast))
      · rintro ⟨x, hx, hin⟩
        exact ⟨x, hdrained.left x hx, hin⟩
    · rintro ⟨_, hin⟩
      exact absurd hin (Nat.not_lt.mpr (hle.trans hpast))

/-- A piece past a hole, with room for it. -/
theorem SeenData.keep (hseen : SeenData data pieces s) (hpast : s.bytes.length < piece.off)
    (hroom : s.pendingLen + piece.len ≤ maxPending) :
    SeenData data (pieces ++ [piece]) (s.keep piece.off piece.bytes) := by
  have hlen := piece.length_bytes
  rw [Stream.keep, if_pos (by rw [hlen]; exact hroom)]
  split_ifs with hshort
  · refine ⟨hseen.beginning, pieces_insert hseen.table piece.slice, ?_, ?_, ?_, ?_⟩
    · intro x hx
      rcases mem_insert.mp hx with rfl | ⟨hmem, _⟩
      · exact hpast
      · exact hseen.above x hmem
    · exact fun position hlt => covered_append.mpr (.inl (hseen.below position hlt))
    · intro position hle
      rw [covered_append, waits_insert hseen.table hshort, hlen]
      exact or_congr_left (hseen.beyond position hle)
    · rw [total_insert hseen.table.sorted hshort, hseen.pendingLen]
      rfl
  · refine ⟨hseen.beginning, hseen.table, hseen.above, ?_, ?_, hseen.pendingLen⟩
    · exact fun position hlt => covered_append.mpr (.inl (hseen.below position hlt))
    · intro position hle
      rw [covered_append, ← hseen.beyond position hle, or_iff_left_of_imp]
      -- the piece that waits at this offset is at least as long
      rintro ⟨hstart, hend⟩
      rw [hseen.beyond position hle]
      cases hentry : s.pending.lookup piece.off with
      | none =>
        rw [Stream.entry, hentry, hlen] at hshort
        exact absurd hshort (by simp; omega)
      | some bytes =>
        rw [Stream.entry, hentry, hlen] at hshort
        obtain ⟨before, after, htable, _⟩ := lookup_eq_some_iff.mp hentry
        refine ⟨(piece.off, bytes), by simp [htable], hstart, ?_⟩
        exact hend.trans_le (Nat.add_le_add_left (Nat.le_of_not_lt hshort) piece.off)

/-- There is room for a piece that starts past a hole. -/
def Room (s : Stream) (piece : Piece data) : Prop :=
  piece.len ≠ 0 → s.bytes.length < piece.off → s.pendingLen + piece.len ≤ maxPending

instance (s : Stream) (piece : Piece data) : Decidable (Room s piece) :=
  inferInstanceAs (Decidable (_ → _))

theorem SeenData.place (hseen : SeenData data pieces s) (time : ℕ) (hroom : Room s piece) :
    SeenData data (pieces ++ [piece]) (s.place time piece.off piece.bytes) := by
  have hlen := piece.length_bytes
  rw [Stream.place]
  split
  · rename_i hdata
    have hpos : piece.len ≠ 0 := by
      rw [← hlen]
      exact (length_pos_of_ne_nil hdata.1).ne'
    have hend := hdata.2
    rw [hlen] at hend
    split
    · rename_i hstart
      exact hseen.continue time hstart hend
    · rename_i hstart
      have hpast := Nat.lt_of_not_le hstart
      exact hseen.keep hpast (hroom hpos hpast)
  · rename_i hdata
    apply hseen.inside
    by_contra hneither
    rw [not_or] at hneither
    refine hdata ⟨?_, ?_⟩
    · rw [ne_eq, ← length_eq_zero_iff, hlen]
      exact hneither.1
    · rw [hlen]
      exact Nat.lt_of_not_le hneither.2

/-- What `place` leaves alone. -/
theorem place_rest (time : ℕ) (s : Stream) (htable : Pieces data s.pending)
    (hbegin : Beginning data s) (piece : Piece data) :
    (s.place time piece.off piece.bytes).isn = s.isn ∧
    (s.place time piece.off piece.bytes).finAt = s.finAt ∧
    (s.place time piece.off piece.bytes).fin = s.fin := by
  rw [Stream.place]
  split
  · rename_i hdata
    split
    · rename_i hstart
      obtain ⟨hbegin', _⟩ := beginning_append hbegin piece.slice hstart hdata.2.le time
      have hdrained := drained_drainLoop time s.pending htable _ hbegin'
      exact ⟨hdrained.isn, hdrained.finAt, hdrained.fin⟩
    · rw [Stream.keep]
      split
      · split <;> exact ⟨rfl, rfl, rfl⟩
      · exact ⟨rfl, rfl, rfl⟩
  · exact ⟨rfl, rfl, rfl⟩

/-- The piece is less than half a turn away from the current position. -/
def Near (s : Stream) (piece : Piece data) : Prop :=
  s.bytes.length ≤ piece.off + 2 ^ 31 ∧ piece.off < s.bytes.length + 2 ^ 31

instance (s : Stream) (piece : Piece data) : Decidable (Near s piece) :=
  inferInstanceAs (Decidable (_ ∧ _))

theorem SeenData.not_covered (hseen : SeenData data pieces s) :
    ¬ Covered pieces s.bytes.length := by
  rw [hseen.beyond _ le_rfl]
  rintro ⟨x, hx, hstart, _⟩
  exact absurd hstart (Nat.not_le.mpr (hseen.above x hx))

/-- The end that a marked piece tells. -/
theorem finAt_append (hseen : Seen data isn pieces s) (piece : Piece data) (position : ℕ) :
    (if piece.fin = true then some (piece.off + piece.bytes.length) else s.finAt) =
      some position ↔
    position = data.length ∧ ∃ other ∈ pieces ++ [piece], other.fin = true := by
  cases hfin : piece.fin with
  | true =>
    rw [if_pos rfl, piece.length_bytes, piece.last hfin]
    constructor
    · intro heq
      exact ⟨(Option.some.inj heq).symm, piece, by simp, hfin⟩
    · rintro ⟨rfl, _⟩
      rfl
  | false =>
    rw [if_neg (by simp), hseen.finAt]
    simp [hfin]

/-- One more piece of the data. -/
theorem seen_segment (hseen : Seen data isn pieces s) (hnear : Near s piece)
    (hroom : Room s piece) :
    Seen data isn (pieces ++ [piece])
      (s.segment piece.time (piece.seq isn) piece.bytes piece.fin) := by
  rw [Stream.segment, Piece.seq, offset_eq hseen.isn hnear.1 hnear.2]
  have hsame : (if piece.fin = true then
      { s with finAt := some (piece.off + piece.bytes.length) } else s) =
      { s with finAt := if piece.fin = true then some (piece.off + piece.bytes.length)
        else s.finAt } := by
    split <;> rfl
  have hfinAt := finAt_append hseen piece
  dsimp only
  rw [hsame]
  generalize (if piece.fin = true then some (piece.off + piece.bytes.length)
    else s.finAt) = finAt at hfinAt ⊢
  have hdata : SeenData data pieces { s with finAt := finAt } :=
    ⟨hseen.beginning, hseen.table, hseen.above, hseen.below, hseen.beyond, hseen.pendingLen⟩
  obtain ⟨hisn, hend, hfin⟩ := place_rest piece.time _ hdata.table hdata.beginning piece
  have hplaced := hdata.place piece.time hroom
  generalize Stream.place { s with finAt := finAt } piece.time piece.off piece.bytes = t at *
  have hdone : t.fin = true → t.finAt = some t.bytes.length := by
    intro htrue
    rw [hfin, hseen.fin, hseen.finAt] at htrue
    rw [hend, hfinAt]
    refine ⟨?_, ?_⟩
    · -- the stream was complete, so it still is
      by_contra hne
      have hlt : t.bytes.length < s.bytes.length := by
        rw [htrue.1]
        exact lt_of_le_of_ne hplaced.beginning.2 hne
      exact hplaced.not_covered (covered_append.mpr (.inl (hseen.below _ hlt)))
    · obtain ⟨other, hmem, hother⟩ := htrue.2
      exact ⟨other, by simp [hmem], hother⟩
  split_ifs with hcomplete
  · refine ⟨⟨hplaced.beginning, hplaced.table, hplaced.above, hplaced.below, hplaced.beyond,
      hplaced.pendingLen⟩, hisn.trans hseen.isn, ?_, ?_⟩
    · exact fun position => hend ▸ hfinAt position
    · exact ⟨fun _ => hcomplete, fun _ => rfl⟩
  · refine ⟨hplaced, hisn.trans hseen.isn, fun position => hend ▸ hfinAt position, ?_⟩
    exact ⟨hdone, fun heq => absurd heq hcomplete⟩

theorem seen_start (data : List Byte) (isn : BitVec 32) :
    Seen data isn [] (Stream.default.start isn) := by
  refine ⟨⟨⟨rfl, Nat.zero_le _⟩, ⟨List.Pairwise.nil, by rintro _ ⟨⟩⟩, by rintro _ ⟨⟩,
    by rintro _ ⟨⟩, ?_, rfl⟩, rfl, ?_, ?_⟩
  · intro position _
    constructor
    · rintro ⟨piece, hmem, _⟩
      cases hmem
    · rintro ⟨x, hmem, _⟩
      cases hmem
  · intro position
    simp [Stream.start, Stream.default]
  · simp [Stream.start, Stream.default]

end Pieces

end Proofs

/-! ## Runs -/

/-- Every piece meets the condition when it comes. -/
def EachPiece {data : List Byte} (isn : BitVec 32) (condition : Stream → Piece data → Prop) :
    Stream → List (Piece data) → Prop :=
  Machine.EachStep (Machine.total fun s piece =>
    s.segment piece.time (piece.seq isn) piece.bytes piece.fin) condition

instance {data : List Byte} (isn : BitVec 32) (condition : Stream → Piece data → Prop)
    [∀ s piece, Decidable (condition s piece)] (s : Stream) (pieces : List (Piece data)) :
    Decidable (EachPiece isn condition s pieces) := by
  induction pieces generalizing s with
  | nil => exact .isTrue trivial
  | cons piece pieces ih =>
    exact @decidable_of_iff' _ _ Machine.eachStep_total_cons (@instDecidableAnd _ _ _ (ih _))

variable {data : List Byte}

theorem seen_receive {isn : BitVec 32} {s : Stream} (hseen : Seen data isn [] s)
    (pieces : List (Piece data)) (hnear : EachPiece isn Near s pieces)
    (hroom : EachPiece isn Room s pieces) : Seen data isn pieces (receive isn s pieces) := by
  have hboth := Machine.eachStep_and hnear hroom
  refine Machine.run_induction (fun s pieces => Seen data isn pieces s)
    (fun hseen hboth hstep => ?_) [] hseen hboth (Machine.run_total s pieces)
  cases hstep
  exact seen_segment hseen hboth.1 hboth.2

/-- After the pieces, as long as each is near and none is turned away, the bytes
are the longest beginning of the data without a gap, and the end is known when
its mark was seen and the bytes reach it. -/
theorem bytes_eq_longest_prefix {data : List Byte} (isn : BitVec 32) (pieces : List (Piece data))
    (hnear : EachPiece isn Near (Stream.default.start isn) pieces)
    (hroom : EachPiece isn Room (Stream.default.start isn) pieces) :
    let s := receive isn (Stream.default.start isn) pieces
    s.bytes = data.take s.bytes.length ∧ s.bytes.length ≤ data.length ∧
    (∀ position < s.bytes.length, Covered pieces position) ∧ ¬ Covered pieces s.bytes.length ∧
    (s.fin = true ↔ (∃ piece ∈ pieces, piece.fin = true) ∧ s.bytes.length = data.length) := by
  have hseen := seen_receive (seen_start data isn) pieces hnear hroom
  refine ⟨hseen.beginning.1, hseen.beginning.2, hseen.below, hseen.not_covered, ?_⟩
  rw [hseen.fin, hseen.finAt]
  exact and_comm

/-- The end comes first, and the second piece repeats a byte of the third. -/
def fourBytes : List (Piece [1, 2, 3, 4]) :=
  [⟨0, 2, 2, true, by decide, by decide⟩, ⟨1, 1, 1, false, by decide, by decide⟩,
    ⟨2, 0, 2, false, by decide, by decide⟩]

theorem bytes_eq_longest_prefix_fourBytes :
    (receive 0xFFFFFFFF (Stream.default.start 0xFFFFFFFF) fourBytes).bytes = [1, 2, 3, 4] ∧
    (receive 0xFFFFFFFF (Stream.default.start 0xFFFFFFFF) fourBytes).fin = true := by
  have hlongest := bytes_eq_longest_prefix 0xFFFFFFFF fourBytes (by decide +kernel)
    (by decide +kernel)
  have hlength : (receive 0xFFFFFFFF (Stream.default.start 0xFFFFFFFF) fourBytes).bytes.length =
      4 := by
    decide +kernel
  refine ⟨?_, hlongest.2.2.2.2.mpr ⟨⟨_, mem_cons_self .., rfl⟩, hlength⟩⟩
  rfl

/-! ## A waiting piece that is turned away -/

/-- A second piece that the table has no room for, as it counts the first one too. -/
theorem segment_of_full {isn : BitVec 32} {pieces : List (Piece data)} {s : Stream}
    (hseen : Seen data isn pieces s) {piece : Piece data} (hnear : Near s piece)
    (hfin : piece.fin = false) (hnone : s.finAt = none) (hpast : s.bytes.length < piece.off)
    (hpos : 0 < piece.len) (hfull : maxPending < s.pendingLen + piece.len) :
    s.segment piece.time (piece.seq isn) piece.bytes piece.fin =
      { s with missing := s.missing + piece.len } := by
  have hlen := piece.length_bytes
  have hplace : s.place piece.time piece.off piece.bytes =
      { s with missing := s.missing + piece.len } := by
    rw [Stream.place, if_pos, if_neg (Nat.not_le.mpr hpast), Stream.keep, hlen,
      if_neg (Nat.not_le.mpr hfull)]
    refine ⟨?_, by omega⟩
    rw [ne_eq, ← length_eq_zero_iff, hlen]
    exact hpos.ne'
  rw [Stream.segment, Piece.seq, offset_eq hseen.isn hnear.1 hnear.2]
  simp only [hfin, Bool.false_eq_true, if_false, hplace, hnone, reduceCtorEq]

/-- A piece past a hole, at an offset where none waits yet. -/
theorem segment_of_waiting {isn : BitVec 32} {pieces : List (Piece data)} {s : Stream}
    (hseen : Seen data isn pieces s) {piece : Piece data} (hnear : Near s piece)
    (hfin : piece.fin = false) (hnone : s.finAt = none) (hpast : s.bytes.length < piece.off)
    (hpos : 0 < piece.len) (hfits : s.pendingLen + piece.len ≤ maxPending)
    (hnew : ∀ x ∈ s.pending, piece.off ≠ x.1) :
    s.segment piece.time (piece.seq isn) piece.bytes piece.fin =
      { s with
        pendingLen := s.pendingLen + piece.len
        pending := Intervals.insert piece.off piece.bytes s.pending } := by
  have hlen := piece.length_bytes
  have hentry : (s.entry piece.off).length = 0 := by
    rw [Stream.entry, lookup_eq_none hnew]
    rfl
  have hplace : s.place piece.time piece.off piece.bytes =
      { s with
        pendingLen := s.pendingLen + piece.len
        pending := Intervals.insert piece.off piece.bytes s.pending } := by
    rw [Stream.place, if_pos, if_neg (Nat.not_le.mpr hpast), Stream.keep, hlen, if_pos hfits,
      hentry, if_pos hpos, Nat.sub_zero]
    refine ⟨?_, by omega⟩
    rw [ne_eq, ← length_eq_zero_iff, hlen]
    exact hpos.ne'
  rw [Stream.segment, Piece.seq, offset_eq hseen.isn hnear.1 hnear.2]
  simp only [hfin, Bool.false_eq_true, if_false, hplace, hnone, reduceCtorEq]

/-- A stream of 60280 bytes. -/
def someData : List Byte := List.replicate 60280 0

theorem length_someData : someData.length = 60280 := length_replicate

/-- One of 280 segments of 60000 bytes, each a byte further than the one before. -/
def shifted (k : ℕ) : Piece someData :=
  ⟨k, k % 280 + 1, 60000, false, by rw [length_someData]; omega, by simp⟩

/-- The first byte of the stream. -/
def firstByte : Piece someData := ⟨280, 0, 1, false, by rw [length_someData]; decide, by simp⟩

/-- The segments, and then the byte before them. -/
def overlapping : List (Piece someData) := (range 280).map shifted ++ [firstByte]

/-- The bytes of every segment count: `k` segments wait. -/
structure Counted (k : ℕ) (s : Stream) : Prop where
  seen : Seen someData 0 ((range k).map shifted) s
  empty : s.bytes.length = 0
  open' : s.finAt = none
  keys : ∀ x ∈ s.pending, x.1 ≤ k
  count : s.pendingLen = k * 60000

variable {s : Stream}

theorem Counted.near {k : ℕ} (hs : Counted k s) (piece : Piece someData) : Near s piece := by
  have hfits := piece.fits
  have hempty := hs.empty
  rw [length_someData] at hfits
  exact ⟨by omega, by omega⟩

theorem Counted.next {k : ℕ} (hs : Counted k s) (hk : k < 279) : Counted (k + 1)
    (s.segment (shifted k).time ((shifted k).seq 0) (shifted k).bytes (shifted k).fin) := by
  have hempty := hs.empty
  have hcount := hs.count
  have hmax : maxPending = 16777216 := by decide
  have hoff : (shifted k).off = k + 1 := congrArg (· + 1) (Nat.mod_eq_of_lt (by omega))
  have hlen : (shifted k).len = 60000 := rfl
  have hseen := seen_segment hs.seen (hs.near (shifted k)) fun _ _ => by omega
  have hsegment := segment_of_waiting hs.seen (hs.near (shifted k)) rfl hs.open' (by omega)
    (by omega) (by omega) fun x hx => by
      have hkey := hs.keys x hx
      omega
  rw [hsegment] at hseen ⊢
  refine ⟨?_, hempty, hs.open', fun x hx => ?_, ?_⟩
  · rw [range_succ, map_append]
    exact hseen
  · rcases mem_insert.mp hx with rfl | ⟨hmem, -⟩
    · exact hoff.le
    · exact (hs.keys x hmem).trans (Nat.le_succ k)
  · change s.pendingLen + (shifted k).len = _
    omega

theorem counted_receive {k : ℕ} (hk : k ≤ 279) :
    Counted k (receive 0 (Stream.default.start 0) ((range k).map shifted)) ∧
      EachPiece 0 Near (Stream.default.start 0) ((range k).map shifted) := by
  induction k with
  | zero =>
    exact ⟨⟨seen_start someData 0, rfl, rfl, by rintro _ ⟨⟩, rfl⟩, trivial⟩
  | succ k ih =>
    obtain ⟨hcounted, hnear⟩ := ih (by omega)
    rw [range_succ, map_append, receive, foldl_append]
    refine ⟨hcounted.next (by omega), Machine.eachStep_total_append.mpr ⟨hnear, ?_⟩⟩
    exact Machine.eachStep_total_cons.mpr ⟨hcounted.near _, trivial⟩

/-- All of the data comes in segments that a packet can hold, and it is much less than may wait,
but what overlaps counts again and again: the last segment is turned away and the stream stops
before its last byte. -/
theorem not_longest_prefix_overlapping :
    someData.length ≤ maxPending ∧ (∀ piece ∈ overlapping, piece.len ≤ 65495) ∧
    EachPiece 0 Near (Stream.default.start 0) overlapping ∧
    (∀ position < someData.length, Covered overlapping position) ∧
    (receive 0 (Stream.default.start 0) overlapping).bytes.length < someData.length := by
  have hlength := length_someData
  have hmax : maxPending = 16777216 := by decide
  obtain ⟨hcounted, hnear⟩ := counted_receive (le_refl 279)
  have hlist : overlapping = (range 279).map shifted ++ [shifted 279, firstByte] := by
    rw [overlapping, range_succ, map_append, append_assoc]
    rfl
  obtain ⟨s, hs⟩ : ∃ s, receive 0 (Stream.default.start 0) ((range 279).map shifted) = s :=
    ⟨_, rfl⟩
  rw [hs] at hcounted
  have hempty := hcounted.empty
  have hcount := hcounted.count
  -- the last of the segments is turned away
  have hfull := segment_of_full hcounted.seen (hcounted.near (shifted 279)) rfl hcounted.open'
    (show s.bytes.length < 280 by omega) (show 0 < 60000 by decide)
    (show maxPending < s.pendingLen + 60000 by omega)
  have hturned : Counted 279 { s with missing := s.missing + (shifted 279).len } := by
    obtain ⟨hseen, -, hopen, hkeys, -⟩ := hcounted
    exact ⟨⟨⟨hseen.beginning, hseen.table, hseen.above, hseen.below, hseen.beyond,
      hseen.pendingLen⟩, hseen.isn, hseen.finAt, hseen.fin⟩, hempty, hopen, hkeys, hcount⟩
  have hlast := seen_segment hturned.seen (hturned.near firstByte)
    fun _ hpast => absurd hpast (Nat.not_lt_zero _)
  rw [← hfull] at hlast hturned
  refine ⟨by omega, fun piece hmem => ?_, ?_, fun position hlt => ?_, ?_⟩
  · rcases mem_append.mp hmem with hshifted | hfirst
    · obtain ⟨k, -, rfl⟩ := mem_map.mp hshifted
      exact (by decide : 60000 ≤ 65495)
    · rw [mem_singleton.mp hfirst]
      decide
  · rw [hlist]
    refine Machine.eachStep_total_append.mpr ⟨hnear, ?_⟩
    rw [← receive, hs]
    exact Machine.eachStep_total_cons.mpr ⟨hcounted.near _,
      Machine.eachStep_total_cons.mpr ⟨hturned.near _, trivial⟩⟩
  · rcases Nat.eq_zero_or_pos position with rfl | hpos
    · exact ⟨firstByte, by simp [overlapping], le_rfl, Nat.one_pos⟩
    · by_cases hlow : position < 60000
      · exact ⟨shifted 0, mem_append_left _ (mem_map_of_mem (by simp)), hpos,
          show position < 1 + 60000 by omega⟩
      · exact ⟨shifted 279, mem_append_left _ (mem_map_of_mem (by simp)),
          show 280 ≤ position by omega, show position < 280 + 60000 by omega⟩
  · have hreceive : receive 0 (Stream.default.start 0) overlapping =
        receive 0 s [shifted 279, firstByte] := by
      rw [hlist, ← hs]
      exact foldl_append
    rw [hreceive, hlength]
    by_contra hover
    -- the last byte would be covered without the last segment
    obtain ⟨piece, hmem, -, hin⟩ := hlast.below 60279 (Nat.le_of_not_lt hover)
    rcases mem_append.mp hmem with hold | hnew
    · obtain ⟨k, hk, rfl⟩ := mem_map.mp hold
      have hk' := mem_range.mp hk
      have hoff : (shifted k).off = k + 1 := congrArg (· + 1) (Nat.mod_eq_of_lt (by omega))
      have hlen : (shifted k).len = 60000 := rfl
      omega
    · rw [mem_singleton.mp hnew] at hin
      exact absurd hin (by decide)

end Vetro.Flow
