import Vetro.Core.Bytes
import Vetro.Core.Outcome
import Vetro.Core.Splice

/-!
# Copy-on-write disk

`vetro-platform/src/virtio/blk.rs`: written clusters in memory over a base that
is only read, and that may not have its data yet.  A request that fails in the
middle has written some of its clusters; repeated until it succeeds, it does
what it does to a flat disk.
-/

namespace Vetro.Blk

open Bytes Outcome Splice List Function

def sectorSize : ℕ := 512

inductive BlockError where
  | io
  | outOfRange
  | readOnly
  | notReady
  deriving Repr, DecidableEq

/-- Byte range of `len` bytes from a sector, if it fits. -/
def byteRange (size sector len : ℕ) : Except BlockError (ℕ × ℕ) :=
  if 2 ^ 64 ≤ sector * sectorSize then .error .outOfRange
  else if 2 ^ 64 ≤ sector * sectorSize + len then .error .outOfRange
  else if size < sector * sectorSize + len || len % sectorSize ≠ 0 then .error .outOfRange
  else .ok (sector * sectorSize, sector * sectorSize + len)

/-- Backend that is only read: its data, and which of its reads find them there. -/
structure Base where
  data : List Byte
  whole : data.length % sectorSize = 0
  small : data.length < 2 ^ 64
  ready : ℕ → Bool
  /-- Reads so far. -/
  asked : ℕ

namespace Base

def size (b : Base) : ℕ := b.data.length

def readSectors (b : Base) (sector len : ℕ) : Except BlockError (List Byte) × Base :=
  (match byteRange b.size sector len with
    | .error e => .error e
    | .ok (start, stop) =>
      if b.ready b.asked then .ok (slice b.data start stop) else .error .notReady,
    { b with asked := b.asked + 1 })

end Base

/-- Copy-on-write layer over a base. -/
structure Cow where
  base : Base
  clusters : ℕ → Option (List Byte)
  /-- Clusters written since they were last taken. -/
  dirty : Finset ℕ

namespace Cow

def cluster : ℕ := 4096

theorem cluster_pos : 0 < cluster := by decide

def new (base : Base) : Cow := ⟨base, fun _ => none, ∅⟩

def size (s : Cow) : ℕ := s.base.size

/-- The clusters written since the last call, in order. -/
def takeDirty (s : Cow) : List ℕ × Cow := (s.dirty.sort (· ≤ ·), { s with dirty := ∅ })

/-- Size of a cluster; the last one may be shorter. -/
def clusterLen (s : Cow) (c : ℕ) : ℕ := min (s.base.size - c * cluster) cluster

variable {S : Type}

/-- Every piece of `[pos, pos + len)`, split by cluster, from `done` on. -/
def pieces (f : S → ℕ → ℕ → ℕ → ℕ → Result BlockError Unit × S) (pos len done : ℕ) (s : S) :
    Result BlockError Unit × S :=
  if done < len then
    let position := pos + done
    let n := min (cluster - position % cluster) (len - done)
    let step := f s (position / cluster) (position % cluster) done (done + n)
    match step.1 with
    | .error e => (.error e, step.2)
    | .ok () => pieces f pos len (done + n) step.2
  else (.ok (), s)
termination_by len - done
decreasing_by
  have := Nat.mod_lt (pos + done) cluster_pos
  omega

/-- A piece of a read, into the buffer. -/
def readPiece (s : Cow × List Byte) (c off start stop : ℕ) :
    Result BlockError Unit × (Cow × List Byte) :=
  match s.1.clusters c with
  | some data =>
    if off + (stop - start) ≤ data.length then
      (.ok (), s.1, writeAt s.2 start (slice data off (off + (stop - start))))
    else (panic, s)
  | none =>
    let position := c * cluster + off
    let read := s.1.base.readSectors (position / sectorSize) (stop - start)
    match read.1 with
    | .ok bytes => (.ok (), { s.1 with base := read.2 }, writeAt s.2 start bytes)
    | .error e => (fail e, { s.1 with base := read.2 }, s.2)

/-- Reads into a buffer. -/
def readSectors (s : Cow) (sector : ℕ) (buf : List Byte) :
    Result BlockError Unit × (Cow × List Byte) :=
  match byteRange s.size sector buf.length with
  | .error e => (fail e, s, buf)
  | .ok (start, _) => pieces readPiece start buf.length 0 (s, buf)

/-- The cluster, copied from the base if the write does not replace all of it. -/
def freshCluster (s : Cow) (c n : ℕ) : Except BlockError Unit × Cow :=
  match s.clusters c with
  | some _ => (.ok (), s)
  | none =>
    if n < s.clusterLen c then
      let read := s.base.readSectors (c * cluster / sectorSize) (s.clusterLen c)
      match read.1 with
      | .error e => (.error e, { s with base := read.2 })
      | .ok bytes =>
        (.ok (), { s with base := read.2, clusters := update s.clusters c (some bytes) })
    else
      (.ok (), { s with
        clusters := update s.clusters c (some (List.replicate (s.clusterLen c) 0)) })

/-- A piece of a write. -/
def writePiece (data : List Byte) (s : Cow) (c off start stop : ℕ) : Result BlockError Unit × Cow :=
  let fresh := s.freshCluster c (stop - start)
  match fresh.1 with
  | .error e => (fail e, fresh.2)
  | .ok () =>
    match fresh.2.clusters c with
    | none => (panic, fresh.2)
    | some bytes =>
      if off + (stop - start) ≤ bytes.length then
        (.ok (), { fresh.2 with
          clusters := update fresh.2.clusters c
            (some (writeAt bytes off (slice data start stop)))
          dirty := insert c fresh.2.dirty })
      else (panic, fresh.2)

def writeSectors (s : Cow) (sector : ℕ) (data : List Byte) : Result BlockError Unit × Cow :=
  match byteRange s.size sector data.length with
  | .error e => (fail e, s)
  | .ok (start, _) => pieces (writePiece data) start data.length 0 s

/-! ## What the disk shows -/

/-- A byte of the disk. -/
def get (s : Cow) (p : ℕ) : Byte :=
  match s.clusters (p / cluster) with
  | some bytes => bytes.getD (p % cluster) 0
  | none => s.base.data.getD p 0

/-- The disk as a byte array. -/
def flat (s : Cow) : List Byte := (List.range s.size).map s.get

/-- The written clusters are those of the disk. -/
def Good (s : Cow) : Prop := ∀ c bytes, s.clusters c = some bytes → bytes.length = s.clusterLen c

/-- The length of a piece. -/
def pieceLen (pos len done : ℕ) : ℕ := min (cluster - (pos + done) % cluster) (len - done)

variable {done : ℕ}

theorem pieceLen_pos (pos : ℕ) {len : ℕ} (hdone : done < len) : 0 < pieceLen pos len done := by
  have := Nat.mod_lt (pos + done) cluster_pos
  rw [pieceLen]
  omega

/-- The loop over the pieces: what holds before a piece and after it, and what holds if a
piece fails. -/
theorem pieces_spec (f : S → ℕ → ℕ → ℕ → ℕ → Result BlockError Unit × S) (pos len : ℕ)
    (inv : ℕ → S → Prop) (failed : S → Prop)
    (hstep : ∀ done s, done < len → inv done s →
      let stop := done + pieceLen pos len done
      let step := f s ((pos + done) / cluster) ((pos + done) % cluster) done stop
      (∃ s', step = (.ok (), s') ∧ inv stop s') ∨ ∃ s', step = (fail .notReady, s') ∧ failed s')
    (hdone : done ≤ len) {s : S} (hs : inv done s) :
    (∃ s', pieces f pos len done s = (.ok (), s') ∧ inv len s') ∨
      ∃ s', pieces f pos len done s = (fail .notReady, s') ∧ failed s' := by
  fun_induction pieces f pos len done s with
  | case1 done s hlt position n step e herror =>
    rcases hstep done s hlt hs with ⟨s', heq, -⟩ | ⟨s', heq, hfailed⟩
    · cases herror.symm.trans (congrArg Prod.fst heq)
    · exact .inr ⟨s', Prod.ext (herror.symm.trans (congrArg Prod.fst heq))
        (show step.2 = s' from congrArg Prod.snd heq), hfailed⟩
  | case2 done s hlt position n step hok ih =>
    rcases hstep done s hlt hs with ⟨s', heq, hinv⟩ | ⟨s', heq, -⟩
    · apply ih
      · have hn : n ≤ len - done := Nat.min_le_right _ _
        omega
      · exact (congrArg Prod.snd heq) ▸ hinv
    · cases hok.symm.trans (congrArg Prod.fst heq)
  | case3 done s hge =>
    rw [Nat.le_antisymm hdone (Nat.not_lt.mp hge)] at hs
    exact .inl ⟨s, rfl, hs⟩

/-- A piece stays in its cluster. -/
theorem piece_bounds (pos : ℕ) {len : ℕ} (hdone : done < len) :
    (pos + done) % cluster + pieceLen pos len done ≤ cluster ∧
      done + pieceLen pos len done ≤ len ∧
      (pos + done) / cluster * cluster + (pos + done) % cluster = pos + done := by
  have := Nat.mod_lt (pos + done) cluster_pos
  have hdiv := Nat.div_add_mod' (pos + done) cluster
  rw [pieceLen]
  omega

/-! ## The base -/

theorem byteRange_eq_ok {size sector len : ℕ} {range : ℕ × ℕ} :
    byteRange size sector len = .ok range ↔
      sector * sectorSize + len < 2 ^ 64 ∧ sector * sectorSize + len ≤ size ∧
        len % sectorSize = 0 ∧ range = (sector * sectorSize, sector * sectorSize + len) := by
  rw [byteRange]
  split_ifs with hstart hstop hbad
  · simp only [false_iff]
    omega
  · simp only [false_iff]
    omega
  · simp only [Bool.or_eq_true, decide_eq_true_eq] at hbad
    simp only [false_iff]
    omega
  · simp only [Bool.or_eq_true, decide_eq_true_eq] at hbad
    constructor
    · intro heq
      exact ⟨by omega, by omega, by omega, (Except.ok.inj heq).symm⟩
    · rintro ⟨-, -, -, rfl⟩
      rfl

theorem byteRange_eq_error {size sector len : ℕ} {e : BlockError}
    (herror : byteRange size sector len = .error e) : e = .outOfRange := by
  rw [byteRange] at herror
  split_ifs at herror <;> cases herror <;> rfl

/-- Reads of whole sectors give the data, or are not ready. -/
theorem readSectors_base (b : Base) {position len : ℕ} (haligned : position % sectorSize = 0)
    (hlen : len % sectorSize = 0) (hend : position + len ≤ b.size) :
    b.readSectors (position / sectorSize) len =
      (if b.ready b.asked then .ok (slice b.data position (position + len)) else .error .notReady,
        { b with asked := b.asked + 1 }) := by
  have hsmall := b.small
  have hposition : position / sectorSize * sectorSize = position :=
    Nat.div_mul_cancel (Nat.dvd_of_mod_eq_zero haligned)
  have hrange : byteRange b.size (position / sectorSize) len = .ok (position, position + len) := by
    rw [byteRange_eq_ok, hposition]
    rw [Base.size] at hend
    exact ⟨by omega, hend, hlen, rfl⟩
  rw [Base.readSectors, hrange]

/-- The same base, after some reads. -/
structure BaseLater (b b' : Base) : Prop where
  data : b'.data = b.data
  ready : b'.ready = b.ready
  asked : b.asked ≤ b'.asked

namespace BaseLater

variable {b b' b'' : Base}

theorem refl (b : Base) : BaseLater b b := ⟨rfl, rfl, le_refl _⟩

theorem trans (hfirst : BaseLater b b') (hsecond : BaseLater b' b'') : BaseLater b b'' :=
  ⟨hsecond.data.trans hfirst.data, hsecond.ready.trans hfirst.ready,
    hfirst.asked.trans hsecond.asked⟩

theorem size (hlater : BaseLater b b') : b'.size = b.size := congrArg List.length hlater.data

end BaseLater

/-- The same disk; only the base has been read. -/
structure Unchanged (s s' : Cow) : Prop where
  base : BaseLater s.base s'.base
  clusters : s'.clusters = s.clusters
  dirty : s'.dirty = s.dirty

variable {s : Cow} {s' : Cow}

theorem Unchanged.get (hsame : Unchanged s s') (p : ℕ) : s'.get p = s.get p := by
  rw [Cow.get, Cow.get, hsame.clusters, hsame.base.data]

theorem Unchanged.good (hsame : Unchanged s s') (hs : Good s) : Good s' := by
  intro c bytes hbytes
  rw [hsame.clusters] at hbytes
  rw [clusterLen, hsame.base.size]
  exact hs c bytes hbytes

/-- Sectors of one cluster that are on the disk. -/
structure Piece (s : Cow) (c off n : ℕ) : Prop where
  fits : off + n ≤ cluster
  inside : c * cluster + off + n ≤ s.size
  pos : 0 < n
  aligned : off % sectorSize = 0
  whole : n % sectorSize = 0

theorem Piece.le_clusterLen {c off n : ℕ} (hpiece : Piece s c off n) :
    off + n ≤ s.clusterLen c := by
  have hfits := hpiece.fits
  have hinside : c * cluster + off + n ≤ s.base.size := hpiece.inside
  rw [clusterLen]
  omega

theorem aligned_cluster (c off : ℕ) : (c * cluster + off) % sectorSize = off % sectorSize := by
  rw [show cluster = 8 * sectorSize from rfl, ← Nat.mul_assoc, Nat.mul_add_mod']

theorem clusterLen_whole (s : Cow) (c : ℕ) : s.clusterLen c % sectorSize = 0 := by
  have hwhole := s.base.whole
  rw [clusterLen, Base.size, cluster]
  rw [sectorSize] at *
  omega

/-- The bytes of a cluster. -/
theorem get_cluster (s : Cow) {c i : ℕ} (hi : i < cluster) :
    s.get (c * cluster + i) =
      match s.clusters c with
      | some bytes => bytes.getD i 0
      | none => s.base.data.getD (c * cluster + i) 0 := by
  have hdiv : (c * cluster + i) / cluster = c := by
    rw [Nat.mul_comm, Nat.mul_add_div cluster_pos, Nat.div_eq_of_lt hi, Nat.add_zero]
  have hmod : (c * cluster + i) % cluster = i := by
    rw [Nat.mul_comm, Nat.mul_add_mod, Nat.mod_eq_of_lt hi]
  rw [Cow.get, hdiv, hmod]

/-- A cluster that is there to be written: all that the write does not replace is what it
was. -/
theorem freshCluster_spec (hs : Good s) {c off n : ℕ} (hpiece : Piece s c off n) :
    (∃ s', s.freshCluster c n = (.error .notReady, s') ∧ Unchanged s s' ∧
        s.base.ready s.base.asked = false) ∨
      ∃ s' bytes, s.freshCluster c n = (.ok (), s') ∧ BaseLater s.base s'.base ∧
        s'.dirty = s.dirty ∧ s'.clusters = update s.clusters c (some bytes) ∧
        bytes.length = s.clusterLen c ∧
        ∀ i < s.clusterLen c, i < off ∨ off + n ≤ i →
          bytes.getD i 0 = s.get (c * cluster + i) := by
  have hle := hpiece.le_clusterLen
  have hlen : s.clusterLen c ≤ cluster := Nat.min_le_right _ _
  rw [freshCluster]
  cases hcluster : s.clusters c with
  | some bytes =>
    refine .inr ⟨s, bytes, rfl, .refl _, rfl, ?_, hs c bytes hcluster, fun i hi _ => ?_⟩
    · rw [← hcluster, update_eq_self]
    · rw [get_cluster s (hi.trans_le hlen), hcluster]
  | none =>
    split_ifs with hshort
    · have hend : c * cluster + s.clusterLen c ≤ s.base.size := by
        have hinside : c * cluster + off + n ≤ s.base.size := hpiece.inside
        rw [clusterLen]
        omega
      have haligned : c * cluster % sectorSize = 0 := by
        rw [← Nat.add_zero (c * cluster), aligned_cluster, Nat.zero_mod]
      rw [readSectors_base s.base haligned (s.clusterLen_whole c) hend]
      split_ifs with hready
      · refine .inr ⟨_, _, rfl, ⟨rfl, rfl, Nat.le_succ _⟩, rfl, rfl, ?_, fun i hi _ => ?_⟩
        · rw [length_slice_of_le hend, Nat.add_sub_cancel_left]
        · rw [get_cluster s (hi.trans_le hlen), hcluster, getD_eq_getElem?_getD,
            getElem?_slice, if_pos (by omega), getD_eq_getElem?_getD]
      · exact .inl ⟨_, rfl, ⟨⟨rfl, rfl, Nat.le_succ _⟩, rfl, rfl⟩, by simpa using hready⟩
    · refine .inr ⟨_, _, rfl, .refl _, rfl, rfl, length_replicate, fun i hi hout => ?_⟩
      omega

/-- What a write has done so far: the first `done` bytes are on the disk, the clusters that
changed are dirty. -/
structure Written (s : Cow) (start : ℕ) (data : List Byte) (done : ℕ) (s' : Cow) : Prop where
  good : Good s'
  base : BaseLater s.base s'.base
  get : ∀ p < s.size, s'.get p =
    if start ≤ p ∧ p < start + done then data.getD (p - start) 0 else s.get p
  kept : s.dirty ⊆ s'.dirty
  dirty : ∀ p < s.size, s'.get p ≠ s.get p → p / cluster ∈ s'.dirty

theorem Written.start (hs : Good s) (start : ℕ) (data : List Byte) : Written s start data 0 s := by
  refine ⟨hs, .refl _, fun p _ => ?_, Finset.Subset.refl _, fun p _ hne => absurd rfl hne⟩
  rw [if_neg (by omega)]

variable {data : List Byte} {start : ℕ}

theorem Written.unchanged {s' s'' : Cow} (hs : Written s start data done s')
    (hsame : Unchanged s' s'') : Written s start data done s'' := by
  refine ⟨hsame.good hs.good, hs.base.trans hsame.base, fun p hp => ?_, ?_, fun p hp hne => ?_⟩
  · rw [hsame.get]
    exact hs.get p hp
  · rw [hsame.dirty]
    exact hs.kept
  · rw [hsame.get] at hne
    rw [hsame.dirty]
    exact hs.dirty p hp hne

variable {c off : ℕ}

/-- Bytes written in a cluster. -/
theorem get_update {bytes chunk : List Byte}
    (hbase : s'.base.data = s.base.data)
    (hclusters : s'.clusters = update s.clusters c (some (writeAt bytes off chunk)))
    (hfits : off + chunk.length ≤ bytes.length) (hbytes : bytes.length = s.clusterLen c)
    (hold : ∀ i < s.clusterLen c, i < off ∨ off + chunk.length ≤ i →
      bytes.getD i 0 = s.get (c * cluster + i)) {p : ℕ} (hp : p < s.size) :
    s'.get p =
      if c * cluster + off ≤ p ∧ p < c * cluster + off + chunk.length then
        chunk.getD (p - (c * cluster + off)) 0
      else s.get p := by
  have hdiv := Nat.div_add_mod' p cluster
  have hmod := Nat.mod_lt p cluster_pos
  have hlen : s.clusterLen c ≤ cluster := Nat.min_le_right _ _
  by_cases hc : p / cluster = c
  · rw [hc] at hdiv
    have hsize : p < s.base.size := hp
    have hi : p % cluster < s.clusterLen c := by
      rw [clusterLen]
      omega
    have hget : s'.get p = (writeAt bytes off chunk).getD (p % cluster) 0 := by
      rw [← hdiv, get_cluster s' hmod, hclusters, update_self, hdiv]
    rw [hget, getD_eq_getElem?_getD, getElem?_writeAt hfits]
    split_ifs with hbefore hinside hrange hrange
    · omega
    · rw [← getD_eq_getElem?_getD, hold _ hi (.inl hbefore), hdiv]
    · rw [← getD_eq_getElem?_getD]
      congr 1
      omega
    · omega
    · omega
    · rw [← getD_eq_getElem?_getD, hold _ hi (.inr (by omega)), hdiv]
  · rw [if_neg, Cow.get, Cow.get, hclusters, update_of_ne hc, hbase]
    rintro ⟨hlow, hhigh⟩
    have hin : p - c * cluster < cluster := by omega
    refine hc ?_
    rw [show p = c * cluster + (p - c * cluster) by omega, Nat.mul_comm,
      Nat.mul_add_div cluster_pos, Nat.div_eq_of_lt (by rwa [Nat.mul_comm]), Nat.add_zero]

/-- One piece more. -/
theorem writePiece_spec {n : ℕ} (hs : Written s start data done s')
    (hposition : c * cluster + off = start + done) (hpiece : Piece s' c off n)
    (hdata : done + n ≤ data.length) :
    (∃ s'', writePiece data s' c off done (done + n) = (.ok (), s'') ∧
        Written s start data (done + n) s'') ∨
      ∃ s'', writePiece data s' c off done (done + n) = (fail .notReady, s'') ∧
        Written s start data done s'' ∧ s'.base.ready s'.base.asked = false := by
  have hle := hpiece.le_clusterLen
  have hlen : s'.clusterLen c ≤ cluster := Nat.min_le_right _ _
  rw [writePiece, Nat.add_sub_cancel_left]
  rcases freshCluster_spec hs.good hpiece with
    ⟨fresh, heq, hsame, hready⟩ | ⟨fresh, bytes, heq, hbase, hdirty, hclusters, hbytes, hold⟩
  · rw [heq]
    exact .inr ⟨fresh, rfl, hs.unchanged hsame, hready⟩
  · have hfound : fresh.clusters c = some bytes := by rw [hclusters, update_self]
    have hchunk : (slice data done (done + n)).length = n := by
      rw [length_slice_of_le hdata, Nat.add_sub_cancel_left]
    have hfits : off + (slice data done (done + n)).length ≤ bytes.length := by
      rw [hchunk, hbytes]
      exact hle
    rw [heq]
    rw [hfound]
    dsimp only
    rw [if_pos (hbytes ▸ hle)]
    generalize hafter : ({ fresh with
      clusters := update fresh.clusters c
        (some (writeAt bytes off (slice data done (done + n))))
      dirty := insert c fresh.dirty } : Cow) = after
    have hdata' : after.base.data = s'.base.data := hafter ▸ hbase.data
    have hclusters' : after.clusters = update s'.clusters c
        (some (writeAt bytes off (slice data done (done + n)))) := by
      rw [← hafter, hclusters, update_idem]
    have hdirty' : after.dirty = insert c s'.dirty := by rw [← hafter, ← hdirty]
    have hsize : s'.size = s.size := hs.base.size
    have hget : ∀ p < s.size, after.get p =
        if start + done ≤ p ∧ p < start + done + n then data.getD (p - start) 0
        else s'.get p := by
      intro p hp
      have hwritten := get_update hdata' hclusters' hfits hbytes (hchunk.symm ▸ hold) (hsize ▸ hp)
      rw [hchunk, hposition] at hwritten
      rw [hwritten]
      split_ifs with hrange
      · rw [getD_eq_getElem?_getD, getElem?_slice, if_pos (by omega), getD_eq_getElem?_getD]
        congr 2
        omega
      · rfl
    refine .inl ⟨after, rfl, ?_, ?_, fun p hp => ?_, ?_, fun p hp hne => ?_⟩
    · intro c' bytes' hbytes'
      have hlen' : after.clusterLen c' = s'.clusterLen c' := by
        rw [clusterLen, clusterLen, Base.size, Base.size, hdata']
      rw [hclusters', update_apply] at hbytes'
      rw [hlen']
      split_ifs at hbytes' with hc
      · cases hbytes'
        rw [length_writeAt hfits, hbytes, hc]
      · exact hs.good c' bytes' hbytes'
    · refine hs.base.trans ?_
      rw [← hafter]
      exact hbase
    · rw [hget p hp, hs.get p hp]
      split_ifs <;> first | rfl | omega
    · rw [hdirty']
      exact hs.kept.trans (Finset.subset_insert _ _)
    · rw [hdirty', Finset.mem_insert]
      rw [hget p hp] at hne
      split_ifs at hne with hrange
      · left
        rw [show p = c * cluster + (p - c * cluster) by omega, Nat.mul_comm,
          Nat.mul_add_div cluster_pos, Nat.div_eq_of_lt (by rw [Nat.mul_comm]; omega), Nat.add_zero]
      · exact .inr (hs.dirty p hp hne)

/-- Pieces of whole sectors are whole sectors. -/
theorem piece_aligned {pos len : ℕ} (hdone : done < len) (hend : pos + len ≤ s.size)
    (hpos : pos % sectorSize = 0) (hlen : len % sectorSize = 0) (hsofar : done % sectorSize = 0) :
    Piece s ((pos + done) / cluster) ((pos + done) % cluster) (pieceLen pos len done) ∧
      (done + pieceLen pos len done) % sectorSize = 0 := by
  obtain ⟨hfits, hle, hposition⟩ := piece_bounds pos hdone
  have hn := pieceLen_pos pos hdone
  have haligned : (pos + done) % cluster % sectorSize = 0 ∧
      pieceLen pos len done % sectorSize = 0 := by
    rw [pieceLen, cluster, sectorSize] at *
    omega
  refine ⟨⟨hfits, by omega, hn, haligned.1, haligned.2⟩, ?_⟩
  rw [sectorSize] at *
  omega

/-- A write: all of it, or some of it because the base is not ready. -/
theorem writeSectors_spec (hs : Good s) {sector stop : ℕ}
    (hrange : byteRange s.size sector data.length = .ok (start, stop)) :
    (∃ s', s.writeSectors sector data = (.ok (), s') ∧ Written s start data data.length s') ∨
      ∃ s' done, s.writeSectors sector data = (fail .notReady, s') ∧
        Written s start data done s' ∧ done ≤ data.length ∧
        ∃ n, s.base.asked ≤ n ∧ s.base.ready n = false := by
  obtain ⟨-, hend, hlen, hpair⟩ := byteRange_eq_ok.mp hrange
  cases hpair
  have hstart : sector * sectorSize % sectorSize = 0 := Nat.mul_mod_left _ _
  rw [writeSectors, hrange]
  rcases pieces_spec (writePiece data) (sector * sectorSize) data.length
    (fun done s' => Written s (sector * sectorSize) data done s' ∧ done % sectorSize = 0)
    (fun s' => ∃ done, Written s (sector * sectorSize) data done s' ∧
      done ≤ data.length ∧ ∃ n, s.base.asked ≤ n ∧ s.base.ready n = false)
    (fun done s' hdone hinv => by
      obtain ⟨hpiece, haligned⟩ := piece_aligned (s := s') hdone
        (hend.trans_eq hinv.1.base.size.symm) hstart hlen hinv.2
      obtain ⟨-, hle, hposition⟩ := piece_bounds (sector * sectorSize) hdone
      rcases writePiece_spec hinv.1 hposition hpiece hle with
        ⟨after, heq, hafter⟩ | ⟨after, heq, hafter, hready⟩
      · exact .inl ⟨after, heq, hafter, haligned⟩
      · rw [hinv.1.base.ready] at hready
        exact .inr ⟨after, heq, done, hafter, hdone.le, _, hinv.1.base.asked, hready⟩)
    (Nat.zero_le _) ⟨Written.start hs _ _, rfl⟩ with
    ⟨s', heq, hwritten, -⟩ | ⟨s', heq, done, hwritten⟩
  · exact .inl ⟨s', heq, hwritten⟩
  · exact .inr ⟨s', done, heq, hwritten⟩

/-- What a read has done so far. -/
structure ReadSoFar (s : Cow) (start len done : ℕ) (s' : Cow × List Byte) : Prop where
  same : Unchanged s s'.1
  length : s'.2.length = len
  bytes : ∀ i < done, s'.2[i]? = some (s.get (start + i))

theorem readPiece_spec (hs : Good s) {len n : ℕ} {s' : Cow × List Byte}
    (hsofar : ReadSoFar s start len done s')
    (hposition : c * cluster + off = start + done) (hpiece : Piece s c off n)
    (hlen : done + n ≤ len) : (∃ s'', readPiece s' c off done (done + n) = (.ok (), s'') ∧
        ReadSoFar s start len (done + n) s'') ∨
      ∃ s'', readPiece s' c off done (done + n) = (fail .notReady, s'') ∧ Unchanged s s''.1 ∧
        ∃ k, s.base.asked ≤ k ∧ s.base.ready k = false := by
  have hle := hpiece.le_clusterLen
  have hfits := hpiece.fits
  -- a chunk that is what the disk has there
  have hchunk : ∀ (after : Cow) (chunk : List Byte), Unchanged s after → chunk.length = n →
      (∀ i < n, chunk[i]? = some (s.get (c * cluster + (off + i)))) →
      ReadSoFar s start len (done + n) (after, writeAt s'.2 done chunk) := by
    intro after chunk hafter hlength hbytes
    have hroom : done + chunk.length ≤ s'.2.length := by
      rw [hlength, hsofar.length]
      exact hlen
    refine ⟨hafter, ?_, fun i hi => ?_⟩
    · rw [length_writeAt hroom]
      exact hsofar.length
    · rw [getElem?_writeAt hroom]
      split_ifs with hbefore hinside
      · exact hsofar.bytes i hbefore
      · rw [hbytes (i - done) (by omega), ← Nat.add_assoc, hposition, Nat.add_assoc,
          Nat.add_sub_cancel' (by omega)]
      · omega
  rw [readPiece, Nat.add_sub_cancel_left, hsofar.same.clusters]
  cases hcluster : s.clusters c with
  | some bytes =>
    have hbytes := hs c bytes hcluster
    dsimp only
    rw [if_pos (by omega)]
    refine .inl ⟨_, rfl, hchunk _ _ hsofar.same ?_ fun i hi => ?_⟩
    · rw [length_slice_of_le (by omega), Nat.add_sub_cancel_left]
    · have hin : off + i < bytes.length := by omega
      rw [getElem?_slice, if_pos (by omega), get_cluster s (by omega), hcluster]
      dsimp only
      rw [getD_eq_getElem?_getD, List.getElem?_eq_getElem hin, Option.getD_some]
  | none =>
    have hbase := hsofar.same.base
    have hinside : c * cluster + off + n ≤ s.base.size := hpiece.inside
    dsimp only
    rw [readSectors_base s'.1.base (by rw [aligned_cluster]; exact hpiece.aligned) hpiece.whole
      (hinside.trans_eq hbase.size.symm)]
    have hread : Unchanged s
        { s'.1 with base := { s'.1.base with asked := s'.1.base.asked + 1 } } :=
      ⟨⟨hbase.data, hbase.ready, hbase.asked.trans (Nat.le_succ _)⟩, hsofar.same.clusters,
        hsofar.same.dirty⟩
    split_ifs with hready
    · refine .inl ⟨_, rfl, hchunk _ _ hread ?_ fun i hi => ?_⟩
      · rw [hbase.data, length_slice_of_le hinside, Nat.add_sub_cancel_left]
      · have hin : c * cluster + off + i < s.base.data.length := by
          rw [Base.size] at hinside
          omega
        rw [hbase.data, getElem?_slice, if_pos (by omega), get_cluster s (by omega), hcluster]
        rw [getD_eq_getElem?_getD, ← Nat.add_assoc, List.getElem?_eq_getElem hin, Option.getD_some]
    · rw [hbase.ready, Bool.not_eq_true] at hready
      exact .inr ⟨_, rfl, hread, _, hbase.asked, hready⟩

/-- A read: the bytes of the disk, or nothing because the base is not ready. -/
theorem readSectors_spec (hs : Good s) {sector stop : ℕ} {buf : List Byte}
    (hrange : byteRange s.size sector buf.length = .ok (start, stop)) :
    (∃ s' bytes, s.readSectors sector buf = (.ok (), s', bytes) ∧ Unchanged s s' ∧
        bytes = slice s.flat start stop) ∨
      ∃ s' bytes, s.readSectors sector buf = (fail .notReady, s', bytes) ∧ Unchanged s s' ∧
        ∃ n, s.base.asked ≤ n ∧ s.base.ready n = false := by
  obtain ⟨-, hend, hlen, hpair⟩ := byteRange_eq_ok.mp hrange
  cases hpair
  have hstart : sector * sectorSize % sectorSize = 0 := Nat.mul_mod_left _ _
  rw [readSectors, hrange]
  rcases pieces_spec readPiece (sector * sectorSize) buf.length
    (fun done s' => ReadSoFar s (sector * sectorSize) buf.length done s' ∧ done % sectorSize = 0)
    (fun s' => Unchanged s s'.1 ∧ ∃ n, s.base.asked ≤ n ∧ s.base.ready n = false)
    (fun done s' hdone hinv => by
      obtain ⟨hpiece, haligned⟩ := piece_aligned hdone hend hstart hlen hinv.2
      obtain ⟨-, hle, hposition⟩ := piece_bounds (sector * sectorSize) hdone
      rcases readPiece_spec hs hinv.1 hposition hpiece hle with ⟨after, heq, hafter⟩ | hfailed
      · exact .inl ⟨after, heq, hafter, haligned⟩
      · exact .inr hfailed)
    (Nat.zero_le _) (s := (s, buf)) ⟨⟨⟨.refl _, rfl, rfl⟩, rfl, by simp⟩, rfl⟩ with
    ⟨s', heq, hread, -⟩ | ⟨s', heq, hfailed⟩
  · refine .inl ⟨s'.1, s'.2, heq, hread.same, ext_getElem? fun i => ?_⟩
    rw [getElem?_slice, flat, Nat.add_sub_cancel_left]
    split_ifs with hi
    · rw [hread.bytes i hi, List.getElem?_map, List.getElem?_range (by omega), Option.map_some]
    · rw [List.getElem?_eq_none]
      rw [hread.length]
      omega
  · exact .inr ⟨s'.1, s'.2, heq, hfailed⟩

end Cow

end Vetro.Blk
