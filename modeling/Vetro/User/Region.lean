import Vetro.Core.Bytes
import Vetro.Core.Splice
import Vetro.Core.Intervals

/-!
# Regions of user memory

`vetro-cpu/src/mem.rs`: the memory behind a mapping.  A private region has its
written pages only, counted from a base that need not be the start of a page; a
shared one is a part of a buffer that other mappings may show too.
-/

namespace Vetro.User

open Bytes Splice List Function

inductive Access where
  | read
  | write
  | fetch
  deriving Repr, DecidableEq

/-- Permissions of a region. -/
structure Perm where
  read : Bool
  write : Bool
  exec : Bool
  deriving Repr, DecidableEq

def Perm.allows (p : Perm) : Access → Bool
  | .read => p.read
  | .write => p.write
  | .fetch => p.exec

def page : ℕ := 4096

theorem page_pos : 0 < page := by decide

structure Page where
  bytes : List Byte
  length_bytes : bytes.length = page

namespace Page

def zero : Page := ⟨List.replicate page 0, length_replicate⟩

def write (p : Page) (offset : ℕ) (data : List Byte) (hfits : offset + data.length ≤ page) : Page :=
  ⟨writeAt p.bytes offset data, by rw [length_writeAt (p.length_bytes ▸ hfits), p.length_bytes]⟩

def get (p : Page) (offset : ℕ) : Byte := p.bytes.getD offset 0

theorem get_zero (offset : ℕ) : zero.get offset = 0 := by
  rw [get, zero, getD_eq_getElem?_getD, List.getElem?_replicate]
  split_ifs <;> rfl

theorem get_write (p : Page) {offset : ℕ} {data : List Byte} (hfits : offset + data.length ≤ page)
    (i : ℕ) : (p.write offset data hfits).get i =
      if offset ≤ i ∧ i < offset + data.length then data.getD (i - offset) 0 else p.get i := by
  rw [get, get, write, getD_eq_getElem?_getD, getD_eq_getElem?_getD,
    getD_eq_getElem?_getD, getElem?_writeAt (p.length_bytes ▸ hfits)]
  by_cases hbefore : i < offset
  · rw [if_pos hbefore, if_neg (by omega)]
  · by_cases hinside : i < offset + data.length
    · rw [if_neg hbefore, if_pos hinside, if_pos ⟨by omega, hinside⟩]
    · rw [if_neg hbefore, if_neg hinside, if_neg (by omega)]

end Page

/-! ## Lazy pages -/

/-- The pages that exist; the others read as zero. -/
abbrev Pages := ℕ → Option Page

namespace Pages

def byteAt (pages : Pages) (abs : ℕ) : Byte :=
  match pages (abs / page) with
  | some p => p.get (abs % page)
  | none => 0

/-- The pages of initial content; pages of zeros are not allocated. -/
def own (data : List Byte) : Pages := fun i =>
  let chunk := slice data (i * page) (i * page + page)
  if chunk.any (· ≠ 0) then
    some (Page.zero.write 0 chunk (by rw [length_slice]; omega))
  else none

/-- Reads page by page. -/
def read (pages : Pages) (abs len : ℕ) : List Byte :=
  if len = 0 then []
  else
    let n := min (page - abs % page) len
    (match pages (abs / page) with
      | some p => slice p.bytes (abs % page) (abs % page + n)
      | none => List.replicate n 0) ++ read pages (abs + n) (len - n)
termination_by len
decreasing_by
  have := Nat.mod_lt abs page_pos
  omega

/-- Writes page by page; a page that is not there yet starts as zeros. -/
def write (pages : Pages) (abs : ℕ) (data : List Byte) : Pages :=
  if data.length = 0 then pages
  else
    let n := min (page - abs % page) data.length
    let p := (pages (abs / page)).getD Page.zero
    write (update pages (abs / page)
      (some (p.write (abs % page) (data.take n) (by
        have := Nat.mod_lt abs page_pos
        rw [length_take]
        omega)))) (abs + n) (data.drop n)
termination_by data.length
decreasing_by
  have := Nat.mod_lt abs page_pos
  rw [length_drop]
  omega

/-- The pages before an address and from it on; a page with bytes of both stays in both. -/
def splitOff (pages : Pages) (abs : ℕ) : Pages × Pages :=
  let first := abs / page
  let tail : Pages := fun i => if first ≤ i then pages i else none
  let head : Pages := fun i => if i < first then pages i else none
  (if abs % page = 0 then head
    else
      match tail first with
      | some p => update head first (some p)
      | none => head, tail)

/-- The page and the offset of an address before the end of the page. -/
theorem add_of_lt {abs k : ℕ} (hk : k < page - abs % page) :
    (abs + k) / page = abs / page ∧ (abs + k) % page = abs % page + k := by
  rw [page] at *
  omega

theorem byteAt_add {pages : Pages} {abs k : ℕ} (hk : k < page - abs % page) :
    pages.byteAt (abs + k) =
      match pages (abs / page) with
      | some p => p.get (abs % page + k)
      | none => 0 := by
  rw [byteAt, (add_of_lt hk).1, (add_of_lt hk).2]

variable (pages : Pages)

/-- Reading gives the bytes one after the other. -/
theorem getElem?_read (abs len : ℕ) (k : ℕ) :
    (pages.read abs len)[k]? = if k < len then some (pages.byteAt (abs + k)) else none := by
  fun_induction Pages.read pages abs len generalizing k with
  | case1 => simp
  | case2 abs len hlen n ih =>
    have hchunk : ∀ j < n, (match pages (abs / page) with
        | some p => slice p.bytes (abs % page) (abs % page + n)
        | none => List.replicate n 0)[j]? = some (pages.byteAt (abs + j)) := by
      intro j hj
      rw [byteAt_add (by omega)]
      split
      · rename_i p _
        rw [getElem?_slice, if_pos (by omega), Page.get, getD_eq_getElem?_getD,
          List.getElem?_eq_getElem (by rw [p.length_bytes]; omega), Option.getD_some]
      · rw [List.getElem?_replicate, if_pos hj]
    have hlength : (match pages (abs / page) with
        | some p => slice p.bytes (abs % page) (abs % page + n)
        | none => List.replicate n 0).length = n := by
      split
      · rename_i p _
        rw [length_slice, p.length_bytes]
        omega
      · exact length_replicate
    rcases Nat.lt_or_ge k n with hk | hk
    · rw [List.getElem?_append_left (by omega), hchunk k hk, if_pos (by omega)]
    · rw [List.getElem?_append_right (by omega), hlength, ih, Nat.add_assoc, Nat.add_sub_cancel' hk]
      congr 1
      rw [eq_iff_iff]
      omega

theorem read_eq (abs len : ℕ) :
    pages.read abs len = (List.range len).map fun k => pages.byteAt (abs + k) := by
  apply ext_getElem?
  intro k
  rw [getElem?_read, List.getElem?_map]
  split_ifs with hk
  · rw [List.getElem?_range hk, Option.map_some]
  · rw [List.getElem?_eq_none (by rw [length_range]; omega), Option.map_none]

/-- A write within one page. -/
theorem byteAt_update {abs : ℕ} {data : List Byte} (hfits : abs % page + data.length ≤ page)
    (i : ℕ) :
    Pages.byteAt (update pages (abs / page)
        (some (((pages (abs / page)).getD Page.zero).write (abs % page) data hfits))) i =
      if abs ≤ i ∧ i < abs + data.length then data.getD (i - abs) 0 else pages.byteAt i := by
  have hi := Nat.div_add_mod i page
  have habs := Nat.div_add_mod abs page
  rw [byteAt, update_apply]
  split_ifs with hpage hin hin
  · rw [hpage] at hi
    dsimp only
    rw [Page.get_write, if_pos (by omega)]
    congr 1
    omega
  · rw [hpage] at hi
    dsimp only
    rw [Page.get_write, if_neg (by omega), byteAt, hpage]
    cases pages (abs / page) with
    | none => exact Page.get_zero _
    | some p => rfl
  · refine absurd ?_ hpage
    rw [page] at *
    omega
  · rfl

/-- Writing changes the bytes of the range. -/
theorem byteAt_write (abs : ℕ) (data : List Byte) (i : ℕ) : (pages.write abs data).byteAt i =
      if abs ≤ i ∧ i < abs + data.length then data.getD (i - abs) 0 else pages.byteAt i := by
  fun_induction Pages.write pages abs data with
  | case1 pages abs data hlen => rw [if_neg (by omega)]
  | case2 pages abs data hlen n p ih =>
    have hn : n ≤ data.length := Nat.min_le_right _ _
    rw [ih, byteAt_update, length_drop, length_take, Nat.min_eq_left hn]
    rcases Nat.lt_or_ge i (abs + n) with hfirst | hrest
    · rw [if_neg (by omega)]
      by_cases hin : abs ≤ i
      · rw [if_pos ⟨hin, hfirst⟩, if_pos ⟨hin, by omega⟩, getD_eq_getElem?_getD,
          List.getElem?_take_of_lt (by omega), getD_eq_getElem?_getD]
      · rw [if_neg (by omega), if_neg (by omega)]
    · by_cases hin : i < abs + data.length
      · rw [if_pos (by omega), if_pos ⟨by omega, hin⟩, getD_eq_getElem?_getD,
          List.getElem?_drop, getD_eq_getElem?_getD]
        congr 2
        omega
      · rw [if_neg (by omega), if_neg (by omega), if_neg (by omega)]

theorem byteAt_own (data : List Byte) (i : ℕ) : (own data).byteAt i = data.getD i 0 := by
  have hi := Nat.div_add_mod' i page
  have hmod := Nat.mod_lt i page_pos
  have hchunk : (slice data (i / page * page) (i / page * page + page)).getD (i % page) 0 =
      data.getD i 0 := by
    rw [getD_eq_getElem?_getD, getElem?_slice, if_pos (by omega), hi, getD_eq_getElem?_getD]
  rw [byteAt, own]
  split_ifs with hany
  · dsimp only
    rw [Page.get_write, Nat.sub_zero, hchunk]
    split_ifs with hin
    · rfl
    · rw [Page.get_zero, ← hchunk, getD_eq_getElem?_getD, List.getElem?_eq_none (by omega),
        Option.getD_none]
  · have hzero : ∀ b ∈ slice data (i / page * page) (i / page * page + page), b = 0 := by
      simpa [any_eq_true] using hany
    rw [← hchunk, getD_eq_getElem?_getD]
    cases hget : (slice data (i / page * page) (i / page * page + page))[i % page]? with
    | none => rfl
    | some b => exact (hzero b (mem_of_getElem? hget)).symm

theorem byteAt_splitOff_head {abs i : ℕ} (hi : i < abs) :
    (pages.splitOff abs).1.byteAt i = pages.byteAt i := by
  have hle : i / page ≤ abs / page := Nat.div_le_div_right hi.le
  have hslot : (pages.splitOff abs).1 (i / page) = pages (i / page) := by
    rw [splitOff]
    rcases Nat.lt_or_eq_of_le hle with hlt | heq
    · by_cases hmixed : abs % page = 0
      · simp [hmixed, hlt]
      · cases hpage : pages (abs / page) <;> simp [hmixed, hpage, hlt, hlt.ne]
    · have hmixed : ¬abs % page = 0 := by
        rw [page] at *
        omega
      cases hpage : pages (abs / page) <;> simp [hmixed, hpage, heq]
  rw [byteAt, byteAt, hslot]

theorem byteAt_splitOff_tail {abs i : ℕ} (hi : abs ≤ i) :
    (pages.splitOff abs).2.byteAt i = pages.byteAt i := by
  rw [byteAt, byteAt, splitOff]
  dsimp only
  rw [if_pos (Nat.div_le_div_right hi)]

end Pages

/-! ## Regions -/

/-- Shared buffers. -/
abbrev Buffers := ℕ → List Byte

/-- Memory behind a region. -/
inductive Backing where
  /-- Private and lazy: only written pages exist. -/
  | pages (pages : Pages) (base : ℕ)
  /-- Part of a shared buffer, from `base` on. -/
  | shared (buffer base : ℕ)

structure Region where
  backing : Backing
  len : ℕ
  perm : Perm

/-- What a byte of memory is: a value of its own, or a place in a shared buffer. -/
inductive Cell where
  | own (value : Byte)
  | shared (buffer index : ℕ)
  deriving Repr, DecidableEq

namespace Cell

/-- What a shared buffer does not have reads as zero. -/
def value (buffers : Buffers) : Cell → Byte
  | .own value => value
  | .shared buffer index => (buffers buffer).getD index 0

/-- In a page that starts beyond the end of the buffer. -/
def pastEnd (buffers : Buffers) : Cell → Bool
  | .own _ => false
  | .shared buffer index => (buffers buffer).length ≤ index / page * page

end Cell

namespace Region

/-- Private region with initial content. -/
def own (data : List Byte) (perm : Perm) : Region := ⟨.pages (Pages.own data) 0, data.length, perm⟩

/-- All-zero private region. -/
def zeroed (len : ℕ) (perm : Perm) : Region := ⟨.pages (fun _ => none) 0, len, perm⟩

def read (r : Region) (buffers : Buffers) (off len : ℕ) : List Byte :=
  match r.backing with
  | .pages pages base => pages.read (base + off) len
  | .shared buffer base => (List.range len).map fun k => (buffers buffer).getD (base + off + k) 0

/-- A shared buffer that is too short grows. -/
def write (r : Region) (buffers : Buffers) (off : ℕ) (data : List Byte) : Region × Buffers :=
  match r.backing with
  | .pages pages base =>
    ({ r with backing := .pages (pages.write (base + off) data) base }, buffers)
  | .shared buffer base =>
    (r, update buffers buffer (writeGrow 0 (buffers buffer) (base + off) data))

/-- Byte `off` is in a page that starts beyond the end of the shared buffer. -/
def pastEnd (r : Region) (buffers : Buffers) (off : ℕ) : Bool :=
  match r.backing with
  | .shared buffer base => (buffers buffer).length ≤ (base + off) / page * page
  | .pages _ _ => false

/-- The first `k` bytes and the rest. -/
def splitOff (r : Region) (k : ℕ) : Region × Region :=
  match r.backing with
  | .pages pages base =>
    let split := pages.splitOff (base + k)
    ({ r with backing := .pages split.1 base, len := k },
      { r with backing := .pages split.2 (base + k), len := r.len - k })
  | .shared buffer base =>
    ({ r with len := k }, { r with backing := .shared buffer (base + k), len := r.len - k })

/-- A byte of the region. -/
def cell (r : Region) (off : ℕ) : Cell :=
  match r.backing with
  | .pages pages base => .own (pages.byteAt (base + off))
  | .shared buffer base => .shared buffer (base + off)

/-- What a byte of the region shows. -/
def shown (r : Region) (off : ℕ) : Cell × Perm := (r.cell off, r.perm)

theorem cell_own (data : List Byte) (perm : Perm) (off : ℕ) :
    (own data perm).cell off = .own (data.getD off 0) := by
  have hcell : (own data perm).cell off = .own ((Pages.own data).byteAt (0 + off)) := rfl
  rw [hcell, Nat.zero_add, Pages.byteAt_own]

variable (r : Region)

variable (buffers : Buffers)

theorem read_eq (off len : ℕ) :
    r.read buffers off len = (List.range len).map fun k => (r.cell (off + k)).value buffers := by
  obtain ⟨backing, rlen, perm⟩ := r
  cases backing with
  | pages pages base =>
    simp only [read, cell, Pages.read_eq, Nat.add_assoc]
    rfl
  | shared buffer base =>
    simp only [read, cell, Nat.add_assoc]
    rfl

theorem pastEnd_eq (off : ℕ) : r.pastEnd buffers off = (r.cell off).pastEnd buffers := by
  obtain ⟨backing, rlen, perm⟩ := r
  cases backing <;> rfl

/-- The end of the buffer is passed once. -/
theorem pastEnd_mono {r : Region} {buffers : Buffers} {off : ℕ} (off' : ℕ) (hle : off ≤ off')
    (hpast : r.pastEnd buffers off = true) : r.pastEnd buffers off' = true := by
  obtain ⟨backing, rlen, perm⟩ := r
  cases backing with
  | pages pages base => cases hpast
  | shared buffer base =>
    have hend : (buffers buffer).length ≤ (base + off) / page * page := of_decide_eq_true hpast
    refine decide_eq_true (hend.trans ?_)
    exact Nat.mul_le_mul_right _ (Nat.div_le_div_right (by omega))

/-- The pieces of a region have its bytes. -/
theorem splits : Intervals.Splits len shown splitOff := by
  refine ⟨fun r k _ => ?_, fun r k _ => ?_, fun {r k off} hoff => ?_, fun r k off => ?_⟩ <;>
    obtain ⟨backing | ⟨buffer, base⟩, rlen, perm⟩ := r
  · rfl
  · rfl
  · rfl
  · rfl
  · simp only [splitOff, shown, cell, Pages.byteAt_splitOff_head _ (Nat.add_lt_add_left hoff _)]
  · rfl
  · simp only [splitOff, shown, cell, Nat.add_assoc]
    rw [Pages.byteAt_splitOff_tail _ (by omega)]
  · simp only [splitOff, shown, cell, Nat.add_assoc]

/-! ## Writing byte by byte -/

theorem write_len (off : ℕ) (data : List Byte) :
    (r.write buffers off data).1.len = r.len ∧ (r.write buffers off data).1.perm = r.perm := by
  obtain ⟨⟨pages, base⟩ | ⟨buffer, base⟩, rlen, perm⟩ := r <;> exact ⟨rfl, rfl⟩

/-- A write is the write of its first byte and then of the others. -/
theorem write_cons (off : ℕ) (byte : Byte) (data : List Byte) (i : ℕ) :
    let first := r.write buffers off [byte]
    let rest := first.1.write first.2 (off + 1) data
    (r.write buffers off (byte :: data)).1.cell i = rest.1.cell i ∧
      (r.write buffers off (byte :: data)).2 = rest.2 := by
  obtain ⟨⟨pages, base⟩ | ⟨buffer, base⟩, rlen, perm⟩ := r
  · refine ⟨?_, rfl⟩
    simp only [write, cell, Pages.byteAt_write, length_cons, length_nil, Nat.zero_add]
    congr 1
    rcases Nat.lt_trichotomy (base + i) (base + off) with hlt | heq | hgt
    · rw [if_neg (by omega), if_neg (by omega), if_neg (by omega)]
    · rw [if_pos (by omega), if_neg (by omega), if_pos (by omega), heq, Nat.sub_self]
      rfl
    · by_cases hin : base + i < base + off + (data.length + 1)
      · obtain ⟨k, hk⟩ := Nat.exists_eq_add_of_lt hgt
        rw [if_pos (by omega), if_pos (by omega), hk, show base + off + k + 1 - (base + off) = k + 1
          by omega, show base + off + k + 1 - (base + (off + 1)) = k by omega]
        rfl
      · rw [if_neg (by omega), if_neg (by omega), if_neg (by omega)]
  · refine ⟨rfl, ?_⟩
    simp only [write, update_self, update_idem]
    rw [writeGrow_cons, Nat.add_assoc]

end Region

end Vetro.User
