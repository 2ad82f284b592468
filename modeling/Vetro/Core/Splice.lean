import Mathlib.Tactic

/-!
# Reading and overwriting ranges of a list

`slice` is the range `list[start..stop]`; `writeAt` overwrites a range in
place.  A buffer that is patched, a file with positioned writes and a memory
copy are all instances of the two.
-/

namespace Vetro.Splice

open List

variable {A : Type*}

/-- The range `list[start..stop]`, cut at the end of the list. -/
def slice (list : List A) (start stop : ℕ) : List A :=
  (list.drop start).take (stop - start)

/-- `list` with the values from position `start` on replaced by `values`. -/
def writeAt (list : List A) (start : ℕ) (values : List A) : List A :=
  list.take start ++ values ++ list.drop (start + values.length)

variable (list : List A)

theorem length_slice (start stop : ℕ) :
    (slice list start stop).length = min (stop - start) (list.length - start) := by
  simp [slice]

variable {start : ℕ} {list : List A} {stop : ℕ}

theorem length_slice_of_le (hstop : stop ≤ list.length) :
    (slice list start stop).length = stop - start := by
  rw [length_slice]
  omega

theorem getElem?_slice (start stop index : ℕ) : (slice list start stop)[index]? =
      if index < stop - start then list[start + index]? else none := by
  rw [slice, List.getElem?_take, List.getElem?_drop]

@[simp]
theorem slice_self (start : ℕ) : slice list start start = [] := by
  simp [slice]

theorem slice_zero (stop : ℕ) : slice list 0 stop = list.take stop := by
  simp [slice]

theorem slice_append_slice {middle stop : ℕ} (hstart : start ≤ middle) (hmiddle : middle ≤ stop) :
    slice list start middle ++ slice list middle stop = slice list start stop := by
  have hdrop : list.drop middle = (list.drop start).drop (middle - start) := by
    rw [drop_drop]
    congr 1
    omega
  have hsum : stop - start = (middle - start) + (stop - middle) := by omega
  rw [slice, slice, slice, hdrop, hsum, take_add]

theorem take_append_slice (hstart : start ≤ stop) :
    list.take start ++ slice list start stop = list.take stop := by
  exact slice_append_slice (Nat.zero_le start) hstart

theorem slice_append_of_le {left right : List A} (hstop : stop ≤ left.length) :
    slice (left ++ right) start stop = slice left start stop := by
  apply ext_getElem?
  intro index
  rw [getElem?_slice, getElem?_slice]
  split
  · rw [List.getElem?_append_left (by omega)]
  · rfl

theorem slice_append_right (left right : List A) (start stop : ℕ) :
    slice (left ++ right) (left.length + start) (left.length + stop) =
      slice right start stop := by
  rw [slice, slice, drop_length_add_append, Nat.add_sub_add_left]

/-- Reading exactly one part of a concatenation. -/
theorem slice_middle (left middle right : List A) :
    slice (left ++ middle ++ right) left.length (left.length + middle.length) =
      middle := by
  rw [append_assoc, slice, drop_left, Nat.add_sub_cancel_left, take_left]

variable {values : List A}

theorem length_writeAt (hfits : start + values.length ≤ list.length) :
    (writeAt list start values).length = list.length := by
  simp only [writeAt, length_append, length_take, length_drop]
  omega

theorem getElem?_writeAt (hfits : start + values.length ≤ list.length) (index : ℕ) :
    (writeAt list start values)[index]? =
      if index < start then list[index]?
      else if index < start + values.length then values[index - start]?
      else list[index]? := by
  have hstart : (list.take start).length = start := by
    rw [length_take]
    omega
  rw [writeAt]
  split_ifs with hbefore hinside
  · rw [append_assoc, List.getElem?_append_left (by omega), List.getElem?_take_of_lt hbefore]
  · rw [append_assoc, List.getElem?_append_right (by omega), hstart,
      List.getElem?_append_left (by omega)]
  · rw [List.getElem?_append_right (by rw [length_append]; omega),
      List.getElem?_drop, length_append, hstart]
    congr 1
    omega

@[simp]
theorem writeAt_nil (start : ℕ) : writeAt list start [] = list := by
  simp [writeAt]

/-- Reading back what was just written. -/
theorem slice_writeAt_same (hfits : start + values.length ≤ list.length) :
    slice (writeAt list start values) start (start + values.length) = values := by
  apply ext_getElem?
  intro index
  rw [getElem?_slice, getElem?_writeAt hfits]
  split_ifs with hinside hbefore hrange
  · omega
  · rw [Nat.add_sub_cancel_left]
  · omega
  · rw [List.getElem?_eq_none (by omega)]

variable {low high : ℕ}

/-- A write leaves the ranges before it alone. -/
theorem slice_writeAt_before (hfits : start + values.length ≤ list.length)
    (hhigh : high ≤ start) : slice (writeAt list start values) low high = slice list low high := by
  apply ext_getElem?
  intro index
  rw [getElem?_slice, getElem?_slice]
  split_ifs with hinside
  · rw [getElem?_writeAt hfits, if_pos (by omega)]
  · rfl

/-- A write leaves the ranges after it alone. -/
theorem slice_writeAt_after (hfits : start + values.length ≤ list.length)
    (hlow : start + values.length ≤ low) :
    slice (writeAt list start values) low high = slice list low high := by
  apply ext_getElem?
  intro index
  rw [getElem?_slice, getElem?_slice]
  split_ifs with hinside
  · rw [getElem?_writeAt hfits, if_neg (by omega), if_neg (by omega)]
  · rfl

theorem take_writeAt {count : ℕ} (hfits : start + values.length ≤ list.length)
    (hcount : count ≤ start) : (writeAt list start values).take count = list.take count := by
  rw [← slice_zero, ← slice_zero]
  exact slice_writeAt_before hfits hcount

theorem writeAt_append_left {left right : List A} (hfits : start + values.length ≤ left.length) :
    writeAt (left ++ right) start values = writeAt left start values ++ right := by
  rw [writeAt, writeAt, take_append_of_le_length (by omega), drop_append_of_le_length hfits]
  simp only [append_assoc]

theorem writeAt_append_right (left right values : List A) (start : ℕ) :
    writeAt (left ++ right) (left.length + start) values =
      left ++ writeAt right start values := by
  rw [writeAt, writeAt, take_length_add_append, Nat.add_assoc, drop_length_add_append]
  simp only [append_assoc]

/-- Overwriting exactly one part of a concatenation. -/
theorem writeAt_middle (left middle right values : List A)
    (hlength : values.length = middle.length) :
    writeAt (left ++ middle ++ right) left.length values =
      left ++ values ++ right := by
  have hwhole : writeAt middle 0 values = values := by
    rw [writeAt, Nat.zero_add, hlength, drop_length]
    simp
  rw [writeAt_append_left (by rw [length_append]; omega)]
  have hright := writeAt_append_right left middle values 0
  rw [Nat.add_zero] at hright
  rw [hright, hwhole]

/-! ## Writing past the end -/

/-- `list` with the values from position `start` on replaced by `values`, after
it has grown with `fill` up to the end of the write. -/
def writeGrow (fill : A) (list : List A) (start : ℕ) (values : List A) : List A :=
  writeAt (list ++ List.replicate (start + values.length - list.length) fill) start values

theorem length_writeGrow (fill : A) (list : List A) (start : ℕ) (values : List A) :
    (writeGrow fill list start values).length = max list.length (start + values.length) := by
  rw [writeGrow, length_writeAt (by simp only [length_append, length_replicate]; omega),
    length_append, length_replicate]
  omega

theorem slice_writeGrow_same (fill : A) (list : List A) (start : ℕ) (values : List A) :
    slice (writeGrow fill list start values) start (start + values.length) = values := by
  apply slice_writeAt_same
  rw [length_append, length_replicate]
  omega

theorem slice_writeGrow_before {fill : A} (hhigh : high ≤ start)
    (hlist : high ≤ list.length) :
    slice (writeGrow fill list start values) low high = slice list low high := by
  rw [writeGrow, slice_writeAt_before _ hhigh, slice_append_of_le hlist]
  rw [length_append, length_replicate]
  omega

theorem slice_writeGrow_after {fill : A} (hlow : start + values.length ≤ low) :
    slice (writeGrow fill list start values) low high = slice list low high := by
  rw [writeGrow, slice_writeAt_after _ hlow]
  · apply ext_getElem?
    intro index
    rw [getElem?_slice, getElem?_slice]
    split_ifs with hinside
    · by_cases hlist : low + index < list.length
      · rw [List.getElem?_append_left hlist]
      · rw [List.getElem?_eq_none (by simp only [length_append, length_replicate]; omega),
          List.getElem?_eq_none (by omega)]
    · rfl
  · rw [length_append, length_replicate]
    omega

theorem getElem?_writeGrow (fill : A) (list : List A) (start : ℕ) (values : List A) (index : ℕ) :
    (writeGrow fill list start values)[index]? =
      if index < start then some (list.getD index fill)
      else if index < start + values.length then values[index - start]?
      else list[index]? := by
  rw [writeGrow, getElem?_writeAt (by rw [length_append, length_replicate]; omega)]
  by_cases hlist : index < list.length
  · rw [List.getElem?_append_left hlist, getD_eq_getElem?_getD,
      List.getElem?_eq_getElem hlist, Option.getD_some]
  · rw [List.getElem?_append_right (by omega), List.getElem?_replicate,
      getD_eq_getElem?_getD, List.getElem?_eq_none (l := list) (by omega), Option.getD_none]
    split_ifs <;> first | rfl | omega

/-- A write is the write of its first value and then of the others. -/
theorem writeGrow_cons (fill : A) (list : List A) (start : ℕ) (value : A) (values : List A) :
    writeGrow fill list start (value :: values) =
      writeGrow fill (writeGrow fill list start [value]) (start + 1) values := by
  apply ext_getElem?
  intro index
  have hfirst := getElem?_writeGrow fill list start [value] index
  rw [getElem?_writeGrow, getElem?_writeGrow, getD_eq_getElem?_getD (l := writeGrow _ _ _ _),
    hfirst]
  simp only [length_cons, length_nil, Nat.zero_add]
  rcases Nat.lt_trichotomy index start with hlt | heq | hgt
  · rw [if_pos hlt, if_pos (by omega), if_pos hlt, Option.getD_some]
  · subst heq
    rw [if_neg (lt_irrefl _), if_pos (by omega), if_pos (by omega), if_neg (lt_irrefl _),
      if_pos (by omega), Nat.sub_self]
    rfl
  · by_cases hin : index < start + (values.length + 1)
    · obtain ⟨k, rfl⟩ := Nat.exists_eq_add_of_lt hgt
      rw [if_neg (by omega), if_pos hin, if_neg (by omega), if_pos (by omega), Nat.add_assoc,
        Nat.add_sub_cancel_left, List.getElem?_cons_succ]
      congr 1
      omega
    · rw [if_neg (by omega), if_neg hin, if_neg (by omega), if_neg (by omega), if_neg (by omega),
        if_neg (by omega)]

/-! ## Fixed-size chunks -/

/-- The whole chunks of `size` values from the start of the list, and what is
left over. -/
def asChunks (size : ℕ) (list : List A) : List (List A) × List A :=
  ((List.range (list.length / size)).map fun index =>
      slice list (size * index) (size * index + size),
    list.drop (size * (list.length / size)))

variable {size : ℕ}

theorem asChunks_of_lt (hshort : list.length < size) : asChunks size list = ([], list) := by
  simp [asChunks, Nat.div_eq_of_lt hshort]

theorem asChunks_append {chunk : List A} (hsize : 0 < size) (hchunk : chunk.length = size)
    (list : List A) :
    asChunks size (chunk ++ list) =
      (chunk :: (asChunks size list).1, (asChunks size list).2) := by
  have hcount : (chunk ++ list).length / size = list.length / size + 1 := by
    rw [length_append, hchunk, Nat.add_comm, Nat.add_div_right _ hsize]
  have hfirst : slice (chunk ++ list) (size * 0) (size * 0 + size) = chunk := by
    rw [Nat.mul_zero, Nat.zero_add, slice_zero, ← hchunk, take_left]
  have hlater : ∀ index, slice (chunk ++ list) (size * (index + 1))
      (size * (index + 1) + size) =
        slice list (size * index) (size * index + size) := by
    intro index
    have hlow : size * (index + 1) = chunk.length + size * index := by
      rw [hchunk]
      ring
    rw [hlow, Nat.add_assoc, slice_append_right]
  have hrest : (chunk ++ list).drop (size * (list.length / size + 1)) =
      list.drop (size * (list.length / size)) := by
    have hlow : size * (list.length / size + 1) =
        chunk.length + size * (list.length / size) := by
      rw [hchunk]
      ring
    rw [hlow, drop_length_add_append]
  rw [asChunks, asChunks, hcount, range_succ_eq_map, map_cons, map_map, hfirst, hrest]
  simp only [Function.comp_def, Nat.succ_eq_add_one, hlater]

/-- What is left over is shorter than a chunk. -/
theorem length_asChunks_rest (hsize : 0 < size) (list : List A) :
    (asChunks size list).2.length < size := by
  rw [asChunks, length_drop]
  have hdivision := Nat.div_add_mod list.length size
  have hremainder := Nat.mod_lt list.length hsize
  omega

/-- Chunks followed by more data: the new data starts after what was left
over. -/
theorem asChunks_append_rest (hsize : 0 < size) (left right : List A) :
    asChunks size (left ++ right) =
      ((asChunks size left).1 ++ (asChunks size ((asChunks size left).2 ++ right)).1,
        (asChunks size ((asChunks size left).2 ++ right)).2) := by
  induction hlength : left.length using Nat.strong_induction_on generalizing left with
  | _ length ih =>
    by_cases hshort : left.length < size
    · simp [asChunks_of_lt hshort]
    · have htake : (left.take size).length = size := by
        rw [length_take]
        omega
      have hsplit : left = left.take size ++ left.drop size := (take_append_drop size left).symm
      have hdrop : (left.drop size).length < length := by
        rw [length_drop]
        omega
      have hstep := ih _ hdrop (left.drop size) rfl
      rw [hsplit, append_assoc, asChunks_append hsize htake, hstep, asChunks_append hsize htake]
      simp

/-- The chunks and what is left over are the list. -/
theorem flatten_asChunks (hsize : 0 < size) (list : List A) :
    (asChunks size list).1.flatten ++ (asChunks size list).2 = list := by
  induction hlength : list.length using Nat.strong_induction_on generalizing list with
  | _ length ih =>
    by_cases hshort : list.length < size
    · simp [asChunks_of_lt hshort]
    · have htake : (list.take size).length = size := by
        rw [length_take]
        omega
      have hdrop : (list.drop size).length < length := by
        rw [length_drop]
        omega
      conv_lhs => rw [← take_append_drop size list]
      rw [asChunks_append hsize htake, flatten_cons, append_assoc,
        ih _ hdrop (list.drop size) rfl, take_append_drop]

theorem length_of_mem_asChunks {chunk : List A} (hchunk : chunk ∈ (asChunks size list).1) :
    chunk.length = size := by
  simp only [asChunks, mem_map, mem_range] at hchunk
  obtain ⟨index, hindex, rfl⟩ := hchunk
  have hroom : size * (index + 1) ≤ list.length :=
    (Nat.mul_le_mul_left size hindex).trans (Nat.mul_div_le list.length size)
  rw [Nat.mul_add, Nat.mul_one] at hroom
  rw [length_slice_of_le hroom, Nat.add_sub_cancel_left]

end Vetro.Splice
