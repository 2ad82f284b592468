import Mathlib.Tactic

/-!
# Tables of intervals

Items of some length, in a table sorted by where they start.  The items are
disjoint, so at most one of them holds a position; what the table says about
positions (`view`) is how its operations are described: splitting at a position
changes nothing, carving a range out empties it, an item that is put in covers
its interval.
-/

namespace Vetro.Intervals

open List Option

variable {A B : Type*}

/-- Items with where they start. -/
abbrev Table (A : Type*) := List (ℕ × A)

/-- The item takes the place of one with the same start. -/
def insert (start : ℕ) (item : A) (table : Table A) : Table A :=
  table.filter (fun x => x.1 < start) ++ (start, item) :: table.filter (fun x => start < x.1)

/-- The last item that starts before the bound. -/
def before (table : Table A) (bound : ℕ) : Option (ℕ × A) :=
  (table.filter fun x => x.1 < bound).getLast?

/-- Items that start in the range. -/
def within (table : Table A) (start stop : ℕ) : Table A :=
  table.filter fun x => start ≤ x.1 && x.1 < stop

/-- Items that do not start in the range. -/
def without (table : Table A) (start stop : ℕ) : Table A :=
  table.filter fun x => !(start ≤ x.1 && x.1 < stop)

variable {x : ℕ × A} {start : ℕ} {item : A} {table : Table A}

theorem mem_insert : x ∈ insert start item table ↔ x = (start, item) ∨ x ∈ table ∧ x.1 ≠ start := by
  simp only [insert, mem_append, mem_cons, mem_filter, decide_eq_true_eq]
  constructor
  · rintro (⟨hmem, hlt⟩ | heq | ⟨hmem, hlt⟩)
    · exact .inr ⟨hmem, hlt.ne⟩
    · exact .inl heq
    · exact .inr ⟨hmem, hlt.ne'⟩
  · rintro (heq | ⟨hmem, hne⟩)
    · exact .inr (.inl heq)
    · rcases Nat.lt_or_gt_of_ne hne with hlt | hgt
      · exact .inl ⟨hmem, hlt⟩
      · exact .inr (.inr ⟨hmem, hgt⟩)

theorem sorted_insert (hsorted : table.Pairwise fun x y => x.1 < y.1) (start : ℕ) (item : A) :
    (insert start item table).Pairwise fun x y => x.1 < y.1 := by
  rw [insert, pairwise_append, pairwise_cons]
  refine ⟨hsorted.filter _, ⟨fun y hy => ?_, hsorted.filter _⟩, fun x hx y hy => ?_⟩
  · exact of_decide_eq_true (mem_filter.mp hy).2
  · have hlow : x.1 < start := of_decide_eq_true (mem_filter.mp hx).2
    rcases mem_cons.mp hy with rfl | hmem
    · exact hlow
    · exact hlow.trans (of_decide_eq_true (mem_filter.mp hmem).2)

theorem mem_within {stop : ℕ} :
    x ∈ within table start stop ↔ x ∈ table ∧ start ≤ x.1 ∧ x.1 < stop := by
  simp [within]

theorem mem_without {stop : ℕ} :
    x ∈ without table start stop ↔ x ∈ table ∧ (x.1 < start ∨ stop ≤ x.1) := by
  simp only [without, mem_filter, Bool.not_eq_true', Bool.and_eq_false_iff,
    decide_eq_false_iff_not, Nat.not_le, Nat.not_lt]

section Length

variable (length : A → ℕ)

/-- The item with its start covers the position. -/
def Covers (x : ℕ × A) (position : ℕ) : Prop := x.1 ≤ position ∧ position < x.1 + length x.2

/-- The item that covers the position. -/
def find (table : Table A) (position : ℕ) : Option (ℕ × A) :=
  (before table (position + 1)).filter fun x => position < x.1 + length x.2

/-- No two items overlap and none is empty. -/
structure Disjoint (table : Table A) : Prop where
  sorted : table.Pairwise fun x y => x.1 + length x.2 ≤ y.1
  pos : ∀ x ∈ table, 0 < length x.2

/-- No item goes across the position. -/
def Boundary (table : Table A) (position : ℕ) : Prop :=
  ∀ x ∈ table, x.1 + length x.2 ≤ position ∨ position ≤ x.1

/-- No item touches the range. -/
def Free (table : Table A) (start stop : ℕ) : Prop :=
  ∀ x ∈ table, x.1 + length x.2 ≤ start ∨ stop ≤ x.1

end Length

variable {position : ℕ} {items : Table A}

section Lemmas

variable {length : A → ℕ} {table : Table A}

namespace Disjoint

theorem nil : Disjoint length ([] : Table A) := ⟨List.Pairwise.nil, by simp⟩

variable (htable : Disjoint length table)
include htable

theorem filter (keep : ℕ × A → Bool) : Disjoint length (table.filter keep) :=
  ⟨htable.sorted.filter keep, fun x hx => htable.pos x (mem_of_mem_filter hx)⟩

/-- Two items are the same or apart. -/
theorem apart {y : ℕ × A} (hx : x ∈ table) (hy : y ∈ table) :
    x = y ∨ x.1 + length x.2 ≤ y.1 ∨ y.1 + length y.2 ≤ x.1 := by
  have hsorted := htable.sorted
  clear htable
  induction table with
  | nil => cases hx
  | cons head rest ih =>
    rw [pairwise_cons] at hsorted
    rcases mem_cons.mp hx with hxhead | hxrest <;> rcases mem_cons.mp hy with hyhead | hyrest
    · exact .inl (hxhead.trans hyhead.symm)
    · exact .inr (.inl (hxhead ▸ hsorted.1 y hyrest))
    · exact .inr (.inr (hyhead ▸ hsorted.1 x hxrest))
    · exact ih hxrest hyrest hsorted.2

/-- An item that does not touch the others, apart from one whose place it takes. -/
theorem insert (hpos : 0 < length item)
    (hfree : ∀ x ∈ table, x.1 = start ∨ x.1 + length x.2 ≤ start ∨ start + length item ≤ x.1) :
    Disjoint length (insert start item table) := by
  refine ⟨?_, fun x hx => ?_⟩
  · rw [Intervals.insert, pairwise_append, pairwise_cons]
    refine ⟨htable.sorted.filter _, ⟨fun y hy => ?_, htable.sorted.filter _⟩, fun x hx y hy => ?_⟩
    · obtain ⟨hmem, hlt⟩ := mem_filter.mp hy
      have hlt' : start < y.1 := of_decide_eq_true hlt
      rcases hfree y hmem with heq | hbelow | habove
      · omega
      · have := htable.pos y hmem
        omega
      · exact habove
    · obtain ⟨hmem, hlt⟩ := mem_filter.mp hx
      have hlt' : x.1 < start := of_decide_eq_true hlt
      have hend : x.1 + length x.2 ≤ start := by
        rcases hfree x hmem with heq | hbelow | habove
        · omega
        · exact hbelow
        · omega
      rcases mem_cons.mp hy with rfl | hy
      · exact hend
      · have hlater : start < y.1 := of_decide_eq_true (mem_filter.mp hy).2
        omega
  · rcases mem_insert.mp hx with rfl | ⟨hmem, -⟩
    · exact hpos
    · exact htable.pos x hmem

end Disjoint

/-! ## Lookup -/

variable (htable : Disjoint length table)
include htable

/-- The last item before a bound: the others before it end where it starts, or earlier. -/
theorem before_eq_some {bound : ℕ} (hbefore : before table bound = some x) :
    x ∈ table ∧ x.1 < bound ∧
      ∀ y ∈ table, y.1 < bound → y = x ∨ y.1 + length y.2 ≤ x.1 := by
  have hlast := mem_of_getLast? hbefore
  obtain ⟨hmem, hlt⟩ := mem_filter.mp hlast
  refine ⟨hmem, of_decide_eq_true hlt, fun y hy hybound => ?_⟩
  obtain ⟨init, hinit⟩ := List.getLast?_eq_some_iff.mp hbefore
  have hy' : y ∈ init ++ [x] := by
    rw [← hinit]
    exact mem_filter.mpr ⟨hy, decide_eq_true hybound⟩
  have hsorted := htable.sorted.filter fun x => x.1 < bound
  rw [hinit, pairwise_append] at hsorted
  rcases mem_append.mp hy' with hfront | hlast
  · exact .inr (hsorted.2.2 y hfront x mem_cons_self)
  · exact .inl (mem_singleton.mp hlast)

omit htable in
theorem before_eq_none {bound : ℕ} (hbefore : before table bound = none) :
    ∀ y ∈ table, bound ≤ y.1 := by
  intro y hy
  rw [before, List.getLast?_eq_none_iff, filter_eq_nil_iff] at hbefore
  have hnot := hbefore y hy
  rw [decide_eq_true_iff] at hnot
  exact Nat.not_lt.mp hnot

/-- The lookup finds the item that covers the position. -/
theorem find_eq_some :
    find length table position = some x ↔ x ∈ table ∧ Covers length x position := by
  constructor
  · intro hfind
    obtain ⟨hbefore, hlt⟩ := filter_eq_some_iff.mp hfind
    obtain ⟨hmem, hbound, -⟩ := before_eq_some htable hbefore
    exact ⟨hmem, Nat.lt_succ_iff.mp hbound, of_decide_eq_true hlt⟩
  · rintro ⟨hmem, hstart, hend⟩
    cases hbefore : before table (position + 1) with
    | none =>
      have hnone := before_eq_none hbefore x hmem
      omega
    | some y =>
      obtain ⟨hy, -, hothers⟩ := before_eq_some htable hbefore
      have hxy : x = y := by
        rcases hothers x hmem (Nat.lt_succ_of_le hstart) with heq | hend'
        · exact heq
        · obtain ⟨-, hbound, -⟩ := before_eq_some htable hbefore
          omega
      subst hxy
      exact filter_eq_some_iff.mpr ⟨hbefore, decide_eq_true hend⟩

theorem find_eq_none :
    find length table position = none ↔ ∀ x ∈ table, ¬Covers length x position := by
  rw [eq_none_iff_forall_ne_some]
  constructor
  · intro hnone x hx hcovers
    exact hnone x ((find_eq_some htable).mpr ⟨hx, hcovers⟩)
  · intro hnone x hfind
    obtain ⟨hx, hcovers⟩ := (find_eq_some htable).mp hfind
    exact hnone x hx hcovers

omit htable in
theorem lt_of_find (hfind : find length table position = some x) : position < x.1 + length x.2 :=
  of_decide_eq_true (filter_eq_some_iff.mp hfind).2

/-! ## What the table says about positions -/

omit htable in
/-- What the item that covers the position says about it. -/
def view (length : A → ℕ) (content : A → ℕ → B) (table : Table A) (position : ℕ) : Option B :=
  (find length table position).map fun x => content x.2 (position - x.1)

variable {content : A → ℕ → B}

theorem view_eq_some {value : B} :
    view length content table position = some value ↔
      ∃ x ∈ table, Covers length x position ∧ content x.2 (position - x.1) = value := by
  rw [view, map_eq_some_iff]
  constructor
  · rintro ⟨x, hfind, heq⟩
    obtain ⟨hx, hcovers⟩ := (find_eq_some htable).mp hfind
    exact ⟨x, hx, hcovers, heq⟩
  · rintro ⟨x, hx, hcovers, heq⟩
    exact ⟨x, (find_eq_some htable).mpr ⟨hx, hcovers⟩, heq⟩

theorem view_of_covers (hx : x ∈ table) (hcovers : Covers length x position) :
    view length content table position = some (content x.2 (position - x.1)) :=
  (view_eq_some htable).mpr ⟨x, hx, hcovers, rfl⟩

theorem view_eq_none :
    view length content table position = none ↔ ∀ x ∈ table, ¬Covers length x position := by
  rw [view, map_eq_none_iff, find_eq_none htable]

/-- Tables whose items say the same about a position. -/
theorem view_congr {other : Table A} (hother : Disjoint length other)
    (hleft : ∀ x ∈ table, Covers length x position → ∃ y ∈ other, Covers length y position ∧
      content y.2 (position - y.1) = content x.2 (position - x.1))
    (hright : ∀ y ∈ other, Covers length y position → ∃ x ∈ table, Covers length x position) :
    view length content table position = view length content other position := by
  cases hview : view length content table position with
  | none =>
    rw [view_eq_none htable] at hview
    refine ((view_eq_none hother).mpr fun y hy hcovers => ?_).symm
    obtain ⟨x, hx, hxcovers⟩ := hright y hy hcovers
    exact hview x hx hxcovers
  | some value =>
    obtain ⟨x, hx, hcovers, rfl⟩ := (view_eq_some htable).mp hview
    obtain ⟨y, hy, hycovers, heq⟩ := hleft x hx hcovers
    exact ((view_eq_some hother).mpr ⟨y, hy, hycovers, heq⟩).symm

/-- An item that covers the one whose place it takes, and touches no other. -/
theorem view_put (hpos : 0 < length item)
    (hfit : ∀ x ∈ table, x.1 = start ∧ length x.2 ≤ length item ∨ x.1 + length x.2 ≤ start ∨
      start + length item ≤ x.1) (position : ℕ) :
    view length content (insert start item table) position =
      if start ≤ position ∧ position < start + length item then
        some (content item (position - start))
      else view length content table position := by
  have hinsert : Disjoint length (insert start item table) :=
    htable.insert hpos fun x hx => (hfit x hx).imp_left And.left
  split_ifs with hin
  · exact view_of_covers hinsert (mem_insert.mpr (.inl rfl)) hin
  · refine view_congr hinsert htable (fun x hx hcovers => ?_) fun y hy hcovers => ?_
    · rcases mem_insert.mp hx with rfl | ⟨hmem, -⟩
      · exact absurd hcovers hin
      · exact ⟨x, hmem, hcovers, rfl⟩
    · refine ⟨y, mem_insert.mpr (.inr ⟨hy, fun heq => hin ?_⟩), hcovers⟩
      obtain ⟨hleft, hright⟩ := hcovers
      rcases hfit y hy with hsame | hbelow | habove <;> omega

/-- An item that is put where there is room. -/
theorem view_insert (hpos : 0 < length item) (hfree : Free length table start (start + length item))
    (position : ℕ) :
    view length content (insert start item table) position =
      if start ≤ position ∧ position < start + length item then
        some (content item (position - start))
      else view length content table position :=
  view_put htable hpos (fun x hx => .inr (hfree x hx)) position

/-- An item takes the place of one of the same length. -/
theorem fit_replace (hx : x ∈ table) (hlength : length item = length x.2) :
    ∀ y ∈ table, y.1 = x.1 ∧ length y.2 ≤ length item ∨
      y.1 + length y.2 ≤ x.1 ∨ x.1 + length item ≤ y.1 := by
  intro y hy
  rw [hlength]
  rcases htable.apart hy hx with rfl | happart
  · exact .inl ⟨rfl, le_refl _⟩
  · exact .inr happart

theorem disjoint_replace (hx : x ∈ table) (hlength : length item = length x.2) :
    Disjoint length (insert x.1 item table) :=
  htable.insert (hlength ▸ htable.pos x hx) fun y hy =>
    (fit_replace htable hx hlength y hy).imp_left And.left

theorem view_replace (hx : x ∈ table) (hlength : length item = length x.2) (position : ℕ) :
    view length content (insert x.1 item table) position =
      if x.1 ≤ position ∧ position < x.1 + length x.2 then
        some (content item (position - x.1))
      else view length content table position := by
  rw [view_put htable (hlength ▸ htable.pos x hx) (fit_replace htable hx hlength), hlength]

/-- The items that are kept are those that cover positions with `p`. -/
theorem view_filter {keep : ℕ × A → Bool} {p : Prop} [Decidable p]
    (hkeep : ∀ x ∈ table, Covers length x position → (keep x ↔ p)) :
    view length content (table.filter keep) position =
      if p then view length content table position else none := by
  have hfilter := htable.filter keep
  split_ifs with hp
  · refine view_congr hfilter htable (fun x hx hcovers => ?_) fun y hy hcovers => ?_
    · exact ⟨x, mem_of_mem_filter hx, hcovers, rfl⟩
    · exact ⟨y, mem_filter.mpr ⟨hy, (hkeep y hy hcovers).mpr hp⟩, hcovers⟩
  · refine (view_eq_none hfilter).mpr fun x hx hcovers => hp ?_
    obtain ⟨hmem, hkept⟩ := mem_filter.mp hx
    exact (hkeep x hmem hcovers).mp hkept

variable {stop : ℕ}

/-- The items of a range between two boundaries are taken away. -/
theorem view_without (hstart : Boundary length table start)
    (hstop : Boundary length table stop) (position : ℕ) :
    view length content (without table start stop) position =
      if start ≤ position ∧ position < stop then none else view length content table position := by
  rw [← ite_not]
  refine view_filter htable fun x hx hinside => ?_
  obtain ⟨hleft, hright⟩ := hinside
  simp only [Bool.not_eq_true', Bool.and_eq_false_iff, decide_eq_false_iff_not]
  rcases hstart x hx with h | h <;> rcases hstop x hx with h' | h' <;> omega

omit htable in
/-- Nothing is left in the range. -/
theorem free_without (hstart : Boundary length table start) :
    Free length (without table start stop) start stop := by
  intro x hx
  obtain ⟨hmem, hout⟩ := mem_without.mp hx
  rcases hstart x hmem with h | h
  · exact .inl h
  · rcases hout with hbelow | habove
    · omega
    · exact .inr habove

variable {change : ℕ × A → A}

/-- Items of a range between two boundaries, changed without a change of their lengths. -/
theorem disjoint_map (hlength : ∀ x ∈ table, length (change x) = length x.2) :
    Disjoint length (table.map fun x => (x.1, change x)) := by
  refine ⟨pairwise_map.mpr (htable.sorted.imp_of_mem fun {x y} hx _ hle => ?_), fun y hy => ?_⟩
  · rw [hlength x hx]
    exact hle
  · obtain ⟨x, hx, rfl⟩ := mem_map.mp hy
    rw [hlength x hx]
    exact htable.pos x hx

theorem view_map (hlength : ∀ x ∈ table, length (change x) = length x.2)
    (position : ℕ) :
    view length content (table.map fun x => (x.1, change x)) position =
      (find length table position).map fun x => content (change x) (position - x.1) := by
  have hmap := disjoint_map htable hlength
  cases hfind : find length table position with
  | none =>
    rw [find_eq_none htable] at hfind
    refine (view_eq_none hmap).mpr fun y hy hcovers => ?_
    obtain ⟨x, hx, rfl⟩ := mem_map.mp hy
    rw [Covers, hlength x hx] at hcovers
    exact hfind x hx hcovers
  | some x =>
    obtain ⟨hx, hcovers⟩ := (find_eq_some htable).mp hfind
    refine view_of_covers hmap (mem_map.mpr ⟨x, hx, rfl⟩) ?_
    rw [Covers, hlength x hx]
    exact hcovers

/-- The items of a range between two boundaries. -/
theorem view_within (hstart : Boundary length table start)
    (hstop : Boundary length table stop) (position : ℕ) :
    view length content (within table start stop) position =
      if start ≤ position ∧ position < stop then view length content table position else none := by
  refine view_filter htable fun x hx hinside => ?_
  obtain ⟨hleft, hright⟩ := hinside
  simp only [Bool.and_eq_true, decide_eq_true_eq]
  rcases hstart x hx with h | h <;> rcases hstop x hx with h' | h' <;> omega

omit htable in
/-- Items that are moved together. -/
theorem disjoint_shift (new : ℕ) (htable : Disjoint length table) {old : ℕ}
    (hold : ∀ x ∈ table, old ≤ x.1) :
    Disjoint length (table.map fun x => (new + (x.1 - old), x.2)) := by
  refine ⟨pairwise_map.mpr (htable.sorted.imp_of_mem fun {x y} hx hy hle => ?_), fun y hy => ?_⟩
  · have hx' := hold x hx
    dsimp only
    omega
  · obtain ⟨x, hx, rfl⟩ := mem_map.mp hy
    exact htable.pos x hx

theorem view_shift {old new : ℕ} (hold : ∀ x ∈ table, old ≤ x.1) (position : ℕ) :
    view length content (table.map fun x => (new + (x.1 - old), x.2)) position =
      if new ≤ position then view length content table (position - new + old) else none := by
  have hshift := disjoint_shift new htable hold
  split_ifs with hle
  · cases hview : view length content table (position - new + old) with
    | none =>
      rw [view_eq_none htable] at hview
      refine (view_eq_none hshift).mpr fun y hy hcovers => ?_
      obtain ⟨x, hx, rfl⟩ := mem_map.mp hy
      have hx' := hold x hx
      obtain ⟨hleft, hright⟩ := hcovers
      dsimp only at hleft hright
      exact hview x hx ⟨by omega, by omega⟩
    | some value =>
      obtain ⟨x, hx, hcovers, rfl⟩ := (view_eq_some htable).mp hview
      have hx' := hold x hx
      obtain ⟨hleft, hright⟩ := hcovers
      refine (view_eq_some hshift).mpr ⟨_, mem_map.mpr ⟨x, hx, rfl⟩, ⟨?_, ?_⟩, ?_⟩
      · omega
      · dsimp only
        omega
      · congr 1
        omega
  · refine (view_eq_none hshift).mpr fun y hy hcovers => ?_
    obtain ⟨x, -, rfl⟩ := mem_map.mp hy
    have hleft := hcovers.1
    omega

/-- Items that are put in one after the other, where there is room for them. -/
theorem foldl_insert (hitems : Disjoint length items)
    (hfree : ∀ y ∈ items, Free length table y.1 (y.1 + length y.2)) :
    Disjoint length (items.foldl (fun t y => insert y.1 y.2 t) table) ∧
      ∀ x, x ∈ items.foldl (fun t y => insert y.1 y.2 t) table ↔ x ∈ table ∨ x ∈ items := by
  induction items generalizing table with
  | nil => exact ⟨htable, fun x => by simp⟩
  | cons y items ih =>
    have hy := hfree y mem_cons_self
    have hpos := hitems.pos y mem_cons_self
    have hne : ∀ x ∈ table, x.1 ≠ y.1 := by
      intro x hx heq
      have := htable.pos x hx
      rcases hy x hx with h | h <;> omega
    have hinsert : Disjoint length (insert y.1 y.2 table) :=
      htable.insert hpos fun x hx => .inr (hy x hx)
    have hrest : Disjoint length items :=
      ⟨(pairwise_cons.mp hitems.sorted).2,
        fun x hx => hitems.pos x (mem_cons_of_mem _ hx)⟩
    obtain ⟨hdisjoint, hmem⟩ := ih hinsert hrest fun z hz x hx => by
      rcases mem_insert.mp hx with rfl | ⟨hx, -⟩
      · exact .inl ((pairwise_cons.mp hitems.sorted).1 z hz)
      · exact hfree z (mem_cons_of_mem _ hz) x hx
    refine ⟨hdisjoint, fun x => ?_⟩
    rw [foldl_cons, hmem, mem_insert, mem_cons]
    constructor
    · rintro ((heq | ⟨hx, -⟩) | hx)
      · exact .inr (.inl heq)
      · exact .inl hx
      · exact .inr (.inr hx)
    · rintro (hx | heq | hx)
      · exact .inl (.inr ⟨hx, hne x hx⟩)
      · exact .inl (.inl heq)
      · exact .inr hx

theorem view_foldl_insert (hitems : Disjoint length items)
    (hfree : ∀ y ∈ items, Free length table y.1 (y.1 + length y.2)) (position : ℕ) :
    view length content (items.foldl (fun t y => insert y.1 y.2 t) table) position =
      (view length content items position).or (view length content table position) := by
  obtain ⟨hdisjoint, hmem⟩ := foldl_insert htable hitems hfree
  cases hview : view length content items position with
  | some value =>
    obtain ⟨x, hx, hcovers, heq⟩ := (view_eq_some hitems).mp hview
    exact (view_eq_some hdisjoint).mpr ⟨x, (hmem x).mpr (.inr hx), hcovers, heq⟩
  | none =>
    rw [view_eq_none hitems] at hview
    refine view_congr hdisjoint htable (fun x hx hcovers => ?_) fun y hy hcovers => ?_
    · rcases (hmem x).mp hx with hx | hx
      · exact ⟨x, hx, hcovers, rfl⟩
      · exact absurd hcovers (hview x hx)
    · exact ⟨y, (hmem y).mpr (.inl hy), hcovers⟩

/-- A range without anything in it is free. -/
theorem free_of_view (hlt : start < stop)
    (hnone : ∀ position, start ≤ position → position < stop →
      view length content table position = none) : Free length table start stop := by
  intro x hx
  by_contra htouch
  have hpos := htable.pos x hx
  have hcovers : Covers length x (max x.1 start) := ⟨by omega, by omega⟩
  exact (view_eq_none htable).mp (hnone (max x.1 start) (by omega) (by omega)) x hx hcovers

end Lemmas

/-! ## Splitting -/

section Split

variable (length : A → ℕ)

/-- Two pieces of an item that say what the item says. -/
structure Splits (content : A → ℕ → B) (split : A → ℕ → A × A) : Prop where
  head_length : ∀ item {k}, k ≤ length item → length (split item k).1 = k
  tail_length : ∀ item {k}, k ≤ length item → length (split item k).2 = length item - k
  head : ∀ {item k offset}, offset < k → content (split item k).1 offset = content item offset
  tail : ∀ item k offset, content (split item k).2 offset = content item (k + offset)

/-- The item that goes across the position is split there. -/
def splitAt (split : A → ℕ → A × A) (table : Table A) (position : ℕ) : Table A :=
  match before table position with
  | none => table
  | some (start, item) =>
    if position ≤ start || start + length item ≤ position then table
    else
      let pieces := split item (position - start)
      insert position pieces.2 (insert start pieces.1 table)

/-- What starts in the range goes away, after splits at both of its ends. -/
def carve (split : A → ℕ → A × A) (table : Table A) (start stop : ℕ) : Table A :=
  without (splitAt length split (splitAt length split table start) stop) start stop

variable {length} {split : A → ℕ → A × A} {content : A → ℕ → B} {table : Table A}

variable (htable : Disjoint length table)
include htable

theorem splitAt_cases (split : A → ℕ → A × A) (position : ℕ) :
    splitAt length split table position = table ∧ Boundary length table position ∨
      ∃ x ∈ table, x.1 < position ∧ position < x.1 + length x.2 ∧
        splitAt length split table position =
          insert position (split x.2 (position - x.1)).2
            (insert x.1 (split x.2 (position - x.1)).1 table) := by
  rw [splitAt]
  cases hbefore : before table position with
  | none => exact .inl ⟨rfl, fun y hy => .inr (before_eq_none hbefore y hy)⟩
  | some x =>
    obtain ⟨hx, hlt, hothers⟩ := before_eq_some htable hbefore
    dsimp only
    split_ifs with hout
    · refine .inl ⟨rfl, fun y hy => ?_⟩
      rw [Bool.or_eq_true, decide_eq_true_iff, decide_eq_true_iff] at hout
      rcases Nat.lt_or_ge y.1 position with hbelow | habove
      · rcases hothers y hy hbelow with rfl | hend <;> omega
      · exact .inr habove
    · rw [Bool.or_eq_true, decide_eq_true_iff, decide_eq_true_iff] at hout
      exact .inr ⟨x, hx, hlt, by omega, rfl⟩

/-- The items after a split. -/
theorem mem_split (hx : x ∈ table) (hlow : x.1 < position) (hhigh : position < x.1 + length x.2)
    {head tail : A} {y : ℕ × A} :
    y ∈ insert position tail (insert x.1 head table) ↔
      y = (position, tail) ∨ y = (x.1, head) ∨
        y ∈ table ∧ (y.1 + length y.2 ≤ x.1 ∨ x.1 + length x.2 ≤ y.1) := by
  rw [mem_insert, mem_insert]
  constructor
  · rintro (heq | ⟨heq | ⟨hy, hne⟩, -⟩)
    · exact .inl heq
    · exact .inr (.inl heq)
    · rcases htable.apart hy hx with rfl | happart
      · exact absurd rfl hne
      · exact .inr (.inr ⟨hy, happart⟩)
  · rintro (heq | rfl | ⟨hy, happart⟩)
    · exact .inl heq
    · exact .inr ⟨.inl rfl, hlow.ne⟩
    · have := htable.pos y hy
      refine .inr ⟨.inr ⟨hy, ?_⟩, ?_⟩ <;> rcases happart with h | h <;> omega

variable (hsplit : Splits length content split)
include hsplit

theorem disjoint_splitAt (position : ℕ) :
    Disjoint length (splitAt length split table position) := by
  rcases splitAt_cases htable split position with ⟨heq, -⟩ | ⟨x, hx, hlow, hhigh, heq⟩
  · rw [heq]
    exact htable
  · have hhead := hsplit.head_length x.2 (k := position - x.1) (by omega)
    have htail := hsplit.tail_length x.2 (k := position - x.1) (by omega)
    rw [heq]
    have hfirst : Disjoint length (insert x.1 (split x.2 (position - x.1)).1 table) := by
      refine htable.insert (by omega) fun y hy => ?_
      rcases htable.apart hy hx with rfl | h | h <;> omega
    refine hfirst.insert (by omega) fun y hy => ?_
    rcases mem_insert.mp hy with rfl | ⟨hy, hne⟩
    · dsimp only
      omega
    · rcases htable.apart hy hx with rfl | h | h <;> omega

/-- The table is what it was, and the position is a boundary; so is every position that was
one. -/
theorem boundary_splitAt (position : ℕ) :
    Boundary length (splitAt length split table position) position ∧
      ∀ other, Boundary length table other →
        Boundary length (splitAt length split table position) other := by
  rcases splitAt_cases htable split position with ⟨heq, hboundary⟩ | ⟨x, hx, hlow, hhigh, heq⟩
  · rw [heq]
    exact ⟨hboundary, fun _ hother => hother⟩
  · have hhead := hsplit.head_length x.2 (k := position - x.1) (by omega)
    have htail := hsplit.tail_length x.2 (k := position - x.1) (by omega)
    rw [heq]
    constructor
    · intro y hy
      rcases (mem_split htable hx hlow hhigh).mp hy with rfl | rfl | ⟨-, happart⟩
      · exact .inr (le_refl _)
      · exact .inl (by dsimp only; omega)
      · omega
    · intro other hother y hy
      have hxother := hother x hx
      rcases (mem_split htable hx hlow hhigh).mp hy with rfl | rfl | ⟨hmem, -⟩
      · dsimp only
        omega
      · dsimp only
        omega
      · exact hother y hmem

theorem view_splitAt (position other : ℕ) :
    view length content (splitAt length split table position) other =
      view length content table other := by
  have hafter := disjoint_splitAt htable hsplit position
  rcases splitAt_cases htable split position with ⟨heq, -⟩ | ⟨x, hx, hlow, hhigh, heq⟩
  · rw [heq]
  · have hhead := hsplit.head_length x.2 (k := position - x.1) (by omega)
    have htail := hsplit.tail_length x.2 (k := position - x.1) (by omega)
    rw [heq] at hafter ⊢
    refine view_congr hafter htable (fun y hy hcovers => ?_) fun y hy hcovers => ?_
    · have hleft := hcovers.1
      have hright := hcovers.2
      rcases (mem_split htable hx hlow hhigh).mp hy with rfl | rfl | ⟨hmem, -⟩
      · dsimp only at hleft hright ⊢
        refine ⟨x, hx, ⟨by omega, by omega⟩, ?_⟩
        rw [hsplit.tail]
        congr 1
        omega
      · dsimp only at hleft hright ⊢
        exact ⟨x, hx, ⟨hleft, by omega⟩, (hsplit.head (by omega)).symm⟩
      · exact ⟨y, hmem, hcovers, rfl⟩
    · have hleft := hcovers.1
      have hright := hcovers.2
      rcases htable.apart hy hx with rfl | happart
      · rcases Nat.lt_or_ge other position with hfirst | hsecond
        · refine ⟨(y.1, (split y.2 (position - y.1)).1), ?_, hleft, ?_⟩
          · exact (mem_split htable hx hlow hhigh).mpr (.inr (.inl rfl))
          · dsimp only
            omega
        · refine ⟨(position, (split y.2 (position - y.1)).2), ?_, hsecond, ?_⟩
          · exact (mem_split htable hx hlow hhigh).mpr (.inl rfl)
          · dsimp only
            omega
      · exact ⟨y, (mem_split htable hx hlow hhigh).mpr (.inr (.inr ⟨hy, happart⟩)), hcovers⟩

/-- A table split at both ends of a range. -/
theorem splitAt_splitAt (start stop : ℕ) :
    Disjoint length (splitAt length split (splitAt length split table start) stop) ∧
      Boundary length (splitAt length split (splitAt length split table start) stop) start ∧
      Boundary length (splitAt length split (splitAt length split table start) stop) stop ∧
      ∀ position, view length content
        (splitAt length split (splitAt length split table start) stop) position =
          view length content table position := by
  have hfirst := disjoint_splitAt htable hsplit start
  have hboundary := (boundary_splitAt htable hsplit start).1
  obtain ⟨hstop, hkept⟩ := boundary_splitAt hfirst hsplit stop
  refine ⟨disjoint_splitAt hfirst hsplit stop, hkept start hboundary, hstop, fun position => ?_⟩
  rw [view_splitAt hfirst hsplit, view_splitAt htable hsplit]

theorem free_carve (start stop : ℕ) :
    Free length (carve length split table start stop) start stop :=
  free_without (splitAt_splitAt htable hsplit start stop).2.1

theorem view_carve (start stop position : ℕ) :
    view length content (carve length split table start stop) position =
      if start ≤ position ∧ position < stop then none else view length content table position := by
  obtain ⟨hdisjoint, hstart, hstop, hview⟩ := splitAt_splitAt htable hsplit start stop
  rw [carve, view_without hdisjoint hstart hstop, hview]

end Split

end Vetro.Intervals
