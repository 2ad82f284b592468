import Mathlib.Data.List.TakeWhile
import Vetro.Snapshot.Assembler

/-!
# Plans from outside

`vetro-snapshot/src/deferred.rs`, `Plan::encode`, `Plan::decode` and
`Plan::check`.  The check scans the marks with a stack of open sections.  What
it is for is said without a stack: `Plan.Nested` asks that the marks are in
order, that each one ends inside the stream and that two of them are apart or
one inside the other.  A nested plan always has operations, so the assembler
finishes for every raw stream of the plan's length.

The end of a section is compared with `at + 8`, a 64-bit sum that wraps in a
build without overflow checks; a section that starts that late passes the check
although it is not nested.
-/

namespace Vetro.Save

open Bytes List Assembler
open Splice
open Outcome
open Format

/-! ## Model -/

/-- Kind (0 section, 1 blocks) and two numbers. -/
def Mark.encode : Mark → List Byte
  | .lengthField start stop => 0 :: (leBytes 8 start ++ leBytes 8 stop)
  | .blocks start len => 1 :: (leBytes 8 start ++ leBytes 8 len)

namespace Plan

/-- The plan as bytes: configuration hash, raw length, number of marks and the
marks. -/
def encode (plan : Plan) : List Byte :=
  leBytes 8 plan.configHash ++ leBytes 8 plan.rawLen ++ leBytes 8 plan.marks.length ++
    plan.marks.flatMap Mark.encode

def bad {A : Type} (what : String) : Result Error A := fail (.invalid ("plan: " ++ what))

/-- Where a mark ends, and the new end of the last blocks. -/
def markEnd (busy : ℕ) : Mark → Result Error (ℕ × ℕ)
  | .lengthField start stop =>
    if (start + 8) % 2 ^ 64 ≤ stop then .ok (stop, busy)
    else bad "section shorter than its length"
  | .blocks start len =>
    if start + len < 2 ^ 64 then .ok (start + len, start + len) else fail .truncated

/-- The open sections after a mark that ends at `stop`, the innermost first. -/
def pushSection (stop : ℕ) (opened : List ℕ) : Mark → List ℕ
  | .lengthField _ _ => stop :: opened
  | .blocks _ _ => opened

/-- The loop of `check`: ends of the open sections, the innermost first, start
of the last mark and end of the last blocks. -/
def checkFrom (rawLen : ℕ) : List ℕ → ℕ → ℕ → List Mark → Result Error Unit
  | _, _, _, [] => .ok ()
  | opened, last, busy, mark :: marks =>
    if mark.start < last ∨ mark.start < busy then bad "marks out of order"
    else do
      let opened := opened.dropWhile (· ≤ mark.start)
      let (stop, busy) ← markEnd busy mark
      if rawLen < stop ∨ opened.head?.any (· < stop) = true then bad "mark past its section"
      else checkFrom rawLen (pushSection stop opened mark) mark.start busy marks

/-- Marks in order, sections nested, blocks inside their section and not
overlapping anything that follows. -/
def check (plan : Plan) : Result Error Unit := checkFrom plan.rawLen [] 0 0 plan.marks

def readMark (reader : Reader) : Result Error (Mark × Reader) := do
  let (kind, reader) ← reader.number 1
  let (first, reader) ← reader.number 8
  let (second, reader) ← reader.number 8
  match kind with
  | 0 => .ok (.lengthField first second, reader)
  | 1 => .ok (.blocks first second, reader)
  | other => fail (.invalid s!"plan mark {other}")

def readMarks : ℕ → Reader → Result Error (List Mark × Reader)
  | 0, reader => .ok ([], reader)
  | n + 1, reader => do
    let (mark, reader) ← readMark reader
    let (marks, reader) ← readMarks n reader
    .ok (mark :: marks, reader)

/-- The tag of a reader that is not of a section. -/
def blankTag : List Byte := [0x20, 0x20, 0x20, 0x20]

/-- Reads `encode` and checks that the marks are consistent. -/
def decode (bytes : List Byte) : Result Error Plan := do
  let (configHash, reader) ← (Reader.new bytes).number 8
  let (rawLen, reader) ← reader.number 8
  let (n, reader) ← reader.lenOf 17
  let (marks, reader) ← readMarks n reader
  reader.finish blankTag
  let plan : Plan := ⟨configHash, marks, rawLen⟩
  plan.check
  .ok plan

end Plan

/-! ## What the check is for -/

/-- Where the bytes of a mark end, without a bound on the numbers. -/
def Mark.stop : Mark → ℕ
  | .lengthField _ stop => stop
  | .blocks start len => start + len

def Mark.isSection : Mark → Bool
  | .lengthField _ _ => true
  | .blocks _ _ => false

/-- A section holds its length at least. -/
def Mark.Long (mark : Mark) : Prop := mark.isSection = true → mark.start + 8 ≤ mark.stop

/-- Of two marks in this order, the second one starts after the first one ends
or is inside it, which has to be a section. -/
def Mark.Before (first second : Mark) : Prop :=
  first.start ≤ second.start ∧
    (first.stop ≤ second.start ∨ (first.isSection = true ∧ second.stop ≤ first.stop))

/-- The marks are ordered, properly nested and end inside the stream. -/
structure Plan.Nested (plan : Plan) : Prop where
  inside : ∀ mark ∈ plan.marks, mark.stop ≤ plan.rawLen
  long : ∀ mark ∈ plan.marks, mark.Long
  ordered : plan.marks.Pairwise Mark.Before

/-- The start of a section leaves room for the eight bytes of its length in 64
bits. -/
def Mark.Early (mark : Mark) : Prop := mark.isSection = true → mark.start + 8 < 2 ^ 64

variable {mark : Mark}

theorem Mark.start_le_stop (hlong : mark.Long) : mark.start ≤ mark.stop := by
  cases mark with
  | lengthField start stop =>
    have := hlong rfl
    exact (Nat.le_add_right _ _).trans this
  | blocks start len => exact Nat.le_add_right _ _

/-! ## The check accepts nested marks only -/

section Check

variable {rawLen : ℕ}

/-- Open sections end before a mark starts or not before it ends. -/
def Apart (opened : List ℕ) (mark : Mark) : Prop :=
  ∀ stop ∈ opened, stop ≤ mark.start ∨ mark.stop ≤ stop

variable {stop : ℕ}

theorem markEnd_stop {busy next : ℕ} (hearly : mark.Early)
    (hend : Plan.markEnd busy mark = .ok (stop, next)) :
    stop = mark.stop ∧ mark.Long ∧
      next = if mark.isSection then busy else mark.stop := by
  cases mark with
  | lengthField start stop' =>
    have hfits : start + 8 < 2 ^ 64 := hearly rfl
    rw [Plan.markEnd, Nat.mod_eq_of_lt hfits] at hend
    split_ifs at hend with hlong
    · cases hend
      exact ⟨rfl, fun _ => hlong, rfl⟩
    · cases hend
  | blocks start len =>
    rw [Plan.markEnd] at hend
    split_ifs at hend
    · cases hend
      exact ⟨rfl, by rintro ⟨⟩, rfl⟩
    · cases hend

variable {opened : List ℕ}

/-- The stack's top is its least element, so one comparison covers them all. -/
theorem le_of_top (hsorted : opened.Pairwise (· ≤ ·)) (htop : ¬opened.head?.any (· < stop) = true) :
    ∀ e ∈ opened, stop ≤ e := by
  cases opened with
  | nil => exact fun _ hmem => absurd hmem not_mem_nil
  | cons top outer =>
    simp only [List.head?_cons, Option.any_some, decide_eq_true_eq, not_lt] at htop
    intro e he
    rcases mem_cons.mp he with rfl | houter
    · exact htop
    · exact htop.trans ((pairwise_cons.mp hsorted).1 e houter)

/-- A section is closed at a mark or stays on the stack. -/
theorem closed_or_opened {e : ℕ} (start : ℕ) (he : e ∈ opened) :
    e ≤ start ∨ e ∈ opened.dropWhile (· ≤ start) := by
  rw [← takeWhile_append_dropWhile (p := (· ≤ start)) (l := opened), mem_append] at he
  rcases he with hclosed | hopened
  · exact .inl (by simpa using mem_takeWhile_imp hclosed)
  · exact .inr hopened

theorem sorted_pushSection (mark : Mark) (hsorted : opened.Pairwise (· ≤ ·))
    (hstop : ∀ e ∈ opened, stop ≤ e) : (Plan.pushSection stop opened mark).Pairwise (· ≤ ·) := by
  cases mark with
  | lengthField start _ => exact pairwise_cons.mpr ⟨hstop, hsorted⟩
  | blocks start len => exact hsorted

theorem mem_pushSection {e : ℕ} (mark : Mark) (he : e ∈ opened) :
    e ∈ Plan.pushSection stop opened mark := by
  cases mark with
  | lengthField start _ => exact mem_cons_of_mem _ he
  | blocks start len => exact he

/-- What the scan knows of the marks it has not seen: it starts with sorted ends
of open sections. -/
theorem nested_of_checkFrom {last busy : ℕ} {marks : List Mark} (hsorted : opened.Pairwise (· ≤ ·))
    (hearly : ∀ mark ∈ marks, mark.Early)
    (hcheck : Plan.checkFrom rawLen opened last busy marks = .ok ()) :
    marks.Pairwise Mark.Before ∧ ∀ mark ∈ marks, mark.stop ≤ rawLen ∧ mark.Long ∧
      last ≤ mark.start ∧ busy ≤ mark.start ∧ Apart opened mark := by
  induction marks generalizing opened last busy with
  | nil => exact ⟨List.Pairwise.nil, fun _ hmem => absurd hmem not_mem_nil⟩
  | cons mark marks ih =>
    rw [Plan.checkFrom] at hcheck
    split_ifs at hcheck with horder
    · cases hcheck
    obtain ⟨⟨stop, next⟩, hend, hcheck⟩ := bind_eq_ok.mp hcheck
    obtain ⟨rfl, hlong, rfl⟩ := markEnd_stop (hearly mark mem_cons_self) hend
    simp only at hcheck
    split at hcheck
    · cases hcheck
    rename_i hpast
    rw [not_or] at horder hpast
    have hkept : (opened.dropWhile (· ≤ mark.start)).Pairwise (· ≤ ·) :=
      hsorted.sublist (dropWhile_sublist _)
    have hinside := le_of_top hkept hpast.2
    obtain ⟨hordered, hlater⟩ := ih (sorted_pushSection mark hkept hinside)
      (fun later hmem => hearly later (mem_cons_of_mem _ hmem)) hcheck
    refine ⟨pairwise_cons.mpr ⟨fun later hmem => ?_, hordered⟩, fun later hmem => ?_⟩
    · obtain ⟨_, _, hstart, hbusy, hapart⟩ := hlater later hmem
      refine ⟨hstart, ?_⟩
      cases mark with
      | lengthField start stop =>
        rcases hapart stop mem_cons_self with hdone | hin
        · exact .inl hdone
        · exact .inr ⟨rfl, hin⟩
      | blocks start len => exact .inl hbusy
    · rcases mem_cons.mp hmem with rfl | hmem
      · refine ⟨by omega, hlong, by omega, by omega, fun e he => ?_⟩
        rcases closed_or_opened _ he with hclosed | hopened
        · exact .inl hclosed
        · exact .inr (hinside e hopened)
      · obtain ⟨hend', hlong', hstart, _, hapart⟩ := hlater later hmem
        refine ⟨hend', hlong', by omega, by omega, fun e he => ?_⟩
        rcases closed_or_opened mark.start he with hclosed | hopened
        · exact .inl (hclosed.trans hstart)
        · exact hapart e (mem_pushSection mark hopened)

end Check

variable {plan : Plan}

/-- Without a section that starts too late, accepted marks are nested. -/
theorem Plan.nested_of_check (hcheck : plan.check = .ok ())
    (hearly : ∀ mark ∈ plan.marks, mark.Early) : plan.Nested := by
  obtain ⟨hordered, hmarks⟩ := nested_of_checkFrom List.Pairwise.nil hearly hcheck
  exact ⟨fun mark hmem => (hmarks mark hmem).1, fun mark hmem => (hmarks mark hmem).2.1, hordered⟩

/-- What `decode` returns has passed the check, and its length is a 64-bit
number. -/
theorem Plan.check_of_decode {bytes : List Byte} (hdecode : Plan.decode bytes = .ok plan) :
    plan.check = .ok () ∧ plan.rawLen < 2 ^ 64 := by
  obtain ⟨⟨configHash, reader⟩, _, hdecode⟩ := bind_eq_ok.mp hdecode
  obtain ⟨⟨rawLen, reader⟩, hraw, hdecode⟩ := bind_eq_ok.mp hdecode
  obtain ⟨⟨n, reader⟩, _, hdecode⟩ := bind_eq_ok.mp hdecode
  obtain ⟨⟨marks, reader⟩, _, hdecode⟩ := bind_eq_ok.mp hdecode
  obtain ⟨_, _, hdecode⟩ := bind_eq_ok.mp hdecode
  obtain ⟨_, hcheck, hdecode⟩ := bind_eq_ok.mp hdecode
  cases hdecode
  exact ⟨hcheck, by simpa using Reader.number_lt hraw⟩

/-! ## Nested plans have operations -/

theorem sixteen_le_length_fastText (data : List Byte) : 16 ≤ (fastText data).length := by
  obtain ⟨chunks, entries, cover, hencode, hchunks, _⟩ := Blocks.encode_spec .fast data
  rw [fastText, hencode]
  simp only [hchunks, length_append, length_leBytes]
  omega

/-- The length of an open section has its place in the content, or the raw bytes
up to the end of the section will make it. -/
def HasRoom (pos : ℕ) (content : List Byte) (e : ℕ × ℕ) : Prop :=
  e.2 ≤ content.length ∧
    (e.2 + 8 ≤ content.length ∨ e.2 + 8 ≤ content.length + (e.1 - pos))

/-- At raw position `pos`, with the sections `stack` open, the marks `marks` and
`count` raw bytes are to come. -/
structure Ahead (pos : ℕ) (content : List Byte) (stack : List (ℕ × ℕ)) (marks : List Mark)
    (count : ℕ) : Prop where
  later : ∀ mark ∈ marks, pos ≤ mark.start ∧ mark.stop ≤ pos + count ∧ mark.Long
  ordered : marks.Pairwise Mark.Before
  sorted : stack.Pairwise (fun inner outer => inner.1 ≤ outer.1)
  ends : ∀ e ∈ stack, pos ≤ e.1 ∧ e.1 ≤ pos + count
  apart : ∀ mark ∈ marks, ∀ e ∈ stack, e.1 ≤ mark.start ∨ mark.stop ≤ e.1
  room : ∀ e ∈ stack, HasRoom pos content e

namespace Ahead

variable {pos count : ℕ} {content : List Byte} {stack : List (ℕ × ℕ)} {marks : List Mark}

theorem leave {e : ℕ × ℕ} (hahead : Ahead pos content (e :: stack) marks count)
    (hhere : e.1 = pos) :
    e.2 + 8 ≤ content.length ∧
      Ahead pos (writeAt content e.2 (leBytes 8 (content.length - e.2 - 8))) stack marks
        count := by
  have hroom : e.2 + 8 ≤ content.length := by
    have := (hahead.room e mem_cons_self).2
    omega
  have hlength : (writeAt content e.2 (leBytes 8 (content.length - e.2 - 8))).length =
      content.length := length_writeAt (by rw [length_leBytes]; exact hroom)
  refine ⟨hroom, hahead.later, hahead.ordered, (pairwise_cons.mp hahead.sorted).2,
    fun outer houter => hahead.ends outer (mem_cons_of_mem _ houter),
    fun mark hmark outer houter => hahead.apart mark hmark outer (mem_cons_of_mem _ houter),
    fun outer houter => ?_⟩
  have houter := hahead.room outer (mem_cons_of_mem _ houter)
  rw [HasRoom] at houter ⊢
  rwa [hlength]

/-- A mark that starts here ends before every open section does, when none of
them ends here. -/
theorem stop_le (hahead : Ahead pos content stack (mark :: marks) count) (hclear : Clear pos stack)
    (hhere : mark.start = pos) : ∀ e ∈ stack, mark.stop ≤ e.1 := by
  intro e he
  rcases hahead.apart mark mem_cons_self e he with hdone | hinside
  · cases hstack : stack with
    | nil =>
      rw [hstack] at he
      exact absurd he not_mem_nil
    | cons top outer =>
      have hne : top.1 ≠ pos := hclear top (by rw [hstack]; rfl)
      have htop := (hahead.ends top (by rw [hstack]; exact mem_cons_self)).1
      have hsorted := hahead.sorted
      rw [hstack] at he hsorted
      have hle : top.1 ≤ e.1 := by
        rcases mem_cons.mp he with rfl | houter
        · exact le_rfl
        · exact (pairwise_cons.mp hsorted).1 e houter
      omega
  · exact hinside

theorem enter {stop : ℕ} (hahead : Ahead pos content stack (.lengthField pos stop :: marks) count)
    (hclear : Clear pos stack) :
    Ahead pos content ((stop, content.length) :: stack) marks count := by
  obtain ⟨_, hinside, hlong⟩ := hahead.later _ mem_cons_self
  have hlong : pos + 8 ≤ stop := hlong rfl
  have hends := hahead.stop_le hclear rfl
  obtain ⟨hbefore, hordered⟩ := pairwise_cons.mp hahead.ordered
  refine ⟨fun mark hmark => hahead.later mark (mem_cons_of_mem _ hmark), hordered,
    pairwise_cons.mpr ⟨hends, hahead.sorted⟩, ?_, ?_, ?_⟩
  · intro e he
    rcases mem_cons.mp he with rfl | houter
    · exact ⟨by simp only; omega, hinside⟩
    · exact hahead.ends e houter
  · intro mark hmark e he
    rcases mem_cons.mp he with rfl | houter
    · rcases (hbefore mark hmark).2 with hdone | ⟨_, hin⟩
      · exact .inl hdone
      · exact .inr hin
    · exact hahead.apart mark (mem_cons_of_mem _ hmark) e houter
  · intro e he
    rcases mem_cons.mp he with rfl | houter
    · exact ⟨le_rfl, .inr (by simp only; omega)⟩
    · exact hahead.room e houter

theorem blocks {len : ℕ} (hahead : Ahead pos content stack (.blocks pos len :: marks) count)
    (hclear : Clear pos stack) {text : List Byte} (htext : 16 ≤ text.length) :
    Ahead (pos + len) (content ++ text) stack marks (count - len) := by
  have hends : ∀ e ∈ stack, pos + len ≤ e.1 := hahead.stop_le hclear rfl
  obtain ⟨hbefore, hordered⟩ := pairwise_cons.mp hahead.ordered
  refine ⟨fun mark hmark => ?_, hordered, hahead.sorted, fun e he => ?_,
    fun mark hmark => hahead.apart mark (mem_cons_of_mem _ hmark), fun e he => ?_⟩
  · obtain ⟨_, hstop, hlong⟩ := hahead.later mark (mem_cons_of_mem _ hmark)
    rcases (hbefore mark hmark).2 with hdone | ⟨hsection, _⟩
    · exact ⟨hdone, by omega, hlong⟩
    · cases hsection
  · have := (hahead.ends e he).2
    exact ⟨hends e he, by omega⟩
  · have hstart := (hahead.room e he).1
    rw [HasRoom, length_append]
    omega

section

variable (hahead : Ahead pos content stack marks count)
include hahead

theorem bytes {n : ℕ} (hn : n ≤ count) (hmarks : ∀ mark ∈ marks, pos + n ≤ mark.start)
    (hstack : ∀ e ∈ stack, pos + n ≤ e.1) {text : List Byte} (htext : text.length = n) :
    Ahead (pos + n) (content ++ text) stack marks (count - n) := by
  refine ⟨fun mark hmark => ?_, hahead.ordered, hahead.sorted, fun e he => ?_, hahead.apart,
    fun e he => ?_⟩
  · obtain ⟨_, hstop, hlong⟩ := hahead.later mark hmark
    exact ⟨hmarks mark hmark, by omega, hlong⟩
  · have := (hahead.ends e he).2
    exact ⟨hstack e he, by omega⟩
  · have hroom := hahead.room e he
    rw [HasRoom] at hroom ⊢
    rw [length_append]
    omega

/-- The least of the starts and ends ahead. -/
theorem head_le {n : ℕ} (hmark : ∀ mark ∈ marks.head?, n ≤ mark.start)
    (htop : ∀ e ∈ stack.head?, n ≤ e.1) :
    (∀ mark ∈ marks, n ≤ mark.start) ∧ ∀ e ∈ stack, n ≤ e.1 := by
  constructor
  · cases marks with
    | nil => exact fun _ hmem => absurd hmem not_mem_nil
    | cons first later =>
      intro mark hmem
      have hfirst := hmark first rfl
      rcases mem_cons.mp hmem with rfl | hlater
      · exact hfirst
      · exact hfirst.trans ((pairwise_cons.mp hahead.ordered).1 mark hlater).1
  · cases stack with
    | nil => exact fun _ hmem => absurd hmem not_mem_nil
    | cons top outer =>
      intro e he
      have hfirst := htop top rfl
      rcases mem_cons.mp he with rfl | houter
      · exact hfirst
      · exact hfirst.trans ((pairwise_cons.mp hahead.sorted).1 e houter)

/-- Where nothing starts and nothing ends there is a raw byte of its own. -/
theorem past_byte (hclear : Clear pos stack) (hmark : ∀ mark ∈ marks.head?, mark.start ≠ pos) :
    (∀ mark ∈ marks, pos + 1 ≤ mark.start) ∧ ∀ e ∈ stack, pos + 1 ≤ e.1 := by
  refine hahead.head_le (fun mark hmem => ?_) (fun e he => ?_)
  · have hle := (hahead.later mark (mem_of_mem_head? hmem)).1
    have hne := hmark mark hmem
    omega
  · have hle := (hahead.ends e (mem_of_mem_head? he)).1
    have hne := hclear e he
    omega

end

/-- Without raw bytes, starts and ends at the position, nothing is ahead. -/
theorem eq_nil (hahead : Ahead pos content stack marks 0) (hclear : Clear pos stack)
    (hmark : ∀ mark ∈ marks.head?, mark.start ≠ pos) : stack = [] ∧ marks = [] := by
  constructor
  · cases stack with
    | nil => rfl
    | cons top outer =>
      have hends := hahead.ends top mem_cons_self
      exact absurd (le_antisymm hends.2 hends.1) (hclear top rfl)
  · cases marks with
    | nil => rfl
    | cons mark later =>
      obtain ⟨hstart, hstop, hlong⟩ := hahead.later mark mem_cons_self
      have hle := Mark.start_le_stop hlong
      exact absurd (by omega) (hmark mark rfl)

/-- What is ahead is the work of some operations.  The induction is on raw
bytes, marks and open sections together; a mark that starts a section counts
more than the section it opens. -/
theorem builds {raw : List Byte} (hahead : Ahead pos content stack marks raw.length) :
    ∃ ops final, Builds pos content stack ops final ∧ rawOf ops = raw ∧
      marksOf pos ops = marks := by
  induction hmeasure : raw.length + 2 * marks.length + stack.length using
    Nat.strong_induction_on generalizing pos content stack marks raw with
  | _ measure ih =>
    subst hmeasure
    by_cases hclear : Clear pos stack
    swap
    · cases stack with
      | nil => exact absurd (by simp [Clear]) hclear
      | cons top outer =>
        obtain ⟨stop, k⟩ := top
        obtain rfl : stop = pos := by simpa [Clear] using hclear
        obtain ⟨hroom, hnext⟩ := hahead.leave rfl
        obtain ⟨ops, final, hbuilds, hraw, hmarks⟩ :=
          ih _ (by simp only [length_cons]; omega) hnext rfl
        exact ⟨.leave :: ops, final, .leave hroom hbuilds, hraw, hmarks⟩
    by_cases hmark : ∀ mark ∈ marks.head?, mark.start ≠ pos
    · by_cases hempty : raw = []
      · subst hempty
        obtain ⟨rfl, rfl⟩ := hahead.eq_nil hclear hmark
        exact ⟨[], content, .done, rfl, rfl⟩
      · obtain ⟨hstarts, hends⟩ := hahead.past_byte hclear hmark
        have hsome : 0 < raw.length := length_pos_iff.mpr hempty
        have htake : (raw.take 1).length = 1 := by
          rw [length_take, Nat.min_eq_left hsome]
        have hnext := hahead.bytes hsome hstarts hends htake
        rw [← length_drop] at hnext
        obtain ⟨ops, final, hbuilds, hraw, hmarks⟩ := ih _ (by rw [length_drop]; omega) hnext rfl
        refine ⟨.bytes (raw.take 1) :: ops, final, .bytes ?_ hclear ?_, ?_, ?_⟩
        · exact ne_nil_of_length_pos (by omega)
        · rwa [htake]
        · rw [rawOf_cons, hraw, Op.raw, take_append_drop]
        · rwa [marksOf, htake]
    · cases marks with
      | nil => exact absurd (by simp) hmark
      | cons mark marks =>
        have hhere : mark.start = pos := by simpa using hmark
        cases mark with
        | lengthField start stop =>
          obtain rfl : start = pos := hhere
          obtain ⟨ops, final, hbuilds, hraw, hmarks⟩ :=
            ih _ (by simp only [length_cons]; omega) (hahead.enter hclear) rfl
          exact ⟨.enter stop :: ops, final, .enter hclear hbuilds, hraw, by
            rw [marksOf, hmarks]⟩
        | blocks start len =>
          obtain rfl : start = pos := hhere
          have hlen : len ≤ raw.length := by
            have : start + len ≤ start + raw.length := (hahead.later _ mem_cons_self).2.1
            omega
          have htake : (raw.take len).length = len := by
            rw [length_take, Nat.min_eq_left hlen]
          have hnext := hahead.blocks hclear (sixteen_le_length_fastText (raw.take len))
          rw [← length_drop] at hnext
          obtain ⟨ops, final, hbuilds, hraw, hmarks⟩ :=
            ih _ (by simp only [length_cons, length_drop]; omega) hnext rfl
          refine ⟨.blocks (raw.take len) :: ops, final, .blocks hclear ?_, ?_, ?_⟩
          · rwa [htake]
          · rw [rawOf_cons, hraw, Op.raw, take_append_drop]
          · rw [marksOf, htake, hmarks]

end Ahead

theorem Plan.Nested.builds (hnested : plan.Nested) {raw : List Byte}
    (hlength : raw.length = plan.rawLen) :
    ∃ ops final, Builds 0 [] [] ops final ∧ rawOf ops = raw ∧ marksOf 0 ops = plan.marks := by
  apply Ahead.builds
  exact {
    later := fun mark hmark => ⟨Nat.zero_le _, by
      rw [Nat.zero_add, hlength]
      exact hnested.inside mark hmark, hnested.long mark hmark⟩
    ordered := hnested.ordered
    sorted := List.Pairwise.nil
    ends := fun _ hmem => absurd hmem not_mem_nil
    apart := fun _ _ _ hmem => absurd hmem not_mem_nil
    room := fun _ hmem => absurd hmem not_mem_nil }

/-! ## Every state of a run -/

/-- The states of the assembler between the turns of its loops, for a raw stream
cut anyhow, with the raw bytes it has not taken yet. -/
inductive Reaches (plan : Plan) (raw : List Byte) : Assembler → List Byte → Prop where
  | new : Reaches plan raw (new plan) raw
  | event {a next : Assembler} {left : List Byte} {e : Event} (hreaches : Reaches plan raw a left)
      (hevent : a.event = some e) (hstep : a.step e = .ok next) : Reaches plan raw next left
  | consume {a next : Assembler} {left data : List Byte} {n : ℕ}
      (hreaches : Reaches plan raw a left) (hevent : a.event = none) (hdata : data ≠ [])
      (hfront : data <+: left) (hconsume : a.consume data = .ok (n, next)) :
      Reaches plan raw next (left.drop n)

/-- The bytes that an event patches are content written before. -/
def Assembler.PatchesWritten (a : Assembler) : Event → Prop
  | .finish stream => headerLen ≤ stream.countAt ∧ stream.countAt + 8 ≤ a.o.pos
  | .leave start _ => headerLen ≤ start ∧ start + 8 ≤ a.o.pos
  | .enter _ => True
  | .start _ => True

section Runs

variable {plan : Plan} {raw left final : List Byte} {a next : Assembler} {ops : List Op}

theorem Reaches.events (hreaches : Reaches plan raw a left) (hevents : a.events = .ok next) :
    Reaches plan raw next left ∧ next.event = none := by
  induction hweight : a.weight using Nat.strong_induction_on generalizing a with
  | _ weight ih =>
    subst hweight
    rw [events] at hevents
    split at hevents
    · rename_i hnone
      cases hevents
      exact ⟨hreaches, hnone⟩
    · rename_i e hsome
      split at hevents
      · rename_i middle hstep
        exact ih _ (weight_step hsome hstep) (hreaches.event hsome hstep) hevents rfl
      · cases hevents

/-- At every moment the assembler has the rest of the plan's work left. -/
theorem Reaches.work (hbuilds : Builds 0 [] [] ops final) (hmarks : plan.marks = marksOf 0 ops)
    (hrawLen : plan.rawLen = (rawOf ops).length) (hraw : raw = rawOf ops)
    (hreaches : Reaches plan raw a left) : Left plan final a left := by
  induction hreaches with
  | new =>
    rw [hraw]
    refine .idle rfl ⟨rfl, rfl, .inl rfl⟩ ⟨rfl, Nat.zero_le _, hmarks, rfl, ?_⟩ hbuilds
    rw [hrawLen]
    exact (Nat.zero_add _).symm
  | event _ hevent hstep ih =>
    obtain ⟨next', hstep', hnext⟩ := step_spec ih hevent
    rw [hstep] at hstep'
    cases hstep'
    exact hnext
  | consume _ hevent hdata hfront hconsume ih =>
    obtain ⟨n', next', hconsume', _, _, hnext⟩ := consume_spec ih hevent hdata hfront
    rw [hconsume] at hconsume'
    cases hconsume'
    exact hnext

/-- With work left that builds something, every patch is inside the content. -/
theorem Left.patchesWritten (hleft : Left plan final a left) {e : Event}
    (hevent : a.event = some e) : a.PatchesWritten e := by
  cases hleft with
  | @busy stream data base n stack ops hblocks hfed hleft hqueue hbuilds =>
    rw [event, hblocks] at hevent
    dsimp only at hevent
    split_ifs at hevent
    cases hevent
    obtain ⟨content, st, hholds, hmirrors⟩ := hfed.mirrors
    obtain ⟨entries, hcontent, _⟩ := hmirrors.bytes
    rw [Assembler.PatchesWritten, hmirrors.countAt, hholds.pos, hcontent]
    simp only [length_append, length_leBytes]
    omega
  | @idle content stack ops hblocks hholds hqueue hbuilds =>
    by_cases hclear : Clear a.rp stack
    · rw [event_clear hblocks (hqueue.clear hclear)] at hevent
      obtain ⟨_, ⟨stop, rfl⟩ | ⟨len, rfl⟩⟩ := markEvent_some hevent
      · trivial
      · trivial
    · cases hbuilds with
      | done => exact absurd (by simp [Clear]) hclear
      | bytes _ h _ => exact absurd h hclear
      | enter h _ => exact absurd h hclear
      | blocks h _ => exact absurd h hclear
      | @leave _ k _ _ outer ops hroom hrest =>
        rw [event, hblocks, hqueue.opened, map_cons] at hevent
        simp only [if_true] at hevent
        cases hevent
        rw [Assembler.PatchesWritten, hholds.pos]
        omega

variable (hwork : ∀ a left, Reaches plan raw a left → Left plan final a left)
include hwork

/-- A piece leads from a state of the run to a state of the run. -/
theorem Reaches.pushLoop {data : List Byte} (hreaches : Reaches plan raw a left)
    (hfront : data <+: left) (hpush : a.pushLoop data = .ok next) :
    Reaches plan raw next (left.drop data.length) := by
  induction hlength : data.length using Nat.strong_induction_on generalizing a left data with
  | _ length ih =>
    subst hlength
    rw [pushLoop] at hpush
    obtain ⟨settled, hevents, hpush⟩ := bind_eq_ok.mp hpush
    obtain ⟨hsettled, hnone⟩ := hreaches.events hevents
    by_cases hdata : data = []
    · rw [dif_pos hdata] at hpush
      cases hpush
      rw [hdata]
      exact hsettled
    · rw [dif_neg hdata] at hpush
      obtain ⟨⟨n, taken⟩, hconsume, hpush⟩ := bind_eq_ok.mp hpush
      obtain ⟨n', next', hconsume', hpos, hshort, _⟩ :=
        consume_spec (hwork _ _ hsettled) hnone hdata hfront
      rw [hconsume] at hconsume'
      cases hconsume'
      have hlater := ih (data.drop n).length (by rw [length_drop]; omega)
        (hsettled.consume hnone hdata hfront hconsume) (hfront.drop n)
        ((dif_neg hpos.ne').symm.trans hpush) rfl
      rwa [length_drop, drop_drop, Nat.add_sub_cancel' hshort] at hlater

theorem Reaches.push {data : List Byte} (hreaches : Reaches plan raw a left)
    (hfront : data <+: left) (hpush : a.push data = .ok next) :
    Reaches plan raw next (left.drop data.length) := by
  obtain ⟨_, _, hpush⟩ := bind_eq_ok.mp hpush
  split_ifs at hpush
  · cases hpush
  · exact hreaches.pushLoop hwork hfront hpush

/-- So the states of `Reaches` are those of `push` and `finish`. -/
theorem Reaches.pushes {pieces : List (List Byte)} (hreaches : Reaches plan raw a pieces.flatten)
    (hpush : pieces.foldlM Assembler.push a = .ok next) : Reaches plan raw next [] := by
  induction pieces generalizing a with
  | nil =>
    cases hpush
    exact hreaches
  | cons piece pieces ih =>
    obtain ⟨middle, hfirst, hrest⟩ := bind_eq_ok.mp hpush
    rw [flatten_cons] at hreaches
    have hmiddle := hreaches.push hwork (prefix_append _ _) hfirst
    rw [drop_left] at hmiddle
    exact ih hmiddle hrest

end Runs

/-- The marks are nested, every raw stream of the plan's length is assembled
into a file however it is cut, and no patch on the way lies outside what was
written. -/
structure Plan.Sufficient (plan : Plan) : Prop where
  nested : plan.Nested
  finishes : ∀ pieces : List (List Byte), pieces.flatten.length = plan.rawLen →
    ∃ file, assemble plan pieces = .ok file
  written : ∀ raw : List Byte, raw.length = plan.rawLen → ∀ a left, Reaches plan raw a left →
    ∀ e, a.event = some e → a.PatchesWritten e

theorem Plan.Nested.sufficient (hnested : plan.Nested) : plan.Sufficient := by
  refine ⟨hnested, fun pieces hlength => ?_, fun raw hlength a left hreaches e hevent => ?_⟩
  · obtain ⟨ops, final, hbuilds, hraw, hmarks⟩ := hnested.builds hlength
    exact ⟨_, assemble_spec hbuilds hmarks.symm (by rw [hraw, hlength]) hraw.symm⟩
  · obtain ⟨ops, final, hbuilds, hraw, hmarks⟩ := hnested.builds hlength
    exact (hreaches.work hbuilds hmarks.symm (by rw [hraw, hlength])
      hraw.symm).patchesWritten hevent

/-- A decoded plan is all that the assembler needs exactly when no section
starts within eight bytes of the end of the 64-bit numbers. -/
theorem sufficient_iff_of_decode {bytes : List Byte} {plan : Plan}
    (hdecode : Plan.decode bytes = .ok plan) :
    plan.Sufficient ↔ ∀ mark ∈ plan.marks, mark.Early := by
  obtain ⟨hcheck, hrawLen⟩ := Plan.check_of_decode hdecode
  constructor
  · intro hsufficient mark hmark hsection
    calc
      mark.start + 8 ≤ mark.stop := hsufficient.nested.long mark hmark hsection
      _ ≤ plan.rawLen := hsufficient.nested.inside mark hmark
      _ < 2 ^ 64 := hrawLen
  · intro hearly
    exact (Plan.nested_of_check hcheck hearly).sufficient

/-- A section of the whole stream, with large data after its length. -/
theorem sufficient_iff_of_decode_section :
    let plan : Plan := ⟨7, [.lengthField 4 20, .blocks 12 8], 20⟩
    Plan.decode plan.encode = .ok plan ∧ plan.Sufficient := by
  have hdecode : Plan.decode (Plan.mk 7 [.lengthField 4 20, .blocks 12 8] 20).encode =
      .ok ⟨7, [.lengthField 4 20, .blocks 12 8], 20⟩ := by
    decide +kernel
  refine ⟨hdecode, (sufficient_iff_of_decode hdecode).mpr ?_⟩
  simp [Mark.Early, Mark.isSection, Mark.start]

/-- A section that starts four bytes before the end of the 64-bit numbers, in a
stream of ten bytes. -/
def latePlan : Plan := ⟨0, [.lengthField (2 ^ 64 - 4) 10], 10⟩

/-- It is accepted, but its mark is never reached and `finish` rejects the
plan. -/
theorem accepted_not_complete :
    Plan.decode latePlan.encode = .ok latePlan ∧
      assemble latePlan [List.replicate latePlan.rawLen 0] =
        fail (.invalid "deferred save: plan not complete") := by
  have hsettled : ∀ a : Assembler, a.event = none → a.events = .ok a := by
    intro a hnone
    rw [events]
    split
    · rfl
    · simp_all
  set data : List Byte := List.replicate latePlan.rawLen 0
  -- All ten bytes are raw bytes before the mark.
  set whole : Assembler :=
    { new latePlan with rp := 10, o := (new latePlan).o.put (data.take 10) }
  have hpush : (new latePlan).push data = .ok whole := by
    have hrest : whole.pushLoop (data.drop 10) = .ok whole := by
      rw [pushLoop, hsettled whole rfl]
      rfl
    rw [push, pushLoop, hsettled _ rfl]
    exact hrest
  have hfinish : whole.finish = fail (.invalid "deferred save: plan not complete") := by
    rw [finish, if_neg (by simp [whole, latePlan, new]), hsettled whole rfl]
    rfl
  refine ⟨by decide +kernel, ?_⟩
  rw [assemble, foldlM_cons, hpush, ok_bind, foldlM_nil, pure_bind, hfinish]
  rfl

end Vetro.Save
