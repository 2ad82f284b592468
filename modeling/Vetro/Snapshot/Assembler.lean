import Vetro.Snapshot.BlockStream

/-!
# Assembling a deferred save

`vetro-snapshot/src/deferred.rs`, the assembler: an event machine driven by the
marks of a plan, which receives the raw stream cut anyhow and writes the file.
`Builds` says what a sequence of operations (bytes, a section that starts or
ends, large data) makes of the content.  The assembler keeps, at every moment,
a sequence of operations that is still to be done; when it finishes, the file
holds what the operations of the whole plan build.
-/

namespace Vetro.Save

open Bytes List
open Splice
open Outcome
open Format

/-! ## Model -/

/-- Turns a plan and its raw stream into the snapshot file: raw bytes consumed,
marks used, open sections (raw end, file position of their length; the innermost
first), the large data being written, and the output. -/
structure Assembler where
  plan : Plan
  rp : ℕ
  next : ℕ
  opened : List (ℕ × ℕ)
  blocks : Option BlockStream
  o : Buffered

/-- What happens at a raw position. -/
inductive Event where
  | finish (stream : BlockStream)
  | leave (start : ℕ) (outer : List (ℕ × ℕ))
  | enter (stop : ℕ)
  | start (len : ℕ)

namespace Assembler

/-- For `plan`; the file content starts after the header. -/
def new (plan : Plan) : Assembler := ⟨plan, 0, 0, [], none, ⟨[], headerLen, []⟩⟩

/-- The next mark, if it is at the current position. -/
def markEvent (a : Assembler) : Option Event :=
  match a.plan.marks[a.next]? with
  | some (.lengthField start stop) => if start = a.rp then some (.enter stop) else none
  | some (.blocks start len) => if start = a.rp then some (.start len) else none
  | none => none

/-- The next event of the current position: blocks that end, sections that
close, marks that start. -/
def event (a : Assembler) : Option Event :=
  match a.blocks, a.opened with
  | some stream, _ => if stream.left = 0 then some (.finish stream) else none
  | none, (stop, start) :: outer =>
    if stop = a.rp then some (.leave start outer) else a.markEvent
  | none, [] => a.markEvent

def step (a : Assembler) : Event → Result Error Assembler
  | .finish stream => do
    let o ← stream.finish a.o
    .ok { a with blocks := none, o }
  | .leave start outer => do
    require (start + 8 ≤ a.o.pos)
    let o ← a.o.patch start (leBytes 8 (a.o.pos - start - 8))
    .ok { a with opened := outer, o }
  | .enter stop =>
    .ok { a with next := a.next + 1, opened := (stop, a.o.pos) :: a.opened }
  | .start len =>
    let (stream, o) := BlockStream.start a.o len
    .ok { a with next := a.next + 1, blocks := some stream, o }

/-- What the events of one position use up. -/
def weight (a : Assembler) : ℕ :=
  3 * (a.plan.marks.length - a.next) + a.opened.length + if a.blocks.isSome then 2 else 0

variable {e : Event}

theorem markEvent_some {a : Assembler} (hevent : a.markEvent = some e) :
    a.next < a.plan.marks.length ∧ ((∃ stop, e = .enter stop) ∨ ∃ len, e = .start len) := by
  rw [markEvent] at hevent
  split at hevent
  · rename_i start stop hmark
    split_ifs at hevent
    cases hevent
    exact ⟨(List.getElem?_eq_some_iff.mp hmark).1, .inl ⟨stop, rfl⟩⟩
  · rename_i start len hmark
    split_ifs at hevent
    cases hevent
    exact ⟨(List.getElem?_eq_some_iff.mp hmark).1, .inr ⟨len, rfl⟩⟩
  · cases hevent

theorem markEvent_eq_none {a : Assembler} :
    a.markEvent = none ↔ ∀ mark ∈ a.plan.marks[a.next]?, mark.start ≠ a.rp := by
  rw [markEvent]
  cases hmark : a.plan.marks[a.next]? with
  | none => simp
  | some mark => cases mark <;> simp [Mark.start]

/-- An event of a mark comes when no large data is being written. -/
theorem weight_mark {a next : Assembler} (hnone : a.blocks = none) (hevent : a.markEvent = some e)
    (hstep : a.step e = .ok next) : next.weight < a.weight := by
  obtain ⟨hmore, ⟨stop, rfl⟩ | ⟨len, rfl⟩⟩ := markEvent_some hevent
  · cases hstep
    simp only [weight, length_cons]
    omega
  · cases hstep
    simp only [weight, hnone, Option.isSome_none, Option.isSome_some, if_true,
      Bool.false_eq_true, if_false]
    omega

theorem weight_step {a next : Assembler} (hevent : a.event = some e) (hstep : a.step e = .ok next) :
    next.weight < a.weight := by
  rw [event] at hevent
  split at hevent
  · rename_i stream hblocks
    split_ifs at hevent
    cases hevent
    obtain ⟨o, _, hnext⟩ := bind_eq_ok.mp hstep
    cases hnext
    simp [weight, hblocks]
  · rename_i stop start outer hblocks hopened
    split_ifs at hevent
    · cases hevent
      obtain ⟨_, _, hpatch⟩ := bind_eq_ok.mp hstep
      obtain ⟨o, _, hnext⟩ := bind_eq_ok.mp hpatch
      cases hnext
      simp only [weight, hopened, length_cons]
      omega
    · exact weight_mark hblocks hevent hstep
  · rename_i hblocks _
    exact weight_mark hblocks hevent hstep

/-- All the events of the current position. -/
def events (a : Assembler) : Result Error Assembler :=
  match hevent : a.event with
  | none => .ok a
  | some e =>
    match hstep : a.step e with
    | .ok next => events next
    | .error stop => .error stop
termination_by a.weight
decreasing_by exact weight_step hevent hstep

/-- Raw bytes go up to the next mark or section end. -/
def stop (a : Assembler) : ℕ :=
  let stop := match a.plan.marks[a.next]? with
    | some mark => min a.plan.rawLen mark.start
    | none => a.plan.rawLen
  match a.opened with
  | (inner, _) :: _ => min stop inner
  | [] => stop

/-- Takes bytes of the raw stream up to the next event; returns how many. -/
def consume (a : Assembler) (data : List Byte) : Result Error (ℕ × Assembler) :=
  match a.blocks with
  | some stream => do
    let (n, stream, o) ← stream.feed a.o data
    .ok (n, { a with rp := a.rp + n, blocks := some stream, o })
  | none => do
    require (a.rp ≤ a.stop)
    let n := min (a.stop - a.rp) data.length
    .ok (n, { a with rp := a.rp + n, o := a.o.put (data.take n) })

/-- The loop of `push`; a turn that takes nothing would be repeated for ever. -/
def pushLoop (a : Assembler) (data : List Byte) : Result Error Assembler := do
  let a ← a.events
  if hdata : data = [] then .ok a
  else do
    let (n, a) ← a.consume data
    if hn : n = 0 then hang else pushLoop a (data.drop n)
termination_by data.length
decreasing_by
  have := length_pos_iff.mpr hdata
  rw [length_drop]
  omega

/-- The next bytes of the raw stream. -/
def push (a : Assembler) (data : List Byte) : Result Error Assembler := do
  require (a.rp ≤ a.plan.rawLen)
  if a.plan.rawLen - a.rp < data.length then
    fail (.invalid "deferred save: more bytes than the plan")
  else a.pushLoop data

/-- Bytes read back at a time for the checksum. -/
def chunkLen : ℕ := 4 * 2 ^ 20

def checksum (out : List Byte) (stop start : ℕ) (h : Hash64) : Result Error Hash64 :=
  if hmore : start < stop then do
    let n := min (stop - start) chunkLen
    let bytes ← readOut out start n
    checksum out stop (start + n) (h.update bytes)
  else .ok h
termination_by stop - start
decreasing_by
  have : 0 < chunkLen := by decide
  omega

/-- The header for a content of `len` bytes. -/
def header (configHash len : ℕ) (sum : UInt64) : List Byte :=
  let head := (encodeFile configHash []).take headerLen
  writeAt (writeAt head 20 (leBytes 8 len)) 28 (leBytes 8 sum.toNat)

/-- After the whole raw stream: the header, with the length and the checksum
read back from the file.  Returns the file length. -/
def finish (a : Assembler) : Result Error (ℕ × List Byte) :=
  if a.rp ≠ a.plan.rawLen then fail .truncated
  else do
    let a ← a.events
    if a.blocks.isSome ∨ a.opened ≠ [] ∨ a.next ≠ a.plan.marks.length then
      fail (.invalid "deferred save: plan not complete")
    else do
      let o := a.o.flush
      require (headerLen ≤ o.pos)
      let len := o.pos - headerLen
      let h ← checksum o.out o.pos headerLen (Hash64.new len)
      .ok (o.pos, writeOut o.out 0 (header a.plan.configHash len h.finish))

end Assembler

/-- Assembles a plan from its raw stream, handed over in pieces. -/
def assemble (plan : Plan) (pieces : List (List Byte)) : Result Error (List Byte) := do
  let a ← pieces.foldlM Assembler.push (Assembler.new plan)
  let (n, out) ← a.finish
  .ok (out.take n)

/-! ## Operations -/

/-- What the raw stream and its marks say, in the order in which the assembler
meets it. -/
inductive Op where
  | bytes (b : List Byte)
  | enter (stop : ℕ)
  | leave
  | blocks (data : List Byte)

def Op.raw : Op → List Byte
  | .bytes b => b
  | .enter _ => []
  | .leave => []
  | .blocks data => data

def rawOf (ops : List Op) : List Byte := ops.flatMap Op.raw

@[simp]
theorem rawOf_nil : rawOf [] = [] := rfl

@[simp]
theorem rawOf_cons (op : Op) (ops : List Op) : rawOf (op :: ops) = op.raw ++ rawOf ops := rfl

@[simp]
theorem rawOf_append (left right : List Op) : rawOf (left ++ right) = rawOf left ++ rawOf right :=
  flatMap_append

/-- The marks of operations whose raw bytes start at `pos`. -/
def marksOf : ℕ → List Op → List Mark
  | _, [] => []
  | pos, .bytes b :: ops => marksOf (pos + b.length) ops
  | pos, .enter stop :: ops => .lengthField pos stop :: marksOf pos ops
  | pos, .leave :: ops => marksOf pos ops
  | pos, .blocks data :: ops => .blocks pos data.length :: marksOf (pos + data.length) ops

theorem marksOf_append (pos : ℕ) (left right : List Op) :
    marksOf pos (left ++ right) =
      marksOf pos left ++ marksOf (pos + (rawOf left).length) right := by
  induction left generalizing pos with
  | nil => simp [marksOf]
  | cons op left ih =>
    cases op <;> simp [marksOf, ih, Op.raw, Nat.add_assoc]

variable {pos : ℕ}

theorem le_start_of_mem_marksOf {ops : List Op} {mark : Mark} (hmem : mark ∈ marksOf pos ops) :
    pos ≤ mark.start := by
  induction ops generalizing pos with
  | nil => simp [marksOf] at hmem
  | cons op ops ih =>
    cases op with
    | bytes b => exact (Nat.le_add_right _ _).trans (ih hmem)
    | enter stop =>
      rcases mem_cons.mp hmem with rfl | hlater
      · exact le_rfl
      · exact ih hlater
    | leave => exact ih hmem
    | blocks data =>
      rcases mem_cons.mp hmem with rfl | hlater
      · exact le_rfl
      · exact (Nat.le_add_right _ _).trans (ih hlater)

/-- No open section ends at `pos`: the innermost one does not. -/
def Clear (pos : ℕ) (stack : List (ℕ × ℕ)) : Prop := ∀ e ∈ stack.head?, e.1 ≠ pos

/-- From raw position `pos`, with `content` written and the sections `stack`
open (raw end, offset of the length), the operations build `final`.  A section
that ends at a position ends before anything else happens there. -/
inductive Builds : ℕ → List Byte → List (ℕ × ℕ) → List Op → List Byte → Prop where
  | done {pos : ℕ} {content : List Byte} : Builds pos content [] [] content
  | bytes {pos : ℕ} {content b final : List Byte} {stack : List (ℕ × ℕ)} {ops : List Op}
      (hsome : b ≠ []) (hclear : Clear pos stack)
      (hrest : Builds (pos + b.length) (content ++ b) stack ops final) :
      Builds pos content stack (.bytes b :: ops) final
  | enter {pos stop : ℕ} {content final : List Byte} {stack : List (ℕ × ℕ)} {ops : List Op}
      (hclear : Clear pos stack)
      (hrest : Builds pos content ((stop, content.length) :: stack) ops final) :
      Builds pos content stack (.enter stop :: ops) final
  | leave {pos k : ℕ} {content final : List Byte} {stack : List (ℕ × ℕ)} {ops : List Op}
      (hroom : k + 8 ≤ content.length)
      (hrest : Builds pos (writeAt content k (leBytes 8 (content.length - k - 8))) stack
        ops final) :
      Builds pos content ((pos, k) :: stack) (.leave :: ops) final
  | blocks {pos : ℕ} {content data final : List Byte} {stack : List (ℕ × ℕ)}
      {ops : List Op} (hclear : Clear pos stack)
      (hrest : Builds (pos + data.length) (content ++ fastText data) stack ops final) :
      Builds pos content stack (.blocks data :: ops) final

section Builds

variable {pos n : ℕ} {content final : List Byte} {stack : List (ℕ × ℕ)} {ops : List Op}

/-- Open sections end later. -/
theorem Builds.le_stack (hbuilds : Builds pos content stack ops final) :
    ∀ e ∈ stack, pos ≤ e.1 := by
  induction hbuilds with
  | done => simp
  | bytes _ _ _ ih => exact fun e he => (Nat.le_add_right _ _).trans (ih e he)
  | enter _ _ ih => exact fun e he => ih e (mem_cons_of_mem _ he)
  | leave _ _ ih =>
    intro e he
    rcases mem_cons.mp he with rfl | hlater
    · exact le_rfl
    · exact ih e hlater
  | blocks _ _ ih => exact fun e he => (Nat.le_add_right _ _).trans (ih e he)

/-- Bytes up to the next mark and the next section end, cut anywhere. -/
theorem Builds.take (hbuilds : Builds pos content stack ops final)
    (hmarks : ∀ mark ∈ (marksOf pos ops).head?, pos + n ≤ mark.start)
    (hstack : ∀ e ∈ stack.head?, pos + n ≤ e.1) (hn : n ≤ (rawOf ops).length) :
    ∃ later, Builds (pos + n) (content ++ (rawOf ops).take n) stack later final ∧
      rawOf later = (rawOf ops).drop n ∧ marksOf (pos + n) later = marksOf pos ops := by
  induction hbuilds generalizing n with
  | @done pos content =>
    exact ⟨[], by simpa using Builds.done, by simp, rfl⟩
  | @bytes pos content b final stack ops hsome hclear hrest ih =>
    rcases Nat.lt_or_ge n b.length with hinside | hpast
    · refine ⟨.bytes (b.drop n) :: ops, .bytes ?_ ?_ ?_, ?_, ?_⟩
      · exact ne_nil_of_length_pos (by rw [length_drop]; omega)
      · intro e he
        have := hrest.le_stack e (mem_of_mem_head? he)
        omega
      · rw [length_drop, Nat.add_assoc, Nat.add_sub_cancel' hinside.le, rawOf_cons,
          Op.raw, take_append_of_le_length hinside.le, append_assoc,
          take_append_drop]
        exact hrest
      · simp only [rawOf_cons, Op.raw]
        rw [drop_append_of_le_length hinside.le]
      · simp only [marksOf, length_drop]
        rw [Nat.add_assoc, Nat.add_sub_cancel' hinside.le]
    · simp only [rawOf_cons, Op.raw, length_append] at hn
      obtain ⟨later, hlater, hraw, hmark⟩ := @ih (n - b.length)
        (fun mark hmem => by
          rw [Nat.add_assoc, Nat.add_sub_cancel' hpast]
          exact hmarks mark hmem)
        (fun e he => by
          rw [Nat.add_assoc, Nat.add_sub_cancel' hpast]
          exact hstack e he) (by omega)
      rw [Nat.add_assoc, Nat.add_sub_cancel' hpast] at hlater hmark
      refine ⟨later, ?_, ?_, hmark⟩
      · rwa [rawOf_cons, Op.raw, take_append, take_of_length_le hpast,
          ← append_assoc]
      · rw [hraw, rawOf_cons, Op.raw, drop_append, drop_of_length_le hpast, nil_append]
  | @enter pos stop content final stack ops hclear hrest ih =>
    obtain rfl : n = 0 := by simpa [marksOf, Mark.start] using hmarks
    exact ⟨_, by simpa using Builds.enter hclear hrest, by simp, rfl⟩
  | @leave pos k content final stack ops hroom hrest ih =>
    obtain rfl : n = 0 := by simpa using hstack
    exact ⟨_, by simpa using Builds.leave hroom hrest, by simp, rfl⟩
  | @blocks pos content data final stack ops hclear hrest ih =>
    obtain rfl : n = 0 := by simpa [marksOf, Mark.start] using hmarks
    exact ⟨_, by simpa using Builds.blocks hclear hrest, by simp, rfl⟩

end Builds

/-! ## The work that is left -/

/-- The marks not yet used, the open sections and the length of the plan are
those of the operations `ops`, which start at raw position `pos`. -/
structure Queue (plan : Plan) (a : Assembler) (pos : ℕ) (stack : List (ℕ × ℕ))
    (ops : List Op) : Prop where
  plan_eq : a.plan = plan
  next_le : a.next ≤ plan.marks.length
  marks : plan.marks.drop a.next = marksOf pos ops
  opened : a.opened = stack.map fun e => (e.1, headerLen + e.2)
  rawLen : plan.rawLen = pos + (rawOf ops).length

/-- The assembler has operations left that build `final` and whose raw bytes are
`raw`; it may be in the middle of large data. -/
inductive Left (plan : Plan) (final : List Byte) : Assembler → List Byte → Prop where
  | idle {a : Assembler} {content : List Byte} {stack : List (ℕ × ℕ)} {ops : List Op}
      (hblocks : a.blocks = none) (hholds : a.o.Holds content)
      (hqueue : Queue plan a a.rp stack ops) (hbuilds : Builds a.rp content stack ops final) :
      Left plan final a (rawOf ops)
  | busy {a : Assembler} {stream : BlockStream} {data base : List Byte} {n : ℕ}
      {stack : List (ℕ × ℕ)} {ops : List Op} (hblocks : a.blocks = some stream)
      (hfed : Fed data base n stream a.o) (hleft : stream.left = data.length - n)
      (hqueue : Queue plan a (a.rp + (data.length - n)) stack ops)
      (hbuilds : Builds (a.rp + (data.length - n)) (base ++ fastText data) stack ops final) :
      Left plan final a (data.drop n ++ rawOf ops)

section Simulation

variable {plan : Plan} {final content raw : List Byte} {a : Assembler}
  {stack : List (ℕ × ℕ)} {ops : List Op} {e : Event}

theorem Queue.head_mark (hqueue : Queue plan a pos stack ops) :
    a.plan.marks[a.next]? = (marksOf pos ops).head? := by
  rw [hqueue.plan_eq, ← hqueue.marks, List.head?_drop]

/-- Using the next mark. -/
theorem Queue.advance {pos' : ℕ} {op : Op} {mark : Mark} {stack' : List (ℕ × ℕ)} (next : Assembler)
    (hqueue : Queue plan a pos stack (op :: ops))
    (hmarks : marksOf pos (op :: ops) = mark :: marksOf pos' ops)
    (hpos : pos + (rawOf (op :: ops)).length = pos' + (rawOf ops).length)
    (hplan : next.plan = a.plan) (hnext : next.next = a.next + 1)
    (hopened : next.opened = stack'.map fun e => (e.1, headerLen + e.2)) :
    Queue plan next pos' stack' ops := by
  have hdrop := hqueue.marks
  rw [hmarks] at hdrop
  refine ⟨hplan.trans hqueue.plan_eq, ?_, ?_, hopened, hqueue.rawLen.trans hpos⟩
  · have hlength := congrArg List.length hdrop
    rw [length_drop, length_cons] at hlength
    omega
  · rw [hnext, ← drop_drop, hdrop]
    rfl

/-- The innermost open section, if any. -/
theorem event_clear (hblocks : a.blocks = none) (hclear : Clear a.rp a.opened) :
    a.event = a.markEvent := by
  rw [Assembler.event, hblocks]
  cases hopened : a.opened with
  | nil => rfl
  | cons top outer =>
    obtain ⟨stop, start⟩ := top
    exact if_neg (hclear (stop, start) (by rw [hopened]; rfl))

theorem Queue.clear (hqueue : Queue plan a pos stack ops) (hclear : Clear pos stack) :
    Clear pos a.opened := by
  intro e he
  rw [hqueue.opened, List.head?_map] at he
  obtain ⟨e', he', rfl⟩ := Option.mem_map.mp he
  exact hclear e' he'

section

variable (hleft : Left plan final a raw)
include hleft

/-- Every event does the next operation. -/
theorem step_spec (hevent : a.event = some e) :
    ∃ next, a.step e = .ok next ∧ Left plan final next raw := by
  cases hleft with
  | @busy stream data base n stack ops hblocks hfed hleft hqueue hbuilds =>
    rw [Assembler.event, hblocks] at hevent
    dsimp only at hevent
    split_ifs at hevent with hdone
    cases hevent
    obtain rfl : n = data.length := by
      have := hfed.inside
      omega
    obtain ⟨o, hfinish, hholds⟩ := finish_spec hfed
    rw [Nat.sub_self, Nat.add_zero] at hqueue hbuilds
    refine ⟨{ a with blocks := none, o }, by simp only [Assembler.step, hfinish, ok_bind], ?_⟩
    rw [drop_length, nil_append]
    exact .idle rfl hholds ⟨hqueue.plan_eq, hqueue.next_le, hqueue.marks, hqueue.opened,
      hqueue.rawLen⟩ hbuilds
  | @idle content stack ops hblocks hholds hqueue hbuilds =>
    have hhead := hqueue.head_mark
    cases hbuilds with
    | done =>
      rw [event_clear hblocks (hqueue.clear (by simp [Clear])), Assembler.markEvent,
        hhead] at hevent
      cases hevent
    | @bytes _ _ b _ _ ops hsome hclear hrest =>
      have hlater : a.markEvent = none := by
        rw [Assembler.markEvent_eq_none, hhead]
        intro mark hmark
        have hle : a.rp + b.length ≤ mark.start := le_start_of_mem_marksOf (mem_of_mem_head? hmark)
        have hpos := length_pos_iff.mpr hsome
        omega
      rw [event_clear hblocks (hqueue.clear hclear), hlater] at hevent
      cases hevent
    | @enter _ stop _ _ _ ops hclear hrest =>
      rw [event_clear hblocks (hqueue.clear hclear), Assembler.markEvent, hhead] at hevent
      simp only [marksOf, List.head?_cons, if_true] at hevent
      cases hevent
      refine ⟨_, rfl, ?_⟩
      have hopened : (stop, a.o.pos) :: a.opened =
          ((stop, content.length) :: stack).map fun e => (e.1, headerLen + e.2) := by
        rw [map_cons, hqueue.opened, hholds.pos]
      have hqueue' := Queue.advance { a with
        next := a.next + 1, opened := (stop, a.o.pos) :: a.opened } hqueue rfl rfl rfl rfl
        hopened
      change Left plan final _ (rawOf ops)
      exact .idle hblocks hholds hqueue' hrest
    | @leave _ k _ _ stack ops hroom hrest =>
      have hopened := hqueue.opened
      rw [map_cons] at hopened
      rw [Assembler.event, hblocks, hopened] at hevent
      simp only [if_true] at hevent
      cases hevent
      have hlen : a.o.pos - (headerLen + k) - 8 = content.length - k - 8 := by
        rw [hholds.pos]
        omega
      obtain ⟨o, hpatch, hholds'⟩ := hholds.patch
        (show k + (leBytes 8 (content.length - k - 8)).length ≤ content.length by
          rwa [length_leBytes])
      refine ⟨{ a with opened := stack.map fun e => (e.1, headerLen + e.2), o }, ?_, ?_⟩
      · simp only [Assembler.step]
        rw [require_eq_ok (by rw [hholds.pos]; omega), ok_bind, hlen, hpatch, ok_bind]
      · change Left plan final _ (rawOf ops)
        exact .idle hblocks hholds' ⟨hqueue.plan_eq, hqueue.next_le, hqueue.marks, rfl,
          hqueue.rawLen⟩ hrest
    | @blocks _ _ data _ _ ops hclear hrest =>
      rw [event_clear hblocks (hqueue.clear hclear), Assembler.markEvent, hhead] at hevent
      simp only [marksOf, List.head?_cons, if_true] at hevent
      cases hevent
      refine ⟨_, rfl, ?_⟩
      have hfed := start_spec data hholds
      have hqueue' := Queue.advance { a with
        next := a.next + 1, blocks := some (BlockStream.start a.o data.length).1,
        o := (BlockStream.start a.o data.length).2 } hqueue rfl
        (by rw [rawOf_cons, length_append, Nat.add_assoc]; rfl) rfl rfl hqueue.opened
      change Left plan final _ (data.drop 0 ++ rawOf ops)
      exact .busy rfl hfed rfl hqueue' hrest

/-- The events of a position leave the same work. -/
theorem events_spec :
    ∃ next, a.events = .ok next ∧ Left plan final next raw ∧ next.event = none := by
  induction hweight : a.weight using Nat.strong_induction_on generalizing a with
  | _ weight ih =>
    subst hweight
    cases hevent : a.event with
    | none =>
      refine ⟨a, ?_, hleft, hevent⟩
      rw [Assembler.events]
      split
      · rfl
      · rename_i e hsome
        rw [hevent] at hsome
        cases hsome
    | some e =>
      obtain ⟨next, hstep, hnext⟩ := step_spec hleft hevent
      obtain ⟨last, hevents, hlast⟩ := ih _ (Assembler.weight_step hevent hstep) hnext rfl
      refine ⟨last, ?_, hlast⟩
      rw [Assembler.events]
      split
      · rename_i hnone
        rw [hevent] at hnone
        cases hnone
      · rename_i e' hsome
        rw [hevent] at hsome
        cases hsome
        split
        · rename_i next' hstep'
          rw [hstep] at hstep'
          cases hstep'
          exact hevents
        · rename_i stop hstep'
          rw [hstep] at hstep'
          cases hstep'

theorem Left.rawLen : a.plan = plan ∧ plan.rawLen = a.rp + raw.length := by
  cases hleft with
  | idle hblocks hholds hqueue hbuilds => exact ⟨hqueue.plan_eq, hqueue.rawLen⟩
  | busy hblocks hfed hleft hqueue hbuilds =>
    refine ⟨hqueue.plan_eq, hqueue.rawLen.trans ?_⟩
    rw [length_append, length_drop, Nat.add_assoc]

omit hleft in
/-- A bound that is below the end of the plan, the next mark and the end of the
innermost section. -/
theorem le_stop_iff {n : ℕ} :
    n ≤ a.stop ↔ n ≤ a.plan.rawLen ∧ (∀ mark ∈ a.plan.marks[a.next]?, n ≤ mark.start) ∧
      ∀ e ∈ a.opened.head?, n ≤ e.1 := by
  rw [Assembler.stop]
  cases hmark : a.plan.marks[a.next]? <;> cases hopened : a.opened <;> simp

variable {data : List Byte}

/-- Taking bytes of the raw stream does a part of the work. -/
theorem consume_spec (hevent : a.event = none) (hdata : data ≠ []) (hfront : data <+: raw) :
    ∃ n next, a.consume data = .ok (n, next) ∧ 0 < n ∧ n ≤ data.length ∧
      Left plan final next (raw.drop n) := by
  have hpos := length_pos_iff.mpr hdata
  have hshort := hfront.length_le
  cases hleft with
  | @busy stream data' base n stack ops hblocks hfed hleft hqueue hbuilds =>
    have hmore : stream.left ≠ 0 := by
      intro hnone
      rw [Assembler.event, hblocks] at hevent
      simp [hnone] at hevent
    obtain ⟨stream', o, hfeed, hfed', hleft'⟩ := feed_spec hfed hleft hfront
    set k := min data.length stream.left with hk
    refine ⟨k, { a with rp := a.rp + k, blocks := some stream', o },
      by simp only [Assembler.consume, hblocks, hfeed, ok_bind], by omega,
      Nat.min_le_left _ _, ?_⟩
    have hsame : a.rp + k + (data'.length - (n + k)) = a.rp + (data'.length - n) := by
      omega
    rw [drop_append_of_le_length (by rw [length_drop]; omega), drop_drop]
    rw [← hsame] at hqueue hbuilds
    exact .busy rfl hfed' hleft' ⟨hqueue.plan_eq, hqueue.next_le, hqueue.marks,
      hqueue.opened, hqueue.rawLen⟩ hbuilds
  | @idle content stack ops hblocks hholds hqueue hbuilds =>
    have hhead := hqueue.head_mark
    have hclear : Clear a.rp a.opened ∧ a.markEvent = none := by
      rw [Assembler.event, hblocks] at hevent
      cases hopened : a.opened with
      | nil =>
        rw [hopened] at hevent
        exact ⟨by simp [Clear], hevent⟩
      | cons top outer =>
        rw [hopened] at hevent
        simp only at hevent
        split_ifs at hevent with hend
        exact ⟨by simpa [Clear] using hend, hevent⟩
    have hstop : a.rp + 1 ≤ a.stop := by
      rw [le_stop_iff, hqueue.plan_eq, hqueue.rawLen]
      refine ⟨by omega, fun mark hmark => ?_, fun e he => ?_⟩
      · have hne := Assembler.markEvent_eq_none.mp hclear.2 mark
          (by rw [hqueue.plan_eq]; exact hmark)
        rw [← hqueue.plan_eq, hhead] at hmark
        have hle := le_start_of_mem_marksOf (mem_of_mem_head? hmark)
        omega
      · have hne := hclear.1 e he
        rw [hqueue.opened, List.head?_map] at he
        obtain ⟨e', he', rfl⟩ := Option.mem_map.mp he
        have hle := hbuilds.le_stack e' (mem_of_mem_head? he')
        omega
    set n := min (a.stop - a.rp) data.length with hn
    have hbound : a.rp + n ≤ a.stop := by omega
    obtain ⟨_, hmarks, hstack⟩ := le_stop_iff.mp hbound
    obtain ⟨later, hlater, hraw, hsame⟩ := hbuilds.take
      (fun mark hmark => hmarks mark (by rwa [hhead]))
      (fun e he => hstack (e.1, headerLen + e.2) (by
        rw [hqueue.opened, List.head?_map]
        exact Option.mem_map_of_mem _ he)) (by omega)
    have htake : (rawOf ops).take n = data.take n := by
      obtain ⟨rest, hrest⟩ := hfront
      rw [← hrest, take_append_of_le_length (Nat.min_le_right _ _)]
    rw [htake] at hlater
    refine ⟨n, { a with rp := a.rp + n, o := a.o.put (data.take n) }, ?_, by omega,
      Nat.min_le_right _ _, ?_⟩
    · simp only [Assembler.consume, hblocks]
      rw [require_eq_ok (by omega), ok_bind]
    · rw [← hraw]
      refine .idle hblocks (hholds.put (data.take n)) ⟨hqueue.plan_eq, hqueue.next_le,
        hqueue.marks.trans hsame.symm, hqueue.opened, ?_⟩ hlater
      rw [hqueue.rawLen, hraw, length_drop]
      simp only
      omega

/-- A piece of the raw stream, whatever its length, does the work it stands
for. -/
theorem pushLoop_spec (hfront : data <+: raw) :
    ∃ next, a.pushLoop data = .ok next ∧ Left plan final next (raw.drop data.length) := by
  induction hlength : data.length using Nat.strong_induction_on generalizing a raw data with
  | _ length ih =>
    subst hlength
    obtain ⟨settled, hevents, hsettled, hnone⟩ := events_spec hleft
    rw [Assembler.pushLoop, hevents, ok_bind]
    by_cases hdata : data = []
    · rw [dif_pos hdata, hdata]
      exact ⟨settled, rfl, hsettled⟩
    · obtain ⟨n, next, hconsume, hpos, hshort, hnext⟩ := consume_spec hsettled hnone hdata hfront
      have hlength : (data.drop n).length = data.length - n := length_drop
      obtain ⟨last, hloop, hlast⟩ := ih _ (by omega) hnext (hfront.drop n) rfl
      rw [hlength, drop_drop, Nat.add_sub_cancel' hshort] at hlast
      refine ⟨last, ?_, hlast⟩
      rw [dif_neg hdata, hconsume, ok_bind]
      exact (dif_neg hpos.ne').trans hloop

theorem push_spec (hfront : data <+: raw) :
    ∃ next, a.push data = .ok next ∧ Left plan final next (raw.drop data.length) := by
  obtain ⟨hplan, hrawLen⟩ := hleft.rawLen
  have hshort := hfront.length_le
  rw [Assembler.push, hplan, require_eq_ok (by omega), ok_bind, if_neg (by omega)]
  exact pushLoop_spec hleft hfront

end

variable {pieces : List (List Byte)}

theorem pushes_spec (hleft : Left plan final a pieces.flatten) :
    ∃ next, pieces.foldlM Assembler.push a = .ok next ∧ Left plan final next [] := by
  induction pieces generalizing a with
  | nil => exact ⟨a, rfl, hleft⟩
  | cons piece pieces ih =>
    rw [flatten_cons] at hleft
    obtain ⟨middle, hpush, hmiddle⟩ := push_spec hleft (prefix_append _ _)
    rw [drop_left] at hmiddle
    obtain ⟨next, hrest, hnext⟩ := ih hmiddle
    exact ⟨next, by rw [foldlM_cons, hpush, ok_bind, hrest], hnext⟩

/-! ## The file -/

theorem checksum_spec {o : Buffered} (hholds : o.Holds content) (hempty : o.buf = []) (k : ℕ)
    {h : Hash64} {seed : UInt64} (hk : k ≤ content.length) (hh : h.Holds seed (content.take k)) :
    ∃ next, Assembler.checksum o.out (headerLen + content.length) (headerLen + k) h = .ok next ∧
      next.Holds seed content := by
  induction hlength : content.length - k using Nat.strong_induction_on generalizing k h with
  | _ length ih =>
    rw [Assembler.checksum]
    split_ifs with hmore
    · set n := min (headerLen + content.length - (headerLen + k)) Assembler.chunkLen with hn
      have hpos : 0 < Assembler.chunkLen := by decide
      dsimp only
      rw [hholds.readOut hempty (show k + n ≤ content.length by omega) (by omega), ok_bind,
        Nat.add_assoc]
      refine ih _ (by omega) (k + n) (by omega) ?_ rfl
      rw [← take_append_slice (Nat.le_add_right k n)]
      exact hh.update _
    · rw [take_of_length_le (by omega)] at hh
      exact ⟨h, rfl, hh⟩

theorem header_eq (configHash len : ℕ) (sum : UInt64) :
    Assembler.header configHash len sum = magic ++ leBytes 4 formatVersion ++
      leBytes 8 configHash ++ leBytes 8 len ++ leBytes 8 sum.toNat := by
  set front := magic ++ leBytes 4 formatVersion ++ leBytes 8 configHash with hfront
  have hlength : front.length = 20 := by
    rfl
  have hempty : (encodeFile configHash []).take headerLen =
      front ++ leBytes 8 0 ++ leBytes 8 (hash64 []).toNat := by
    rw [encodeFile, encodeContainer, ← hfront, append_nil, length_nil, take_of_length_le]
    simp only [length_append, length_leBytes, hlength]
    decide
  have hlen : (front ++ leBytes 8 len).length = 28 := by
    rw [length_append, hlength, length_leBytes]
  have hfirst := writeAt_middle front (leBytes 8 0) (leBytes 8 (hash64 []).toNat)
    (leBytes 8 len) (by simp only [length_leBytes])
  have hsecond := writeAt_middle (front ++ leBytes 8 len) (leBytes 8 (hash64 []).toNat) []
    (leBytes 8 sum.toNat) (by simp only [length_leBytes])
  rw [hlength] at hfirst
  rw [hlen, append_nil, append_nil] at hsecond
  simp only [Assembler.header, hempty]
  rw [hfirst, hsecond]

/-- The header overwrites the room that was left for it. -/
theorem writeOut_header {out head : List Byte} (hheader : out = [] ∨ headerLen ≤ out.length)
    (hhead : head.length = headerLen) : writeOut out 0 head = head ++ out.drop headerLen := by
  rw [writeOut, writeGrow, writeAt, Nat.zero_add, hhead, take_zero, nil_append]
  rcases hheader with rfl | hlong
  · simp
  · rw [Nat.sub_eq_zero_of_le hlong, replicate_zero, append_nil]

/-- Without raw bytes and without events nothing is left to be done. -/
theorem Left.settled (hleft : Left plan final a []) (hevent : a.event = none) :
    a.blocks = none ∧ a.opened = [] ∧ a.next = plan.marks.length ∧ a.o.Holds final := by
  generalize hraw : ([] : List Byte) = raw at hleft
  cases hleft with
  | @busy stream data base n stack ops hblocks hfed hleft hqueue hbuilds =>
    have hlength := congrArg List.length hraw
    rw [length_append, length_drop, length_nil] at hlength
    rw [Assembler.event, hblocks] at hevent
    simp [show stream.left = 0 by omega] at hevent
  | @idle content stack ops hblocks hholds hqueue hbuilds =>
    have hclosed : ∀ mark ∈ (marksOf a.rp ops).head?, Clear a.rp stack →
        mark.start ≠ a.rp := by
      intro mark hmark hclear
      rw [event_clear hblocks (hqueue.clear hclear), Assembler.markEvent_eq_none,
        hqueue.head_mark] at hevent
      exact hevent mark hmark
    cases hbuilds with
    | done =>
      refine ⟨hblocks, hqueue.opened, le_antisymm hqueue.next_le ?_, hholds⟩
      exact drop_eq_nil_iff.mp hqueue.marks
    | @bytes _ _ b _ _ ops hsome hclear hrest =>
      exact absurd (append_eq_nil_iff.mp hraw.symm).1 hsome
    | enter hclear hrest => exact absurd rfl (hclosed _ rfl hclear)
    | leave hroom hrest =>
      rw [Assembler.event, hblocks, hqueue.opened, map_cons] at hevent
      simp at hevent
    | blocks hclear hrest => exact absurd rfl (hclosed _ rfl hclear)

theorem finish_assembler (hleft : Left plan final a []) :
    a.finish = .ok (headerLen + final.length, encodeFile plan.configHash final) := by
  obtain ⟨hplan, hrawLen⟩ := hleft.rawLen
  obtain ⟨settled, hevents, hsettled, hnone⟩ := events_spec hleft
  obtain ⟨hblocks, hopened, hnext, hholds⟩ := hsettled.settled hnone
  obtain ⟨hflush, hempty⟩ := hholds.flush
  have hnew := Hash64.holds_new final.length
  obtain ⟨h, hchecksum, hh⟩ := checksum_spec hflush hempty 0 (Nat.zero_le _)
    (by rw [take_zero]; exact hnew)
  rw [Nat.add_zero] at hchecksum
  have hcontent := hflush.content_eq
  rw [hempty, append_nil] at hcontent
  have hhead : (Assembler.header plan.configHash final.length h.finish).length =
      headerLen := by
    rw [header_eq]
    rfl
  rw [Assembler.finish, if_neg (by rw [hplan, hrawLen]; simp), hevents, ok_bind,
    if_neg (by simp [hblocks, hopened, hnext, hsettled.rawLen.1])]
  simp only [hflush.pos, Nat.add_sub_cancel_left]
  rw [require_eq_ok (Nat.le_add_right _ _), ok_bind, hchecksum, ok_bind,
    hsettled.rawLen.1, writeOut_header hflush.header hhead, hcontent, header_eq, hh.finish]
  rfl

/-- Whatever the pieces, the assembler writes the file of what the plan's
operations build. -/
theorem assemble_spec (hbuilds : Builds 0 [] [] ops final)
    (hmarks : plan.marks = marksOf 0 ops) (hrawLen : plan.rawLen = (rawOf ops).length)
    (hpieces : pieces.flatten = rawOf ops) :
    assemble plan pieces = .ok (encodeFile plan.configHash final) := by
  have hstart : Left plan final (Assembler.new plan) pieces.flatten := by
    rw [hpieces]
    refine .idle rfl ⟨rfl, rfl, .inl rfl⟩ ⟨rfl, Nat.zero_le _, hmarks, rfl, ?_⟩ hbuilds
    rw [hrawLen]
    exact (Nat.zero_add _).symm
  obtain ⟨last, hpushes, hlast⟩ := pushes_spec hstart
  rw [assemble, hpushes, ok_bind, finish_assembler hlast, ok_bind]
  dsimp only
  rw [take_of_length_le]
  simp only [encodeFile, encodeContainer, length_append, length_leBytes]
  rfl

end Simulation

end Vetro.Save
