import Mathlib.Data.List.DropRight
import Mathlib.Tactic

/-!
# Input events

The input device of virtio queues the events of the host and hands them to the guest in
whole reports, each as soon as there are buffers for all of it.  Events are dropped while the
driver is not active and when the queue is full, together with the report they are part of.
A report is taken from the queue before its buffers are used: what does not fit in a buffer,
and what comes after an error of the queue, is lost.
-/

namespace Vetro.Input

open List

structure InputEvent where
  ty : BitVec 16
  code : BitVec 16
  value : BitVec 32
deriving DecidableEq, Repr

/-- `EV_SYN` and `SYN_REPORT`. -/
def InputEvent.isReport (e : InputEvent) : Bool := e.ty == 0 && e.code == 0

def InputEvent.syn : InputEvent := ⟨0, 0, 0⟩

abbrev Events := List InputEvent

/-- Maximum events waiting for driver buffers. -/
def MAX_PENDING : ℕ := 4096

structure VirtioInput where
  active : Bool
  pending : Events
  discarding : Bool
  dropped : ℕ
deriving DecidableEq, Repr

namespace VirtioInput

def new : VirtioInput := ⟨false, [], false, 0⟩

/-- One turn of the loop of `inject`. -/
def injectOne (d : VirtioInput) (e : InputEvent) : VirtioInput :=
  if !d.active then { d with dropped := d.dropped + 1 }
  else if d.discarding || MAX_PENDING ≤ d.pending.length then
    let kept := if d.discarding then d.pending else d.pending.rdropWhile fun p => !p.isReport
    { d with
      pending := kept
      dropped := d.dropped + (d.pending.length - kept.length) + 1
      discarding := !e.isReport }
  else { d with pending := d.pending ++ [e] }

def inject (d : VirtioInput) (events : Events) : VirtioInput :=
  events.foldl injectOne d

def reset (d : VirtioInput) : VirtioInput :=
  { active := false, pending := [], discarding := false, dropped := d.dropped + d.pending.length }

end VirtioInput

/-- Buffers of the event queue. -/
def queueSize : ℕ := 64

/-- What a buffer of the guest does with an event. -/
inductive Buffer where
  | whole
  /-- It has room for less than an event. -/
  | short
  /-- `pop`, `write` or `push_used` fails. -/
  | fails
deriving DecidableEq, Repr

/-- The device, the buffers that are available to it, and the events that the guest received. -/
structure System where
  dev : VirtioInput
  available : List Buffer
  delivered : Events

namespace System

def new : System := ⟨.new, [], []⟩

def inject (s : System) (events : Events) : System :=
  { s with dev := s.dev.inject events }

def offer (s : System) (buffers : List Buffer) : System :=
  { s with available := (s.available ++ buffers).take queueSize }

/-- The report is drained and each of its events takes a buffer; the first one that fails ends
the call. -/
def hand (s : System) (n : ℕ) : Bool × System :=
  let used := ((s.dev.pending.take n).zip s.available).takeWhile fun x => x.2 != .fails
  (used.length == n, {
    dev := { s.dev with pending := s.dev.pending.drop n }
    available := s.available.drop (min n (used.length + 1))
    delivered := s.delivered ++ (used.filter fun x => x.2 == .whole).map Prod.fst })

/-- The loop of `deliver`, when the number of buffers can be read `turns` times. -/
def deliver : ℕ → System → System
  | 0, s => s
  | turns + 1, s =>
    match s.dev.pending.findIdx? InputEvent.isReport with
    | none => s
    | some stop =>
      if s.available.length < stop + 1 then s
      else
        let handed := s.hand (stop + 1)
        if handed.1 then deliver turns handed.2 else handed.2

/-- There are no turns when the status queue fails. -/
def service (s : System) (turns : ℕ) : System :=
  deliver turns { s with dev := { s.dev with active := true } }

/-- A reset of the device and of its queues. -/
def reset (s : System) : System := { s with dev := s.dev.reset, available := [] }

end System

/-! ## Reports -/

/-- The complete reports of a sequence of events, and what comes after them. -/
abbrev Cut := List Events × Events

def cutOne (c : Cut) (e : InputEvent) : Cut :=
  if e.isReport then (c.1 ++ [c.2 ++ [e]], []) else (c.1, c.2 ++ [e])

def cut (events : Events) : Cut := events.foldl cutOne ([], [])

/-- The states that are reached, with the events that were injected, if every `service` meets
`ok`. -/
inductive Reached (ok : System → Events → Prop) : System → Events → Prop
  | new : Reached ok .new []
  | inject {s injected} (hs : Reached ok s injected)
      (events : Events) : Reached ok (s.inject events) (injected ++ events)
  | offer {s injected} (hs : Reached ok s injected) (buffers : List Buffer) :
      Reached ok (s.offer buffers) injected
  | service {s injected} (hs : Reached ok s injected) (turns : ℕ)
      (hok : ok s injected) : Reached ok (s.service turns) injected
  | reset {s injected} (hs : Reached ok s injected) :
      Reached ok s.reset injected

/-- What the guest received, and what becomes of the events. -/
structure Law (s : System) (injected : Events) : Prop where
  whole : ∃ kept : List Events,
    kept.Sublist (cut injected).1 ∧ s.delivered = kept.flatten
  inOrder : (s.delivered ++ s.dev.pending).Sublist injected
  accounted : injected.length = s.delivered.length + s.dev.pending.length + s.dev.dropped
  /-- With all the buffers there a report that waits is not blocked. -/
  moves : s.dev.pending.any InputEvent.isReport = true → ∀ turns > 0, s.delivered.length <
    (System.service { s with available := replicate queueSize .whole } turns).delivered.length

/-- The driver becomes active between two reports, and every buffer takes an event. -/
structure Orderly (s : System) (injected : Events) : Prop where
  between : s.dev.active = true ∨ (cut injected).2 = []
  buffers : ∀ b ∈ s.available, b = .whole

variable {s : System} {d : VirtioInput} {injected out : Events}

/-! ## Every event once -/

/-- What one event keeps, a call of `inject` keeps. -/
theorem inject_keeps {P : VirtioInput → Events → Prop}
    (hone : ∀ {d injected}, P d injected → ∀ e, P (d.injectOne e) (injected ++ [e]))
    (hd : P d injected) (events : Events) : P (d.inject events) (injected ++ events) := by
  induction events generalizing d injected with
  | nil => rwa [append_nil]
  | cons e events ih =>
    have hlast := ih (hone hd e)
    rwa [append_assoc] at hlast

/-- The events that went out, those that wait and those that were dropped. -/
structure Account (d : VirtioInput) (out injected : Events) : Prop where
  inOrder : (out ++ d.pending).Sublist injected
  count : injected.length = out.length + d.pending.length + d.dropped

theorem account_injectOne (hd : Account d out injected) (e : InputEvent) :
    Account (d.injectOne e) out (injected ++ [e]) := by
  have hcount := hd.count
  have hlater := hd.inOrder.trans (sublist_append_left injected [e])
  unfold VirtioInput.injectOne
  split_ifs with hinactive hfull hdiscarding
  · exact ⟨hlater, by rw [length_append, length_singleton]; dsimp only; omega⟩
  · exact ⟨hlater, by rw [length_append, length_singleton]; dsimp only; omega⟩
  · have hkept := rdropWhile_prefix (fun p : InputEvent => !p.isReport) d.pending
    have hlength := hkept.length_le
    refine ⟨(hkept.sublist.append_left out).trans hlater, ?_⟩
    rw [length_append, length_singleton]
    dsimp only
    omega
  · refine ⟨?_, ?_⟩
    · rw [← append_assoc]
      exact hd.inOrder.append_right [e]
    · rw [length_append, length_singleton]
      dsimp only
      rw [length_append, length_singleton]
      omega

/-- A report that has buffers for all of it leaves whole. -/
theorem hand_eq (hbuffers : ∀ b ∈ s.available, b = .whole) {n : ℕ}
    (hpending : n ≤ s.dev.pending.length) (hroom : n ≤ s.available.length) :
    s.hand n = (true, {
      dev := { s.dev with pending := s.dev.pending.drop n }
      available := s.available.drop n
      delivered := s.delivered ++ s.dev.pending.take n }) := by
  have hwhole : ∀ x ∈ (s.dev.pending.take n).zip s.available, x.2 = .whole := fun x hx =>
    hbuffers x.2 (of_mem_zip hx).2
  have hlength : ((s.dev.pending.take n).zip s.available).length = n := by
    rw [length_zip, length_take]
    omega
  have hused : ((s.dev.pending.take n).zip s.available).takeWhile (fun x => x.2 != .fails) =
      (s.dev.pending.take n).zip s.available :=
    takeWhile_eq_self_iff.mpr fun x hx => by rw [hwhole x hx]; rfl
  have hkept : ((s.dev.pending.take n).zip s.available).filter (fun x => x.2 == .whole) =
      (s.dev.pending.take n).zip s.available :=
    filter_eq_self.mpr fun x hx => by rw [hwhole x hx]; rfl
  rw [System.hand, hused, hkept, hlength, map_fst_zip (by rw [length_take]; omega),
    beq_self_eq_true, Nat.min_eq_left (Nat.le_succ n)]

/-- What a report that leaves keeps, `deliver` keeps. -/
theorem deliver_keeps {P : System → Prop} (hhand : ∀ {s stop}, P s →
      s.dev.pending.findIdx? InputEvent.isReport = some stop →
      stop + 1 ≤ s.available.length → P (s.hand (stop + 1)).2)
    (turns : ℕ) (hs : P s) : P (System.deliver turns s) := by
  induction turns generalizing s with
  | zero => exact hs
  | succ turns ih =>
    rw [System.deliver]
    split
    · exact hs
    · rename_i stop hstop
      dsimp only
      split_ifs with hfew hgood
      · exact hs
      · exact ih (hhand hs hstop (Nat.le_of_not_lt hfew))
      · exact hhand hs hstop (Nat.le_of_not_lt hfew)

theorem le_length_of_findIdx? {stop : ℕ}
    (hstop : s.dev.pending.findIdx? InputEvent.isReport = some stop) :
    stop + 1 ≤ s.dev.pending.length :=
  (findIdx?_eq_some_iff_findIdx_eq.mp hstop).1

/-- The account of a system whose buffers all take an event. -/
theorem account_hand {stop : ℕ}
    (hs : Account s.dev s.delivered injected ∧ ∀ b ∈ s.available, b = .whole)
    (hstop : s.dev.pending.findIdx? InputEvent.isReport = some stop)
    (hroom : stop + 1 ≤ s.available.length) :
    Account (s.hand (stop + 1)).2.dev (s.hand (stop + 1)).2.delivered injected ∧
      ∀ b ∈ (s.hand (stop + 1)).2.available, b = .whole := by
  have hcount := hs.1.count
  rw [hand_eq hs.2 (le_length_of_findIdx? hstop) hroom]
  refine ⟨⟨?_, ?_⟩, fun b hb => hs.2 b (mem_of_mem_drop hb)⟩
  · rw [append_assoc, take_append_drop]
    exact hs.1.inOrder
  · rw [length_append, length_take, length_drop]
    dsimp only
    omega

theorem Reached.account (hs : Reached Orderly s injected) :
    Account s.dev s.delivered injected := by
  induction hs with
  | new => exact ⟨List.Sublist.refl _, rfl⟩
  | inject _ events ih =>
    exact inject_keeps (P := fun d => Account d _) (fun hd e => account_injectOne hd e) ih events
  | offer _ buffers ih => exact ih
  | @service s injected _ turns hok ih =>
    exact (deliver_keeps (s := { s with dev := { s.dev with active := true } })
      (P := fun s => Account s.dev s.delivered injected ∧ ∀ b ∈ s.available, b = .whole)
      account_hand turns ⟨⟨ih.inOrder, ih.count⟩, hok.buffers⟩).1
  | @reset s injected _ ih =>
    have hcount := ih.count
    refine ⟨?_, ?_⟩
    · exact ((nil_sublist s.dev.pending).append_left _).trans ih.inOrder
    · change _ = s.delivered.length + 0 + (s.dev.dropped + s.dev.pending.length)
      omega

/-! ## Whole reports -/

/-- The last event ends the report. -/
def IsReport (r : Events) : Prop :=
  ∃ body e, r = body ++ [e] ∧ (∀ x ∈ body, x.isReport = false) ∧ e.isReport = true

theorem IsReport.findIdx? {r : Events} (hr : IsReport r) (rest : Events) :
    ∃ stop, (r ++ rest).findIdx? InputEvent.isReport = some stop ∧ stop + 1 = r.length := by
  obtain ⟨body, e, rfl, hbody, he⟩ := hr
  refine ⟨body.length, ?_, by simp⟩
  have hnone : body.findIdx? InputEvent.isReport = none := List.findIdx?_eq_none_iff.mpr hbody
  simp [List.findIdx?_append, hnone, List.findIdx?_cons, he]

theorem rdropWhile_reports {queued : List Events} (hqueued : ∀ r ∈ queued, IsReport r)
    {part : Events} (hpart : ∀ e ∈ part, e.isReport = false) :
    (queued.flatten ++ part).rdropWhile (fun p => !p.isReport) = queued.flatten := by
  induction part using List.reverseRecOn with
  | nil =>
    rw [append_nil]
    rcases eq_nil_or_concat' queued with rfl | ⟨init, r, rfl⟩
    · rfl
    · obtain ⟨body, e, rfl, -, he⟩ := hqueued r (by simp)
      rw [flatten_append, flatten_singleton, ← append_assoc]
      exact rdropWhile_concat_neg _ _ _ (by simp [he])
  | append_singleton part e ih =>
    have he := hpart e (by simp)
    rw [← append_assoc, rdropWhile_concat_pos _ _ _ (by simp [he])]
    exact ih fun x hx => hpart x (mem_append_left _ hx)

/-- `pending` is made of complete reports and, while the device takes events, of the report that
is being injected. -/
structure Queues (d : VirtioInput) (out : Events) (c : Cut) (kept queued : List Events) :
    Prop where
  sublist : (kept ++ queued).Sublist c.1
  reports : ∀ r ∈ c.1, IsReport r
  part : ∀ e ∈ c.2, e.isReport = false
  out : out = kept.flatten
  pending : d.pending = queued.flatten ++ if d.active && !d.discarding then c.2 else []

def Whole (d : VirtioInput) (out injected : Events) : Prop :=
  ∃ kept queued, Queues d out (cut injected) kept queued

theorem cutOne_spec {c : Cut} (hreports : ∀ r ∈ c.1, IsReport r)
    (hpart : ∀ e ∈ c.2, e.isReport = false) (e : InputEvent) :
    c.1.Sublist (cutOne c e).1 ∧ (∀ r ∈ (cutOne c e).1, IsReport r) ∧
      ∀ x ∈ (cutOne c e).2, x.isReport = false := by
  unfold cutOne
  split_ifs with he
  · refine ⟨sublist_append_left _ _, fun r hr => ?_, by simp⟩
    rcases mem_append.mp hr with hr | hr
    · exact hreports r hr
    · exact ⟨c.2, e, mem_singleton.mp hr, hpart, he⟩
  · refine ⟨List.Sublist.refl _, hreports, fun x hx => ?_⟩
    rcases mem_append.mp hx with hx | hx
    · exact hpart x hx
    · rw [mem_singleton.mp hx]
      exact Bool.eq_false_iff.mpr he

theorem whole_injectOne (hd : Whole d out injected) (e : InputEvent) :
    Whole (d.injectOne e) out (injected ++ [e]) := by
  obtain ⟨kept, queued, hsublist, hreports, hpart, hout, hpending⟩ := hd
  have hcut : cut (injected ++ [e]) = cutOne (cut injected) e := foldl_concat _ _ _ _
  obtain ⟨hmore, hreports', hpart'⟩ := cutOne_spec hreports hpart e
  rw [← hcut] at hmore hreports' hpart'
  have hqueued : ∀ r ∈ queued, IsReport r := fun r hr =>
    hreports r (hsublist.mem (mem_append_right _ hr))
  -- nothing is left of a report of which an event is dropped
  have hnothing : (if d.active && !!e.isReport then (cut (injected ++ [e])).2 else []) = [] := by
    rw [hcut, cutOne]
    cases e.isReport <;> simp
  unfold VirtioInput.injectOne
  split_ifs with hinactive hfull hdiscarding
  · refine ⟨kept, queued, hsublist.trans hmore, hreports', hpart', hout, ?_⟩
    rw [Bool.not_eq_true'] at hinactive
    simpa [hinactive] using hpending
  · refine ⟨kept, queued, hsublist.trans hmore, hreports', hpart', hout, ?_⟩
    rw [hnothing]
    simpa [hdiscarding] using hpending
  · refine ⟨kept, queued, hsublist.trans hmore, hreports', hpart', hout, ?_⟩
    have hactive : d.active = true := by simpa using hinactive
    rw [hnothing, append_nil, hpending, hactive, Bool.eq_false_iff.mpr hdiscarding]
    exact rdropWhile_reports hqueued hpart
  · have hactive : d.active = true := by simpa using hinactive
    have hdiscarding : d.discarding = false := by
      by_contra hon
      exact hfull (by simp [hon])
    rw [hactive, hdiscarding] at hpending
    have hpush : d.pending ++ [e] = queued.flatten ++ ((cut injected).2 ++ [e]) := by
      rw [hpending, append_assoc]
      rfl
    rw [cutOne] at hcut
    split_ifs at hcut with he
    · refine ⟨kept, queued ++ [(cut injected).2 ++ [e]], ?_, hreports', hpart', hout, ?_⟩
      · rw [hcut, ← append_assoc]
        exact hsublist.append_right _
      · rw [hpush, hcut, flatten_append, flatten_singleton, ite_self, append_nil]
    · refine ⟨kept, queued, hsublist.trans hmore, hreports', hpart', hout, ?_⟩
      rw [hpush, hcut, hactive, hdiscarding]
      rfl

/-- What leaves next is the first report that is queued. -/
theorem Queues.first {c : Cut} {kept queued : List Events} (hd : Queues d out c kept queued)
    {stop : ℕ}
    (hstop : d.pending.findIdx? InputEvent.isReport = some stop) :
    ∃ r rest, queued = r :: rest ∧ r ∈ c.1 ∧ r.length = stop + 1 := by
  cases queued with
  | nil =>
    have hnone : d.pending.findIdx? InputEvent.isReport = none := by
      rw [List.findIdx?_eq_none_iff, hd.pending]
      split_ifs
      · exact hd.part
      · simp
    rw [hnone] at hstop
    cases hstop
  | cons r rest =>
    have hr := hd.sublist.mem (mem_append_right kept mem_cons_self)
    obtain ⟨stop', hfound, hlength⟩ := (hd.reports r hr).findIdx? (rest.flatten ++ _)
    rw [hd.pending, flatten_cons, append_assoc, hfound] at hstop
    exact ⟨r, rest, rfl, hr, by rw [← hlength, Option.some.inj hstop]⟩

theorem whole_hand {stop : ℕ}
    (hs : Whole s.dev s.delivered injected ∧ ∀ b ∈ s.available, b = .whole)
    (hstop : s.dev.pending.findIdx? InputEvent.isReport = some stop)
    (hroom : stop + 1 ≤ s.available.length) :
    Whole (s.hand (stop + 1)).2.dev (s.hand (stop + 1)).2.delivered injected ∧
      ∀ b ∈ (s.hand (stop + 1)).2.available, b = .whole := by
  obtain ⟨⟨kept, queued, hqueues⟩, hbuffers⟩ := hs
  rw [hand_eq hbuffers (le_length_of_findIdx? hstop) hroom]
  refine ⟨?_, fun b hb => hbuffers b (mem_of_mem_drop hb)⟩
  obtain ⟨r, rest, rfl, -, hlength⟩ := hqueues.first hstop
  obtain ⟨hsublist, hreports, hpart, hout, hpending⟩ := hqueues
  rw [flatten_cons, append_assoc] at hpending
  refine ⟨kept ++ [r], rest, ?_, hreports, hpart, ?_, ?_⟩
  · rwa [append_assoc]
  · rw [hout, hpending, ← hlength, take_left, flatten_append, flatten_singleton]
  · rw [hpending, ← hlength, drop_left]

theorem Reached.whole (hs : Reached Orderly s injected) :
    Whole s.dev s.delivered injected := by
  induction hs with
  | new => exact ⟨[], [], List.Sublist.refl _, by rintro _ ⟨⟩, by decide, rfl, rfl⟩
  | inject _ events ih =>
    exact inject_keeps (P := fun d => Whole d _) (fun hd e => whole_injectOne hd e) ih events
  | offer _ buffers ih => exact ih
  | @service s injected _ turns hok ih =>
    refine (deliver_keeps (s := { s with dev := { s.dev with active := true } })
      (P := fun s => Whole s.dev s.delivered injected ∧ ∀ b ∈ s.available, b = .whole)
      whole_hand turns ⟨?_, hok.buffers⟩).1
    obtain ⟨kept, queued, hsublist, hreports, hpart, hout, hpending⟩ := ih
    refine ⟨kept, queued, hsublist, hreports, hpart, hout, ?_⟩
    rcases hok.between with hactive | hbetween
    · rw [hactive] at hpending
      exact hpending
    · rw [hbetween, ite_self] at hpending ⊢
      exact hpending
  | reset _ ih =>
    obtain ⟨kept, queued, hsublist, hreports, hpart, hout, hpending⟩ := ih
    refine ⟨kept, [], ?_, hreports, hpart, hout, rfl⟩
    rw [append_nil]
    exact (sublist_append_left _ _).trans hsublist

/-- The law holds if the driver becomes active between reports, every buffer takes an event and
no report needs more buffers than there are. -/
theorem law_of_reached (hs : Reached Orderly s injected)
    (hshort : ∀ r ∈ (cut injected).1, r.length ≤ queueSize) : Law s injected := by
  obtain ⟨kept, queued, hqueues⟩ := hs.whole
  refine ⟨⟨kept, ?_, hqueues.out⟩, hs.account.inOrder, hs.account.count,
    fun hany turns hturns => ?_⟩
  · exact (sublist_append_left _ _).trans hqueues.sublist
  · obtain ⟨stop, hstop⟩ : ∃ stop, s.dev.pending.findIdx? InputEvent.isReport = some stop := by
      rw [← Option.isSome_iff_exists, List.findIdx?_isSome]
      exact hany
    obtain ⟨r, rest, -, hr, hlength⟩ := hqueues.first hstop
    have hfits := hshort r hr
    have hroom : stop + 1 ≤ (replicate queueSize Buffer.whole).length := by
      rw [length_replicate]
      omega
    have hpending := le_length_of_findIdx? hstop
    obtain ⟨k, rfl⟩ := Nat.exists_eq_succ_of_ne_zero hturns.ne'
    rw [System.service, System.deliver]
    dsimp only
    rw [hstop]
    dsimp only
    rw [if_neg (Nat.not_lt.mpr hroom), hand_eq (s := { s with
      dev := { s.dev with active := true }, available := replicate queueSize .whole })
      (fun b hb => eq_of_mem_replicate hb) hpending hroom, if_pos rfl]
    refine deliver_keeps (P := fun t => s.delivered.length < t.delivered.length)
      (fun hlt _ _ => ?_) k ?_
    · rw [System.hand, length_append]
      exact Nat.lt_add_right _ hlt
    · rw [length_append, length_take]
      dsimp only
      omega

def key : InputEvent := ⟨1, 30, 1⟩

/-- Two reports, of which the second waits for another buffer. -/
theorem law_of_reached_key :
    let s := (((System.new.service 1).inject [key, .syn, key, .syn]).offer [.whole, .whole,
      .whole]).service 2
    s.delivered = [key, .syn] ∧ s.dev.pending = [key, .syn] ∧ Law s [key, .syn, key, .syn] :=
  ⟨by decide +kernel, by decide +kernel,
    law_of_reached (.service (.offer (.inject (.service .new 1 ⟨.inr rfl, by decide⟩) _) _) 2
      ⟨.inl rfl, by decide⟩) (by decide)⟩

/-- The rest of a report arrives after the driver became active; a report of 65 events keeps
back the one behind it; and a report is gone when its first buffer fails. -/
theorem not_law : ¬Law ((((System.new.inject [key]).service 1).inject [key, .syn]).offer
      [.whole, .whole] |>.service 1) [key, key, .syn] ∧
    ¬Law ((System.new.service 1).inject (List.replicate 64 key ++ [.syn, key, .syn]))
      (List.replicate 64 key ++ [.syn, key, .syn]) ∧
    ¬Law ((((System.new.service 1).inject [key, .syn]).offer [.fails, .whole]).service 1)
      [key, .syn] := by
  refine ⟨?_, ?_, ?_⟩
  · rintro ⟨⟨kept, hkept, hout⟩, -, -, -⟩
    have hcut : (cut [key, key, .syn]).1 = [[key, key, .syn]] := by decide +kernel
    rw [hcut, sublist_singleton] at hkept
    rcases hkept with rfl | rfl <;> cases hout
  · rintro ⟨-, -, -, hmoves⟩
    have hmoved := hmoves (by decide +kernel) 1 one_pos
    revert hmoved
    decide +kernel
  · rintro ⟨-, -, haccounted, -⟩
    revert haccounted
    decide +kernel

end Vetro.Input
