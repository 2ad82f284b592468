import Mathlib.Order.Bounds.Basic
import Mathlib.Tactic.NormNum

/-!
# The machine's clock and its deadlines

Time is the number of executed steps: with `ncpu` cores the counter CNTPCT advances at
62.5 MHz over a nominal 100 MHz of `steps / ncpu`.  A timer or a network deadline is a value
of the counter, and `steps_at` turns it back into a clock value with a linear search from an
estimate.  The search is modelled with the wrapping arithmetic of a release build, and keeps a
record of whether an operation left 64 bits.
-/

namespace Vetro.Clock

/-- CNTPCT after `steps` instructions. -/
def counter (steps : ℕ) : ℕ :=
  steps / 8 * 5 + steps % 8 * 5 / 8

/-- A `u64` on its way through the search, and whether an operation has overflowed. -/
structure Search where
  clock : ℕ
  overflow : Bool
deriving DecidableEq, Repr

def Search.of (value : ℕ) : Search :=
  ⟨value % 2 ^ 64, decide (2 ^ 64 ≤ value)⟩

def Search.next (s : Search) : Search :=
  ⟨(s.clock + 1) % 2 ^ 64, s.overflow || decide (2 ^ 64 ≤ s.clock + 1)⟩

def stepsForLoop (c : ℕ) : ℕ → Search → Option Search
  | 0, _ => none
  | fuel + 1, s => if counter s.clock < c then stepsForLoop c fuel s.next else some s

/-- First instruction count at which CNTPCT is at least `c`; `none` when the loop still runs
after `fuel` tests of its condition. -/
def stepsFor (fuel c : ℕ) : Option Search :=
  stepsForLoop c fuel (.of (c / 5 * 8))

def saturatingMul (a b : ℕ) : ℕ :=
  min (a * b) (2 ^ 64 - 1)

/-- First clock value at which CNTPCT is at least `c`. -/
def stepsAt (fuel ncpu c : ℕ) : Option Search :=
  (stepsFor fuel c).map fun s => { s with clock := saturatingMul s.clock ncpu }

/-! ## Timers -/

structure TimerChannel where
  ctl : BitVec 64
  cval : ℕ
deriving DecidableEq, Repr

def ctlEnable : BitVec 64 := 1

def ctlImask : BitVec 64 := 2

/-- Counter value at which the line will rise. -/
def TimerChannel.deadline (t : TimerChannel) (count : ℕ) : Option ℕ :=
  if t.ctl &&& (ctlEnable ||| ctlImask) = ctlEnable ∧ count < t.cval then some t.cval else none

structure GenericTimer where
  cntvoff : ℕ
  phys : TimerChannel
  virt : TimerChannel
deriving DecidableEq, Repr

def GenericTimer.cntvct (t : GenericTimer) (cntpct : ℕ) : ℕ :=
  (cntpct + 2 ^ 64 - t.cntvoff) % 2 ^ 64

/-- The earlier of two deadlines. -/
def earlier : Option ℕ → Option ℕ → Option ℕ
  | some a, some b => some (min a b)
  | a, b => a.or b

def GenericTimer.virtDeadline (t : GenericTimer) (cntpct : ℕ) : Option ℕ :=
  (t.virt.deadline (t.cntvct cntpct)).map fun c => (c + t.cntvoff) % 2 ^ 64

def GenericTimer.nextDeadline (t : GenericTimer) (cntpct : ℕ) : Option ℕ :=
  earlier (t.virtDeadline cntpct) (t.phys.deadline cntpct)

/-! ## The machine -/

structure Machine where
  steps : ℕ
  ncpu : ℕ
  cntpct : ℕ
  timer : GenericTimer
  netDeadline : Option ℕ
  timerDeadline : Option ℕ
  wfiPending : Bool
deriving DecidableEq, Repr

namespace Machine

def now (m : Machine) : ℕ :=
  counter (m.steps / m.ncpu)

/-- First CNTPCT at which virtual time is at least `t` microseconds. -/
def counterAt (t : ℕ) : ℕ :=
  min ((t * 62500000 + 999999) / 1000000) (2 ^ 64 - 1)

/-- What the devices do during one `sync_irqs`: whether there is a network, whether virtio was
serviced, and the network stack's next deadline. -/
structure Devices where
  net : Bool
  serviced : Bool
  next : Option ℕ
deriving DecidableEq, Repr

def syncIrqs (m : Machine) (devices : Devices) : Machine :=
  let now := m.now
  let netDue := m.netDeadline.any fun d => decide (d ≤ now)
  let netDeadline :=
    if devices.net && (netDue || devices.serviced) then
      devices.next.map fun t => max (counterAt t) (now + 1)
    else m.netDeadline
  { m with
    cntpct := now
    netDeadline := netDeadline
    timerDeadline := earlier (m.timer.nextDeadline now) netDeadline }

/-- What `jit_budget` reads of the processor and of the interrupt controller. -/
structure Cpu where
  il : Bool
  pc : ℕ
  daif : BitVec 64
  serrorPending : Bool
  irqLine : Bool
deriving DecidableEq, Repr

/-- Steps the JIT can execute now, up to `stop`; the outer `none` is a search that does not
return. -/
def jitBudget (fuel : ℕ) (m : Machine) (cpu : Cpu) (stop : ℕ) : Option (Option ℕ) :=
  if cpu.il ∨ cpu.pc % 4 ≠ 0 then some none
  else if cpu.daif.getLsbD 7 = false ∧ cpu.irqLine then some none
  else if cpu.daif.getLsbD 8 = false ∧ cpu.serrorPending then some none
  else
    let limit := (stop + 2 ^ 64 - m.steps) % 2 ^ 64
    match m.timerDeadline with
    | none => some (some limit)
    | some d => (stepsAt fuel m.ncpu d).map fun reached =>
      if reached.clock ≤ m.steps then none else some (min limit (reached.clock - m.steps))

inductive Stop where
  | budget
  | blocked
  | idle
deriving DecidableEq, Repr

/-- What `wait_for_interrupt` learns from the rest of the machine. -/
structure Waiting where
  first : Devices
  blocked : Bool
  irqLine : Bool
  second : Devices
  smp : Bool
  othersIdle : Bool
deriving DecidableEq, Repr

def waitForInterrupt (fuel : ℕ) (m : Machine) (w : Waiting) (stop : ℕ) :
    Option (Option Stop × Machine) :=
  let m := m.syncIrqs w.first
  if w.blocked then some (some .blocked, { m with wfiPending := true })
  else if w.irqLine then some (none, m)
  else
    match m.timerDeadline with
    | some d => (stepsAt fuel m.ncpu d).map fun reached =>
      if stop < reached.clock then
        (some .budget, { m with steps := max m.steps stop, wfiPending := true })
      else (none, { m with steps := max m.steps reached.clock }.syncIrqs w.second)
    | none =>
      if w.smp ∧ ¬w.othersIdle then
        some (some .budget, { m with steps := max m.steps stop, wfiPending := true })
      else some (some .idle, m)

/-- The deadlines of the timer and of the network, as counter values. -/
def deadlines (m : Machine) : List ℕ :=
  (m.timer.virtDeadline m.cntpct).toList ++ (m.timer.phys.deadline m.cntpct).toList ++
    m.netDeadline.toList

end Machine

/-! ## The search -/

theorem counter_eq (steps : ℕ) : counter steps = 5 * steps / 8 := by
  unfold counter
  omega

/-- A 64-bit clock reaches five eighths of its range. -/
theorem counter_lt {steps : ℕ} (hsteps : steps < 2 ^ 64) : counter steps < 5 * 2 ^ 61 := by
  rw [counter_eq]
  omega

/-- The instruction count at which the counter gets to `c`. -/
def first (c : ℕ) : ℕ :=
  (8 * c + 4) / 5

theorem le_counter_iff (c steps : ℕ) : c ≤ counter steps ↔ first c ≤ steps := by
  rw [counter_eq, first]
  omega

variable {c : ℕ}

theorem first_lt (hc : c < 5 * 2 ^ 61) : first c < 2 ^ 64 := by
  unfold first
  omega

/-- From a clock value not after the right one the loop counts up to it. -/
theorem stepsForLoop_eq (hc : c < 5 * 2 ^ 61) (fuel : ℕ) {clock : ℕ} (hle : clock ≤ first c)
    (hfuel : first c < clock + fuel) :
    stepsForLoop c fuel ⟨clock, false⟩ = some ⟨first c, false⟩ := by
  induction fuel generalizing clock with
  | zero => exact absurd hle (Nat.not_le.mpr hfuel)
  | succ fuel ih =>
    unfold stepsForLoop
    by_cases hreached : first c ≤ clock
    · rw [if_neg (Nat.not_lt.mpr ((le_counter_iff c clock).mpr hreached)),
        Nat.le_antisymm hle hreached]
    · have hshort : counter clock < c :=
        Nat.lt_of_not_le fun h => hreached ((le_counter_iff c clock).mp h)
      have hfit : clock + 1 < 2 ^ 64 := lt_of_le_of_lt (Nat.lt_of_not_le hreached) (first_lt hc)
      have hnext : Search.next ⟨clock, false⟩ = ⟨clock + 1, false⟩ := by
        unfold Search.next
        rw [Nat.mod_eq_of_lt hfit, decide_eq_false (Nat.not_le.mpr hfit), Bool.or_false]
      rw [if_pos hshort, hnext]
      apply ih
      · exact Nat.lt_of_not_le hreached
      · omega

/-- Eight tests of the condition are enough when the counter gets to `c` at all. -/
theorem stepsFor_eq {fuel : ℕ} (hc : c < 5 * 2 ^ 61) (hfuel : 8 ≤ fuel) :
    stepsFor fuel c = some ⟨first c, false⟩ := by
  have hfit : c / 5 * 8 < 2 ^ 64 := by omega
  have hestimate : c / 5 * 8 ≤ first c ∧ first c < c / 5 * 8 + 8 := by
    unfold first
    omega
  unfold stepsFor Search.of
  rw [Nat.mod_eq_of_lt hfit, decide_eq_false (Nat.not_le.mpr hfit)]
  apply stepsForLoop_eq hc fuel hestimate.1
  omega

/-- No clock value ends the loop when the counter never gets to `c`. -/
theorem stepsForLoop_none (hc : 5 * 2 ^ 61 ≤ c) (fuel : ℕ) {s : Search} (hs : s.clock < 2 ^ 64) :
    stepsForLoop c fuel s = none := by
  induction fuel generalizing s with
  | zero => rfl
  | succ fuel ih =>
    unfold stepsForLoop
    rw [if_pos (lt_of_lt_of_le (counter_lt hs) hc)]
    exact ih (Nat.mod_lt _ (by norm_num))

theorem stepsAt_none (hc : 5 * 2 ^ 61 ≤ c) (fuel ncpu : ℕ) : stepsAt fuel ncpu c = none := by
  unfold stepsAt stepsFor
  rw [stepsForLoop_none hc fuel (Nat.mod_lt _ (by norm_num))]
  rfl

theorem stepsAt_eq {fuel : ℕ} (ncpu : ℕ) (hc : c < 5 * 2 ^ 61) (hfuel : 8 ≤ fuel) :
    stepsAt fuel ncpu c = some ⟨saturatingMul (first c) ncpu, false⟩ := by
  rw [stepsAt, stepsFor_eq hc hfuel]
  rfl

/-! ## Exact deadlines -/

/-- The 64-bit clock values at which `ncpu` cores have got to `c`. -/
def reachedBy (ncpu c : ℕ) : Set ℕ :=
  {clock | clock < 2 ^ 64 ∧ c ≤ counter (clock / ncpu)}

theorem mem_reachedBy {ncpu clock : ℕ} (hncpu : 0 < ncpu) :
    clock ∈ reachedBy ncpu c ↔ clock < 2 ^ 64 ∧ first c * ncpu ≤ clock := by
  apply and_congr_right
  intro _
  rw [le_counter_iff, Nat.le_div_iff_mul_le hncpu]

/-- The least clock value, or the last one of 64 bits when there is none. -/
def IsDeadline (ncpu c clock : ℕ) : Prop :=
  IsLeast (reachedBy ncpu c) clock ∨ reachedBy ncpu c = ∅ ∧ clock = 2 ^ 64 - 1

theorem isDeadline_saturatingMul {ncpu : ℕ} (hncpu : 0 < ncpu) (c : ℕ) :
    IsDeadline ncpu c (saturatingMul (first c) ncpu) := by
  unfold saturatingMul
  by_cases hfit : first c * ncpu < 2 ^ 64
  · left
    have hle : first c * ncpu ≤ 2 ^ 64 - 1 := Nat.le_pred_of_lt hfit
    rw [Nat.min_eq_left hle]
    constructor
    · exact (mem_reachedBy hncpu).mpr ⟨hfit, le_rfl⟩
    · intro clock hclock
      exact ((mem_reachedBy hncpu).mp hclock).2
  · right
    constructor
    · ext clock
      rw [mem_reachedBy hncpu]
      apply iff_of_false _ (Set.notMem_empty clock)
      rintro ⟨hlt, hle⟩
      exact hfit (lt_of_le_of_lt hle hlt)
    · apply Nat.min_eq_right
      omega

/-- Before it, the counter has not got to `c`. -/
theorem IsDeadline.counter_lt {ncpu clock earlier : ℕ} (hclock : IsDeadline ncpu c clock)
    (hbound : clock < 2 ^ 64) (hlt : earlier < clock) : counter (earlier / ncpu) < c := by
  apply Nat.lt_of_not_le
  intro hreached
  have hmem : earlier ∈ reachedBy ncpu c := ⟨hlt.trans hbound, hreached⟩
  rcases hclock with hleast | ⟨hempty, _⟩
  · exact absurd (hleast.2 hmem) (Nat.not_le.mpr hlt)
  · rw [hempty] at hmem
    exact hmem

theorem counter_lt_of_stepsAt {ncpu clock : ℕ} (hncpu : 0 < ncpu)
    (hlt : clock < saturatingMul (first c) ncpu) : counter (clock / ncpu) < c := by
  apply (isDeadline_saturatingMul hncpu c).counter_lt _ hlt
  calc saturatingMul (first c) ncpu ≤ 2 ^ 64 - 1 := Nat.min_le_right _ _
    _ < 2 ^ 64 := by norm_num

theorem earlier_le {a b : Option ℕ} {d : ℕ} (hc : earlier a b = some c)
    (hd : d ∈ a.toList ++ b.toList) : c ≤ d := by
  rw [List.mem_append, Option.mem_toList, Option.mem_toList] at hd
  cases a with
  | none =>
    cases b with
    | none => cases hc
    | some b =>
      cases hc
      rcases hd with hd | hd <;> cases hd
      exact le_rfl
  | some a =>
    cases b with
    | none =>
      cases hc
      rcases hd with hd | hd <;> cases hd
      exact le_rfl
    | some b =>
      cases hc
      rcases hd with hd | hd <;> cases hd
      · exact Nat.min_le_left _ _
      · exact Nat.min_le_right _ _

theorem eq_nil_of_earlier {a b : Option ℕ} (hnone : earlier a b = none) : a = none ∧ b = none := by
  cases a <;> cases b <;> first | exact ⟨rfl, rfl⟩ | cases hnone

namespace Machine

variable (m : Machine)

variable (devices : Devices)

/-- The deadline that is kept is not after any of those it was made from. -/
theorem timerDeadline_le {d : ℕ} (hc : (m.syncIrqs devices).timerDeadline = some c)
    (hd : d ∈ (m.syncIrqs devices).deadlines) : c ≤ d := by
  rw [deadlines, List.mem_append] at hd
  rcases hd with htimer | hnet
  · cases hnext : m.timer.nextDeadline m.now with
    | none =>
      obtain ⟨hvirt, hphys⟩ := eq_nil_of_earlier hnext
      change d ∈ (m.timer.virtDeadline m.now).toList ++ _ at htimer
      change d ∈ _ ++ (m.timer.phys.deadline m.now).toList at htimer
      rw [hvirt, hphys] at htimer
      cases htimer
    | some t =>
      have htd : t ≤ d := earlier_le hnext htimer
      apply le_trans _ htd
      apply earlier_le hc
      rw [List.mem_append, Option.mem_toList]
      exact .inl hnext
  · exact earlier_le hc (List.mem_append_right _ hnet)

theorem deadlines_eq_nil (hnone : (m.syncIrqs devices).timerDeadline = none) :
    (m.syncIrqs devices).deadlines = [] := by
  obtain ⟨htimer, hnet⟩ := eq_nil_of_earlier hnone
  obtain ⟨hvirt, hphys⟩ := eq_nil_of_earlier htimer
  change (m.timer.virtDeadline m.now).toList ++ (m.timer.phys.deadline m.now).toList ++
    (m.syncIrqs devices).netDeadline.toList = []
  rw [hvirt, hphys]
  exact congrArg Option.toList hnet

/-- Neither the timer nor the network has a deadline at a clock value from `start` on and
before `stop`. -/
def Quiet (m : Machine) (start stop : ℕ) : Prop :=
  ∀ clock, start ≤ clock → clock < stop → ∀ d ∈ m.deadlines, counter (clock / m.ncpu) < d

theorem quiet_syncIrqs {start stop : ℕ} (hncpu : 0 < m.ncpu)
    (hc : (m.syncIrqs devices).timerDeadline = some c)
    (hstop : stop ≤ saturatingMul (first c) m.ncpu) : (m.syncIrqs devices).Quiet start stop := by
  intro clock _ hlt d hd
  calc counter (clock / m.ncpu) < c := counter_lt_of_stepsAt hncpu (hlt.trans_le hstop)
    _ ≤ d := m.timerDeadline_le devices hc hd

/-- A region that runs for the budget stops at the deadline at the latest. -/
theorem jitBudget_quiet {fuel : ℕ} (hncpu : 0 < m.ncpu) (hfuel : 8 ≤ fuel) (hc : c < 5 * 2 ^ 61)
    (hdeadline : (m.syncIrqs devices).timerDeadline = some c) (steps : ℕ) (cpu : Cpu) (stop : ℕ) :
    ∃ budget, jitBudget fuel { m.syncIrqs devices with steps := steps } cpu stop = some budget ∧
      ∀ limit ∈ budget, (m.syncIrqs devices).Quiet steps (steps + limit) := by
  unfold jitBudget
  split_ifs
  iterate 3 exact ⟨none, rfl, by simp⟩
  rw [hdeadline]
  dsimp only
  rw [show (m.syncIrqs devices).ncpu = m.ncpu from rfl, stepsAt_eq _ hc hfuel]
  refine ⟨_, rfl, ?_⟩
  intro limit hlimit
  dsimp only at hlimit
  split_ifs at hlimit with hpast
  · cases hlimit
  · apply m.quiet_syncIrqs devices hncpu hdeadline
    rw [← Option.some.inj hlimit]
    omega

/-- A WFI moves the clock to the deadline at the latest. -/
theorem waitForInterrupt_quiet (w : Waiting) {fuel : ℕ} (hncpu : 0 < m.ncpu) (hfuel : 8 ≤ fuel)
    (hc : c < 5 * 2 ^ 61) (hdeadline : (m.syncIrqs w.first).timerDeadline = some c) (stop : ℕ) :
    ∃ result, m.waitForInterrupt fuel w stop = some result ∧
      (m.syncIrqs w.first).Quiet m.steps result.2.steps := by
  have hstay : (m.syncIrqs w.first).Quiet m.steps m.steps := fun clock hle hlt =>
    absurd hle (Nat.not_le.mpr hlt)
  have hupto : ∀ {target : ℕ}, target ≤ saturatingMul (first c) m.ncpu →
      (m.syncIrqs w.first).Quiet m.steps (max m.steps target) := by
    intro target htarget clock hle hlt
    have hbefore : clock < target := by omega
    exact m.quiet_syncIrqs w.first hncpu hdeadline htarget clock hle hbefore
  unfold waitForInterrupt
  by_cases hblocked : w.blocked = true
  · rw [if_pos hblocked]
    exact ⟨_, rfl, hstay⟩
  by_cases hline : w.irqLine = true
  · rw [if_neg hblocked, if_pos hline]
    exact ⟨_, rfl, hstay⟩
  rw [if_neg hblocked, if_neg hline, hdeadline]
  dsimp only
  rw [show (m.syncIrqs w.first).ncpu = m.ncpu from rfl, stepsAt_eq _ hc hfuel]
  refine ⟨_, rfl, ?_⟩
  dsimp only
  split_ifs with hlate
  · exact hupto hlate.le
  · exact hupto le_rfl

end Machine

/-- What a deadline `c` has to be for the machine: found by the search in `fuel` tests of its
condition without overflow, and never run past by a region or jumped past by a WFI; and when no
deadline is kept, there is none. -/
structure Exact (fuel ncpu c : ℕ) : Prop where
  found : ∃ clock, stepsAt fuel ncpu c = some ⟨clock, false⟩ ∧ IsDeadline ncpu c clock
  region : ∀ (m : Machine) (devices : Machine.Devices), m.ncpu = ncpu →
    (m.syncIrqs devices).timerDeadline = some c → ∀ (steps : ℕ) (cpu : Machine.Cpu) (stop : ℕ),
    ∃ budget,
      { m.syncIrqs devices with steps := steps }.jitBudget fuel cpu stop = some budget ∧
      ∀ limit ∈ budget, (m.syncIrqs devices).Quiet steps (steps + limit)
  wfi : ∀ (m : Machine) (w : Machine.Waiting), m.ncpu = ncpu →
    (m.syncIrqs w.first).timerDeadline = some c → ∀ stop : ℕ,
    ∃ result, m.waitForInterrupt fuel w stop = some result ∧
      (m.syncIrqs w.first).Quiet m.steps result.2.steps
  complete : ∀ (m : Machine) (devices : Machine.Devices),
    (m.syncIrqs devices).timerDeadline = none → (m.syncIrqs devices).deadlines = []

/-- Deadlines are exact below five eighths of 64 bits, where eight tests of the loop condition
are enough; from there on no number of them is. -/
theorem exact_iff {fuel ncpu c : ℕ} (hncpu : 1 ≤ ncpu) (hfuel : 8 ≤ fuel) :
    Exact fuel ncpu c ↔ c < 5 * 2 ^ 61 := by
  constructor
  · rintro ⟨⟨clock, hclock, _⟩, _, _, _⟩
    by_contra hc
    rw [stepsAt_none (Nat.le_of_not_lt hc)] at hclock
    cases hclock
  · intro hc
    constructor
    · exact ⟨_, stepsAt_eq ncpu hc hfuel, isDeadline_saturatingMul hncpu c⟩
    · rintro m devices rfl hdeadline
      exact m.jitBudget_quiet devices hncpu hfuel hc hdeadline
    · rintro m w rfl hdeadline
      exact m.waitForInterrupt_quiet w hncpu hfuel hc hdeadline
    · exact fun m devices => m.deadlines_eq_nil devices

theorem exact_second : Exact 8 4 62500000 :=
  (exact_iff (by decide) le_rfl).mpr (by norm_num)

/-- One core waits for a timer whose guest wrote all ones as the compare value. -/
def farTimer : Machine where
  steps := 0
  ncpu := 1
  cntpct := 0
  timer := { cntvoff := 0, phys := ⟨0, 0⟩, virt := ⟨ctlEnable, 2 ^ 64 - 1⟩ }
  netDeadline := none
  timerDeadline := none
  wfiPending := false

def quietDevices : Machine.Devices := ⟨false, false, none⟩

/-- The machine never comes back from the WFI. -/
theorem waitForInterrupt_farTimer : ¬∃ fuel stop : ℕ, (farTimer.waitForInterrupt fuel
    ⟨quietDevices, false, false, quietDevices, false, false⟩ stop).isSome := by
  rintro ⟨fuel, stop, hsome⟩
  have hdeadline : (farTimer.syncIrqs quietDevices).timerDeadline = some (2 ^ 64 - 1) := by
    decide +kernel
  unfold Machine.waitForInterrupt at hsome
  rw [if_neg Bool.false_ne_true, if_neg Bool.false_ne_true] at hsome
  rw [hdeadline] at hsome
  dsimp only at hsome
  rw [stepsAt_none (by norm_num)] at hsome
  exact absurd hsome Bool.false_ne_true

end Vetro.Clock
