import Vetro.Board.DeferredSave
import Vetro.Core.Machine

/-!
# Deferred saves in every run

What one operation does to a save in progress, to the saves that were overtaken,
and to the trap; from it, what a save has given at the end of any run of saves,
writes and restores.
-/

namespace Vetro.Board

open Bytes Splice List Option
open Format (Error)

/-- How far a save is, in a RAM that may have changed since it started. -/
structure SaveOk (ram : Ram) (head image given : List Byte) (overtaken : Bool)
    (save : DeferredSave) : Prop where
  headLen : save.headLen = head.length
  page : save.page ≤ ram.pages
  /-- The head is on its way, or it has been given whole. -/
  progress : (save.head = head ∧ save.sent < head.length ∧ save.page = 0 ∧
      given = head.take save.sent) ∨
    (save.head = [] ∧ save.sent = head.length ∧
      given = head ++ image.take (save.page * pageSize))
  done : save.done = true → save.page = ram.pages ∧ save.head = [] ∧ overtaken = false
  epoch : save.epoch ≤ ram.trap.epoch
  current : save.done = false → (overtaken = false ↔ save.epoch = ram.trap.epoch)
  holds : save.done = false → save.epoch = ram.trap.epoch → ram.Holds image save.page

/-- What is true of every save of a run. -/
structure Session.Ok (ram : Ram) (session : Session) : Prop where
  image : session.image.length = ram.size
  answer : session.answer = some (.ok true) →
    session.given = session.head ++ session.image ∧ session.overtaken = false
  answered : session.answer = some (.ok true) → ∀ save, session.save = some save →
    save.done = true
  save : ∀ save, session.save = some save →
    SaveOk ram session.head session.image session.given session.overtaken save

/-- What is true in every state of a run. -/
structure System.Ok (system : System) : Prop where
  trap : system.ram.trap.Wf system.ram.size
  sessions : ∀ (id : ℕ) (session : Session), system.sessions[id]? = some session →
    session.Ok system.ram
  /-- No two saves have the same epoch. -/
  apart : ∀ {i j : ℕ} {left right : Session} {save save' : DeferredSave},
    system.sessions[i]? = some left →
    system.sessions[j]? = some right → left.save = some save → right.save = some save' →
    save.epoch = save'.epoch → i = j
  idle : (∀ (id : ℕ) (session : Session), system.sessions[id]? = some session →
    ¬session.InProgress) → system.ram.trap.Idle

/-! ## Writes -/

variable {session : Session} {next ram : Ram} {head image given : List Byte}

/-- The RAM changes, and keeps its size and the epoch of its trap. -/
theorem SaveOk.of_same {overtaken : Bool} {save : DeferredSave}
    (hok : SaveOk ram head image given overtaken save) (hsize : next.size = ram.size)
    (hepoch : next.trap.epoch = ram.trap.epoch)
    (hholds : save.done = false → save.epoch = ram.trap.epoch → next.Holds image save.page) :
    SaveOk next head image given overtaken save := by
  have hpages : next.pages = ram.pages := by
    rw [Ram.pages, Ram.pages, hsize]
  exact {
    headLen := hok.headLen
    page := hok.page.trans_eq hpages.symm
    progress := hok.progress
    done := by
      rw [hpages]
      exact hok.done
    epoch := hok.epoch.trans_eq hepoch.symm
    current := by
      rw [hepoch]
      exact hok.current
    holds := by
      rw [hepoch]
      exact hholds }

theorem Session.Ok.guarded (hok : session.Ok ram) (hwf : ram.trap.Wf ram.size)
    (hguarded : Ram.Guarded ram next) : session.Ok next where
  image := hok.image.trans hguarded.size.symm
  answer := hok.answer
  answered := hok.answered
  save := by
    intro save hsave
    have hsaved := hok.save save hsave
    exact hsaved.of_same hguarded.size hguarded.epoch fun hdone hepoch =>
      hguarded.holds hwf (hsaved.holds hdone hepoch)

variable {system : System}

theorem System.Ok.guarded (hok : system.Ok) (hguarded : Ram.Guarded system.ram next) :
    System.Ok { system with ram := next } where
  trap := hguarded.wf hok.trap
  sessions := fun id session hfind => (hok.sessions id session hfind).guarded hok.trap hguarded
  apart := hok.apart
  idle := fun hnone => hguarded.idle (hok.idle hnone)

/-! ## Other saves and restores -/

variable {save : DeferredSave}

/-- Whatever has become of the RAM, a save that was overtaken is no longer in progress. -/
theorem SaveOk.overtake {overtaken : Bool}
    (hok : SaveOk ram head image given overtaken save) (hsize : next.size = ram.size)
    (hepoch : ram.trap.epoch < next.trap.epoch) :
    SaveOk next head image given (overtaken || !save.done) save := by
  have hpages : next.pages = ram.pages := by
    rw [Ram.pages, Ram.pages, hsize]
  have hbefore : save.epoch < next.trap.epoch := hok.epoch.trans_lt hepoch
  exact {
    headLen := hok.headLen
    page := hok.page.trans_eq hpages.symm
    progress := hok.progress
    done := by
      intro hdone
      obtain ⟨hpage, hhead, hnot⟩ := hok.done hdone
      refine ⟨hpage.trans hpages.symm, hhead, ?_⟩
      rw [hnot, hdone]
      rfl
    epoch := hbefore.le
    current := by
      intro hdone
      rw [hdone, Bool.not_false, Bool.or_true]
      exact iff_of_false (by decide) hbefore.ne
    holds := fun _ heq => absurd heq hbefore.ne }

theorem Session.Ok.overtake (hok : session.Ok ram) (hsize : next.size = ram.size)
    (hepoch : ram.trap.epoch < next.trap.epoch) :
    session.overtake.Ok next ∧ ¬session.overtake.InProgress := by
  have hany : ∀ save, session.save = some save →
      session.overtake.overtaken = (session.overtaken || !save.done) := by
    intro save hsave
    rw [Session.overtake, hsave]
    rfl
  refine ⟨⟨hok.image.trans hsize.symm, fun hanswer => ?_, hok.answered, fun save hsave => ?_⟩, ?_⟩
  · obtain ⟨hgiven, hnot⟩ := hok.answer hanswer
    refine ⟨hgiven, ?_⟩
    cases hsave : session.save with
    | none =>
      rw [Session.overtake, hsave, hnot]
      rfl
    | some save =>
      rw [hany save hsave, hok.answered hanswer save hsave, hnot]
      rfl
  · rw [hany save hsave]
    exact (hok.save save hsave).overtake hsize hepoch
  · rintro ⟨save, hsave, hdone, hnot⟩
    rw [hany save hsave, hdone, Bool.not_false, Bool.or_true] at hnot
    cases hnot

theorem System.Ok.sessions_overtake (hok : system.Ok) (hsize : next.size = system.ram.size)
    (hepoch : system.ram.trap.epoch < next.trap.epoch) {id : ℕ}
    (hfind : (system.sessions.map Session.overtake)[id]? = some session) :
    session.Ok next ∧ ¬session.InProgress ∧
      ∃ before, system.sessions[id]? = some before ∧ session.save = before.save := by
  rw [List.getElem?_map, map_eq_some_iff] at hfind
  obtain ⟨before, hbefore, rfl⟩ := hfind
  obtain ⟨hafter, hprogress⟩ := (hok.sessions id before hbefore).overtake hsize hepoch
  exact ⟨hafter, hprogress, before, hbefore, rfl⟩

theorem length_restoreBlock (bytes : List Byte) (block : ℕ × List Byte) :
    (Ram.restoreBlock bytes block).length = bytes.length := by
  rw [Ram.restoreBlock]
  split_ifs with hblock
  · refine length_writeAt ?_
    have hinside := lt_pageCount.mp hblock.1
    rw [hblock.2, pageLen]
    omega
  · rfl

theorem length_foldl_bytes {A : Type*} {f : List Byte → A → List Byte}
    (hlength : ∀ bytes a, (f bytes a).length = bytes.length) (list : List A) (bytes : List Byte) :
    (list.foldl f bytes).length = bytes.length := by
  induction list generalizing bytes with
  | nil => rfl
  | cons a list ih => exact (ih (f bytes a)).trans (hlength bytes a)

theorem Ram.touch_trap (ram : Ram) (o len : ℕ) :
    (ram.touch o len).2.bytes = ram.bytes ∧ (ram.touch o len).2.trap = ram.trap := by
  rw [touch]
  split_ifs
  · exact ⟨rfl, rfl⟩
  · exact ⟨rfl, rfl⟩

/-- A restore ends the trap, whether it succeeds or fails. -/
theorem Ram.restoreFrom_spec (ram : Ram) (blocks : List (ℕ × List Byte)) (ok : Bool) :
    (ram.restoreFrom blocks ok).size = ram.size ∧
      (ram.restoreFrom blocks ok).trap =
        { ram.trap with epoch := ram.trap.epoch + 1 }.disarm := by
  have hdecoded := length_foldl_bytes length_restoreBlock blocks ram.bytes
  rw [restoreFrom]
  split_ifs
  · rw [Ram.size, (touch_trap _ _ _).1, (touch_trap _ _ _).2]
    refine ⟨?_, rfl⟩
    refine (length_foldl_bytes (fun bytes i => ?_) _ _).trans hdecoded
    exact length_restoreBlock bytes _
  · exact ⟨hdecoded, rfl⟩

theorem System.Ok.restore (hok : system.Ok) (blocks : List (ℕ × List Byte)) (ok : Bool) :
    (system.step (.restore blocks ok)).Ok := by
  obtain ⟨hsize, htrap⟩ := system.ram.restoreFrom_spec blocks ok
  have hepoch : system.ram.trap.epoch < (system.ram.restoreFrom blocks ok).trap.epoch := by
    rw [htrap]
    exact Nat.lt_succ_self _
  exact {
    trap := by
      have hwf := hok.trap
      change Trap.Wf (system.ram.restoreFrom blocks ok).size (system.ram.restoreFrom blocks ok).trap
      rw [hsize, htrap]
      exact Trap.Wf.disarm
        ⟨hwf.words, hwf.inside, hwf.armed, hwf.keptInside, hwf.keptBytes, hwf.apart⟩
    sessions := fun id session hfind => (hok.sessions_overtake hsize hepoch hfind).1
    apart := by
      intro i j left right save save' hleft hright hsave hsave' hsame
      obtain ⟨-, -, before, hbefore, heq⟩ := hok.sessions_overtake hsize hepoch hleft
      obtain ⟨-, -, before', hbefore', heq'⟩ := hok.sessions_overtake hsize hepoch hright
      exact hok.apart hbefore hbefore' (heq ▸ hsave) (heq' ▸ hsave') hsame
    idle := by
      intro _
      change (system.ram.restoreFrom blocks ok).trap.Idle
      rw [htrap]
      exact Trap.idle_disarm _ }

/-! ## The start of a save -/

/-- A save that starts holds the RAM of this instant. -/
theorem Ram.holds_trapArm (hwf : ram.trap.Wf ram.size) : ram.trapArm.2.Holds ram.bytes 0 := by
  refine PointInTime.Holds.start _ _ fun i hi => ?_
  rw [test_trapArm hwf]
  exact decide_eq_true hi.2

theorem Session.ok_new (hwf : ram.trap.Wf ram.size) (head : List Byte) :
    (Session.new ⟨head, head.length, 0, 0, ram.trapArm.1, false⟩ head ram.bytes).Ok
      ram.trapArm.2 where
  image := rfl
  answer := by rintro ⟨⟩
  answered := by rintro ⟨⟩
  save := by
    rintro save ⟨⟩
    exact {
      headLen := rfl
      page := Nat.zero_le _
      progress := by
        by_cases hhead : head = []
        · right
          simp [hhead, Session.new]
        · left
          exact ⟨rfl, length_pos_iff.mpr hhead, rfl, rfl⟩
      done := by simp
      epoch := le_refl _
      current := fun _ => iff_of_true rfl rfl
      holds := fun _ _ => Ram.holds_trapArm hwf }

theorem System.Ok.start (hok : system.Ok) (parallel : Bool) (head : List Byte) :
    (system.step (.start parallel head)).Ok := by
  cases parallel with
  | true => exact hok
  | false =>
    have hsize : system.ram.trapArm.2.size = system.ram.size := rfl
    have hepoch : system.ram.trap.epoch < system.ram.trapArm.2.trap.epoch := Nat.lt_succ_self _
    have hnew := Session.ok_new hok.trap head
    have hcases : ∀ {id : ℕ} {session : Session},
        (system.step (.start false head)).sessions[id]? = some session →
          (system.sessions.map Session.overtake)[id]? = some session ∨
            id = system.sessions.length ∧ session =
              Session.new ⟨head, head.length, 0, 0, system.ram.trapArm.1, false⟩ head
                system.ram.bytes := by
      intro id session hfind
      change (system.sessions.map Session.overtake ++ [_])[id]? = _ at hfind
      rcases Nat.lt_or_ge id system.sessions.length with hlt | hge
      · left
        rwa [List.getElem?_append_left (by rwa [length_map])] at hfind
      · right
        rw [List.getElem?_append_right (by rwa [length_map]), length_map,
          List.getElem?_singleton] at hfind
        split_ifs at hfind with hlast
        exact ⟨by omega, (some.inj hfind).symm⟩
    have hsmall : ∀ {id : ℕ} {session : Session} {save : DeferredSave},
        (system.sessions.map Session.overtake)[id]? = some session →
          session.save = some save → save.epoch ≠ system.ram.trapArm.1 := by
      intro id session save hfind hsave
      obtain ⟨-, -, before, hbefore, heq⟩ := hok.sessions_overtake hsize hepoch hfind
      have hle := ((hok.sessions id before hbefore).save save (heq ▸ hsave)).epoch
      exact (hle.trans_lt (Nat.lt_succ_self _)).ne
    exact {
      trap := Ram.wf_trapArm hok.trap
      sessions := by
        intro id session hfind
        rcases hcases hfind with hbefore | ⟨-, rfl⟩
        · exact (hok.sessions_overtake hsize hepoch hbefore).1
        · exact hnew
      apart := by
        intro i j left right save save' hleft hright hsave hsave' hsame
        rcases hcases hleft with hbefore | ⟨hi, rfl⟩
        · rcases hcases hright with hbefore' | ⟨-, rfl⟩
          · obtain ⟨-, -, first, hfirst, heq⟩ := hok.sessions_overtake hsize hepoch hbefore
            obtain ⟨-, -, second, hsecond, heq'⟩ := hok.sessions_overtake hsize hepoch hbefore'
            exact hok.apart hfirst hsecond (heq ▸ hsave) (heq' ▸ hsave') hsame
          · cases hsave'
            exact absurd hsame (hsmall hbefore hsave)
        · cases hsave
          rcases hcases hright with hbefore' | ⟨hj, -⟩
          · exact absurd hsame.symm (hsmall hbefore' hsave')
          · rw [hi, hj]
      idle := by
        intro hnone
        refine absurd ⟨_, rfl, rfl, rfl⟩ (hnone system.sessions.length
          (Session.new ⟨head, head.length, 0, 0, system.ram.trapArm.1, false⟩ head
            system.ram.bytes) ?_)
        change (system.sessions.map Session.overtake ++ [_])[_]? = _
        rw [List.getElem?_append_right (by rw [length_map]), length_map, Nat.sub_self]
        rfl }

/-! ## Pumping -/

/-- What a call of `pump` leaves of the save and of the RAM; `given` is with the bytes of
the call. -/
structure Pumped (ram : Ram) (head image given : List Byte) (overtaken : Bool)
    (save : DeferredSave) (answer : Except Error Bool) (next : DeferredSave) (after : Ram) :
    Prop where
  ok : SaveOk after head image given overtaken next
  epoch : next.epoch = save.epoch
  answered : answer = .ok true → next.done = true
  bytes : after.bytes = ram.bytes
  trapEpoch : after.trap.epoch = ram.trap.epoch
  trap : after.trap.Wf after.size
  /-- Only the save that the trap belongs to changes it. -/
  own : after = ram ∨ save.epoch = ram.trap.epoch ∧ save.done = false
  idle : save.done = false → next.done = true → after.trap.Idle

section Pump

variable {ram : Ram} {head image given : List Byte} {overtaken : Bool} {save : DeferredSave}

variable (hok : SaveOk ram head image given overtaken save)
include hok

/-- A save that is done has given everything. -/
theorem SaveOk.given_of_done (himage : image.length = ram.size) (hdone : save.done = true) :
    given = head ++ image := by
  obtain ⟨hpage, hhead, -⟩ := hok.done hdone
  rcases hok.progress with ⟨heq, hsent, -, -⟩ | ⟨-, -, hgiven⟩
  · rw [← heq, hhead] at hsent
    cases hsent
  · rw [hgiven, hpage, Ram.pages, ← himage, take_pageCount]

/-- The head goes on. -/
theorem SaveOk.pumpHead (hdone : save.done = false) (most : ℕ) :
    SaveOk ram head image (given ++ (save.pumpHead most).2) overtaken (save.pumpHead most).1 ∧
      (save.pumpHead most).1.done = false ∧ (save.pumpHead most).1.epoch = save.epoch := by
  rw [DeferredSave.pumpHead]
  rcases hok.progress with ⟨hhead, hsent, hpage, hgiven⟩ | ⟨hhead, hsent, hgiven⟩
  · have htake : ∀ n, given ++ slice head save.sent (save.sent + n) =
        head.take (save.sent + n) := by
      intro n
      rw [hgiven, take_append_slice (Nat.le_add_right _ _)]
    rw [hhead, if_pos hsent]
    refine ⟨?_, hdone, rfl⟩
    exact {
      headLen := hok.headLen
      page := hok.page
      progress := by
        dsimp only
        rw [htake]
        by_cases hall : save.sent + min (head.length - save.sent) most = head.length
        · right
          rw [if_pos hall, hall, hpage, Nat.zero_mul]
          simp
        · left
          rw [if_neg hall]
          exact ⟨rfl, by omega, hpage, rfl⟩
      done := fun htrue => absurd htrue (by simp [hdone])
      epoch := hok.epoch
      current := hok.current
      holds := hok.holds }
  · have hall : ¬save.sent < save.head.length := by simp [hhead]
    rw [if_neg hall, append_nil]
    exact ⟨hok, hdone, rfl⟩

/-- The pages go on. -/
theorem SaveOk.pumpPages (hdone : save.done = false) (hhead : save.head.length ≤ save.sent)
    (hwf : ram.trap.Wf ram.size) (room : ℕ) (out : List Byte) :
    ∃ more, (save.pumpPages ram room out).2.2.2 = out ++ more ∧
      Pumped ram head image (given ++ more) overtaken save (save.pumpPages ram room out).1
        (save.pumpPages ram room out).2.1 (save.pumpPages ram room out).2.2.1 := by
  rcases hok.progress with ⟨heq, hsent, -, -⟩ | ⟨hempty, hsent, hgiven⟩
  · rw [heq] at hhead
    omega
  rw [DeferredSave.pumpPages]
  by_cases hepoch : save.epoch = ram.trap.epoch
  · have hpage := hok.page
    obtain ⟨stop, hstop⟩ : ∃ stop, stop = min (save.page + max (room / pageSize) 1) ram.pages :=
      ⟨_, rfl⟩
    have hcount : save.page + (min stop ram.pages - save.page) = stop := by omega
    have hinside : stop ≤ ram.pages := by omega
    obtain ⟨after, htake, hbytes, hafter, htrap, hholds⟩ := Ram.takePages_eq out hwf
      (hok.holds hdone hepoch) (by omega : save.page + (min stop ram.pages - save.page) ≤ ram.pages)
    have hpages : after.pages = ram.pages := by
      rw [Ram.pages, Ram.pages, Ram.size, Ram.size, hbytes]
    have hsofar : given ++ slice image (save.page * pageSize) (stop * pageSize) =
        head ++ image.take (stop * pageSize) := by
      rw [hgiven, append_assoc, take_append_slice]
      exact Nat.mul_le_mul_right _ (by omega)
    rw [← hstop, Ram.trapTake, if_neg (not_not.mpr hepoch.symm), htake, hcount]
    rw [hcount] at hholds
    refine ⟨slice image (save.page * pageSize) (stop * pageSize), ?_, ?_⟩
    · split_ifs <;> rfl
    · rw [hsofar]
      dsimp only
      by_cases hlast : stop = ram.pages
      · rw [if_pos hlast]
        exact {
          ok := {
            headLen := hok.headLen
            page := hinside.trans_eq hpages.symm
            progress := .inr ⟨hempty, hsent, rfl⟩
            done := fun _ => ⟨hlast.trans hpages.symm, hempty, (hok.current hdone).mpr hepoch⟩
            epoch := hok.epoch.trans_eq hafter.symm
            current := by simp
            holds := by simp }
          epoch := rfl
          answered := fun _ => rfl
          bytes := hbytes
          trapEpoch := hafter
          trap := htrap.disarm
          own := .inr ⟨hepoch, hdone⟩
          idle := fun _ _ => Trap.idle_disarm after.trap }
      · rw [if_neg hlast]
        exact {
          ok := {
            headLen := hok.headLen
            page := hinside.trans_eq hpages.symm
            progress := .inr ⟨hempty, hsent, rfl⟩
            done := fun htrue => absurd htrue (by simp [hdone])
            epoch := hok.epoch.trans_eq hafter.symm
            current := by
              rw [hafter]
              exact hok.current
            holds := fun _ _ => hholds }
          epoch := rfl
          answered := by simp
          bytes := hbytes
          trapEpoch := hafter
          trap := htrap
          own := .inr ⟨hepoch, hdone⟩
          idle := fun _ htrue => absurd htrue (by simp [hdone]) }
  · rw [Ram.trapTake, if_pos (Ne.symm hepoch)]
    refine ⟨[], (append_nil out).symm, ?_⟩
    rw [append_nil]
    exact ⟨hok, rfl, by simp, rfl, rfl, hwf, .inl rfl,
      fun _ htrue => absurd htrue (by simp [hdone])⟩

/-- A call of `pump`. -/
theorem SaveOk.pump (hwf : ram.trap.Wf ram.size) (most : ℕ) :
    Pumped ram head image (given ++ (save.pump ram most).2.2.2) overtaken save
      (save.pump ram most).1 (save.pump ram most).2.1 (save.pump ram most).2.2.1 := by
  rw [DeferredSave.pump]
  cases hdone : save.done with
  | true =>
    rw [if_pos rfl, append_nil]
    exact ⟨hok, rfl, fun _ => hdone, rfl, rfl, hwf, .inl rfl, fun hfalse => absurd hfalse
      (by simp [hdone])⟩
  | false =>
    rw [if_neg Bool.false_ne_true]
    obtain ⟨hfirst, hundone, hepoch⟩ := hok.pumpHead hdone most
    dsimp only
    split_ifs with hroom
    · obtain ⟨more, hout, hpumped⟩ := hfirst.pumpPages hundone hroom.1 hwf
        (most - (save.pumpHead most).2.length) (save.pumpHead most).2
      rw [hout, ← append_assoc]
      exact { hpumped with
        epoch := hpumped.epoch.trans hepoch
        own := hpumped.own.imp_right fun hown => ⟨hepoch.symm.trans hown.1, hdone⟩
        idle := fun _ => hpumped.idle hundone }
    · exact ⟨hfirst, hepoch, by simp, rfl, rfl, hwf, .inl rfl,
        fun _ htrue => absurd htrue (by simp [hundone])⟩

omit hok in
theorem length_pumpHead (save : DeferredSave) (most : ℕ) :
    (save.pumpHead most).2.length = min (save.head.length - save.sent) most := by
  rw [DeferredSave.pumpHead]
  split_ifs with hsent
  · rw [length_slice]
    omega
  · simp
    omega

/-- A call of `pump` with room for a byte ends the save that the trap belongs to, or gives
more of it. -/
theorem SaveOk.pump_progress (himage : image.length = ram.size) (hwf : ram.trap.Wf ram.size)
    (hdone : save.done = false) (hcurrent : save.epoch = ram.trap.epoch) {most : ℕ}
    (hmost : 0 < most) : (save.pump ram most).1 = .ok true ∨
      (save.pump ram most).1 = .ok false ∧ (save.pump ram most).2.2.2 ≠ [] := by
  obtain ⟨hfirst, hundone, hepoch⟩ := hok.pumpHead hdone most
  have hlength := length_pumpHead save most
  rw [DeferredSave.pump, if_neg (by simp [hdone])]
  dsimp only
  split_ifs with hroom
  · rw [DeferredSave.pumpPages]
    obtain ⟨stop, hstop⟩ : ∃ stop, stop = min ((save.pumpHead most).1.page +
      max ((most - (save.pumpHead most).2.length) / pageSize) 1) ram.pages := ⟨_, rfl⟩
    have hpage := hfirst.page
    have hcount : (save.pumpHead most).1.page +
        (min stop ram.pages - (save.pumpHead most).1.page) = stop := by omega
    obtain ⟨after, htake, -⟩ := Ram.takePages_eq (save.pumpHead most).2 hwf
      (hfirst.holds hundone (hepoch.trans hcurrent)) (hcount.trans_le (by omega))
    rw [← hstop, Ram.trapTake, if_neg (by simp [hepoch, hcurrent]), htake, hcount]
    dsimp only
    by_cases hlast : stop = ram.pages
    · rw [if_pos hlast]
      exact .inl rfl
    · rw [if_neg hlast]
      refine .inr ⟨rfl, fun hnil => ?_⟩
      have hinside : (save.pumpHead most).1.page * pageSize < ram.size :=
        lt_pageCount.mp (by rw [← Ram.pages]; omega)
      have hzero := congrArg List.length (append_eq_nil_iff.mp hnil).2
      rw [length_slice, himage, length_nil] at hzero
      rw [pageSize] at hinside hzero
      omega
  · refine .inr ⟨rfl, fun hnil => hroom ⟨?_, .inr hnil⟩⟩
    rw [hnil] at hlength
    have hsent : ¬save.sent < save.head.length := by
      rw [length_nil] at hlength
      omega
    rw [DeferredSave.pumpHead, if_neg hsent]
    exact Nat.le_of_not_lt hsent

end Pump

theorem System.find_eq_some {id : ℕ} (hfind : system.find id = some (session, save)) :
    system.sessions[id]? = some session ∧ session.save = some save := by
  rw [find, bind_eq_some_iff] at hfind
  obtain ⟨found, hfound, hmap⟩ := hfind
  obtain ⟨save', hsave, heq⟩ := map_eq_some_iff.mp hmap
  cases heq
  exact ⟨hfound, hsave⟩

/-- A step of the save `id` that leaves the bytes and the epoch of the RAM, and changes the
trap only if it is that of the save. -/
theorem System.Ok.own (hok : system.Ok) {id : ℕ} {next : Session} {after : Ram}
    (hfind : system.sessions[id]? = some session) (hsave : session.save = some save)
    (hbytes : after.bytes = system.ram.bytes) (hepoch : after.trap.epoch = system.ram.trap.epoch)
    (htrap : after.trap.Wf after.size)
    (hown : after = system.ram ∨ save.epoch = system.ram.trap.epoch ∧ save.done = false)
    (hnext : next.Ok after) (hsame : ∀ save', next.save = some save' → save'.epoch = save.epoch)
    (hidle : session.InProgress → ¬next.InProgress → after.trap.Idle) :
    System.Ok { ram := after, sessions := system.sessions.set id next } := by
  have hlt : id < system.sessions.length := (List.getElem?_eq_some_iff.mp hfind).1
  have hself : (system.sessions.set id next)[id]? = some next := List.getElem?_set_self hlt
  have hcases : ∀ {i : ℕ} {other : Session}, (system.sessions.set id next)[i]? = some other →
      i = id ∧ other = next ∨ i ≠ id ∧ system.sessions[i]? = some other := by
    intro i other hother
    by_cases hi : i = id
    · subst hi
      exact .inl ⟨rfl, some.inj (hother.symm.trans hself)⟩
    · rw [List.getElem?_set_ne (Ne.symm hi)] at hother
      exact .inr ⟨hi, hother⟩
  exact {
    trap := htrap
    sessions := by
      intro i other hother
      rcases hcases hother with ⟨-, rfl⟩ | ⟨hi, hbefore⟩
      · exact hnext
      · have hother' := hok.sessions i other hbefore
        rcases hown with rfl | ⟨hcurrent, -⟩
        · exact hother'
        · have hsize : after.size = system.ram.size := by
            rw [Ram.size, Ram.size, hbytes]
          exact { hother' with
            image := hother'.image.trans hsize.symm
            save := fun save' hsave' => (hother'.save save' hsave').of_same hsize hepoch
              -- the trap is in the hands of another save
              fun _ heq => absurd
                (hok.apart hbefore hfind hsave' hsave (heq.trans hcurrent.symm)) hi }
    apart := by
      intro i j left right save' save'' hleft hright hleft' hright' heq
      rcases hcases hleft with ⟨rfl, rfl⟩ | ⟨hi, hbefore⟩
      · rcases hcases hright with ⟨rfl, -⟩ | ⟨-, hbefore'⟩
        · rfl
        · exact hok.apart hfind hbefore' hsave hright' ((hsame save' hleft').symm.trans heq)
      · rcases hcases hright with ⟨rfl, rfl⟩ | ⟨-, hbefore'⟩
        · exact hok.apart hbefore hfind hleft' hsave (heq.trans (hsame save'' hright'))
        · exact hok.apart hbefore hbefore' hleft' hright' heq
    idle := by
      intro hnone
      by_cases hprogress : session.InProgress
      · exact hidle hprogress (hnone id next hself)
      · have hafter : after = system.ram := by
          rcases hown with hafter | ⟨hcurrent, hdone⟩
          · exact hafter
          · have hsaved := (hok.sessions id session hfind).save save hsave
            exact absurd ⟨save, hsave, hdone, (hsaved.current hdone).mpr hcurrent⟩ hprogress
        rw [hafter]
        refine hok.idle fun i other hother => ?_
        by_cases hi : i = id
        · subst hi
          rwa [some.inj (hother.symm.trans hfind)]
        · refine hnone i other ?_
          rwa [List.getElem?_set_ne (Ne.symm hi)] }

theorem System.Ok.pump (hok : system.Ok) (id most : ℕ) : (system.step (.pump id most)).Ok := by
  rw [step]
  cases hfound : system.find id with
  | none => exact hok
  | some found =>
    obtain ⟨session, save⟩ := found
    obtain ⟨hfind, hsave⟩ := find_eq_some hfound
    have hsession := hok.sessions id session hfind
    have hpumped := (hsession.save save hsave).pump hok.trap most
    have hsize : (save.pump system.ram most).2.2.1.size = system.ram.size := by
      rw [Ram.size, Ram.size, hpumped.bytes]
    have himage := hsession.image.trans hsize.symm
    refine hok.own hfind hsave hpumped.bytes hpumped.trapEpoch hpumped.trap hpumped.own
      ⟨himage, fun hanswer => ?_, fun hanswer => ?_, fun save' hsave' => ?_⟩
      (fun save' hsave' => ?_) (fun hprogress hnot => ?_)
    · have hdone := hpumped.answered (some.inj hanswer)
      exact ⟨hpumped.ok.given_of_done himage hdone, (hpumped.ok.done hdone).2.2⟩
    · rintro save' ⟨⟩
      exact hpumped.answered (some.inj hanswer)
    · cases hsave'
      exact hpumped.ok
    · cases hsave'
      exact hpumped.epoch
    · obtain ⟨save', hsave', hdone, hovertaken⟩ := hprogress
      cases hsave.symm.trans hsave'
      refine hpumped.idle hdone ?_
      by_contra hundone
      exact hnot ⟨_, rfl, Bool.eq_false_of_not_eq_true hundone, hovertaken⟩

/-! ## The end of a save -/

theorem System.Ok.drop (hok : system.Ok) (id : ℕ) : (system.step (.drop id)).Ok := by
  rw [step]
  cases hfound : system.find id with
  | none => exact hok
  | some found =>
    obtain ⟨session, save⟩ := found
    obtain ⟨hfind, hsave⟩ := find_eq_some hfound
    have hsession := hok.sessions id session hfind
    have hsaved := hsession.save save hsave
    have hanswer : Session.Ok (save.drop system.ram) { session with save := none } := by
      refine ⟨hsession.image.trans ?_, hsession.answer, by simp, by simp⟩
      rw [DeferredSave.drop]
      split_ifs <;> rfl
    dsimp only
    rw [DeferredSave.drop] at hanswer ⊢
    split_ifs at hanswer ⊢ with hown
    · exact hok.own hfind hsave rfl rfl hok.trap.disarm (.inr ⟨hown.2.symm, hown.1⟩) hanswer
        (by simp) fun _ _ => Trap.idle_disarm system.ram.trap
    · refine hok.own hfind hsave rfl rfl hok.trap (.inl rfl) hanswer (by simp) ?_
      rintro ⟨save', hsave', hdone, hovertaken⟩ -
      cases hsave.symm.trans hsave'
      exact absurd ⟨hdone, ((hsaved.current hdone).mp hovertaken).symm⟩ hown

/-! ## Whole runs -/

/-- Every operation keeps what is true of the saves. -/
theorem System.Ok.step (hok : system.Ok) (event : Event) : (system.step event).Ok := by
  cases event with
  | start parallel head => exact hok.start parallel head
  | pump id most => exact hok.pump id most
  | drop id => exact hok.drop id
  | write pa data => exact hok.guarded (system.ram.guarded_writeWatched pa data)
  | writeWatched pa data => exact hok.guarded (system.ram.guarded_writeWatched pa data)
  | cmpxchg pa old new => exact hok.guarded (system.ram.guarded_cmpxchg pa old new)
  | writeDirect pa data => exact hok.guarded (system.ram.guarded_writeDirect pa data)
  | restore blocks ok => exact hok.restore blocks ok

theorem System.Ok.run (hok : system.Ok) (events : List Event) : (system.run events).Ok := by
  refine Machine.run_always (fun system _ => system.Ok) (fun hok hstep => ?_) hok
    (Machine.run_total system events)
  cases hstep
  exact hok.step _

/-- A RAM with any contents, and no save. -/
def System.boot (bytes : List Byte) (watch : Watch) : System :=
  ⟨⟨bytes, watch, Trap.new bytes.length⟩, []⟩

theorem System.ok_boot (bytes : List Byte) (watch : Watch) : (System.boot bytes watch).Ok where
  trap := {
    words := length_replicate
    inside := by simp [boot, Trap.new]
    armed := by
      refine (Finset.card_eq_zero.mpr (Finset.eq_empty_of_forall_notMem fun i => ?_)).symm
      simp [boot, Trap.new]
    keptInside := by simp [boot, Trap.new]
    keptBytes := by simp [boot, Trap.new, keptTotal, keptSize]
    apart := by simp [boot, Trap.new] }
  sessions := by simp [boot]
  apart := by simp [boot]
  idle := by simp [boot, Trap.new, Trap.Idle]

/-- A deferred save is an image of the RAM at the instant it started: whatever is written,
restored or saved meanwhile, a save that ends has given its head and that image, a save that
was overtaken does not end, and the counters of the trap are those of its bits and pages. -/
theorem deferred_save_is_image (bytes : List Byte) (watch : Watch) (events : List Event) :
    let system := (System.boot bytes watch).run events
    let trap := system.ram.trap
    (∀ session ∈ system.sessions,
      (session.answer = some (.ok true) → session.given = session.head ++ session.image) ∧
      (session.overtaken = true → session.answer ≠ some (.ok true))) ∧
    trap.armed = (Bitmap.members trap.bits).card ∧
    trap.keptBytes = keptTotal system.ram.size trap.kept ∧
    (∀ i kept, trap.kept i = some kept → i < system.ram.pages) ∧
    ((∀ session ∈ system.sessions, ¬session.InProgress) →
      trap.armed = 0 ∧ trap.keptBytes = 0 ∧ trap.Idle) := by
  have hok := (System.ok_boot bytes watch).run events
  refine ⟨fun session hmem => ?_, hok.trap.armed, hok.trap.keptBytes,
    fun i kept hkept => (hok.trap.keptInside i kept hkept).1, fun hnone => ?_⟩
  · obtain ⟨id, hfind⟩ := mem_iff_getElem?.mp hmem
    have hsession := hok.sessions id session hfind
    refine ⟨fun hanswer => (hsession.answer hanswer).1, fun hovertaken hanswer => ?_⟩
    rw [(hsession.answer hanswer).2] at hovertaken
    cases hovertaken
  · have hidle := hok.idle fun id session hfind =>
      hnone session (mem_iff_getElem?.mpr ⟨id, hfind⟩)
    refine ⟨?_, ?_, hidle⟩
    · rw [hok.trap.armed]
      refine Finset.card_eq_zero.mpr (Finset.eq_empty_of_forall_notMem fun i => ?_)
      rw [Bitmap.mem_members, hidle.1 i]
      exact Bool.false_ne_true
    · rw [hok.trap.keptBytes, keptTotal]
      refine Finset.sum_eq_zero fun i _ => ?_
      rw [hidle.2 i]
      rfl

/-- In every run, a call of `pump` with room for a byte ends a save in progress that was not
overtaken, or gives more of it. -/
theorem pump_advances (bytes : List Byte) (watch : Watch) (events : List Event) (id : ℕ) {most : ℕ}
    (hfind : ((System.boot bytes watch).run events).find id = some (session, save))
    (hdone : save.done = false) (hown : session.overtaken = false) (hmost : 0 < most) :
    let pumped := save.pump ((System.boot bytes watch).run events).ram most
    pumped.1 = .ok true ∨ pumped.1 = .ok false ∧ pumped.2.2.2 ≠ [] := by
  have hok := (System.ok_boot bytes watch).run events
  obtain ⟨hget, hsave⟩ := System.find_eq_some hfind
  have hsession := hok.sessions id session hget
  have hsaved := hsession.save save hsave
  exact hsaved.pump_progress hsession.image hok.trap hdone ((hsaved.current hdone).mp hown) hmost

/-- A RAM of a page and two bytes, whose second page is written between two pumps. -/
def trappedRun : System :=
  (System.boot (replicate 4096 1 ++ [2, 3]) ⟨[], 0, [], 0⟩).run
    [.start false [7], .pump 0 4096, .write (ramBase + 4097) [9]]

/-- The second pump gives the page as it was. -/
theorem pump_advances_trapped : ∃ session save,
    trappedRun.find 0 = some (session, save) ∧ session.given.length = 4097 ∧
    trappedRun.ram.bytes[4097]? = some 9 ∧ (save.pump trappedRun.ram 1).2.2.2 = [2, 3] ∧
    ((save.pump trappedRun.ram 1).1 = .ok true ∨ (save.pump trappedRun.ram 1).1 = .ok false ∧
      (save.pump trappedRun.ram 1).2.2.2 ≠ []) := by
  have hmap : (trappedRun.find 0).map (fun r => (r.2.done, r.1.overtaken, r.1.given.length,
      trappedRun.ram.bytes[4097]?, (r.2.pump trappedRun.ram 1).2.2.2)) =
      some (false, false, 4097, some 9, [2, 3]) := by
    decide +kernel
  obtain ⟨⟨session, save⟩, hfind, hs⟩ := Option.map_eq_some_iff.mp hmap
  simp only [Prod.mk.injEq] at hs
  exact ⟨session, save, hfind, hs.2.2.1, hs.2.2.2.1, hs.2.2.2.2,
    pump_advances (replicate 4096 1 ++ [2, 3]) ⟨[], 0, [], 0⟩ _ 0 hfind hs.1 hs.2.1 one_pos⟩

end Vetro.Board
