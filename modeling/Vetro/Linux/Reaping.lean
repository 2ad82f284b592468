import Mathlib.Data.List.ReduceOption
import Vetro.Linux.Process
import Vetro.Linux.Lifecycle

/-!
# Children are reaped once

The tasks of the kernel are a table of threads, and its steps are moves of the
table when a leader exits last, when only leaders load an image and when `wait4`
can write what it is asked to.
-/

namespace Vetro.Linux

open Lifecycle Kernel List Linux.Task

/-! ## Lists with distinct keys -/

section Keyed

variable {A K : Type*} {key : A → K} {l : List A} {t : ℕ} {x : A}

variable (hnodup : (l.map key).Nodup)
include hnodup

theorem index_of_key {i : ℕ} {y : A} (hi : l[i]? = some y) (ht : l[t]? = some x)
    (hkey : key y = key x) : i = t := by
  have hlt : i < (l.map key).length := by
    rw [length_map]
    exact (List.getElem?_eq_some_iff.mp hi).1
  apply (getElem?_inj hlt hnodup).mp
  rw [getElem?_map, getElem?_map, hi, ht, Option.map_some, Option.map_some, hkey]

theorem findIdx?_key {p : A → Bool} (hget : l[t]? = some x) (hp : p x = true)
    (hkey : ∀ y ∈ l, p y = true → key y = key x) : l.findIdx? p = some t := by
  rw [findIdx?_eq_some_iff_getElem]
  obtain ⟨hlt, hx⟩ := List.getElem?_eq_some_iff.mp hget
  refine ⟨hlt, hx ▸ hp, ?_⟩
  intro j hj hpj
  apply hj.ne
  apply index_of_key hnodup (getElem?_eq_getElem (hj.trans hlt)) hget
  exact hkey _ (getElem_mem _) hpj

variable [DecidableEq K]

theorem mapIdx_eq_map (hget : l[t]? = some x) (g : Bool → A → A) :
    (l.mapIdx fun i y => g (i == t) y) = l.map fun y => g (key y == key x) y := by
  apply ext_getElem?
  intro i
  rw [getElem?_mapIdx, getElem?_map]
  cases hi : l[i]? with
  | none => rfl
  | some y =>
    have hsame : (i == t) = (key y == key x) := by
      rw [Bool.eq_iff_iff, beq_iff_eq, beq_iff_eq]
      constructor
      · rintro rfl
        rw [hget] at hi
        rw [Option.some.inj hi]
      · exact index_of_key hnodup hi hget
    rw [Option.map_some, Option.map_some, hsame]

theorem modify_eq_map (hget : l[t]? = some x) (f : A → A) :
    l.modify t f = l.map fun y => if key y = key x then f y else y := by
  have hmapIdx : l.modify t f = l.mapIdx fun i y => if i == t then f y else y := by
    apply ext_getElem?
    intro i
    by_cases hi : i = t
    · subst hi
      simp
    · simp [hi, Ne.symm hi]
  rw [hmapIdx, mapIdx_eq_map hnodup hget fun b y => if b then f y else y]
  simp

end Keyed

/-! ## The table -/

def State.kind : State → Kind
  | .runnable | .blocked _ => .live
  | .zombie _ => .zombie
  | .dead => .dead

def Task.thread (x : Task) : Thread := ⟨x.tid, x.tgid, x.sighand, x.state.kind⟩

def Kernel.table (k : Kernel) : Table := k.tasks.map thread

variable {x : Task}

theorem kind_eq_live : x.state.kind = .live ↔ x.live = true := by
  unfold State.kind live
  cases x.state <;> simp

theorem kind_eq_zombie : x.state.kind = .zombie ↔ x.isZombie = true := by
  unfold State.kind isZombie
  cases x.state <;> simp

variable {k : Kernel}

theorem mem_table (hx : x ∈ k.tasks) : x.thread ∈ k.table :=
  mem_map_of_mem hx

theorem map_tid_table (k : Kernel) : k.table.map Thread.tid = k.tasks.map tid := by
  rw [table, map_map]
  rfl

variable {f : Task → Task} {g : Thread → Thread}

/-- A change of the tasks that the table follows. -/
theorem table_map (hfollow : ∀ x ∈ k.tasks, (f x).thread = g x.thread) :
    (k.tasks.map f).map thread = k.table.map g := by
  rw [table, map_map, map_map]
  exact map_congr_left hfollow

theorem map_modify {B : Type} {g : Task → B} {l : List Task} {t : ℕ} (hf : ∀ x, g (f x) = g x) :
    (l.modify t f).map g = l.map g := by
  apply ext_getElem?
  intro i
  rw [getElem?_map, getElem?_map, getElem?_modify]
  cases l[i]? with
  | none => rfl
  | some x =>
    simp only [Option.map_eq_map, Option.map_some]
    split_ifs
    · rw [hf]
    · rfl

/-- The pids in use lie below the next one. -/
def Numbered (k : Kernel) : Prop := ∀ tid ∈ k.tasks.map Task.tid, 0 < tid ∧ tid < k.nextPid

variable {k' : Kernel}

theorem Numbered.of_tids (hnumbered : Numbered k)
    (htids : k'.tasks.map tid = k.tasks.map tid) (hnext : k'.nextPid = k.nextPid) :
    Numbered k' := by
  unfold Numbered
  rw [htids, hnext]
  exact hnumbered

/-- The table is in order. -/
def Kept (k : Kernel) : Prop := Ordered k.table ∧ Numbered k

theorem Kept.tids (hkept : Kept k) : (k.tasks.map tid).Nodup := by
  rw [← map_tid_table]
  exact hkept.1.tids

theorem Kept.leader (hkept : Kept k) (hx : x ∈ k.tasks) :
    ∃ c ∈ k.tasks, c.tid = x.tgid ∧ c.tgid = x.tgid := by
  obtain ⟨y, hy, hnames⟩ := hkept.1.leader x.thread (mem_table hx)
  obtain ⟨c, hc, rfl⟩ := mem_map.mp hy
  exact ⟨c, hc, hnames⟩

theorem Kept.led (hkept : Kept k) {c : Task} (hx : x ∈ k.tasks) (hlive : x.live = true)
    (hc : c ∈ k.tasks) (htid : c.tid = x.tgid) : c.live = true :=
  kind_eq_live.mp (hkept.1.led _ (mem_table hx) (kind_eq_live.mpr hlive) _ (mem_table hc) htid)

theorem Kept.shared (hkept : Kept k) {y : Task} (hx : x ∈ k.tasks) (hxlive : x.live = true)
    (hy : y ∈ k.tasks) (hylive : y.live = true) (htgid : x.tgid = y.tgid) :
    k.action x = k.action y := by
  rw [action, action, show x.sighand = y.sighand from hkept.1.shared _ (mem_table hx) _
    (mem_table hy) (kind_eq_live.mpr hxlive) (kind_eq_live.mpr hylive) htgid]

theorem kept_spawned : Kept spawned := by
  refine ⟨⟨by decide, ?_, ?_, ?_⟩, ?_⟩
  · intro x hx
    exact ⟨x, hx, by rw [mem_singleton.mp hx]; decide⟩
  · intro x hx hlive c hc _
    rw [mem_singleton.mp hc]
    rfl
  · intro x hx y hy _ _ _
    rw [mem_singleton.mp hx, mem_singleton.mp hy]
  · intro tid htid
    rw [mem_singleton.mp htid]
    decide

variable {k : Kernel} {t : ℕ} {task : Task}

theorem table_modify (htids : (k.tasks.map tid).Nodup) (hget : k.tasks[t]? = some task)
    (hfollow : ∀ x, (f x).thread = g x.thread) :
    (k.tasks.modify t f).map thread =
      k.table.map fun y => if y.tid = task.tid then g y else y := by
  rw [modify_eq_map htids hget]
  apply table_map
  intro x _
  by_cases hsame : x.tid = task.tid
  · have hthread : x.thread.tid = task.tid := hsame
    rw [if_pos hsame, if_pos hthread, hfollow]
  · have hthread : x.thread.tid ≠ task.tid := hsame
    rw [if_neg hsame, if_neg hthread]

theorem table_setState (htids : (k.tasks.map tid).Nodup) (hget : k.tasks[t]? = some task)
    (state : State) :
    (k.setState t state).table =
      k.table.map fun y => if y.tid = task.tid then { y with kind := state.kind } else y :=
  table_modify htids hget fun _ => rfl

/-- A task that goes on living, whatever it waits for. -/
theorem table_setState_live (htids : (k.tasks.map tid).Nodup)
    (hget : k.tasks[t]? = some task) (state : State) (hstate : state.kind = task.state.kind) :
    (k.setState t state).table = k.table := by
  rw [table_setState htids hget, hstate]
  conv_rhs => rw [← map_id k.table]
  apply map_congr_left
  intro y hy
  obtain ⟨x, hx, rfl⟩ := mem_map.mp hy
  split_ifs with hsame
  · have hxtask : x = task := inj_on_of_nodup_map htids hx (mem_of_getElem? hget) hsame
    rw [hxtask]
    rfl
  · rfl

theorem tids_setState (k : Kernel) (t : ℕ) (state : State) :
    (k.setState t state).tasks.map tid = k.tasks.map tid :=
  map_modify fun _ => rfl

theorem thread_finished (x : Task) : (finished x).thread =
    { x.thread with kind := if x.tid = x.tgid then .zombie else .dead } := by
  unfold finished thread
  split_ifs <;> rfl

/-! ## The end of a process -/

theorem tids_finishThread : (k.finishThread t).tasks.map tid = k.tasks.map tid :=
  map_modify fun _ => rfl

theorem table_reparent (p : Pid) : (k.reparent p).table = k.table := by
  conv_rhs => rw [← map_id k.table]
  apply table_map
  intro x _
  split_ifs <;> rfl

theorem tids_reparent (p : Pid) : (k.reparent p).tasks.map tid = k.tasks.map tid := by
  rw [← map_tid_table, ← map_tid_table, table_reparent]

/-- A parent that is found and cares keeps the child as a zombie. -/
theorem find_eq_some (htids : (k.tasks.map tid).Nodup) {i : ℕ} (hget : k.tasks[i]? = some task)
    (hstate : task.state ≠ .dead) : k.find task.tid = some i := by
  apply findIdx?_key htids hget
  · simp [hstate]
  · intro y _ hy
    simp only [Bool.and_eq_true, beq_iff_eq] at hy
    exact hy.1

/-- What `reparent` makes of a task. -/
def reparented (init p : Pid) (x : Task) : Task :=
  if x.ppid == p && x.tgid != p then { x with ppid := init } else x

theorem reparented_keeps (init p : Pid) (x : Task) :
    (reparented init p x).tid = x.tid ∧ (reparented init p x).sighand = x.sighand ∧
      (reparented init p x).state = x.state := by
  unfold reparented
  split_ifs <;> exact ⟨rfl, rfl, rfl⟩

variable {p : Pid}

theorem reparented_own {init : Pid} (hown : x.tgid = p) : reparented init p x = x := by
  rw [reparented, hown, bne_self_eq_false, Bool.and_false]
  rfl

theorem table_endProcess (htids : (k.tasks.map tid).Nodup) {leader : Task}
    (hleader : leader ∈ k.tasks) (hnames : leader.tgid = leader.tid) (status : BitVec 32) :
    ∃ kind, kind ≠ Kind.live ∧
      (k.endProcess leader.tid status).table =
        k.table.map (fun y => if y.tid = leader.tid then { y with kind } else y) ∧
      ((∃ parent ∈ k.tasks, parent.tid = leader.ppid ∧ parent.state ≠ .dead ∧
        (k.action parent).ignoresChildren = false) → kind = .zombie) := by
  obtain ⟨i, hi⟩ := mem_iff_getElem?.mp hleader
  have hfound : k.tasks.findIdx? (fun x => x.tid == leader.tid) = some i :=
    findIdx?_key htids hi (by simp) fun y _ hy => by simpa using hy
  obtain ⟨m, hm, htasks, hsighands⟩ : ∃ m : Kernel,
      (if leader.tid == (k.reparent leader.tid).init then
        { k.reparent leader.tid with initExit := some (exitOf status) }
        else k.reparent leader.tid) = m ∧
      m.tasks = k.tasks.map (reparented k.init leader.tid) ∧ m.sighands = k.sighands := by
    refine ⟨_, rfl, ?_, ?_⟩ <;> split_ifs <;> rfl
  have htable : m.table = k.table := by
    rw [table, htasks]
    exact table_reparent leader.tid
  have hmtids : (m.tasks.map tid).Nodup := by
    rw [← map_tid_table, htable, map_tid_table]
    exact htids
  have hmi : m.tasks[i]? = some leader := by
    rw [htasks, getElem?_map, hi, Option.map_some, reparented_own hnames]
  rw [endProcess, hfound]
  dsimp only
  rw [hm, hmi, table_setState hmtids hmi, htable]
  refine ⟨_, ?_, rfl, ?_⟩
  · split_ifs <;> rintro ⟨⟩
  · rintro ⟨parent, hmem, htid, hstate, hcares⟩
    obtain ⟨j, hj⟩ := mem_iff_getElem?.mp hmem
    obtain ⟨hptid, hpsighand, hpstate⟩ := reparented_keeps k.init leader.tid parent
    have hmj : m.tasks[j]? = some (reparented k.init leader.tid parent) := by
      rw [htasks, getElem?_map, hj, Option.map_some]
    have hfind : m.find leader.ppid = some j := by
      rw [← htid, ← hptid]
      exact find_eq_some hmtids hmj (hpstate ▸ hstate)
    have haction : m.action (reparented k.init leader.tid parent) = k.action parent := by
      rw [action, action, hpsighand, hsighands]
    rw [Option.map_some, Option.getD_some, hfind, Option.bind_some, hmj, Option.all_some, haction,
      hcares, Bool.false_and]
    rfl

theorem sendToProcess_eq_some {signal : BitVec 64} (hsend : k.sendToProcess p signal = some k') :
    k' = k := by
  rw [sendToProcess] at hsend
  split_ifs at hsend
  exact (Option.some.inj hsend).symm

/-- The parent is told, which no task shows. -/
theorem finishProcess_eq_some {status : BitVec 32} (hfinish : k.finishProcess p status = some k') :
    k' = k.endProcess p status := by
  rw [finishProcess] at hfinish
  split at hfinish
  · exact (Option.some.inj hfinish).symm
  · split_ifs at hfinish
    · exact sendToProcess_eq_some hfinish
    · exact (Option.some.inj hfinish).symm

/-- The parent of the process is alive, and neither ignores SIGCHLD nor asks for no
zombies. -/
def Cared (k : Kernel) (p : Pid) : Prop :=
  ∃ leader ∈ k.tasks, leader.tid = p ∧ ∃ parent ∈ k.tasks,
    parent.tgid = leader.ppid ∧ parent.live = true ∧ (k.action parent).ignoresChildren = false

/-- The process ends once its threads have: `f` is what their ends make of the
tasks. -/
theorem move_finishProcess (hkept : Kept k) (hx : x ∈ k.tasks) (hlive : x.live = true)
    (hnames : ∀ y, (f y).tid = y.tid ∧ (f y).tgid = y.tgid ∧ (f y).ppid = y.ppid ∧
      (f y).sighand = y.sighand)
    (hleader : ∀ y, y.tid = y.tgid → y.live = true → (f y).state ≠ .dead)
    (hthread : ∀ y ∈ k.tasks, y.tid ≠ x.tgid → ∀ kind, (f y).thread = finish x.tgid kind y.thread)
    {status : BitVec 32}
    (hfinish : finishProcess { k with tasks := k.tasks.map f } x.tgid status = some k') :
    Move (Cared k) k.table k'.table none := by
  obtain rfl := finishProcess_eq_some hfinish
  obtain ⟨c, hc, hctid, hctgid⟩ := hkept.leader hx
  set m : Kernel := { k with tasks := k.tasks.map f } with hm
  have hmtids : m.tasks.map tid = k.tasks.map tid := by
    rw [hm, map_map]
    exact map_congr_left fun y _ => (hnames y).1
  have hmem : ∀ {y}, y ∈ k.tasks → f y ∈ m.tasks := fun hy => mem_map_of_mem hy
  have hfc : (f c).tgid = (f c).tid := by
    rw [(hnames c).1, (hnames c).2.1, hctid, hctgid]
  obtain ⟨kind, hkind, htable, hzombie⟩ :=
    table_endProcess (hmtids ▸ hkept.tids) (hmem hc) hfc status
  have hended : (m.endProcess x.tgid status).table = k.table.map (finish x.tgid kind) := by
    rw [← hctid, ← (hnames c).1, htable, (hnames c).1, hctid, table, table, map_map, hm,
      map_map, map_map]
    apply map_congr_left
    intro y hy
    change (if (f y).tid = x.tgid then { (f y).thread with kind } else (f y).thread) =
      finish x.tgid kind y.thread
    by_cases htid : y.tid = x.tgid
    · have hthreadTid : y.thread.tid = x.tgid := htid
      rw [if_pos ((hnames y).1.trans htid), finish, if_pos hthreadTid]
      unfold thread
      rw [(hnames y).1, (hnames y).2.1, (hnames y).2.2.2]
    · rw [if_neg ((hnames y).1.trans_ne htid), hthread y hy htid kind]
  rw [hended]
  apply Move.finish ⟨x.thread, mem_table hx, rfl, kind_eq_live.mpr hlive⟩ kind hkind
  rintro ⟨leader, hmemLeader, htid, parent, hparent, hppid, hplive, hcares⟩
  apply hzombie
  have hsame : leader = c :=
    inj_on_of_nodup_map hkept.tids hmemLeader hc (htid.trans hctid.symm)
  subst hsame
  -- the leader of the parent answers for its threads
  obtain ⟨q, hq, hqtid, hqtgid⟩ := hkept.leader hparent
  have hqlive := hkept.led hparent hplive hq hqtid
  refine ⟨f q, hmem hq, ?_, hleader q (hqtid.trans hqtgid.symm) hqlive, ?_⟩
  · rw [(hnames q).1, (hnames leader).2.2.1, hqtid, hppid]
  · have haction : m.action (f q) = k.action parent := by
      rw [← hkept.shared hq hqlive hparent hplive hqtgid, action, action, (hnames q).2.2.2]
    rw [haction]
    exact hcares

theorem finished_keeps (x : Task) : (finished x).tid = x.tid ∧ (finished x).tgid = x.tgid ∧
    (finished x).ppid = x.ppid ∧ (finished x).sighand = x.sighand := ⟨rfl, rfl, rfl, rfl⟩

theorem finished_leader (hleader : x.tid = x.tgid) : (finished x).state ≠ .dead := by
  rw [finished, if_pos hleader]
  rintro ⟨⟩

theorem live_finished (x : Task) : (finished x).live = false := by
  unfold finished live
  split_ifs <;> rfl

theorem thread_finished_of_ne (htgid : x.tgid = p) (hlive : x.live = true) (hne : x.tid ≠ p)
    (kind : Kind) : (finished x).thread = finish p kind x.thread := by
  have hboth : x.thread.tgid = p ∧ x.thread.kind = .live := ⟨htgid, kind_eq_live.mpr hlive⟩
  have htid : x.thread.tid ≠ p := hne
  rw [thread_finished, finish, if_neg htid, if_pos hboth, if_neg (htgid ▸ hne)]

theorem move_exitGroup (hkept : Kept k) (hx : x ∈ k.tasks) (hlive : x.live = true)
    {status : BitVec 32} (hexit : k.exitGroup x.tgid status = some k') :
    Move (Cared k) k.table k'.table none := by
  refine move_finishProcess hkept hx hlive ?_ ?_ ?_ hexit
  · intro y
    split_ifs
    · exact finished_keeps y
    · exact ⟨rfl, rfl, rfl, rfl⟩
  · intro y hy hylive hdead
    split_ifs at hdead with hboth
    · exact finished_leader hy hdead
    · rw [live, hdead] at hylive
      cases hylive
  · intro y _ hne kind
    simp only [Bool.and_eq_true, beq_iff_eq]
    split_ifs with hboth
    · exact thread_finished_of_ne hboth.1 hboth.2 hne kind
    · have htid : y.thread.tid ≠ x.tgid := hne
      have hnot : ¬ (y.thread.tgid = x.tgid ∧ y.thread.kind = .live) :=
        fun h => hboth ⟨h.1, kind_eq_live.mp h.2⟩
      rw [finish, if_neg htid, if_neg hnot]

/-- No other thread of the process lives when the leader exits. -/
def LastLeader (k : Kernel) (x : Task) : Prop :=
  x.tid = x.tgid → ∀ y ∈ k.tasks, y.tgid = x.tgid → y.live = true → y.tid = x.tid

theorem move_exitThread (hkept : Kept k) (hget : k.tasks[t]? = some task)
    (hlive : task.live = true) (hlast : LastLeader k task) {status : BitVec 32}
    (hexit : k.exitThread t task.tgid status = some k') :
    Move (Cared k) k.table k'.table none := by
  have hmem := List.mem_of_getElem? hget
  have hfinish : k.finishThread t =
      { k with tasks := k.tasks.map fun y => if y.tid = task.tid then finished y else y } := by
    rw [finishThread, modify_eq_map hkept.tids hget]
  rw [exitThread, hfinish] at hexit
  by_cases hleader : task.tid = task.tgid
  · -- the leader was the last thread
    have halive : alive { k with
        tasks := k.tasks.map fun y => if y.tid = task.tid then finished y else y }
        task.tgid = false := by
      rw [Bool.eq_false_iff]
      intro halive
      obtain ⟨z, hz, hboth⟩ := List.any_eq_true.mp halive
      obtain ⟨y, hy, rfl⟩ := List.mem_map.mp hz
      rw [Bool.and_eq_true, beq_iff_eq] at hboth
      split_ifs at hboth with htid
      · rw [live_finished] at hboth
        cases hboth.2
      · exact htid (hlast hleader y hy hboth.1 hboth.2)
    rw [halive, if_neg Bool.false_ne_true] at hexit
    refine move_finishProcess hkept hmem hlive ?_ ?_ ?_ hexit
    · intro y
      split_ifs
      · exact finished_keeps y
      · exact ⟨rfl, rfl, rfl, rfl⟩
    · intro y hy hylive hdead
      split_ifs at hdead
      · exact finished_leader hy hdead
      · rw [live, hdead] at hylive
        cases hylive
    · intro y hy hne kind
      have htid : y.thread.tid ≠ task.tgid := hne
      have hnot : ¬ (y.thread.tgid = task.tgid ∧ y.thread.kind = .live) := by
        rintro ⟨htgid, hkind⟩
        exact hne ((hlast hleader y hy htgid (kind_eq_live.mp hkind)).trans hleader)
      rw [if_neg (hleader ▸ hne), finish, if_neg htid, if_neg hnot]
  · obtain ⟨c, hc, hctid, hctgid⟩ := hkept.leader hmem
    have hne : c.tid ≠ task.tid := hctid.trans_ne (Ne.symm hleader)
    have halive : alive { k with
        tasks := k.tasks.map fun y => if y.tid = task.tid then finished y else y }
        task.tgid = true := by
      refine List.any_eq_true.mpr ⟨c, List.mem_map.mpr ⟨c, hc, if_neg hne⟩, ?_⟩
      rw [hctgid, beq_self_eq_true, Bool.true_and]
      exact hkept.led hmem hlive hc hctid
    rw [halive, if_pos rfl] at hexit
    cases hexit
    have htable : table { k with
        tasks := k.tasks.map fun y => if y.tid = task.tid then finished y else y } =
        k.table.map (drop task.thread.tid) := by
      apply table_map
      intro y hy
      split_ifs with htid
      · have hthread : y.thread.tid = task.thread.tid := htid
        rw [thread_finished, Lifecycle.drop, if_pos hthread, if_neg]
        rw [List.inj_on_of_nodup_map hkept.tids hy hmem htid]
        exact hleader
      · exact (drop_of_ne htid).symm
    rw [htable]
    exact Move.thread (mem_table hmem) hleader (kind_eq_live.mpr hlive)

/-! ## The other calls -/

theorem table_sysExecve (hkept : Kept k) (hget : k.tasks[t]? = some task)
    (hleader : task.tid = task.tgid) :
    (k.sysExecve t task (.ok ())).2.table = k.table.map (exec task.tid k.sighands.length) := by
  set g : Bool → Task → Task := fun own x =>
    if !own && x.tgid == task.tgid && x.state != .dead then { x with state := .dead } else x
    with hg
  have hmapIdx := mapIdx_eq_map hkept.tids hget g
  set m : Kernel := { k with tasks := k.tasks.map fun y => g (y.tid == task.tid) y } with hm
  have hmtids : m.tasks.map tid = k.tasks.map tid := by
    rw [hm, map_map]
    apply map_congr_left
    intro y _
    simp only [hg, Function.comp_apply]
    split_ifs <;> rfl
  have hmget : m.tasks[t]? = some task := by
    rw [hm, getElem?_map, hget, Option.map_some, beq_self_eq_true]
    rfl
  have htable := table_modify (hmtids ▸ hkept.tids) hmget
    (f := fun x => { x with sighand := k.sighands.length, vforkParent := none })
    (g := fun y => { y with sighand := k.sighands.length }) fun _ => rfl
  change ((k.tasks.mapIdx fun i x => g (i == t) x).modify t _).map thread = _
  rw [hmapIdx]
  rw [htable, table, table, hm, map_map, map_map, map_map]
  apply map_congr_left
  intro y _
  by_cases htid : y.tid = task.tgid
  · simp [htid, hg, exec, thread, hleader]
  · by_cases htgid : y.tgid = task.tgid
    · by_cases hdead : y.state = .dead
      · simp [htid, htgid, hg, exec, thread, hleader, hdead, State.kind]
      · simp [htid, htgid, hg, exec, thread, hleader, hdead, State.kind]
    · simp [htid, htgid, hg, exec, thread, hleader]

theorem reap_eq_some {me pid cpid : Pid} {status : BitVec 32}
    (hreap : k.reap me pid = some ((cpid, status), k')) :
    ∃ i c, k.tasks[i]? = some c ∧ c.tid = c.tgid ∧ c.isZombie = true ∧ cpid = c.tid ∧
      k' = k.setState i .dead := by
  unfold reap at hreap
  split at hreap
  · cases hreap
  · rename_i i hi
    obtain ⟨hlt, hwaitable, _⟩ := findIdx?_eq_some_iff_getElem.mp hi
    rw [waitable, Bool.and_eq_true, Bool.and_eq_true, Bool.and_eq_true, beq_iff_eq,
      beq_iff_eq] at hwaitable
    obtain ⟨⟨⟨_, hleader⟩, hzombie⟩, _⟩ := hwaitable
    have hget := getElem?_eq_getElem hlt
    split at hreap
    · rename_i tid tgid ppid pgid sighand status' exitSignal vforkParent hsome
      cases hreap
      rw [Option.some.inj (hget.symm.trans hsome)] at hleader hzombie
      exact ⟨i, _, hsome, hleader, hzombie, rfl, rfl⟩
    · cases hreap

/-- `wait4` writes where it is asked to. -/
def UserPtr.Usable (pointer : UserPtr) : Prop := pointer.addr = 0 ∨ pointer.writable = true

theorem UserPtr.Usable.eq_false {pointer : UserPtr} (husable : pointer.Usable) :
    (pointer.addr != 0 && !pointer.writable) = false := by
  rcases husable with haddr | hwritable
  · rw [haddr]
    rfl
  · rw [hwritable]
    exact Bool.and_false _

/-- `wait4` takes a child that has ended and returns it, or changes nothing. -/
theorem sysWait4_cases {me pid : Pid} {status : UserPtr} (hstatus : status.Usable)
    (options : BitVec 64) : (∃ c status' k', k.reap me pid = some ((c, status'), k') ∧
      k.sysWait4 me pid status options = (.ok (some c), k')) ∨
    ∃ result, k.sysWait4 me pid status options = (result, k) ∧
      ∀ value, result = .ok (some value) → value = 0 := by
  unfold sysWait4
  simp only [hstatus.eq_false, Bool.false_eq_true, if_false]
  cases hreap : k.reap me pid with
  | some r =>
    dsimp only
    split_ifs
    · exact .inr ⟨_, rfl, by simp⟩
    · exact .inr ⟨_, rfl, by simp⟩
    · exact .inl ⟨r.1.1, r.1.2, r.2, rfl, rfl⟩
  | none =>
    right
    split_ifs
    · exact ⟨_, rfl, by simp⟩
    · exact ⟨_, rfl, by simp⟩
    · exact ⟨_, rfl, by simp⟩
    · refine ⟨_, rfl, ?_⟩
      rintro value ⟨⟩
      rfl
    · exact ⟨_, rfl, by simp⟩

variable {result : Except ℤ Sys}

theorem move_wait4 (hkept : Kept k) {me pid : Pid} {status rusage : UserPtr}
    (hstatus : status.Usable) (hrusage : rusage.Usable) (options : BitVec 64)
    (hwait : k.wait4 me pid status options rusage = (result, k')) :
    Move (Cared k) k.table k'.table (returned (.wait4 pid status options rusage) result) ∧
      (∀ wait, result = .ok (.block wait) → k' = k) ∧
      k'.nextPid = k.nextPid ∧ k'.tasks.map Task.tid = k.tasks.map Task.tid := by
  rw [wait4] at hwait
  rcases sysWait4_cases (k := k) hstatus options with
    ⟨c, status', m, hreap, hsys⟩ | ⟨value, hsys, hzero⟩
  · obtain ⟨i, x, hget, hleader, hzombie, rfl, rfl⟩ := reap_eq_some hreap
    rw [hsys] at hwait
    dsimp only at hwait
    rw [hrusage.eq_false, if_neg Bool.false_ne_true] at hwait
    cases hwait
    have hmem := mem_of_getElem? hget
    have hpositive : x.tid ≠ 0 := ((hkept.2 _ (mem_map_of_mem hmem)).1).ne'
    refine ⟨?_, by simp, rfl, tids_setState k i _⟩
    rw [returned, if_neg hpositive, table_setState hkept.tids hget]
    exact Move.reap (mem_table hmem) hleader (kind_eq_zombie.mpr hzombie)
  · rw [hsys] at hwait
    have hnone : returned (.wait4 pid status options rusage) result = none ∧ k' = k := by
      cases value with
      | error errno =>
        cases hwait
        exact ⟨rfl, rfl⟩
      | ok value =>
        cases value with
        | none =>
          cases hwait
          exact ⟨rfl, rfl⟩
        | some value =>
          dsimp only at hwait
          rw [hrusage.eq_false, if_neg Bool.false_ne_true] at hwait
          cases hwait
          rw [returned, if_pos (hzero value rfl)]
          exact ⟨rfl, rfl⟩
    rw [hnone.1, hnone.2]
    exact ⟨Move.same _, fun _ _ => rfl, rfl, rfl⟩

variable {flags : BitVec 64}

/-- A new task is the first of its process, or shares the actions of the one that
makes it. -/
theorem move_cloned (hkept : Kept k) (hmem : task ∈ k.tasks) (hlive : task.live = true)
    {sighand : ℕ} (hsighand : (flags &&& CLONE_THREAD != 0) = true → sighand = task.sighand) :
    Move (Cared k) k.table (k.table ++ [(cloned task flags k.nextPid sighand).thread]) none := by
  have hbelow : ∀ {x}, x ∈ k.tasks → x.tid ≠ k.nextPid := fun hx =>
    (hkept.2 _ (mem_map_of_mem hx)).2.ne
  apply Move.born
  · intro y hy
    obtain ⟨x, hx, rfl⟩ := mem_map.mp hy
    obtain ⟨c, hc, hctid, _⟩ := hkept.leader hx
    exact ⟨hbelow hx, (hctid.symm.trans_ne (hbelow hc) : x.tgid ≠ k.nextPid)⟩
  · rfl
  · by_cases hthread : (flags &&& CLONE_THREAD != 0) = true
    · refine .inr ⟨task.thread, mem_table hmem, kind_eq_live.mpr hlive, ?_, ?_⟩
      · simp only [cloned, Task.thread, if_pos hthread]
      · exact (hsighand hthread).symm
    · left
      simp only [cloned, Task.thread, if_neg hthread]

theorem numbered_next (hnumbered : Numbered k) : Numbered { k with nextPid := k.nextPid + 1 } :=
  fun tid htid => ⟨(hnumbered tid htid).1, (hnumbered tid htid).2.trans (Int.lt_succ _)⟩

theorem sighand_of_thread
    (hflags : ¬((flags &&& CLONE_THREAD != 0 && flags &&& CLONE_SIGHAND == 0) ||
      (flags &&& CLONE_SIGHAND != 0 && flags &&& CLONE_VM == 0)) = true)
    (hthread : (flags &&& CLONE_THREAD != 0) = true) : (flags &&& CLONE_SIGHAND != 0) = true := by
  rw [Bool.or_eq_true, not_or, hthread, Bool.true_and] at hflags
  rw [bne, Bool.not_eq_true']
  exact Bool.eq_false_iff.mpr hflags.1

theorem move_sysClone (hkept : Kept k) (hget : k.tasks[t]? = some task)
    (hrunnable : task.state = .runnable) {ptid ctid : UserPtr}
    (hclone : k.sysClone t task flags ptid ctid = some (result, k')) :
    Move (Cared k) k.table k'.table none ∧ Numbered k' ∧ ∀ wait, result ≠ .ok (.block wait) := by
  have hmem := mem_of_getElem? hget
  have hlive : task.live = true := by rw [Task.live, hrunnable]
  have hnext : 0 < k.nextPid :=
    (hkept.2 _ (mem_map_of_mem hmem)).1.trans (hkept.2 _ (mem_map_of_mem hmem)).2
  unfold sysClone at hclone
  split at hclone
  · cases hclone
    exact ⟨Move.same _, hkept.2, by simp⟩
  · rename_i hflags
    rw [allocPid] at hclone
    by_cases hroom : k.nextPid + 1 < 2 ^ 31
    · rw [if_pos hroom] at hclone
      dsimp only at hclone
      generalize hsighand : (if (flags &&& CLONE_SIGHAND != 0) = true then task.sighand
        else k.sighands.length) = sighand at hclone
      generalize (if (flags &&& CLONE_SIGHAND != 0) = true then k.sighands
        else k.sighands ++ [_]) = sighands at hclone
      have hshared : (flags &&& CLONE_THREAD != 0) = true → sighand = task.sighand := by
        intro hthread
        rw [← hsighand, if_pos (sighand_of_thread hflags hthread)]
      have hmove := move_cloned hkept hmem hlive hshared
      set m : Kernel := { k with
        tasks := k.tasks ++ [cloned task flags k.nextPid sighand], sighands,
        nextPid := k.nextPid + 1 } with hm
      have htable : m.table = k.table ++ [(cloned task flags k.nextPid sighand).thread] := by
        rw [table, hm, map_append]
        rfl
      have hmordered : Ordered m.table := htable ▸ ordered_move hkept.1 hmove
      have hmnumbered : Numbered m := by
        intro tid htid
        rw [hm, map_append] at htid
        rcases mem_append.mp htid with hold | hnew
        · exact numbered_next hkept.2 tid hold
        · rw [mem_singleton.mp hnew]
          exact ⟨hnext, Int.lt_succ _⟩
      split_ifs at hclone
      · cases hclone
        exact ⟨Move.same _, numbered_next hkept.2, by simp⟩
      · cases hclone
        exact ⟨Move.same _, numbered_next hkept.2, by simp⟩
      · cases hclone
        have hmget : m.tasks[t]? = some task := by
          rw [hm, List.getElem?_append_left (List.getElem?_eq_some_iff.mp hget).1]
          exact hget
        have hsame := table_setState_live (map_tid_table m ▸ hmordered.tids) hmget
          (.blocked (.vfork k.nextPid)) (by rw [hrunnable]; rfl)
        refine ⟨?_, ?_, by simp⟩
        · rw [hsame, htable]
          exact hmove
        · exact hmnumbered.of_tids (tids_setState m t _) rfl
      · obtain ⟨hresult, hk'⟩ := Prod.mk.inj (Option.some.inj hclone)
        subst hresult hk'
        exact ⟨htable ▸ hmove, hmnumbered, by simp⟩
    · rw [if_neg hroom] at hclone
      cases hclone

theorem tids_endProcess (p : Pid) (status : BitVec 32) :
    (k.endProcess p status).tasks.map tid = k.tasks.map tid ∧
      (k.endProcess p status).nextPid = k.nextPid := by
  unfold endProcess
  split
  · exact ⟨rfl, rfl⟩
  · dsimp only
    rw [tids_setState]
    split_ifs <;> exact ⟨tids_reparent p, rfl⟩

theorem tids_map (hf : ∀ x, (f x).tid = x.tid) (l : List Task) :
    (l.map f).map tid = l.map tid := by
  rw [map_map]
  exact map_congr_left fun x _ => hf x

theorem numbered_exitGroup (hnumbered : Numbered k) {status : BitVec 32}
    (hexit : k.exitGroup p status = some k') : Numbered k' := by
  obtain rfl := finishProcess_eq_some hexit
  obtain ⟨htids, hnext⟩ := tids_endProcess (k := { k with
    tasks := k.tasks.map fun x => if x.tgid == p && x.live then finished x else x }) p status
  apply hnumbered.of_tids (htids.trans (tids_map _ _)) hnext
  intro x
  split_ifs <;> rfl

theorem numbered_exitThread (hnumbered : Numbered k) {status : BitVec 32}
    (hexit : k.exitThread t p status = some k') : Numbered k' := by
  unfold exitThread at hexit
  dsimp only at hexit
  split_ifs at hexit
  · cases hexit
    exact hnumbered.of_tids tids_finishThread rfl
  · obtain rfl := finishProcess_eq_some hexit
    obtain ⟨htids, hnext⟩ := tids_endProcess (k := k.finishThread t) p status
    exact hnumbered.of_tids (htids.trans tids_finishThread) hnext

theorem Numbered.of_table (hnumbered : Numbered k) {f : Thread → Thread} (hnamed : Named f)
    (htable : k'.table = k.table.map f) (hnext : k'.nextPid = k.nextPid) : Numbered k' := by
  apply hnumbered.of_tids _ hnext
  rw [← map_tid_table, ← map_tid_table, htable, map_map]
  exact map_congr_left fun x _ => (hnamed x).1

theorem table_pgid (k : Kernel) (target pgid : Pid) :
    table { k with tasks := k.tasks.map fun x =>
      if x.tgid == target then { x with pgid } else x } = k.table := by
  conv_rhs => rw [← map_id k.table]
  apply table_map
  intro x _
  split_ifs <;> rfl

/-! ## Steps are moves -/

/-- A leader exits last, only a leader loads an image, and `wait4` can write what it
is asked to. -/
def Allowed (k : Kernel) : Event → Prop
  | .call t (.exit _) => ∀ task, k.tasks[t]? = some task → LastLeader k task
  | .call t (.execve (.ok ())) => ∀ task, k.tasks[t]? = some task → task.tid = task.tgid
  | .call _ (.wait4 _ status _ rusage) => status.Usable ∧ rusage.Usable
  | _ => True

theorem move_dispatch (hkept : Kept k) (hget : k.tasks[t]? = some task)
    (hrunnable : task.state = .runnable) {call : Call} (hallowed : Allowed k (.call t call))
    (hcall : k.dispatch t task call = some (result, k')) :
    Move (Cared k) k.table k'.table (returned call result) ∧ Numbered k' ∧
      ∀ wait, result = .ok (.block wait) → k' = k := by
  have hmem := mem_of_getElem? hget
  have hlive : task.live = true := by rw [Task.live, hrunnable]
  have hpgid : ∀ target pgid, Move (Cared k) k.table (table { k with tasks := k.tasks.map fun x =>
        if x.tgid == target then { x with pgid } else x }) none ∧
      Numbered { k with tasks := k.tasks.map fun x =>
        if x.tgid == target then { x with pgid } else x } := by
    intro target pgid
    have htable := table_pgid k target pgid
    refine ⟨?_, hkept.2.of_table (fun _ => ⟨rfl, rfl⟩) (htable.trans (map_id _).symm) rfl⟩
    rw [htable]
    exact Move.same _
  cases call with
  | clone flags ptid ctid =>
    obtain ⟨hmove, hnumbered, hblock⟩ := move_sysClone hkept hget hrunnable hcall
    exact ⟨hmove, hnumbered, fun wait hresult => absurd hresult (hblock wait)⟩
  | execve loaded =>
    cases loaded with
    | error errno =>
      cases hcall
      exact ⟨Move.same _, hkept.2, by simp⟩
    | ok _ =>
      have hleader := hallowed task hget
      have htable := table_sysExecve hkept hget hleader
      have hk' : (k.sysExecve t task (.ok ())).2 = k' := congrArg Prod.snd (Option.some.inj hcall)
      have hresult : .ok .noReturn = result := congrArg Prod.fst (Option.some.inj hcall)
      rw [hk'] at htable
      rw [← hresult]
      refine ⟨?_, hkept.2.of_table (named_exec _ _) htable (hk' ▸ rfl), by simp⟩
      rw [htable]
      exact Move.exec (mem_table hmem) hleader (kind_eq_live.mpr hlive) _
  | wait4 pid status options rusage =>
    obtain ⟨hmove, hblock, hnext, htids⟩ :=
      move_wait4 hkept hallowed.1 hallowed.2 options (Option.some.inj hcall)
    exact ⟨hmove, hkept.2.of_tids htids hnext, hblock⟩
  | exit code =>
    obtain ⟨next, hexit, hnext⟩ := Option.map_eq_some_iff.mp hcall
    cases hnext
    exact ⟨move_exitThread hkept hget hlive (hallowed task hget) hexit,
      numbered_exitThread hkept.2 hexit, by simp⟩
  | exitGroup code | killed wstatus =>
    obtain ⟨next, hexit, hnext⟩ := Option.map_eq_some_iff.mp hcall
    cases hnext
    exact ⟨move_exitGroup hkept hmem hlive hexit, numbered_exitGroup hkept.2 hexit, by simp⟩
  | setAction action =>
    cases hcall
    exact ⟨Move.same _, hkept.2, by simp⟩
  | setpgid pid pgid =>
    simp only [dispatch, Kernel.setpgid] at hcall
    generalize (if pid = 0 then task.tgid else pid) = target at hcall
    split at hcall
    · cases hcall
      exact ⟨(hpgid _ _).1, (hpgid _ _).2, by simp⟩
    · cases hcall
      exact ⟨Move.same _, hkept.2, by simp⟩
  | setsid =>
    cases hcall
    exact ⟨(hpgid _ _).1, (hpgid _ _).2, by simp⟩
  | block =>
    cases hcall
    exact ⟨Move.same _, hkept.2, fun _ _ => rfl⟩

theorem table_ready (hkept : Kept k) (i : ℕ) (satisfied signalled : Bool) :
    (k.ready i satisfied signalled).table = k.table := by
  unfold ready
  split
  · rename_i hget
    split_ifs
    · exact table_setState_live hkept.tids hget _ rfl
    · rfl
  · rfl

theorem nextPid_ready (i : ℕ) (satisfied signalled : Bool) :
    (k.ready i satisfied signalled).nextPid = k.nextPid := by
  unfold ready
  split
  · split_ifs <;> rfl
  · rfl

theorem move_step (hkept : Kept k) {event : Event} (hallowed : Allowed k event) {child : Option Pid}
    (hstep : k.step event = some (k', child)) :
    Move (Cared k) k.table k'.table child ∧ Kept k' := by
  suffices hboth : Move (Cared k) k.table k'.table child ∧ Numbered k' from
    ⟨hboth.1, ordered_move hkept.1 hboth.1, hboth.2⟩
  cases event with
  | ready i satisfied signalled =>
    rw [step] at hstep
    split_ifs at hstep
    cases hstep
    have htable := table_ready hkept i satisfied signalled
    refine ⟨?_, hkept.2.of_table (fun _ => ⟨rfl, rfl⟩) (htable.trans (map_id _).symm)
      (nextPid_ready i satisfied signalled)⟩
    rw [htable]
    exact Move.same _
  | call t call =>
    rw [step] at hstep
    split at hstep
    · cases hstep
    · rename_i task hget
      split_ifs at hstep with hrun
      rw [Bool.or_eq_true, not_or, bne_iff_ne, not_not] at hrun
      split at hstep
      · cases hstep
      · rename_i result m hcall
        obtain ⟨hmove, hnumbered, hblock⟩ := move_dispatch hkept hget hrun.2 hallowed hcall
        split at hstep
        · rename_i wait
          cases hstep
          rw [hblock wait rfl]
          have hsame := table_setState_live hkept.tids hget (.blocked wait) (by rw [hrun.2]; rfl)
          rw [hsame]
          exact ⟨Move.same _, hkept.2.of_tids (tids_setState k t _) rfl⟩
        · cases hstep
          exact ⟨hmove, hnumbered⟩

/-! ## Exit signals -/

/-- A process is made with an exit signal that its parent has an action for. -/
def Event.Deliverable : Event → Prop
  | .call _ (.clone flags _ _) => flags &&& CLONE_THREAD = 0 → (flags &&& 0xff).toNat ≤ 64
  | _ => True

/-- The exit signals of all tasks. -/
def signals (k : Kernel) : List (BitVec 64) := k.tasks.map exitSignal

theorem signals_setState (k : Kernel) (t : ℕ) (state : State) :
    signals (k.setState t state) = signals k :=
  map_modify fun _ => rfl

theorem signals_map (hf : ∀ x, (f x).exitSignal = x.exitSignal) (k : Kernel) :
    signals { k with tasks := k.tasks.map f } = signals k := by
  rw [signals, map_map]
  exact map_congr_left fun x _ => hf x

theorem signals_endProcess (p : Pid) (status : BitVec 32) :
    signals (k.endProcess p status) = signals k := by
  unfold endProcess
  split
  · rfl
  · dsimp only
    rw [signals_setState]
    have hreparent : signals (k.reparent p) = signals k :=
      signals_map (fun x => by split_ifs <;> rfl) k
    split_ifs <;> exact hreparent

theorem signals_exitGroup {status : BitVec 32} (hexit : k.exitGroup p status = some k') :
    signals k' = signals k := by
  obtain rfl := finishProcess_eq_some hexit
  rw [signals_endProcess, signals_map fun x => by split_ifs <;> rfl]

theorem signals_exitThread {status : BitVec 32} (hexit : k.exitThread t p status = some k') :
    signals k' = signals k := by
  have hthread : signals (k.finishThread t) = signals k := map_modify fun _ => rfl
  unfold exitThread at hexit
  dsimp only at hexit
  split_ifs at hexit
  · cases hexit
    exact hthread
  · obtain rfl := finishProcess_eq_some hexit
    rw [signals_endProcess, hthread]

theorem signals_wait4 (me pid : Pid) (status : UserPtr) (options : BitVec 64) (rusage : UserPtr) :
    signals (k.wait4 me pid status options rusage).2 = signals k := by
  have hreap : ∀ r m, k.reap me pid = some (r, m) → signals m = signals k := by
    intro r m hreap
    unfold reap at hreap
    split at hreap
    · cases hreap
    · split at hreap
      · cases hreap
        exact signals_setState k _ _
      · cases hreap
  have hsys : signals (k.sysWait4 me pid status options).2 = signals k := by
    unfold sysWait4
    cases hfound : k.reap me pid with
    | none => split_ifs <;> rfl
    | some r =>
      dsimp only
      split_ifs <;> first | rfl | exact hreap r.1 r.2 hfound
  unfold wait4
  split
  · rename_i hresult
    rwa [hresult] at hsys
  · rename_i hresult
    rw [hresult] at hsys
    split_ifs <;> exact hsys
  · rename_i hresult
    rwa [hresult] at hsys

theorem signals_sysExecve (loaded : Except ℤ Unit) :
    signals (k.sysExecve t task loaded).2 = signals k := by
  cases loaded with
  | error errno => rfl
  | ok _ =>
    rw [sysExecve, signals]
    dsimp only
    rw [map_modify]
    swap
    · exact fun _ => rfl
    apply ext_getElem?
    intro i
    rw [getElem?_map, getElem?_mapIdx, signals, getElem?_map]
    cases k.tasks[i]? with
    | none => rfl
    | some x =>
      rw [Option.map_some, Option.map_some, Option.map_some]
      split_ifs <;> rfl

theorem signals_sysClone {ptid ctid : UserPtr}
    (hclone : k.sysClone t task flags ptid ctid = some (result, k')) :
    signals k' = signals k ∨ signals k' = signals k ++
      [if (flags &&& CLONE_THREAD != 0) = true then 0 else flags &&& 0xff] := by
  unfold sysClone allocPid at hclone
  split at hclone
  · cases hclone
    exact .inl rfl
  · by_cases hroom : k.nextPid + 1 < 2 ^ 31
    · rw [if_pos hroom] at hclone
      dsimp only at hclone
      split_ifs at hclone <;> cases hclone
      all_goals first
        | exact .inl rfl
        | (right; rw [signals_setState, signals, map_append]; rfl)
        | (right; rw [signals, map_append]; rfl)
    · rw [if_neg hroom] at hclone
      cases hclone

theorem signals_dispatch {call : Call} (hcall : k.dispatch t task call = some (result, k')) :
    signals k' = signals k ∨ ∃ flags ptid ctid, call = .clone flags ptid ctid ∧
      signals k' = signals k ++
        [if (flags &&& CLONE_THREAD != 0) = true then 0 else flags &&& 0xff] := by
  have hpgid : ∀ target pgid, signals { k with tasks := k.tasks.map fun x =>
      if x.tgid == target then { x with pgid } else x } = signals k :=
    fun target pgid => signals_map (fun x => by split_ifs <;> rfl) k
  cases call with
  | clone flags ptid ctid =>
    exact (signals_sysClone hcall).imp_right fun hnew => ⟨flags, ptid, ctid, rfl, hnew⟩
  | execve loaded =>
    have hk' : (k.sysExecve t task loaded).2 = k' := congrArg Prod.snd (Option.some.inj hcall)
    exact .inl (hk' ▸ signals_sysExecve loaded)
  | wait4 pid status options rusage =>
    have hk' : (k.wait4 task.tgid pid status options rusage).2 = k' :=
      congrArg Prod.snd (Option.some.inj hcall)
    exact .inl (hk' ▸ signals_wait4 _ _ _ _ _)
  | exit code =>
    obtain ⟨next, hexit, hnext⟩ := Option.map_eq_some_iff.mp hcall
    cases hnext
    exact .inl (signals_exitThread hexit)
  | exitGroup code | killed wstatus =>
    obtain ⟨next, hexit, hnext⟩ := Option.map_eq_some_iff.mp hcall
    cases hnext
    exact .inl (signals_exitGroup hexit)
  | setAction action | block =>
    cases hcall
    exact .inl rfl
  | setpgid pid pgid =>
    simp only [dispatch, Kernel.setpgid] at hcall
    generalize (if pid = 0 then task.tgid else pid) = target at hcall
    split at hcall <;> cases hcall
    · exact .inl (hpgid _ _)
    · exact .inl rfl
  | setsid =>
    cases hcall
    exact .inl (hpgid _ _)

/-- The signals after a step are those before it and the one of a new process. -/
theorem deliverable_step (hsignals : ∀ s ∈ signals k, s.toNat ≤ 64) {event : Event}
    (hevent : event.Deliverable) {child : Option Pid} (hstep : k.step event = some (k', child)) :
    ∀ s ∈ signals k', s.toNat ≤ 64 := by
  cases event with
  | ready i satisfied signalled =>
    rw [step] at hstep
    split_ifs at hstep
    cases hstep
    unfold ready
    split
    · split_ifs
      · rwa [signals_setState]
      · exact hsignals
    · exact hsignals
  | call t call =>
    rw [step] at hstep
    split at hstep
    · cases hstep
    · split_ifs at hstep
      split at hstep
      · cases hstep
      · rename_i result m hcall
        have hm : ∀ s ∈ signals m, s.toNat ≤ 64 := by
          rcases signals_dispatch hcall with hsame | ⟨flags, ptid, ctid, rfl, hnew⟩
          · rwa [hsame]
          · rw [hnew]
            intro s hs
            rcases mem_append.mp hs with hold | hlast
            · exact hsignals s hold
            · rw [mem_singleton.mp hlast]
              split_ifs with hthread
              · exact Nat.zero_le _
              · exact hevent (by simpa using hthread)
        split at hstep <;> cases hstep
        · rwa [signals_setState]
        · exact hm

/-- Ends of processes do not panic. -/
theorem isSome_finishProcess (hsignals : ∀ s ∈ signals k, s.toNat ≤ 64) (p : Pid)
    (status : BitVec 32) : (k.finishProcess p status).isSome = true := by
  rw [finishProcess]
  split
  · rfl
  · rename_i leader hleader
    obtain ⟨i, -, hget⟩ := Option.bind_eq_some_iff.mp hleader
    have hsame : signals (k.reparent p) = signals k :=
      signals_map (fun x => by split_ifs <;> rfl) k
    have hsmall := hsignals leader.exitSignal
      (hsame ▸ mem_map_of_mem (List.mem_of_getElem? hget))
    have hnot : ¬65 ≤ leader.exitSignal.toNat := by omega
    split_ifs
    · simp [sendToProcess, hnot]
    · rfl

theorem isSome_step (hsignals : ∀ s ∈ signals k, s.toNat ≤ 64) (hget : k.tasks[t]? = some task)
    (hrunnable : task.state = .runnable) (hinit : k.initExit = none) {call : Call}
    (hclone : ∀ flags ptid ctid, call ≠ .clone flags ptid ctid) :
    (k.step (.call t call)).isSome = true := by
  have hgroup : ∀ status, (k.exitGroup task.tgid status).isSome = true := fun status =>
    isSome_finishProcess (by rwa [signals_map fun x => by split_ifs <;> rfl]) _ _
  have hdispatch : (k.dispatch t task call).isSome = true := by
    cases call with
    | clone flags ptid ctid => exact absurd rfl (hclone flags ptid ctid)
    | exit code =>
      have hthread : signals (k.finishThread t) = signals k := map_modify fun _ => rfl
      rw [dispatch, Option.isSome_map, exitThread]
      split_ifs
      · rfl
      · exact isSome_finishProcess (hthread ▸ hsignals) _ _
    | exitGroup code | killed wstatus =>
      rw [dispatch, Option.isSome_map]
      exact hgroup _
    | execve | wait4 | setAction | setpgid | setsid | block => rfl
  obtain ⟨r, hr⟩ := Option.isSome_iff_exists.mp hdispatch
  rw [step, hget]
  dsimp only
  rw [hinit, hrunnable, if_neg (by decide), hr]
  dsimp only
  split <;> rfl

/-! ## Runs -/

theorem alive_iff : Alive k.table p ↔ k.alive p = true := by
  rw [alive, any_eq_true]
  constructor
  · rintro ⟨y, hy, htgid, hkind⟩
    obtain ⟨x, hx, rfl⟩ := mem_map.mp hy
    have hboth : (x.tgid == p) = true := beq_iff_eq.mpr htgid
    exact ⟨x, hx, by rw [hboth, kind_eq_live.mp hkind]; rfl⟩
  · rintro ⟨x, hx, hboth⟩
    rw [Bool.and_eq_true, beq_iff_eq] at hboth
    exact ⟨x.thread, mem_table hx, hboth.1, kind_eq_live.mpr hboth.2⟩

/-- `has_waitable_child` finds the process for its parent. -/
def Waitable (k : Kernel) (p : Pid) : Prop :=
  ∃ leader ∈ k.tasks, leader.tid = p ∧ k.hasWaitableChild leader.ppid p = true

theorem waitable_of_waiting (hkept : Kept k) {p : ℤ} (hwaiting : Waiting k.table p) :
    Waitable k p := by
  obtain ⟨_, y, hy, htid, htgid, hkind⟩ := hwaiting
  obtain ⟨c, hc, rfl⟩ := mem_map.mp hy
  have hctid : c.tid = p := htid
  have hctgid : c.tgid = p := htgid
  have hpositive : 0 < p := by
    rw [← hctid]
    exact (hkept.2 _ (mem_map_of_mem hc)).1
  refine ⟨c, hc, hctid, any_eq_true.mpr ⟨c, hc, ?_⟩⟩
  have hnotAny : p ≠ -1 := by omega
  have hmatches : k.matchesPid c c.ppid p = true := by
    rw [matchesPid, if_neg hnotAny, if_neg hpositive.ne', if_pos hpositive, hctgid,
      beq_self_eq_true]
  rw [waitable, hmatches, kind_eq_zombie.mp hkind, hctid, hctgid, beq_self_eq_true,
    beq_self_eq_true]
  rfl

/-- In order, and what has been returned is gone. -/
def Returned (k : Kernel) (children : List (Option Pid)) : Prop :=
  Kept k ∧ children.reduceOption.Nodup ∧ ∀ p ∈ children.reduceOption, Gone k.table p

variable {children : List (Option Pid)}

theorem returned_step (hreturned : Returned k children)
    {event : Event} (hallowed : Allowed k event) {child : Option Pid}
    (hstep : k.step event = some (k', child)) : Returned k' (children ++ [child]) := by
  obtain ⟨hkept, hnodup, hgone⟩ := hreturned
  obtain ⟨hmove, hkept'⟩ := move_step hkept hallowed hstep
  have hadvances := advances_move hkept.1 hmove
  refine ⟨hkept', ?_, ?_⟩
  · rw [reduceOption_append]
    cases child with
    | none => simpa using hnodup
    | some p =>
      rw [reduceOption_singleton, Option.toList_some, nodup_append]
      refine ⟨hnodup, nodup_singleton p, ?_⟩
      intro q hq other hother
      rw [mem_singleton.mp hother]
      rintro rfl
      -- a process cannot be gone and waiting
      obtain ⟨_, c, hc, hctid, _, hdead⟩ := hgone q hq
      obtain ⟨_, d, hd, hdtid, _, hzombie⟩ := (hadvances.returned q rfl).1
      rw [hkept.1.eq_of_tid hc hd (hctid.trans hdtid.symm), hzombie] at hdead
      cases hdead
  · intro p hp
    rw [reduceOption_append, mem_append] at hp
    rcases hp with hold | hnew
    · exact hadvances.gone p (hgone p hold)
    · apply (hadvances.returned p _).2
      cases child with
      | none => simp at hnew
      | some q =>
        rw [reduceOption_singleton, Option.toList_some, mem_singleton] at hnew
        rw [hnew]

theorem waiting_run {events : List Event} (hkept : Kept k)
    (hallowed : Machine.EachStep step Allowed k events)
    (hrun : Machine.run step k events = some (k', children)) (hwaiting : Waiting k.table p) :
    some p ∈ children ∨ Waitable k' p := by
  have hstep : ∀ {k k' : Kernel} {event : Event} {child : Option Pid}
      {children : List (Option Pid)},
      Kept k ∧ (some p ∈ children ∨ Waiting k.table p) → Allowed k event →
      k.step event = some (k', child) →
      Kept k' ∧ (some p ∈ children ++ [child] ∨ Waiting k'.table p) := by
    rintro k k' event child children ⟨hkept, hp⟩ hallowed hstep
    obtain ⟨hmove, hkept'⟩ := move_step hkept hallowed hstep
    refine ⟨hkept', ?_⟩
    rcases hp with hmem | hwaiting
    · exact .inl (mem_append_left _ hmem)
    · rcases (advances_move hkept.1 hmove).waiting p hwaiting with hstill | hnow
      · exact .inr hstill
      · rw [hnow]
        exact .inl (mem_append_right _ (mem_singleton_self _))
  have hkeep := Machine.run_induction
    (fun k children => Kept k ∧ (some p ∈ children ∨ Waiting k.table p)) hstep []
    ⟨hkept, .inr hwaiting⟩ hallowed hrun
  exact hkeep.2.imp_right (waitable_of_waiting hkeep.1)

/-- In every run whose steps are allowed, with exit signals that can be delivered: no process
is returned twice; what is returned has no living thread; a child that ends while its parent
cares can be waited for until it is returned; and no call panics (a run can end with a `clone`,
when the pids have run out). -/
theorem reaped_once_of_allowed {events : List Event} {k : Kernel} {children : List (Option Pid)}
    (hallowed : Machine.EachStep step (fun k event => Allowed k event ∧ event.Deliverable)
      spawned events)
    (hrun : Machine.run step spawned events = some (k, children)) :
    children.reduceOption.Nodup ∧
    (∀ event k' child, Allowed k event → k.step event = some (k', some child) →
      ∀ x ∈ k.tasks, x.tgid = child → x.live = false) ∧
    (∀ event k' child p, Allowed k event → k.step event = some (k', child) →
      k.alive p = true → k'.alive p = false → Cared k p →
      ∀ later k'' children', Machine.EachStep step Allowed k' later →
        Machine.run step k' later = some (k'', children') →
        some p ∈ children' ∨ Waitable k'' p) ∧
    ∀ t task call, k.tasks[t]? = some task → task.state = .runnable → k.initExit = none →
      (∀ flags ptid ctid, call ≠ .clone flags ptid ctid) →
      (k.step (.call t call)).isSome = true := by
  have hreturned : Returned k children :=
    Machine.run_induction Returned
      (fun hkeep hallowed hstep => returned_step hkeep hallowed.1 hstep)
      [] ⟨kept_spawned, nodup_nil, by simp⟩ hallowed hrun
  have hsignals : ∀ s ∈ signals k, s.toNat ≤ 64 :=
    Machine.run_induction (fun k _ => ∀ s ∈ signals k, s.toNat ≤ 64)
      (fun hkeep hallowed hstep => deliverable_step hkeep hallowed.2 hstep)
      [] (by simp [signals, spawned, SIGCHLD]) hallowed hrun
  refine ⟨hreturned.2.1, ?_, ?_, fun t task call hget hrunnable hinit hclone =>
    isSome_step hsignals hget hrunnable hinit hclone⟩
  · intro event k' child hevent hstep x hx htgid
    obtain ⟨hmove, _⟩ := move_step hreturned.1 hevent hstep
    obtain ⟨hended, _⟩ := ((advances_move hreturned.1.1 hmove).returned child rfl).1
    rw [Bool.eq_false_iff]
    intro hlive
    exact hended ⟨x.thread, mem_table hx, htgid, kind_eq_live.mpr hlive⟩
  · intro event k' child p hevent hstep halive hdead hcared later k'' children' hlater hrun'
    obtain ⟨hmove, hkept'⟩ := move_step hreturned.1 hevent hstep
    apply waiting_run hkept' hlater hrun'
    apply (advances_move hreturned.1.1 hmove).ended p (alive_iff.mpr halive) _ hcared
    rw [alive_iff, hdead]
    exact Bool.false_ne_true

def forks : BitVec 64 := SIGCHLD

def threads : BitVec 64 := CLONE_THREAD ||| CLONE_SIGHAND ||| CLONE_VM

def nowhere : UserPtr := ⟨0, false⟩

/-- A child is forked, exits and is waited for. -/
def forkAndWait : List Event :=
  [.call 0 (.clone forks nowhere nowhere), .call 1 (.exit 3),
    .call 0 (.wait4 (-1) nowhere 0 nowhere)]

theorem allowed_forkAndWait :
    Machine.EachStep step (fun k event => Allowed k event ∧ event.Deliverable) spawned
      forkAndWait := by
  refine ⟨⟨trivial, fun _ => by decide⟩, fun k child hk => ?_⟩
  cases hk
  refine ⟨⟨?_, trivial⟩, fun k child _ => ⟨⟨⟨.inl rfl, .inl rfl⟩, trivial⟩, fun _ _ _ => trivial⟩⟩
  rintro task ⟨⟩
  unfold LastLeader
  decide

theorem reaped_once_of_allowed_fork :
    ∃ k children, Machine.run step spawned forkAndWait = some (k, children) ∧
      children = [none, none, some 101] ∧ children.reduceOption.Nodup := by
  have hchildren : (Machine.run step spawned forkAndWait).map Prod.snd =
      some [none, none, some 101] := by
    decide +kernel
  obtain ⟨⟨k, children⟩, hrun, rfl⟩ := Option.map_eq_some_iff.mp hchildren
  exact ⟨k, _, hrun, rfl, (reaped_once_of_allowed allowed_forkAndWait hrun).1⟩

/-- The leader of a child exits before its thread. -/
def leaderFirst : List Event :=
  [.call 0 (.clone forks nowhere nowhere), .call 1 (.clone threads nowhere nowhere),
    .call 1 (.exit 0), .call 0 (.wait4 (-1) nowhere 0 nowhere)]

/-- The child is returned while its thread lives, and again when that has ended.  A child with
exit signal 200 makes the kernel panic at its end. -/
theorem not_reaped_once_leaderFirst :
    ((Machine.run step spawned leaderFirst).map fun r => (r.2.reduceOption, r.1.alive 101)) =
      some ([101], true) ∧
    ((Machine.run step spawned (leaderFirst ++
      [.call 2 (.exit 0), .call 0 (.wait4 (-1) nowhere 0 nowhere)])).map
      fun r => r.2.reduceOption) = some [101, 101] ∧
    (Machine.run step spawned [.call 0 (.clone 200 nowhere nowhere)]).isSome = true ∧
    Machine.run step spawned [.call 0 (.clone 200 nowhere nowhere), .call 1 (.exit 0)] = none := by
  decide +kernel

/-- In every run whose steps are allowed, no two tasks have the same number, the numbers are
those given out so far, and a process whose threads live has a living leader. -/
theorem tasks_in_order {events : List Event} {k : Kernel} {children : List (Option Pid)}
    (hallowed : Machine.EachStep step Allowed spawned events)
    (hrun : Machine.run step spawned events = some (k, children)) :
    (k.tasks.map tid).Nodup ∧ Numbered k ∧ ∀ x ∈ k.tasks,
      ∃ c ∈ k.tasks, c.tid = x.tgid ∧ c.tgid = x.tgid ∧ (x.live = true → c.live = true) := by
  have hreturned : Returned k children :=
    Machine.run_induction Returned (fun hkeep hallowed hstep => returned_step hkeep hallowed hstep)
      [] ⟨kept_spawned, nodup_nil, by simp⟩ hallowed hrun
  refine ⟨hreturned.1.tids, hreturned.1.2, fun x hx => ?_⟩
  obtain ⟨c, hc, htid, htgid⟩ := hreturned.1.leader hx
  exact ⟨c, hc, htid, htgid, fun hlive => hreturned.1.led hx hlive hc htid⟩

theorem tasks_in_order_fork : ∃ k children,
    Machine.run step spawned forkAndWait = some (k, children) ∧ (k.tasks.map tid).Nodup := by
  have hsome : (Machine.run step spawned forkAndWait).isSome = true := by decide +kernel
  obtain ⟨⟨k, children⟩, hrun⟩ := Option.isSome_iff_exists.mp hsome
  exact ⟨k, children, hrun, (tasks_in_order (allowed_forkAndWait.imp fun _ _ => And.left) hrun).1⟩

end Vetro.Linux
