import Mathlib.Tactic

/-!
# The life of a process

What a process is for its parent: threads live, then the process has ended and
waits, then it is gone.  A table has one entry for each thread, and its moves are
those a kernel may make.  Moves keep a table in order, and a process goes
through its life in one direction only.
-/

namespace Vetro.Lifecycle

open List

inductive Kind where
  | live
  | zombie
  | dead
  deriving Repr, DecidableEq

/-- A thread of the process `tgid`, the leader when `tid` is `tgid`. -/
structure Thread where
  tid : ℤ
  tgid : ℤ
  sighand : ℕ
  kind : Kind
  deriving Repr, DecidableEq

abbrev Table := List Thread

/-- Some thread of the process lives. -/
def Alive (table : Table) (p : ℤ) : Prop :=
  ∃ x ∈ table, x.tgid = p ∧ x.kind = .live

/-- The entry of the leader has this kind and no thread lives. -/
def Ended (kind : Kind) (table : Table) (p : ℤ) : Prop :=
  ¬ Alive table p ∧ ∃ c ∈ table, c.tid = p ∧ c.tgid = p ∧ c.kind = kind

/-- The process has ended and can be waited for. -/
abbrev Waiting := Ended .zombie

/-- The process has been returned or was not waited for. -/
abbrev Gone := Ended .dead

/-- Each thread has one entry and its leader has one, which lives as long as any
thread of the process does; the living threads share their actions. -/
structure Ordered (table : Table) : Prop where
  tids : (table.map Thread.tid).Nodup
  leader : ∀ x ∈ table, ∃ c ∈ table, c.tid = x.tgid ∧ c.tgid = x.tgid
  led : ∀ x ∈ table, x.kind = .live → ∀ c ∈ table, c.tid = x.tgid → c.kind = .live
  shared : ∀ x ∈ table, ∀ y ∈ table, x.kind = .live → y.kind = .live → x.tgid = y.tgid →
    x.sighand = y.sighand

/-- What the exit of a whole process makes of a thread. -/
def finish (p : ℤ) (kind : Kind) (x : Thread) : Thread :=
  if x.tid = p then { x with kind }
  else if x.tgid = p ∧ x.kind = .live then { x with kind := .dead }
  else x

/-- What a new image leaves of a thread. -/
def exec (p : ℤ) (sighand : ℕ) (x : Thread) : Thread :=
  if x.tid = p then { x with sighand } else if x.tgid = p then { x with kind := .dead } else x

def drop (tid : ℤ) (x : Thread) : Thread :=
  if x.tid = tid then { x with kind := .dead } else x

/-- The moves of a table, with the child they return.  A process whose parent cares
waits for it. -/
inductive Move (cared : ℤ → Prop) : Table → Table → Option ℤ → Prop
  | same (table : Table) : Move cared table table none
  | born {table : Table} {child : Thread}
      (hfresh : ∀ x ∈ table, x.tid ≠ child.tid ∧ x.tgid ≠ child.tid) (hlive : child.kind = .live)
      (hgroup : child.tgid = child.tid ∨
        ∃ x ∈ table, x.kind = .live ∧ x.tgid = child.tgid ∧ x.sighand = child.sighand) :
      Move cared table (table ++ [child]) none
  | thread {table : Table} {x : Thread} (hmem : x ∈ table) (hnot : x.tid ≠ x.tgid)
      (hlive : x.kind = .live) :
      Move cared table (table.map (drop x.tid)) none
  | exec {table : Table} {x : Thread} (hmem : x ∈ table) (hleader : x.tid = x.tgid)
      (hlive : x.kind = .live) (sighand : ℕ) :
      Move cared table (table.map (exec x.tid sighand)) none
  | finish {table : Table} {p : ℤ} (halive : Alive table p) (kind : Kind) (hkind : kind ≠ .live)
      (hcared : cared p → kind = .zombie) :
      Move cared table (table.map (finish p kind)) none
  | reap {table : Table} {x : Thread} (hmem : x ∈ table) (hleader : x.tid = x.tgid)
      (hzombie : x.kind = .zombie) :
      Move cared table (table.map (drop x.tid)) (some x.tid)

/-! ## Moves keep the order -/

/-- The entry keeps its names. -/
def Named (f : Thread → Thread) : Prop := ∀ x, (f x).tid = x.tid ∧ (f x).tgid = x.tgid

theorem named_finish (p : ℤ) (kind : Kind) : Named (finish p kind) := by
  intro x
  unfold finish
  split_ifs <;> exact ⟨rfl, rfl⟩

theorem named_exec (p : ℤ) (sighand : ℕ) : Named (exec p sighand) := by
  intro x
  unfold exec
  split_ifs <;> exact ⟨rfl, rfl⟩

theorem named_drop (tid : ℤ) : Named (drop tid) := by
  intro x
  unfold drop
  split_ifs <;> exact ⟨rfl, rfl⟩

variable {table : Table} {f : Thread → Thread}

variable {x : Thread}

theorem Ordered.eq_of_tid (hordered : Ordered table) {y : Thread} (hx : x ∈ table) (hy : y ∈ table)
    (htid : x.tid = y.tid) : x = y :=
  inj_on_of_nodup_map hordered.tids hx hy htid

/-- A change that brings nothing to life, keeps a leader alive while a thread of
its process lives, and does not part the actions of two living threads. -/
theorem ordered_map (hordered : Ordered table) (hnamed : Named f)
    (hlive : ∀ x ∈ table, (f x).kind = .live → x.kind = .live)
    (hled : ∀ x ∈ table, (f x).kind = .live → ∀ c ∈ table, c.tid = x.tgid → c.kind = .live →
      (f c).kind = .live)
    (hshared : ∀ x ∈ table, ∀ y ∈ table, (f x).kind = .live → (f y).kind = .live →
      x.tgid = y.tgid → x.sighand = y.sighand → (f x).sighand = (f y).sighand) :
    Ordered (table.map f) := by
  constructor
  · rw [map_map]
    have hsame : Thread.tid ∘ f = Thread.tid := funext fun x => (hnamed x).1
    rw [hsame]
    exact hordered.tids
  · intro x hx
    obtain ⟨x, hmem, rfl⟩ := mem_map.mp hx
    obtain ⟨c, hc, htid, htgid⟩ := hordered.leader x hmem
    refine ⟨f c, mem_map_of_mem hc, ?_, ?_⟩
    · rw [(hnamed c).1, (hnamed x).2, htid]
    · rw [(hnamed c).2, (hnamed x).2, htgid]
  · intro x hx hkind c hc htid
    obtain ⟨x, hmem, rfl⟩ := mem_map.mp hx
    obtain ⟨c, hcmem, rfl⟩ := mem_map.mp hc
    rw [(hnamed c).1, (hnamed x).2] at htid
    have hwas := hordered.led x hmem (hlive x hmem hkind) c hcmem htid
    exact hled x hmem hkind c hcmem htid hwas
  · intro x hx y hy hxlive hylive htgid
    obtain ⟨x, hxmem, rfl⟩ := mem_map.mp hx
    obtain ⟨y, hymem, rfl⟩ := mem_map.mp hy
    rw [(hnamed x).2, (hnamed y).2] at htgid
    have hwas := hordered.shared x hxmem y hymem (hlive x hxmem hxlive) (hlive y hymem hylive) htgid
    exact hshared x hxmem y hymem hxlive hylive htgid hwas

theorem ordered_born (hordered : Ordered table) {child : Thread}
    (hfresh : ∀ x ∈ table, x.tid ≠ child.tid ∧ x.tgid ≠ child.tid) (hlive : child.kind = .live)
    (hgroup : child.tgid = child.tid ∨
      ∃ x ∈ table, x.kind = .live ∧ x.tgid = child.tgid ∧ x.sighand = child.sighand) :
    Ordered (table ++ [child]) := by
  have hcases : ∀ x ∈ table ++ [child], x ∈ table ∨ x = child := by
    intro x hx
    rcases mem_append.mp hx with hold | hnew
    · exact .inl hold
    · exact .inr (mem_singleton.mp hnew)
  have hold : ∀ {x}, x ∈ table → x ∈ table ++ [child] := fun hx => mem_append_left _ hx
  have hnew : child ∈ table ++ [child] := mem_append_right _ (mem_singleton_self _)
  constructor
  · rw [map_append, nodup_append]
    refine ⟨hordered.tids, nodup_singleton _, ?_⟩
    intro tid htid other hother
    obtain ⟨x, hx, rfl⟩ := mem_map.mp htid
    rw [map_singleton, mem_singleton] at hother
    rw [hother]
    exact (hfresh x hx).1
  · intro x hx
    rcases hcases x hx with hmem | rfl
    · obtain ⟨c, hc, hnames⟩ := hordered.leader x hmem
      exact ⟨c, hold hc, hnames⟩
    · rcases hgroup with hself | ⟨y, hy, _, htgid, _⟩
      · exact ⟨x, hnew, hself.symm, rfl⟩
      · obtain ⟨c, hc, hnames⟩ := hordered.leader y hy
        rw [htgid] at hnames
        exact ⟨c, hold hc, hnames⟩
  · intro x hx hxlive c hc htid
    rcases hcases c hc with hcmem | rfl
    · rcases hcases x hx with hxmem | rfl
      · exact hordered.led x hxmem hxlive c hcmem htid
      · rcases hgroup with hself | ⟨y, hy, hylive, htgid, _⟩
        · rw [hself] at htid
          exact absurd htid (hfresh c hcmem).1
        · exact hordered.led y hy hylive c hcmem (htid.trans htgid.symm)
    · exact hlive
  · have hwith : ∀ x ∈ table, x.kind = .live → x.tgid = child.tgid →
        x.sighand = child.sighand := by
      intro x hx hxlive htgid
      rcases hgroup with hself | ⟨y, hy, hylive, hytgid, hsighand⟩
      · exact absurd (htgid.trans hself) (hfresh x hx).2
      · rw [← hsighand]
        exact hordered.shared x hx y hy hxlive hylive (htgid.trans hytgid.symm)
    intro x hx y hy hxlive hylive htgid
    rcases hcases x hx with hxmem | rfl
    · rcases hcases y hy with hymem | rfl
      · exact hordered.shared x hxmem y hymem hxlive hylive htgid
      · exact hwith x hxmem hxlive htgid
    · rcases hcases y hy with hymem | rfl
      · exact (hwith y hymem hylive htgid.symm).symm
      · rfl

variable {tid : ℤ}

theorem kind_drop (hlive : (drop tid x).kind = .live) : x.tid ≠ tid ∧ x.kind = .live := by
  unfold drop at hlive
  split_ifs at hlive with htid
  exact ⟨htid, hlive⟩

theorem drop_of_ne (hne : x.tid ≠ tid) : drop tid x = x := if_neg hne

variable {p : ℤ} {kind : Kind}

theorem kind_finish (hkind : kind ≠ .live) (hlive : (finish p kind x).kind = .live) :
    x.tid ≠ p ∧ x.tgid ≠ p ∧ x.kind = .live := by
  unfold finish at hlive
  split_ifs at hlive with htid hgroup
  · exact absurd hlive hkind
  · exact ⟨htid, fun htgid => hgroup ⟨htgid, hlive⟩, hlive⟩

theorem finish_of_ne (htid : x.tid ≠ p) (htgid : x.tgid ≠ p) : finish p kind x = x := by
  rw [finish, if_neg htid, if_neg fun hboth => htgid hboth.1]

theorem kind_exec {sighand : ℕ} (hlive : (exec p sighand x).kind = .live) :
    (x.tid = p ∨ x.tgid ≠ p) ∧ x.kind = .live := by
  unfold exec at hlive
  split_ifs at hlive with htid htgid
  · exact ⟨.inl htid, hlive⟩
  · exact ⟨.inr htgid, hlive⟩

theorem exec_of_ne {sighand : ℕ} (htid : x.tid ≠ p) (htgid : x.tgid ≠ p) :
    exec p sighand x = x := by
  rw [exec, if_neg htid, if_neg htgid]

variable {cared : ℤ → Prop}

section

variable (hordered : Ordered table)
include hordered

/-- The leader of a process that lives is an entry with its name, of that process. -/
theorem Ordered.tgid_of_tid {c : Thread} (hx : x ∈ table) (htgid : x.tgid = p) (hc : c ∈ table)
    (htid : c.tid = p) : c.tgid = p := by
  obtain ⟨leader, hleader, hnames⟩ := hordered.leader x hx
  rw [htgid] at hnames
  rw [hordered.eq_of_tid hc hleader (htid.trans hnames.1.symm)]
  exact hnames.2

theorem ordered_drop (hleader : ∀ x ∈ table, x.tid ≠ tid → x.kind = .live → x.tgid ≠ tid) :
    Ordered (table.map (drop tid)) := by
  apply ordered_map hordered (named_drop tid)
  · exact fun x _ hlive => (kind_drop hlive).2
  · intro x hx hlive c hc htid hclive
    obtain ⟨hne, hxlive⟩ := kind_drop hlive
    have htgid := hleader x hx hne hxlive
    rw [drop_of_ne (htid ▸ htgid)]
    exact hclive
  · intro x _ y _ hx hy _ hsame
    rw [drop_of_ne (kind_drop hx).1, drop_of_ne (kind_drop hy).1]
    exact hsame

theorem ordered_finish (hkind : kind ≠ .live) : Ordered (table.map (finish p kind)) := by
  apply ordered_map hordered (named_finish p kind)
  · exact fun x _ hlive => (kind_finish hkind hlive).2.2
  · intro x hx hlive c hc htid hclive
    obtain ⟨_, htgid, _⟩ := kind_finish hkind hlive
    have hcne : c.tgid ≠ p := by
      rw [hordered.tgid_of_tid hx rfl hc htid]
      exact htgid
    rw [finish_of_ne (htid ▸ htgid) hcne]
    exact hclive
  · intro x _ y _ hx hy _ hsame
    obtain ⟨hxtid, hxtgid, _⟩ := kind_finish hkind hx
    obtain ⟨hytid, hytgid, _⟩ := kind_finish hkind hy
    rw [finish_of_ne hxtid hxtgid, finish_of_ne hytid hytgid]
    exact hsame

theorem ordered_exec {leader : Thread} (hmem : leader ∈ table) (hleader : leader.tid = leader.tgid)
    (sighand : ℕ) : Ordered (table.map (exec leader.tid sighand)) := by
  have hgroup : ∀ x ∈ table, x.tid = leader.tid → x.tgid = leader.tid := by
    intro x hx htid
    rw [hordered.eq_of_tid hx hmem htid]
    exact hleader.symm
  apply ordered_map hordered (named_exec leader.tid sighand)
  · exact fun x _ hlive => (kind_exec hlive).2
  · intro x hx hlive c hc htid hclive
    by_cases hc' : c.tid = leader.tid
    · rw [exec, if_pos hc']
      exact hclive
    · have hxne : x.tgid ≠ leader.tid := htid ▸ hc'
      rw [exec_of_ne hc' ((hordered.tgid_of_tid hx rfl hc htid).trans_ne hxne)]
      exact hclive
  · intro x hx y hy hxlive hylive htgid hsame
    -- of the process that loads the image only the leader lives on
    by_cases hin : x.tgid = leader.tid
    · have hxtid := (kind_exec hxlive).1.resolve_right fun hne => hne hin
      have hytid := (kind_exec hylive).1.resolve_right fun hne => hne (htgid ▸ hin)
      rw [exec, if_pos hxtid, exec, if_pos hytid]
    · have hxtid : x.tid ≠ leader.tid := fun htid => hin (hgroup x hx htid)
      have hytid : y.tid ≠ leader.tid := fun htid => hin (htgid.trans (hgroup y hy htid))
      rw [exec_of_ne hxtid hin, exec_of_ne hytid (htgid ▸ hin)]
      exact hsame

theorem ordered_move {table' : Table} {child : Option ℤ} (hmove : Move cared table table' child) :
    Ordered table' := by
  cases hmove with
  | same => exact hordered
  | born hfresh hlive hgroup => exact ordered_born hordered hfresh hlive hgroup
  | @thread x hmem hnot hlive =>
    apply ordered_drop hordered
    intro y hy _ _ htgid
    obtain ⟨c, hc, hnames⟩ := hordered.leader y hy
    rw [htgid] at hnames
    rw [hordered.eq_of_tid hc hmem hnames.1] at hnames
    exact hnot hnames.2.symm
  | exec hmem hleader hlive sighand => exact ordered_exec hordered hmem hleader sighand
  | finish halive kind hkind hcared => exact ordered_finish hordered hkind
  | @reap x hmem hleader hzombie =>
    apply ordered_drop hordered
    intro y hy _ hlive htgid
    have hled := hordered.led y hy hlive x hmem htgid.symm
    rw [hzombie] at hled
    cases hled

end

/-! ## One direction -/

/-- A process that has ended waits until it is returned, and is returned once. -/
structure Advances (cared : ℤ → Prop) (table table' : Table) (child : Option ℤ) : Prop where
  waiting : ∀ p, Waiting table p → Waiting table' p ∨ child = some p
  gone : ∀ p, Gone table p → Gone table' p
  returned : ∀ p, child = some p → Waiting table p ∧ Gone table' p
  ended : ∀ p, Alive table p → ¬ Alive table' p → cared p → Waiting table' p

theorem alive_of_map (hnamed : Named f) (hlive : ∀ x ∈ table, (f x).kind = .live → x.kind = .live)
    (halive : Alive (table.map f) p) : Alive table p := by
  obtain ⟨y, hy, htgid, hkind⟩ := halive
  obtain ⟨x, hx, rfl⟩ := mem_map.mp hy
  exact ⟨x, hx, (hnamed x).2 ▸ htgid, hlive x hx hkind⟩

/-- A change that leaves the leader of an ended process alone. -/
theorem ended_map (hnamed : Named f) (hlive : ∀ x ∈ table, (f x).kind = .live → x.kind = .live)
    (hkeep : ∀ x ∈ table, x.tid = p → x.tgid = p → x.kind = kind → (f x).kind = kind)
    (hended : Ended kind table p) : Ended kind (table.map f) p := by
  obtain ⟨hnot, c, hc, htid, htgid, hkind⟩ := hended
  refine ⟨fun halive => hnot (alive_of_map hnamed hlive halive), f c, mem_map_of_mem hc, ?_⟩
  exact ⟨(hnamed c).1.trans htid, (hnamed c).2.trans htgid, hkeep c hc htid htgid hkind⟩

/-- A change to the threads of one process that lives, and to no others. -/
theorem advances_map (hnamed : Named f) (halive : Alive table p)
    (hlive : ∀ x ∈ table, (f x).kind = .live → x.kind = .live)
    (hother : ∀ x ∈ table, x.tgid ≠ p → f x = x)
    (hended : ¬ Alive (table.map f) p → cared p → Waiting (table.map f) p) :
    Advances cared table (table.map f) none := by
  have hkeep : ∀ {kind q}, Ended kind table q → Ended kind (table.map f) q := by
    intro kind q hq
    apply ended_map hnamed hlive _ hq
    intro x hx _ htgid hkind
    rw [hother x hx fun hp => hq.1 (htgid.symm.trans hp ▸ halive), hkind]
  refine ⟨fun q hq => .inl (hkeep hq), fun q hq => hkeep hq, by simp, ?_⟩
  intro q hq hnot hcared
  by_cases hqp : q = p
  · subst hqp
    exact hended hnot hcared
  · obtain ⟨x, hx, htgid, hkind⟩ := hq
    have hsame := hother x hx (htgid.trans_ne hqp)
    exact absurd ⟨x, hsame ▸ mem_map_of_mem hx, htgid, hkind⟩ hnot

theorem advances_born {child : Thread}
    (hfresh : ∀ x ∈ table, x.tid ≠ child.tid ∧ x.tgid ≠ child.tid)
    (hgroup : child.tgid = child.tid ∨ ∃ x ∈ table, x.kind = .live ∧ x.tgid = child.tgid ∧
      x.sighand = child.sighand) : Advances cared table (table ++ [child]) none := by
  have hkeep : ∀ {kind q}, Ended kind table q → Ended kind (table ++ [child]) q := by
    rintro kind q ⟨hnot, c, hc, htid, hrest⟩
    refine ⟨?_, c, mem_append_left _ hc, htid, hrest⟩
    rintro ⟨x, hx, htgid, hkind⟩
    rcases mem_append.mp hx with hold | hnew
    · exact hnot ⟨x, hold, htgid, hkind⟩
    · rw [mem_singleton.mp hnew] at htgid
      rcases hgroup with hself | ⟨y, hy, hylive, hytgid, _⟩
      · exact (hfresh c hc).1 (htid.trans (htgid.symm.trans hself))
      · exact hnot ⟨y, hy, hytgid.trans htgid, hylive⟩
  refine ⟨fun q hq => .inl (hkeep hq), fun q hq => hkeep hq, by simp, ?_⟩
  rintro q ⟨x, hx, hlive⟩ hnot _
  exact absurd ⟨x, mem_append_left _ hx, hlive⟩ hnot

theorem advances_reap (hordered : Ordered table) (hmem : x ∈ table) (hleader : x.tid = x.tgid)
    (hzombie : x.kind = .zombie) : Advances cared table (table.map (drop x.tid)) (some x.tid) := by
  have hlive : ∀ y ∈ table, (drop x.tid y).kind = .live → y.kind = .live :=
    fun y _ hy => (kind_drop hy).2
  have hwaiting : Waiting table x.tid := by
    refine ⟨?_, x, hmem, rfl, hleader.symm, hzombie⟩
    rintro ⟨y, hy, htgid, hkind⟩
    have hled := hordered.led y hy hkind x hmem htgid.symm
    rw [hzombie] at hled
    cases hled
  constructor
  · intro p hp
    by_cases hsame : x.tid = p
    · exact .inr (congrArg some hsame)
    · refine .inl (ended_map (named_drop _) hlive ?_ hp)
      intro y _ htid _ hkind
      rw [drop_of_ne (htid.trans_ne (Ne.symm hsame)), hkind]
  · intro p hp
    apply ended_map (named_drop _) hlive _ hp
    intro y _ _ _ hkind
    unfold drop
    split_ifs
    · rfl
    · exact hkind
  · intro p hp
    cases hp
    refine ⟨hwaiting, fun halive => hwaiting.1 (alive_of_map (named_drop _) hlive halive), ?_⟩
    refine ⟨drop x.tid x, mem_map_of_mem hmem, ?_⟩
    rw [drop, if_pos rfl]
    exact ⟨rfl, hleader.symm, rfl⟩
  · rintro p ⟨y, hy, htgid, hkind⟩ hnot _
    -- what lives is not the entry that goes
    have hne : y.tid ≠ x.tid := by
      intro htid
      rw [hordered.eq_of_tid hy hmem htid, hzombie] at hkind
      cases hkind
    exact absurd ⟨y, drop_of_ne hne ▸ mem_map_of_mem hy, htgid, hkind⟩ hnot

theorem advances_move {table' : Table} {child : Option ℤ} (hordered : Ordered table)
    (hmove : Move cared table table' child) : Advances cared table table' child := by
  cases hmove with
  | same =>
    exact ⟨fun p hp => .inl hp, fun p hp => hp, by simp, fun p halive hnot => absurd halive hnot⟩
  | born hfresh hlive hgroup => exact advances_born hfresh hgroup
  | @thread x hmem hnot hlive =>
    apply advances_map (named_drop x.tid) (p := x.tgid) ⟨x, hmem, rfl, hlive⟩
    · exact fun y _ hy => (kind_drop hy).2
    · intro y hy htgid
      exact drop_of_ne fun htid => htgid (congrArg Thread.tgid (hordered.eq_of_tid hy hmem htid))
    · intro hdead
      obtain ⟨c, hc, htid, htgid⟩ := hordered.leader x hmem
      have hclive := hordered.led x hmem hlive c hc htid
      have hsame : drop x.tid c = c := drop_of_ne (htid.trans_ne (Ne.symm hnot))
      exact absurd ⟨c, hsame ▸ mem_map_of_mem hc, htgid, hclive⟩ hdead
  | @exec x hmem hleader hlive sighand =>
    apply advances_map (named_exec x.tid sighand) (p := x.tid) ⟨x, hmem, hleader.symm, hlive⟩
    · exact fun y _ hy => (kind_exec hy).2
    · intro y hy htgid
      refine exec_of_ne (fun htid => htgid ?_) htgid
      rw [hordered.eq_of_tid hy hmem htid, hleader]
    · intro hdead
      refine absurd ⟨exec x.tid sighand x, mem_map_of_mem hmem, ?_, ?_⟩ hdead
      · rw [(named_exec _ _ x).2, hleader]
      · rw [exec, if_pos rfl]
        exact hlive
  | @finish p halive kind hkind hcared =>
    obtain ⟨x, hx, hxtgid, hxlive⟩ := halive
    obtain ⟨c, hc, hnames⟩ := hordered.leader x hx
    rw [hxtgid] at hnames
    apply advances_map (named_finish p kind) (p := p) ⟨x, hx, hxtgid, hxlive⟩
    · exact fun y _ hy => (kind_finish hkind hy).2.2
    · intro y hy htgid
      refine finish_of_ne (fun htid => htgid ?_) htgid
      exact hordered.tgid_of_tid hx hxtgid hy htid
    · intro hdead hp
      refine ⟨hdead, finish p kind c, mem_map_of_mem hc, ?_⟩
      rw [finish, if_pos hnames.1, hcared hp]
      exact ⟨hnames.1, hnames.2, rfl⟩
  | reap hmem hleader hzombie => exact advances_reap hordered hmem hleader hzombie

end Vetro.Lifecycle
