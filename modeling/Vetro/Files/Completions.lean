import Vetro.Files.Client

/-!
# Operations complete exactly once

An operation is in the table until its completion is queued.  The account of an
id, in the table and in the queue together, changes only when the operation is
pushed and when its completion is taken.
-/

namespace Vetro.Files

open Bytes FilesClient List Std.TreeMap

/-- The operations of the client. -/
inductive Operation where
  | stat (path : List Byte)
  | list (path : List Byte)
  | read (path : List Byte) (offset len : ℕ)
  | readFile (path : List Byte)
  | writeFile (path data : List Byte) (mode : ℕ)
  | create (path : List Byte) (mode : ℕ)
  | mkdir (path : List Byte) (mode : ℕ)
  | delete (path : List Byte) (recursive : Bool)
  | rename (source target : List Byte)
  | watch (path : List Byte)
  | unwatch (wd : ℕ)
  | sql (path statements : List Byte) (params : List SqlValue) (expect : Option ℕ)
      (readonly : Bool)

def Operation.work : Operation → Work
  | .stat path => .simple (.stat path)
  | .list path => .simple (.list path)
  | .read path offset len => .read path offset len none []
  | .readFile path => .read path 0 (2 ^ 64 - 1) none []
  | .writeFile path data mode => .write path data mode false 0 none
  | .create path mode => .simple (.create path mode)
  | .mkdir path mode => .simple (.mkdir path mode)
  | .delete path recursive => .simple (.delete path recursive)
  | .rename source target => .simple (.rename source target)
  | .watch path => .simple (.watch path)
  | .unwatch wd => .simple (.unwatch wd)
  | .sql path statements params expect readonly =>
    .simple (.sql path statements params expect readonly)

inductive Call where
  | operation (o : Operation)
  | takeCompletion
  | takeEvent
  | pump (a : Answers)
  | close

/-- What a call gives to its caller. -/
inductive Output where
  | issued (id : ℕ)
  | completed (c : Completion)
  | other

/-- Every call returns. -/
def FilesClient.step (s : FilesClient) : Call → Option (FilesClient × Output)
  | .operation o =>
    let r := s.push o.work
    some (r.2, .issued r.1)
  | .takeCompletion =>
    match s.takeCompletion with
    | (some c, s) => some (s, .completed c)
    | (none, s) => some (s, .other)
  | .takeEvent => some (s.takeEvent.2, .other)
  | .pump a => some ((s.pump a).2, .other)
  | .close => some (s.close, .other)

def Output.id? : Output → Option ℕ
  | .issued id => some id
  | _ => none

def Output.completion? : Output → Option Completion
  | .completed c => some c
  | _ => none

/-- The ids that the callers got. -/
def issued (outputs : List Output) : List ℕ := outputs.filterMap Output.id?

/-- The operations whose completions were queued: those taken and those that wait. -/
def completed (s : FilesClient) (outputs : List Output) : List ℕ :=
  (outputs.filterMap Output.completion? ++ s.done).map Completion.op

/-! ## The account of an id -/

/-- One for the table and one for each completion that waits. -/
def account (s : FilesClient) (id : ℕ) : ℕ :=
  (s.done.map Completion.op).count id + if id ∈ s.ops then 1 else 0

/-- What only `push` and `take_completion` change. -/
def ledger (s : FilesClient) : (ℕ → ℕ) × ℕ := (account s, s.nextOp)

theorem ledger_sendAll (s : FilesClient) (op : ℕ) (reqs : List Request) :
    ledger (s.sendAll op reqs) = ledger s := by
  induction reqs generalizing s with
  | nil => rfl
  | cons r reqs ih => exact ih (s.send op r)

variable {s : FilesClient}

theorem account_insert {id : ℕ} (hmem : id ∈ s.ops) (op : Op) :
    account { s with ops := s.ops.insert id op } = account s := by
  funext other
  unfold account
  congr 1
  have hiff : other ∈ s.ops.insert id op ↔ other ∈ s.ops := by
    rw [mem_insert, compare_eq_iff_eq]
    constructor
    · rintro (rfl | hother)
      · exact hmem
      · exact hother
    · exact .inr
  simp only [hiff]

theorem ledger_insert {id : ℕ} (hmem : id ∈ s.ops) (op : Op) :
    ledger { s with ops := s.ops.insert id op } = ledger s :=
  Prod.ext (account_insert hmem op) rfl

theorem ledger_start (s : FilesClient) (id : ℕ) : ledger (s.start id) = ledger s := by
  unfold start
  split
  · rfl
  · rename_i op hget
    have hmem : id ∈ s.ops := by
      rw [mem_iff_isSome_getElem?, hget]
      rfl
    split_ifs
    · rfl
    · split
      · rw [ledger_sendAll]
        exact ledger_insert hmem _
      · rw [ledger_sendAll]
        exact ledger_insert hmem _
      · rw [ledger_sendAll]
        exact ledger_insert (s := { s with nextHandle := _ }) hmem _

theorem ledger_startAll (s : FilesClient) (ids : List ℕ) :
    ledger (ids.foldl start s) = ledger s := by
  induction ids generalizing s with
  | nil => rfl
  | cons id ids ih => exact (ih (s.start id)).trans (ledger_start s id)

/-- An operation that leaves the table is completed. -/
theorem account_complete {id : ℕ} (hmem : id ∈ s.ops) (result : Except FilesError Outcome) :
    account (s.finish id result) = account s := by
  funext other
  unfold account finish complete
  by_cases hsame : other = id
  · subst hsame
    simp [hmem, mem_erase]
  · have hcount : [id].count other = 0 := by simp [Ne.symm hsame]
    have hiff : other ∈ s.ops.erase id ↔ other ∈ s.ops := by
      simp [Ne.symm hsame]
    simp [hcount, hiff]

theorem ledger_complete {id : ℕ} (hmem : id ∈ s.ops) (result : Except FilesError Outcome) :
    ledger (s.finish id result) = ledger s :=
  Prod.ext (account_complete hmem result) rfl

theorem ops_sendAll (s : FilesClient) (op : ℕ) (reqs : List Request) :
    (s.sendAll op reqs).ops = s.ops ∧ (s.sendAll op reqs).done = s.done := by
  induction reqs generalizing s with
  | nil => exact ⟨rfl, rfl⟩
  | cons r reqs ih => exact ih (s.send op r)

/-- An operation that goes on returns to the table. -/
theorem ledger_more {id : ℕ} (hmem : id ∈ s.ops) (op : Op) (reqs : List Request) :
    ledger { ({ s with ops := s.ops.erase id }.sendAll id reqs) with
      ops := ({ s with ops := s.ops.erase id }.sendAll id reqs).ops.insert id op } =
      ledger s := by
  obtain ⟨hops, hdone⟩ := ops_sendAll { s with ops := s.ops.erase id } id reqs
  have hnext := congrArg Prod.snd (ledger_sendAll { s with ops := s.ops.erase id } id reqs)
  refine Prod.ext (funext fun other => ?_) hnext
  simp only [ledger]
  unfold account
  rw [hops, hdone]
  congr 1
  have hiff : other ∈ (s.ops.erase id).insert id op ↔ other ∈ s.ops := by
    rw [mem_insert, mem_erase, compare_eq_iff_eq]
    constructor
    · rintro (rfl | hother)
      · exact hmem
      · exact hother.2
    · intro hother
      by_cases hsame : id = other
      · exact .inl hsame
      · exact .inr ⟨by simp [hsame], hother⟩
  simp only [hiff]

theorem ledger_onReply (s : FilesClient) (id status : ℕ) (body : List Byte) :
    ledger (s.onReply id status body).2 = ledger s := by
  unfold onReply
  split
  · rfl
  · rename_i op hget
    have hmem : id ∈ s.ops := by
      rw [mem_iff_isSome_getElem?, hget]
      rfl
    dsimp only
    split
    · exact ledger_more hmem _ _
    · exact ledger_complete hmem _
    · exact ledger_complete hmem _

theorem ledger_onFrame (s : FilesClient) (frame : Frame) :
    ledger (s.onFrame frame).2 = ledger s := by
  cases frame with
  | hello h =>
    unfold onFrame
    dsimp only
    split_ifs
    · rfl
    · rw [ledger_startAll]
      rfl
    · rfl
  | event e => rfl
  | reply id status body =>
    unfold onFrame
    dsimp only
    split
    · rfl
    · exact ledger_onReply _ _ _ _

theorem ledger_frames (s : FilesClient) : ledger s.frames.2 = ledger s := by
  fun_induction frames s with
  | case1 s hnext => rfl
  | case2 s message dec hnext => rfl
  | case3 s frame dec hnext message s' hframe =>
    have haccount := ledger_onFrame { s with dec } frame
    rw [hframe] at haccount
    exact haccount
  | case4 s frame dec hnext s' hframe ih =>
    have haccount := ledger_onFrame { s with dec } frame
    rw [hframe] at haccount
    exact ih.trans haccount

theorem ledger_finishAll {why : FilesError} (ids : List ℕ) (s : FilesClient) (hnodup : ids.Nodup)
    (hmem : ∀ id ∈ ids, id ∈ s.ops) :
    ledger (ids.foldl (fun s id => s.finish id (.error why)) s) = ledger s := by
  induction ids generalizing s with
  | nil => rfl
  | cons id ids ih =>
    obtain ⟨hnot, hrest⟩ := nodup_cons.mp hnodup
    have hfirst := ledger_complete (hmem id mem_cons_self) (.error why)
    rw [foldl_cons, ih (s.finish id (.error why)) hrest, hfirst]
    intro other hother
    have hne : id ≠ other := fun hsame => hnot (hsame ▸ hother)
    apply mem_erase.mpr
    exact ⟨by simp [hne], hmem other (mem_cons_of_mem _ hother)⟩

theorem ledger_onClosed (s : FilesClient) (why : FilesError) :
    ledger (s.onClosed why) = ledger s := by
  unfold onClosed
  rw [ledger_finishAll]
  · rfl
  · have hkeys : (s.ops.toList.map Prod.fst).Nodup := by
      rw [map_fst_toList_eq_keys]
      refine s.ops.distinct_keys.imp ?_
      intro left right hne heq
      exact hne (compare_eq_iff_eq.mpr heq)
    exact hkeys.sublist (filter_sublist.map _)
  · intro id hid
    obtain ⟨⟨id, op⟩, hmem, rfl⟩ := mem_map.mp hid
    have hget := mem_toList_iff_getElem?_eq_some.mp (mem_filter.mp hmem).1
    rw [mem_iff_isSome_getElem?, hget]
    rfl

theorem ledger_pumpOut (s : FilesClient) (c : Vsock.VsockConn) (a : Answers) :
    ledger (s.pumpOut c a).2 = ledger s := by
  unfold pumpOut
  have hsent : ∀ sending : Bool, ledger (if sending = true then { s with out := [] } else s) =
      ledger s := by
    intro sending
    cases sending <;> rfl
  split
  · exact (ledger_onClosed _ _).trans (hsent _)
  · exact hsent _

theorem ledger_pump (s : FilesClient) (a : Answers) : ledger (s.pump a).2 = ledger s := by
  unfold pump
  split
  · rfl
  · dsimp only
    split
    · split
      · rfl
      · cases a.connect <;> rfl
    · split
      · split
        · rename_i bytes _
          have hbytes := ledger_frames { s with cleaned := true, dec := s.dec.push bytes }
          split
          · rename_i hframes
            rw [onBytes] at hframes
            rw [hframes] at hbytes
            exact (ledger_onClosed _ _).trans hbytes
          · rename_i hframes
            rw [onBytes] at hframes
            rw [hframes] at hbytes
            exact (ledger_pumpOut _ _ _).trans hbytes
        · exact ledger_pumpOut _ _ _
      · exact ledger_pumpOut _ _ _

theorem ledger_close (s : FilesClient) : ledger s.close = ledger s := by
  unfold close
  split
  · exact ledger_onClosed _ _
  · rfl

/-- A pushed operation enters the table under an id that was free. -/
theorem ledger_push (work : Work) (hfree : s.nextOp ∉ s.ops) :
    ledger (s.push work).2 =
      (fun id => account s id + [s.nextOp].count id, bump s.nextOp) := by
  have hinsert : ledger { s with
        nextOp := bump s.nextOp, ops := s.ops.insert s.nextOp ⟨work, false⟩ } =
      (fun id => account s id + [s.nextOp].count id, bump s.nextOp) := by
    refine Prod.ext (funext fun id => ?_) rfl
    simp only [ledger, account]
    by_cases hsame : s.nextOp = id
    · subst hsame
      simp [hfree]
    · have hiff : id ∈ s.ops.insert s.nextOp ⟨work, false⟩ ↔ id ∈ s.ops := by
        simp [hsame]
      simp [hsame, hiff]
  unfold push
  dsimp only
  split_ifs
  · rw [ledger_start]
    exact hinsert
  · exact hinsert

/-! ## Runs -/

/-- Every id that was given out is in the table or completed, once. -/
structure Accounted (s : FilesClient) (outputs : List Output) : Prop where
  ids : issued outputs = List.range' 1 (issued outputs).length
  next : (issued outputs).length < 2 ^ 32 - 1 → s.nextOp = (issued outputs).length + 1
  balance : ∀ id, (completed s outputs).count id + (if id ∈ s.ops then 1 else 0) =
    (issued outputs).count id

theorem accounted_new (port : BitVec 32) : Accounted (new port) [] := by
  refine ⟨rfl, fun _ => rfl, fun id => ?_⟩
  simp [completed, issued, new]

theorem count_completed (s : FilesClient) (outputs : List Output) (id : ℕ) :
    (completed s outputs).count id + (if id ∈ s.ops then 1 else 0) =
      ((outputs.filterMap Output.completion?).map Completion.op).count id + account s id := by
  rw [completed, map_append, count_append, account]
  omega

variable {outputs : List Output}

/-- A call that gives no id and takes no completion. -/
theorem Accounted.other {t : FilesClient} (haccounted : Accounted s outputs)
    (hledger : ledger t = ledger s) : Accounted t (outputs ++ [.other]) := by
  obtain ⟨haccount, hnext⟩ := Prod.mk.inj hledger
  have hissued : issued (outputs ++ [.other]) = issued outputs := by simp [issued, Output.id?]
  have htaken : (outputs ++ [Output.other]).filterMap Output.completion? =
      outputs.filterMap Output.completion? := by simp [Output.completion?]
  constructor
  · rw [hissued]
    exact haccounted.ids
  · rw [hissued, hnext]
    exact haccounted.next
  · intro id
    rw [count_completed, htaken, haccount, ← count_completed, hissued]
    exact haccounted.balance id

theorem Accounted.take {c : Completion} {rest : List Completion} (haccounted : Accounted s outputs)
    (hdone : s.done = c :: rest) :
    Accounted { s with done := rest } (outputs ++ [.completed c]) := by
  have hissued : issued (outputs ++ [.completed c]) = issued outputs := by
    simp [issued, Output.id?]
  constructor
  · rw [hissued]
    exact haccounted.ids
  · rw [hissued]
    exact haccounted.next
  · intro id
    have hsame : completed { s with done := rest } (outputs ++ [.completed c]) =
        completed s outputs := by
      simp [completed, hdone, Output.completion?]
    rw [hsame, hissued]
    exact haccounted.balance id

theorem Accounted.push (haccounted : Accounted s outputs)
    (hfew : (issued outputs).length < 2 ^ 32 - 1) (work : Work) :
    Accounted (s.push work).2 (outputs ++ [.issued (s.push work).1]) := by
  have hnext := haccounted.next hfew
  have hid : (s.push work).1 = s.nextOp := rfl
  have hissued : issued (outputs ++ [.issued (s.push work).1]) = issued outputs ++ [s.nextOp] := by
    simp [issued, Output.id?, hid]
  have htaken : (outputs ++ [Output.issued (s.push work).1]).filterMap Output.completion? =
      outputs.filterMap Output.completion? := by simp [Output.completion?]
  -- the id is larger than those given out
  have hfree : s.nextOp ∉ s.ops := by
    intro hmem
    have hbalance := haccounted.balance s.nextOp
    have hzero : (issued outputs).count s.nextOp = 0 := by
      apply count_eq_zero.mpr
      rw [haccounted.ids, hnext, mem_range'_1]
      omega
    rw [if_pos hmem, hzero] at hbalance
    omega
  obtain ⟨haccount, hbump⟩ := Prod.mk.inj (ledger_push work hfree)
  constructor
  · rw [hissued, length_append, length_singleton, List.range'_concat, ← haccounted.ids,
      hnext, one_mul, Nat.add_comm 1]
  · intro hlast
    rw [hissued, length_append, length_singleton] at hlast ⊢
    rw [hbump, bump, hnext, if_pos (by omega)]
  · intro id
    rw [count_completed, htaken, haccount, hissued, count_append, ← haccounted.balance id,
      count_completed, Nat.add_assoc]

theorem accounted_step {t : FilesClient} {call : Call} {output : Output}
    (haccounted : (issued outputs).length < 2 ^ 32 → Accounted s outputs)
    (hstep : s.step call = some (t, output))
    (hfew : (issued (outputs ++ [output])).length < 2 ^ 32) :
    Accounted t (outputs ++ [output]) := by
  have hbefore : (issued outputs).length ≤ (issued (outputs ++ [output])).length := by
    simp [issued]
  have haccounted := haccounted (by omega)
  cases call with
  | operation o =>
    cases hstep
    apply haccounted.push
    simp [issued, Output.id?] at hfew ⊢
    omega
  | takeCompletion =>
    unfold step takeCompletion at hstep
    cases hdone : s.done with
    | nil =>
      simp only [hdone] at hstep
      cases hstep
      exact haccounted.other rfl
    | cons c rest =>
      simp only [hdone] at hstep
      cases hstep
      exact haccounted.take hdone
  | takeEvent =>
    cases hstep
    apply haccounted.other
    unfold takeEvent
    split <;> rfl
  | pump a =>
    cases hstep
    exact haccounted.other (ledger_pump s a)
  | close =>
    cases hstep
    exact haccounted.other (ledger_close s)

theorem isSome_step (s : FilesClient) (call : Call) : (s.step call).isSome = true := by
  cases call with
  | takeCompletion =>
    simp only [step, takeCompletion]
    cases s.done <;> rfl
  | _ => rfl

/-- After any calls, with any bytes from the daemon: ids are given out once, an id
that was given out has one completion, or none and is still in the table, no
other id has one, and every further call returns. -/
theorem completed_exactly_once {port : BitVec 32} {calls : List Call} {s : FilesClient}
    {outputs : List Output} (hrun : Machine.run step (new port) calls = some (s, outputs))
    (hfew : (issued outputs).length < 2 ^ 32) : (issued outputs).Nodup ∧
    (∀ id ∈ issued outputs, (completed s outputs).count id = if id ∈ s.ops then 0 else 1) ∧
    (∀ id ∉ issued outputs, id ∉ completed s outputs ∧ id ∉ s.ops) ∧
    ∀ more, ∃ t later, Machine.run step s more = some (t, later) := by
  have haccounted : Accounted s outputs :=
    Machine.run_always (fun s outputs => (issued outputs).length < 2 ^ 32 → Accounted s outputs)
      accounted_step (fun _ => accounted_new port) hrun hfew
  have hnodup : (issued outputs).Nodup := by
    rw [haccounted.ids]
    exact nodup_range'
  refine ⟨hnodup, ?_, ?_, Machine.exists_run isSome_step s⟩
  · intro id hid
    have hbalance := haccounted.balance id
    rw [count_eq_one_of_mem hnodup hid] at hbalance
    split_ifs at hbalance ⊢ <;> omega
  · intro id hid
    have hbalance := haccounted.balance id
    rw [count_eq_zero.mpr hid] at hbalance
    constructor
    · apply count_eq_zero.mp
      omega
    · intro hmem
      rw [if_pos hmem] at hbalance
      omega

/-- A pump of a connection that has these bytes for the client. -/
def pumpWith (state : Option Vsock.VsockState) (bytes : List Byte) : Call :=
  .pump ⟨false, [], 0, some ⟨0, 5200⟩, state, bytes.length, some bytes, false⟩

/-- Two operations; the daemon greets, replies to the first one, and goes away. -/
def replyAndLoss : List Call :=
  [.operation (.mkdir [0x2f] 0), .operation (.stat []), pumpWith none [],
    pumpWith (some .connected) (W.frame 0x80 0 (leBytes 4 MAGIC ++ leBytes 2 2 ++ leBytes 2 0 ++
      leBytes 4 65536)),
    pumpWith (some .connected) (W.frame 0x81 1 (leBytes 4 0)), .takeCompletion,
    pumpWith none [], .operation (.list [])]

/-- The first operation is completed by the reply, the second one by the end of the connection,
and the third one waits for the next. -/
theorem completed_exactly_once_replyAndLoss :
    ∃ s outputs, Machine.run step (new 5200) replyAndLoss = some (s, outputs) ∧
      issued outputs = [1, 2, 3] ∧ completed s outputs = [1, 2] ∧ s.ops.keys = [3] ∧
      (∀ id ∈ issued outputs, (completed s outputs).count id = if id ∈ s.ops then 0 else 1) ∧
      ∀ id ∉ issued outputs, id ∉ completed s outputs ∧ id ∉ s.ops := by
  have hmap : (Machine.run step (new 5200) replyAndLoss).map
      (fun r => (issued r.2, completed r.1 r.2, r.1.ops.keys)) = some ([1, 2, 3], [1, 2], [3]) := by
    decide +kernel
  obtain ⟨⟨s, outputs⟩, hrun, hs⟩ := Option.map_eq_some_iff.mp hmap
  simp only [Prod.mk.injEq] at hs
  obtain ⟨-, hissued, hother, -⟩ := completed_exactly_once hrun (by rw [hs.1]; decide)
  exact ⟨s, outputs, hrun, hs.1, hs.2.1, hs.2.2, hissued, hother⟩

end Vetro.Files
