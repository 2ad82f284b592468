import Vetro.Snapshot.Assembler

/-!
# Deferred saves against normal saves

The file that the assembler writes for a deferred save, and when it is the file
of the normal save.  At one raw position the assembler closes sections before
it starts anything, so empty large data at the raw end of a section is written
after the section and is missing from the section's length.  `trailing` counts
such data; a save without it gives the same file both ways.
-/

namespace Vetro.Save

open Bytes List
open Splice
open Outcome
open Format

/-! ## The file of a deferred save -/

/-- How many pieces of empty large data stand at the raw end of a script. -/
def Script.trailing : Script → ℕ
  | .done => 0
  | .put _ rest => rest.trailing
  | .nested _ body rest =>
    if rest.raw = [] then body.trailing + rest.trailing else rest.trailing
  | .compress data rest =>
    if data = [] ∧ rest.raw = [] then rest.trailing + 1 else rest.trailing

/-- What the assembler writes for a script: the length of a section misses the
empty large data at its raw end, 16 bytes each. -/
def Script.assembled : Script → List Byte
  | .done => []
  | .put item rest => item.encoding ++ rest.assembled
  | .nested tag body rest => tag.bytes ++
    leBytes 8 (body.assembled.length - 16 * body.trailing) ++ body.assembled ++ rest.assembled
  | .compress data rest => fastText data ++ rest.assembled

def zeros (count : ℕ) : List Byte := List.replicate (16 * count) 0

theorem zeros_add (left right : ℕ) : zeros (left + right) = zeros left ++ zeros right := by
  rw [zeros, zeros, zeros, Nat.mul_add, replicate_add]

/-- Empty large data: its length and the number of its blocks, both zero. -/
theorem fastText_nil : fastText [] = zeros 1 := rfl

/-- Empty large data at position `pos`. -/
def emptyMarks (count pos : ℕ) : List Mark := List.replicate count (.blocks pos 0)

theorem emptyMarks_succ (count pos : ℕ) :
    emptyMarks (count + 1) pos = .blocks pos 0 :: emptyMarks count pos :=
  replicate_succ

/-- From `pos` on, the operations have these raw bytes and marks and append
`text`, except that the last `left` pieces of empty large data are not written
yet. -/
structure Plays (pos : ℕ) (raw : List Byte) (marks : List Mark) (text : List Byte)
    (left : ℕ) (ops : List Op) : Prop where
  raw_eq : rawOf ops = raw
  marks_eq : marksOf pos ops ++ emptyMarks left (pos + raw.length) = marks
  builds : ∀ content stack later final, (∀ e ∈ stack.head?, pos + raw.length ≤ e.1) →
    (∀ content', content' ++ zeros left = content ++ text →
      Builds (pos + raw.length) content' stack later final) →
    Builds pos content stack (ops ++ later) final

section Plays

variable {pos left : ℕ} {raw text : List Byte} {marks : List Mark} {ops : List Op}

theorem plays_nil (pos left : ℕ) : Plays pos [] (emptyMarks left pos) (zeros left) left [] :=
  ⟨rfl, rfl, fun content _ _ _ _ hlater => hlater content rfl⟩

theorem clear_of_le {stack : List (ℕ × ℕ)} (hraw : raw ≠ [])
    (hstack : ∀ e ∈ stack.head?, pos + raw.length ≤ e.1) : Clear pos stack := by
  intro e he
  have hle := hstack e he
  have hpos := length_pos_iff.mpr hraw
  omega

theorem plays_bytes (pos : ℕ) {b : List Byte} (hb : b ≠ []) : Plays pos b [] b 0 [.bytes b] := by
  refine ⟨append_nil b, rfl, fun content stack later final hstack hlater => ?_⟩
  exact .bytes hb (clear_of_le hb hstack) (hlater _ (append_nil _))

theorem plays_blocks (pos : ℕ) {data : List Byte} (hdata : data ≠ []) :
    Plays pos data [.blocks pos data.length] (fastText data) 0 [.blocks data] := by
  refine ⟨append_nil data, rfl, fun content stack later final hstack hlater => ?_⟩
  exact .blocks (clear_of_le hdata hstack) (hlater _ (append_nil _))

theorem Plays.append {raw' text' : List Byte} {marks' : List Mark} {left' : ℕ}
    {ops' : List Op} (hfirst : Plays pos raw marks text left ops)
    (hsecond : Plays (pos + raw.length) raw' (emptyMarks left (pos + raw.length) ++ marks')
      (zeros left ++ text') left' ops') :
    Plays pos (raw ++ raw') (marks ++ marks') (text ++ text') left' (ops ++ ops') := by
  refine ⟨by rw [rawOf_append, hfirst.raw_eq, hsecond.raw_eq], ?_, ?_⟩
  · have hmarks := hsecond.marks_eq
    rw [Nat.add_assoc] at hmarks
    rw [marksOf_append, hfirst.raw_eq, length_append, append_assoc, hmarks,
      ← append_assoc, hfirst.marks_eq]
  · intro content stack later final hstack hlater
    rw [length_append, ← Nat.add_assoc] at hstack hlater
    rw [append_assoc]
    refine hfirst.builds _ _ _ _ (fun e he => ?_) fun content' hcontent' => ?_
    · exact (Nat.le_add_right _ _).trans (hstack e he)
    · refine hsecond.builds _ _ _ _ hstack fun content'' hcontent'' => hlater _ ?_
      rw [hcontent'', ← append_assoc, hcontent', append_assoc]

/-- Empty large data that was not written yet is written before anything that
has raw bytes. -/
theorem Plays.flushed (hplays : Plays pos raw marks text left ops) (hraw : raw ≠ [])
    (count : ℕ) : Plays pos raw (emptyMarks count pos ++ marks) (zeros count ++ text) left
      (List.replicate count (.blocks []) ++ ops) := by
  induction count with
  | zero => simpa [emptyMarks, zeros] using hplays
  | succ count ih =>
    refine ⟨ih.raw_eq, ?_, fun content stack later final hstack hlater => ?_⟩
    · rw [replicate_succ, emptyMarks_succ, cons_append, marksOf, cons_append, cons_append]
      exact congrArg _ ih.marks_eq
    · rw [replicate_succ]
      refine .blocks (clear_of_le hraw hstack) (ih.builds _ _ _ _ hstack fun content' h => ?_)
      refine hlater content' ?_
      rw [h, fastText_nil, Nat.add_comm, zeros_add]
      simp only [append_assoc]

/-- A section: when its raw content ends it is closed with what was written so
far. -/
theorem Plays.inSection (tag : Tag) {field : List Byte} (hfield : field.length = 8)
    (hbody : Plays (pos + 12) raw marks text left ops) (hleft : 16 * left ≤ text.length) :
    Plays pos (tag.bytes ++ field ++ raw) (.lengthField (pos + 4) (pos + 12 + raw.length) :: marks)
      (tag.bytes ++ leBytes 8 (text.length - 16 * left) ++ text) left
      (.bytes tag.bytes :: .enter (pos + 12 + raw.length) :: .bytes field ::
        (ops ++ [.leave])) := by
  have htag := tag.length_eq
  have hlength : (tag.bytes ++ field ++ raw).length = 12 + raw.length := by
    simp only [length_append, htag, hfield]
  have hnonempty : ∀ {list : List Byte}, 0 < list.length → list ≠ [] := length_pos_iff.mp
  refine ⟨?_, ?_, fun content stack later final hstack hlater => ?_⟩
  · simp [Op.raw, hbody.raw_eq]
  · simp only [marksOf, htag, hfield, hlength, cons_append]
    rw [marksOf_append, ← hbody.marks_eq, Nat.add_assoc pos 4 8]
    simp [marksOf, Nat.add_assoc]
  · rw [hlength, ← Nat.add_assoc] at hstack hlater
    have hclear : ∀ p, p < pos + 12 + raw.length → Clear p stack := by
      intro p hp e he
      have := hstack e he
      omega
    refine .bytes (hnonempty (by omega)) (hclear _ (by omega)) ?_
    rw [htag]
    refine .enter (hclear _ (by omega)) (.bytes (hnonempty (by omega)) ?_ ?_)
    · intro e he
      cases he
      omega
    rw [hfield]
    change Builds (pos + 12) _ _ ((ops ++ [.leave]) ++ later) final
    rw [append_assoc ops]
    refine hbody.builds _ ((pos + 12 + raw.length, (content ++ tag.bytes).length) :: stack)
      _ _ (fun e he => by cases he; exact le_rfl) fun content' hcontent' => ?_
    have hlengths := congrArg List.length hcontent'
    have hstart : (content ++ tag.bytes).length = content.length + 4 := by
      rw [length_append, htag]
    simp only [zeros, length_append, length_replicate, htag, hfield] at hlengths
    refine .leave (by omega) (hlater _ ?_)
    rw [hstart, show content'.length - (content.length + 4) - 8 = text.length - 16 * left by
      omega, ← writeAt_append_left (by rw [length_leBytes]; omega), hcontent', ← hstart,
      writeAt_middle _ _ _ _ (by rw [length_leBytes, hfield])]
    simp only [append_assoc]

end Plays

variable (script : Script)

theorem Script.trailing_le : 16 * script.trailing ≤ script.assembled.length := by
  induction script with
  | done => simp [trailing]
  | put item rest ih =>
    simp only [trailing, assembled, length_append]
    omega
  | nested tag body rest ihbody ihrest =>
    simp only [trailing, assembled, length_append]
    split_ifs <;> omega
  | compress data rest ih =>
    simp only [trailing, assembled, length_append]
    split_ifs with hempty
    · rw [hempty.1, fastText_nil, zeros, length_replicate]
      omega
    · omega

/-- Empty large data not written at the end of a script, when `count` pieces
were not written at its start. -/
def Script.unwritten (script : Script) (count : ℕ) : ℕ :=
  if script.raw = [] then count + script.trailing else script.trailing

theorem Script.unwritten_zero : script.unwritten 0 = script.trailing := by
  rw [unwritten, Nat.zero_add, ite_self]

/-- The operations of a script. -/
theorem Script.plays (pos count : ℕ) :
    ∃ ops, Plays pos script.raw (emptyMarks count pos ++ script.marks pos)
      (zeros count ++ script.assembled) (script.unwritten count) ops := by
  induction script generalizing pos count with
  | done => exact ⟨[], by simpa [raw, marks, assembled, unwritten,
    trailing] using plays_nil pos count⟩
  | put item rest ih =>
    by_cases hempty : item.encoding = []
    · simpa [raw, marks, assembled, unwritten, trailing, hempty] using ih pos count
    · obtain ⟨ops, hrest⟩ := ih (pos + item.encoding.length) 0
      have hraw : item.encoding ++ rest.raw ≠ [] := by simp [hempty]
      have hplays := ((plays_bytes pos hempty).append hrest).flushed hraw count
      exact ⟨_, by simpa [raw, marks, assembled, unwritten, trailing, hempty] using hplays⟩
  | nested tag body rest ihbody ihrest =>
    obtain ⟨bodyOps, hbody⟩ := ihbody (pos + 12) 0
    obtain ⟨restOps, hrest⟩ := ihrest (pos + 12 + body.raw.length) body.trailing
    rw [unwritten_zero] at hbody
    have hsection := Plays.inSection tag (length_leBytes 8 body.raw.length)
      (show Plays (pos + 12) body.raw (body.marks (pos + 12)) body.assembled body.trailing
        bodyOps from hbody) body.trailing_le
    have hlength : (tag.bytes ++ leBytes 8 body.raw.length ++ body.raw).length =
        12 + body.raw.length := by
      simp only [length_append, tag.length_eq, length_leBytes]
    have hraw : tag.bytes ++ leBytes 8 body.raw.length ++ body.raw ++ rest.raw ≠ [] := by
      refine ne_nil_of_length_pos ?_
      rw [length_append, hlength]
      omega
    have hunwritten : (Script.nested tag body rest).unwritten count =
        rest.unwritten body.trailing :=
      if_neg hraw
    rw [Nat.add_assoc, ← hlength] at hrest
    have hplays := (hsection.append hrest).flushed hraw count
    rw [hlength, ← Nat.add_assoc] at hplays
    rw [hunwritten]
    exact ⟨_, hplays⟩
  | compress data rest ih =>
    by_cases hempty : data = []
    · obtain ⟨ops, hrest⟩ := ih pos (count + 1)
      subst hempty
      have hunwritten : (Script.compress [] rest).unwritten count =
          rest.unwritten (count + 1) := by
        simp only [unwritten, raw, trailing, nil_append, true_and]
        split_ifs <;> omega
      have hmarks : emptyMarks (count + 1) pos ++ rest.marks pos =
          emptyMarks count pos ++ (Script.compress [] rest).marks pos := by
        simp [emptyMarks, replicate_succ', Script.marks]
      have htext : zeros (count + 1) ++ rest.assembled =
          zeros count ++ (Script.compress [] rest).assembled := by
        rw [zeros_add, ← fastText_nil, append_assoc]
        rfl
      rw [hmarks, htext, ← hunwritten] at hrest
      exact ⟨ops, hrest⟩
    · obtain ⟨ops, hrest⟩ := ih (pos + data.length) 0
      have hraw : data ++ rest.raw ≠ [] := by simp [hempty]
      have hplays := ((plays_blocks pos hempty).append hrest).flushed hraw count
      exact ⟨_, by simpa [raw, marks, assembled, unwritten, trailing, hempty] using hplays⟩

/-- What the assembler writes for a whole save. -/
def Content.assembled (content : Content) : List Byte :=
  match content.external with
  | none => content.body.assembled
  | some (tag, data) => content.body.assembled ++ (tag.bytes ++
    leBytes 8 (if data = [] then 0 else (fastText data).length) ++ fastText data)

theorem Content.plays (content : Content) :
    ∃ left ops, Plays 0 content.raw content.marks content.assembled left ops := by
  obtain ⟨body, external⟩ := content
  obtain ⟨bodyOps, hbody⟩ := body.plays 0 0
  rw [Script.unwritten_zero] at hbody
  cases external with
  | none => exact ⟨_, bodyOps, hbody⟩
  | some pair =>
    obtain ⟨tag, data⟩ := pair
    set script := Script.compress data .done with hscript
    obtain ⟨dataOps, hdata⟩ := script.plays (body.raw.length + 12) 0
    have hraw : script.raw = data := append_nil data
    have hlen : script.assembled.length - 16 * script.trailing =
        if data = [] then 0 else (fastText data).length := by
      simp only [hscript, Script.assembled, Script.trailing, Script.raw, and_true, append_nil]
      split_ifs with hempty
      · rw [hempty, fastText_nil]
        rfl
      · rfl
    rw [Script.unwritten_zero] at hdata
    have hsection := Plays.inSection tag (length_leBytes 8 0)
      (show Plays (body.raw.length + 12) script.raw (script.marks (body.raw.length + 12))
        script.assembled script.trailing dataOps from hdata) script.trailing_le
    rw [hlen, hraw, show script.assembled = fastText data from append_nil _] at hsection
    have hnonempty : tag.bytes ++ leBytes 8 0 ++ data ≠ [] := by
      refine ne_nil_of_length_pos ?_
      simp only [length_append, length_leBytes]
      omega
    have hflushed := hsection.flushed hnonempty body.trailing
    have hbody' : Plays 0 body.raw (body.marks 0) body.assembled body.trailing bodyOps := hbody
    have hplays := hbody'.append (by rw [Nat.zero_add]; exact hflushed)
    have hwhole : Content.raw ⟨body, some (tag, data)⟩ =
        body.raw ++ (tag.bytes ++ leBytes 8 0 ++ data) := by
      simp [Content.raw]
    rw [hwhole]
    exact ⟨_, _, hplays⟩

theorem builds_empty (count pos : ℕ) (content : List Byte) :
    Builds pos content [] (List.replicate count (.blocks [])) (content ++ zeros count) := by
  induction count generalizing content with
  | zero => simpa [zeros] using Builds.done
  | succ count ih =>
    refine .blocks (by simp [Clear]) ?_
    rw [Nat.add_comm count, zeros_add, ← fastText_nil, ← append_assoc]
    exact ih _

theorem marksOf_empty (count pos : ℕ) :
    marksOf pos (List.replicate count (.blocks [])) = emptyMarks count pos := by
  induction count with
  | zero => rfl
  | succ count ih =>
    rw [replicate_succ, marksOf, emptyMarks_succ, length_nil, Nat.add_zero, ih]

theorem rawOf_empty (count : ℕ) : rawOf (List.replicate count (.blocks [])) = [] := by
  simp [rawOf, Op.raw]

/-- The file of a deferred save, for every way of cutting the raw stream. -/
theorem assemble_plan (content : Content) (configHash : ℕ) {pieces : List (List Byte)}
    (hpieces : pieces.flatten = content.raw) :
    assemble ⟨configHash, content.marks, content.raw.length⟩ pieces =
      .ok (encodeFile configHash content.assembled) := by
  obtain ⟨left, ops, hplays⟩ := content.plays
  have hraw : rawOf (ops ++ List.replicate left (.blocks [])) = content.raw := by
    rw [rawOf_append, rawOf_empty, hplays.raw_eq, append_nil]
  have hbuilds : Builds 0 [] [] (ops ++ List.replicate left (.blocks []))
      content.assembled := by
    refine hplays.builds [] [] _ _ (by simp) fun content' hcontent' => ?_
    rw [nil_append] at hcontent'
    rw [← hcontent']
    exact builds_empty left _ content'
  refine assemble_spec hbuilds ?_ (by rw [hraw]) (hpieces.trans hraw.symm)
  rw [marksOf_append, marksOf_empty, hplays.raw_eq, hplays.marks_eq]

/-! ## When the two files are the same -/

/-- No section ends, in the raw stream, with empty large data. -/
def Script.Closed : Script → Prop
  | .done => True
  | .put _ rest => rest.Closed
  | .nested _ body rest => body.trailing = 0 ∧ body.Closed ∧ rest.Closed
  | .compress _ rest => rest.Closed

/-- No section of the save ends, in the raw stream, with empty large data; the
external section is not empty. -/
def Content.Closed (content : Content) : Prop :=
  content.body.Closed ∧ ∀ pair ∈ content.external, pair.2 ≠ []

theorem Script.length_assembled : script.assembled.length = script.text.length := by
  induction script with
  | done => rfl
  | put item rest ih => simp [assembled, text, ih]
  | nested tag body rest ihbody ihrest =>
    simp only [assembled, text, length_append, length_leBytes, ihbody, ihrest]
  | compress data rest ih => simp [assembled, text, ih]

/-- A section's length is right when nothing is missing from it. -/
theorem leBytes_sub_eq_iff {len missing : ℕ} (hlen : len < 2 ^ 64) (hmissing : missing ≤ len) :
    leBytes 8 (len - missing) = leBytes 8 len ↔ missing = 0 := by
  constructor
  · intro hequal
    have hsame := leBytes_injOn (show len - missing < 256 ^ 8 by omega)
      (show len < 256 ^ 8 by omega) hequal
    omega
  · rintro rfl
    rfl

theorem Script.assembled_eq_text_iff (hsize : script.text.length < 2 ^ 64) :
    script.assembled = script.text ↔ script.Closed := by
  induction script with
  | done => simp [assembled, text, Closed]
  | put item rest ih =>
    simp only [text, length_append] at hsize
    rw [assembled, text, append_cancel_left_eq, ih (by omega), Closed]
  | nested tag body rest ihbody ihrest =>
    simp only [text, length_append] at hsize
    have htrailing := body.trailing_le
    rw [body.length_assembled] at htrailing
    rw [assembled, text, body.length_assembled, append_assoc, append_assoc,
      append_assoc, append_assoc, append_cancel_left_eq,
      append_eq_append_iff_of_size_eq_left (by simp only [length_leBytes]),
      append_eq_append_iff_of_size_eq_left body.length_assembled, ihbody (by omega),
      ihrest (by omega), leBytes_sub_eq_iff (by omega) htrailing, Closed]
    simp
  | compress data rest ih =>
    simp only [text, length_append] at hsize
    rw [assembled, text, append_cancel_left_eq, ih (by omega), Closed]

theorem Content.assembled_eq_text_iff (content : Content) (hsize : content.text.length < 2 ^ 64) :
    content.assembled = content.text ↔ content.Closed := by
  obtain ⟨body, external⟩ := content
  cases external with
  | none =>
    simp only [assembled, text, Closed, Option.not_mem_none, false_implies, implies_true, and_true]
    exact body.assembled_eq_text_iff hsize
  | some pair =>
    obtain ⟨tag, data⟩ := pair
    simp only [text, length_append] at hsize
    have hfield : leBytes 8 (if data = [] then 0 else (fastText data).length) =
        leBytes 8 (fastText data).length ↔ data ≠ [] := by
      split_ifs with hempty
      · subst hempty
        exact ⟨fun hequal => absurd hequal (by rw [fastText_nil]; decide), fun h => absurd rfl h⟩
      · exact ⟨fun _ => hempty, fun _ => rfl⟩
    simp only [assembled, text, Closed, append_assoc]
    rw [append_eq_append_iff_of_size_eq_left body.length_assembled, append_cancel_left_eq,
      append_eq_append_iff_of_size_eq_left (by simp only [length_leBytes]), hfield,
      body.assembled_eq_text_iff (by omega)]
    simp

theorem encodeFile_inj {configHash : ℕ} {left right : List Byte} :
    encodeFile configHash left = encodeFile configHash right ↔ left = right := by
  refine ⟨fun hequal => ?_, fun hequal => by rw [hequal]⟩
  exact (append_inj hequal (by simp only [length_append, length_leBytes])).2

/-- A deferred save is the normal save at `Level::Fast`, byte for byte and for
every way of cutting the raw stream, exactly when no section ends in the raw
stream with empty large data. -/
theorem assemble_eq_encodeFile_iff (content : Content) (configHash : ℕ) :
    ∃ payload plan raw, content.payload = .ok payload ∧
      content.plan configHash = .ok (plan, raw) ∧
      ∀ pieces : List (List Byte), pieces.flatten = raw → payload.length < 2 ^ 64 →
        (assemble plan pieces = .ok (encodeFile configHash payload) ↔ content.Closed) := by
  refine ⟨content.text, _, content.raw, content.payload_eq, content.plan_eq configHash,
    fun pieces hpieces hsize => ?_⟩
  rw [assemble_plan content configHash hpieces, ← content.assembled_eq_text_iff hsize,
    Except.ok.injEq, encodeFile_inj]

/-- Empty large data after a section, cut after three bytes. -/
theorem assemble_eq_encodeFile_after_section : let content : Content :=
      ⟨.nested ⟨[65, 32, 32, 32], rfl⟩ (.put (.u8 7) .done) (.compress [] .done), none⟩
    ∃ payload plan, content.payload = .ok payload ∧
      content.plan 5 = .ok (plan, content.raw) ∧
      assemble plan [content.raw.take 3, content.raw.drop 3] =
        .ok (encodeFile 5 payload) := by
  intro content
  obtain ⟨payload, plan, raw, hpayload, hplan, hiff⟩ := assemble_eq_encodeFile_iff content 5
  obtain rfl : raw = content.raw := by
    have hboth := hplan.symm.trans (content.plan_eq 5)
    exact congrArg Prod.snd (Except.ok.inj hboth)
  have hsize : payload.length < 2 ^ 64 := by
    obtain rfl : payload = content.text := Except.ok.inj (hpayload.symm.trans content.payload_eq)
    decide
  refine ⟨payload, plan, hpayload, hplan, (hiff _ ?_ hsize).mpr ?_⟩
  · simp
  · simp [content, Content.Closed, Script.Closed, Script.trailing]

/-- Section `A` that holds empty large data: 16 bytes in the normal save, none in
the deferred one. -/
theorem assemble_ne_encodeFile_empty_section :
    let content : Content := ⟨.nested ⟨[65, 32, 32, 32], rfl⟩ (.compress [] .done) .done, none⟩
    content.payload = .ok ([65, 32, 32, 32] ++ leBytes 8 16 ++ List.replicate 16 0) ∧
      ∃ plan, content.plan 5 = .ok (plan, content.raw) ∧
        assemble plan [content.raw] =
          .ok (encodeFile 5 ([65, 32, 32, 32] ++ leBytes 8 0 ++ List.replicate 16 0)) ∧
        assemble plan [content.raw] ≠
          .ok (encodeFile 5 ([65, 32, 32, 32] ++ leBytes 8 16 ++ List.replicate 16 0)) := by
  intro content
  have hfile := assemble_plan content 5 (flatten_singleton (l := content.raw))
  refine ⟨content.payload_eq, _, content.plan_eq 5, hfile, ?_⟩
  rw [hfile]
  intro hequal
  exact absurd hequal (by decide)

end Vetro.Save
