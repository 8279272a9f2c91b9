import StreamDecode.Proofs.Conservation
import StreamDecode.Proofs.Records
import StreamDecode.Proofs.Windows

set_option autoImplicit false

/-! # What a reader has accounted for

Between two calls a reader holds what the records so far have left over, and its file what has not
been read yet. Together with what the records have consumed this is the file: no byte is read twice
or passed over, for every composed decoder that does not replace the buffer, also for one whose
values depend on how the file is cut into chunks (`Decoder.Accounts`).

What asking for one record can come to is `RecordReader.Turn`; what it preserves, and any number of
such calls with it, is `RecordReader.Accounted`. -/

namespace StreamDecode

variable {α : Type}

/-! ## Records of a file -/

/-- The decoder, given some of these bytes, the first ones at its start and the others in chunks,
    ends with the value, and leaves over what follows the bytes that it takes. -/
def Decoder.Takes (d : Decoder Bytes α) (bytes : Bytes) (value : α) (taken : Bytes) : Prop :=
  ∃ (first : Bytes) (later : List Bytes) (leftover unread : Bytes),
    bytes = first ++ later.flatten ++ unread ∧
    (d.runPartial first).feedPending later = (.done value leftover, []) ∧
    taken ++ leftover = first ++ later.flatten

/-- The records take these pieces, one after the other, from the start of the file, each starting on
    what the one before has left over; and this is the rest. -/
inductive Decoder.Accounts (d : Decoder Bytes α) (file : Bytes) :
    List α → List Bytes → Bytes → Prop where
  | start : d.Accounts file [] [] file
  | record {records : List α} {pieces : List Bytes} {value : α} {taken rest : Bytes}
      (before : d.Accounts file records pieces (taken ++ rest))
      (takes : d.Takes (taken ++ rest) value taken) :
      d.Accounts file (records ++ [value]) (pieces ++ [taken]) rest

namespace Decoder.Accounts

variable {d : Decoder Bytes α} {file rest : Bytes} {records : List α} {pieces : List Bytes}

/-- The pieces and the rest are the file. -/
theorem flatten (h : d.Accounts file records pieces rest) : pieces.flatten ++ rest = file := by
  induction h with
  | start => rfl
  | record before takes ih => simpa using ih

/-- If every record takes at least one byte, there are at most as many as there are bytes. -/
theorem length_le (h : d.Accounts file records pieces rest)
    (hd : ∀ bytes value, ¬ d.Takes bytes value []) :
    records.length + rest.length ≤ file.length := by
  induction h with
  | start => simp
  | @record records pieces value taken rest before takes ih =>
      have hpos : 0 < taken.length := by
        rw [List.length_pos_iff]
        rintro rfl
        exact hd _ _ takes
      simp only [List.length_append, List.length_singleton] at ih ⊢
      omega

end Decoder.Accounts

/-- The records among some answers. -/
def returned (answers : List (Except ReaderError α)) : List α := answers.filterMap Except.toOption

@[simp] theorem returned_append (first second : List (Except ReaderError α)) :
    returned (first ++ second) = returned first ++ returned second :=
  List.filterMap_append

@[simp] theorem returned_ok (value : α) :
    returned [(.ok value : Except ReaderError α)] = [value] := rfl

@[simp] theorem returned_error (error : ReaderError) :
    returned [(.error error : Except ReaderError α)] = [] := rfl

@[simp] theorem returned_map_ok (records : List α) : returned (records.map .ok) = records := by
  induction records with
  | nil => rfl
  | cons value records ih => exact congrArg (value :: ·) ih

/-- The error of a record that did not decode or was cut short: where the next record would start is
    not known. -/
def ReaderError.isLoss : ReaderError → Bool
  | .decode _ => true
  | .input error => error.kind == .truncatedRecord
  | .endOfStream => false

/-- One of these answers tells of a record that did not decode or was cut short. -/
def Lost (answers : List (Except ReaderError α)) : Prop :=
  ∃ error, .error error ∈ answers ∧ error.isLoss = true

/-! ## The next record -/

namespace RecordReader

theorem readChunk_recordsRead (r : RecordReader) : r.readChunk.2.recordsRead = r.recordsRead := by
  unfold readChunk
  split
  · rfl
  · cases r.source <;> rfl

/-- At the end of its file a reader that has been told so knows. -/
theorem Reads.readChunk_atEnd {r : RecordReader} (h : r.Reads []) : r.readChunk.2.atEnd = true := by
  unfold RecordReader.readChunk
  by_cases hend : r.atEnd = true
  · rwa [if_pos hend]
  · have hshort : Bytes.hasAtLeast [] r.chunkSize = false := by
      have hsize := h.size
      rw [Bool.eq_false_iff, ne_eq, Bytes.hasAtLeast_iff, List.length_nil]
      omega
    simp [hend, h.source, hshort]

theorem next_of_halted {r : RecordReader} (h : r.halted = true) (d : Decoder Bytes α) :
    r.next d = (.error (.input ⟨.streamHalted, 0, 0⟩), r) := by
  simp [next, h]

theorem next_of_ended {r : RecordReader} (hlive : r.halted = false) (hpending : r.pending = [])
    (hend : r.atEnd = true) (d : Decoder Bytes α) : r.next d = (.error .endOfStream, r) := by
  simp [next, hlive, hpending, readChunk, hend]

/-- What asking for a record can come to, for a reader with these bytes before it that has read
    `count` records: the answer and the reader after it. -/
inductive Turn (d : Decoder Bytes α) (bytes : Bytes) (count : Nat) :
    Except ReaderError α → RecordReader → Prop where
  | record {value : α} {taken unread : Bytes} {r : RecordReader}
      (takes : d.Takes bytes value taken) (split : bytes = taken ++ (r.pending ++ unread))
      (reads : r.Reads unread) (counted : r.recordsRead = count + 1) :
      Turn d bytes count (.ok value) r
  | loss {error : ReaderError} {r : RecordReader} (lost : error.isLoss = true)
      (halted : r.halted = true) (counted : r.recordsRead = count) :
      Turn d bytes count (.error error) r
  | finish {r : RecordReader} (finished : bytes = []) (reads : r.Reads [])
      (pending : r.pending = []) (ended : r.atEnd = true) (counted : r.recordsRead = count) :
      Turn d bytes count (.error .endOfStream) r

end RecordReader

section

variable {access : Access} {d : Decoder Bytes α}

/-- A composed decoder that is done has taken the bytes in front of what it leaves over. -/
theorem Composed.takes (h : Composed access d) (haccess : access ≠ .rewrite)
    {first leftover : Bytes} {later : List Bytes} {value : α}
    (hdone : (d.runPartial first).feedPending later = (.done value leftover, [])) :
    ∃ taken, taken ++ leftover = first ++ later.flatten ∧
      ∀ unread, d.Takes (first ++ later.flatten ++ unread) value taken := by
  obtain ⟨fed, taken, hfed, htaken⟩ := h.start_conserves haccess hdone
  rw [List.append_nil] at hfed
  subst hfed
  have hbytes : taken ++ leftover = first ++ later.flatten := by
    simpa [Buffer.toBytes, List.flatMap_id'] using htaken
  exact ⟨taken, hbytes, fun unread => ⟨first, later, leftover, unread, rfl, hdone, hbytes⟩⟩

/-- The record under way takes its bytes from what was given to it so far and the rest of the file,
    or the reader halts. -/
theorem Composed.drive_turn (h : Composed access d) (haccess : access ≠ .rewrite) {first : Bytes}
    {later : List Bytes} {run : Result Bytes α}
    (hrun : (d.runPartial first).feedPending later = (run, [])) {r : RecordReader} {unread : Bytes}
    (hr : r.Reads unread) (buffered : Nat) (fedEnd : Bool) :
    RecordReader.Turn d (first ++ later.flatten ++ unread) r.recordsRead
      (RecordReader.drive buffered fedEnd run r).1
      (RecordReader.drive buffered fedEnd run r).2 := by
  induction run generalizing later r unread buffered fedEnd with
  | failed error =>
      refine .loss ?_ rfl rfl
      split <;> rfl
  | done value leftover =>
      obtain ⟨taken, htaken, htakes⟩ := h.takes haccess hrun
      refine .record (htakes unread) ?_ ⟨hr.live, hr.size, hr.source, hr.ended⟩ rfl
      rw [← htaken, List.append_assoc]
      rfl
  | suspended resume ih =>
      rw [RecordReader.drive]
      have hcount := r.readChunk_recordsRead
      obtain ⟨r', -, ⟨rfl, hread, hr'⟩ | ⟨byte, bytes, rest, rfl, hread, hr'⟩⟩ :=
        hr.readChunk_cases
      · rw [hread] at hcount ⊢
        have hturn := ih [] (Result.feedPending_append hrun []) hr' (buffered + 0) true
        rw [hcount] at hturn
        simpa using hturn
      · rw [hread] at hcount ⊢
        have hturn := ih (byte :: bytes) (Result.feedPending_append hrun (byte :: bytes)) hr'
          (buffered + (byte :: bytes).length) false
        rw [hcount] at hturn
        simpa using hturn

/-- The next record of a reader that goes on. -/
theorem Composed.next_turn (h : Composed access d) (haccess : access ≠ .rewrite) {r : RecordReader}
    {unread : Bytes} (hr : r.Reads unread) :
    RecordReader.Turn d (r.pending ++ unread) r.recordsRead (r.next d).1 (r.next d).2 := by
  unfold RecordReader.next
  rw [if_neg (by simp [hr.live])]
  cases hpending : r.pending with
  | cons byte bytes =>
      have hrun : (d.runPartial (byte :: bytes)).feedPending [] =
          (d.runPartial (byte :: bytes), []) := Result.feedPending_nil _
      simpa using h.drive_turn haccess hrun hr (byte :: bytes).length false
  | nil =>
      have hcount := r.readChunk_recordsRead
      have hend : unread = [] → r.readChunk.2.atEnd = true := by
        rintro rfl
        exact hr.readChunk_atEnd
      obtain ⟨r', hpending', ⟨rfl, hread, hr'⟩ | ⟨byte, bytes, rest, rfl, hread, hr'⟩⟩ :=
        hr.readChunk_cases
      · rw [hread] at hcount hend ⊢
        exact .finish rfl hr' (hpending'.trans hpending) (hend rfl) hcount
      · rw [hread] at hcount ⊢
        have hrun : (d.runPartial (byte :: bytes)).feedPending [] =
            (d.runPartial (byte :: bytes), []) := Result.feedPending_nil _
        have hturn := h.drive_turn haccess hrun (hr'.with_pending (byte :: bytes))
          (byte :: bytes).length false
        rw [List.nil_append, ← hcount]
        simpa using hturn

end

/-! ## All records -/

namespace RecordReader

/-- The reader after asking for record after record, `n` times. -/
def advance (d : Decoder Bytes α) : Nat → RecordReader → RecordReader
  | 0, r => r
  | n + 1, r => advance d n (r.next d).2

theorem advance_add (d : Decoder Bytes α) (m n : Nat) (r : RecordReader) :
    r.advance d (m + n) = (r.advance d m).advance d n := by
  induction m generalizing r with
  | zero => rw [Nat.zero_add, advance]
  | succ m ih => rw [Nat.succ_add, advance, advance, ih]

theorem answers_add (d : Decoder Bytes α) (m n : Nat) (r : RecordReader) :
    r.answers d (m + n) = r.answers d m ++ (r.advance d m).answers d n := by
  induction m generalizing r with
  | zero => rw [Nat.zero_add, answers, advance, List.nil_append]
  | succ m ih => rw [Nat.succ_add, answers, answers, advance, ih, List.cons_append]

/-- What a reader of the file has come to, having given these answers. -/
structure Accounted (d : Decoder Bytes α) (file : Bytes) (answers : List (Except ReaderError α))
    (r : RecordReader) : Prop where
  counted : r.recordsRead = (returned answers).length
  accounts : ∃ pieces rest, d.Accounts file (returned answers) pieces rest ∧
    (r.halted = false → ∃ unread, r.Reads unread ∧ rest = r.pending ++ unread)
  halted : r.halted = true ↔ Lost answers
  ended : .error .endOfStream ∈ answers → r.halted = false ∧ r.pending = [] ∧ r.atEnd = true

end RecordReader

@[simp] theorem Lost.append_error {answers : List (Except ReaderError α)} {error : ReaderError} :
    Lost (answers ++ [.error error]) ↔ Lost answers ∨ error.isLoss = true := by
  simp [Lost, or_and_right, exists_or]

@[simp] theorem Lost.append_ok {answers : List (Except ReaderError α)} {value : α} :
    Lost (answers ++ [.ok value]) ↔ Lost answers := by
  simp [Lost]

section

variable {access : Access} {d : Decoder Bytes α} {file : Bytes}
  {answers : List (Except ReaderError α)} {r : RecordReader}

namespace RecordReader

theorem Accounted.ofSource (d : Decoder Bytes α) (file : Bytes) {chunkSize : Nat}
    (hsize : 1 ≤ chunkSize) : (ofSource (.file file) chunkSize).Accounted d file [] := by
  refine ⟨rfl, ⟨[], file, .start, fun _ => ⟨file, ⟨rfl, hsize, rfl, nofun⟩, rfl⟩⟩, ?_, nofun⟩
  simp [RecordReader.ofSource, Lost]

/-- An answer that leaves the reader as it is. -/
theorem Accounted.again (hr : r.Accounted d file answers) {error : ReaderError}
    (hloss : error.isLoss = true → r.halted = true)
    (hend : error = .endOfStream → .error .endOfStream ∈ answers) :
    r.Accounted d file (answers ++ [.error error]) := by
  refine ⟨by simpa using hr.counted, by simpa using hr.accounts, ?_, fun hmem => ?_⟩
  · rw [Lost.append_error, ← hr.halted]
    exact ⟨.inl, fun hor => hor.elim id hloss⟩
  · rw [List.mem_append, List.mem_singleton, Except.error.injEq] at hmem
    exact hr.ended (hmem.elim id fun heq => hend heq.symm)

/-- If every record takes something, the file has at least as many bytes as records. -/
theorem Accounted.length_le (hr : r.Accounted d file answers)
    (hd : ∀ bytes value, ¬ d.Takes bytes value []) : (returned answers).length ≤ file.length := by
  obtain ⟨pieces, rest, haccounts, -⟩ := hr.accounts
  exact Nat.le_of_add_right_le (haccounts.length_le hd)

end RecordReader

/-- One more answer is accounted for. -/
theorem Composed.next_accounted (h : Composed access d) (haccess : access ≠ .rewrite)
    (hr : r.Accounted d file answers) :
    (r.next d).2.Accounted d file (answers ++ [(r.next d).1]) := by
  by_cases hhalted : r.halted = true
  · rw [RecordReader.next_of_halted hhalted]
    exact hr.again (fun _ => hhalted) nofun
  by_cases hend : .error .endOfStream ∈ answers
  · obtain ⟨hlive, hpending, hatEnd⟩ := hr.ended hend
    rw [RecordReader.next_of_ended hlive hpending hatEnd]
    exact hr.again nofun fun _ => hend
  obtain ⟨pieces, rest, haccounts, hrest⟩ := hr.accounts
  obtain ⟨unread, hreads, rfl⟩ := hrest (by simpa using hhalted)
  have hfound : ¬ Lost answers := fun hlost => hhalted (hr.halted.2 hlost)
  have hturn := h.next_turn haccess hreads
  generalize r.next d = turned at hturn ⊢
  obtain ⟨answer, r'⟩ := turned
  dsimp only at hturn ⊢
  cases hturn with
  | @record value taken unread' r' takes split reads counted =>
      rw [split] at haccounts takes
      refine ⟨by simp [counted, hr.counted],
        ⟨pieces ++ [taken], _, ?_, fun _ => ⟨unread', reads, rfl⟩⟩, ?_, ?_⟩
      · rw [returned_append, returned_ok]
        exact .record haccounts takes
      · simp [reads.live, hfound]
      · intro hmem
        simp [hend] at hmem
  | loss lost halted counted =>
      refine ⟨by simpa [counted] using hr.counted,
        ⟨pieces, _, by simpa using haccounts, ?_⟩, ?_, ?_⟩
      · intro hlive
        rw [halted] at hlive
        cases hlive
      · simp [halted, lost]
      · intro hmem
        rw [List.mem_append, List.mem_singleton, Except.error.injEq] at hmem
        rcases hmem with hmem | rfl
        · exact (hend hmem).elim
        · cases lost
  | finish finished reads pending ended counted =>
      refine ⟨by simpa [counted] using hr.counted, ⟨pieces, [], ?_, fun _ => ⟨[], reads, ?_⟩⟩, ?_,
        fun _ => ⟨reads.live, pending, ended⟩⟩
      · rw [← finished]
        simpa using haccounts
      · rw [pending, List.append_nil]
      · simp [reads.live, hfound, ReaderError.isLoss]

/-- So are any number of answers. -/
theorem Composed.advance_accounted (h : Composed access d) (haccess : access ≠ .rewrite) (n : Nat)
    (hr : r.Accounted d file answers) :
    (r.advance d n).Accounted d file (answers ++ r.answers d n) := by
  induction n generalizing answers r with
  | zero => simpa [RecordReader.answers, RecordReader.advance] using hr
  | succ n ih =>
      have hnext := ih (h.next_accounted haccess hr)
      rwa [List.append_assoc] at hnext

end

/-! ## Decoders that take something -/

/-- Where the decoder succeeds it has taken at least `n` bytes. -/
def Decoder.TakesAtLeast (d : Decoder Bytes α) (n : Nat) : Prop :=
  ∀ (c c' : Cursor Bytes) (fed : List Bytes) (value : α),
    (d.outcome c).after fed = some (.answer (.reached c' value)) →
    c'.input.length + n ≤ (c.input ++ fed.flatten).length

namespace Decoder.TakesAtLeast

variable {γ : Type} {access : Access}

/-- What comes next takes nothing back. -/
theorem bind {d : Decoder Bytes α} {next : α → Decoder Bytes γ} {n : Nat} (h : d.TakesAtLeast n)
    (hd : d.Linear) (hnext : ∀ value, Composed access (next value)) (haccess : access ≠ .rewrite) :
    (d.bind next).TakesAtLeast n := by
  intro c c' fed value hafter
  rw [outcome_bind hd] at hafter
  obtain ⟨fed, later, ending, rfl, hfirst, hlater⟩ := Step.after_bind_answer hafter
  cases ending with
  | failed c₁ failure =>
      obtain ⟨-, hended⟩ := Step.after_answer hlater
      cases hended
  | reached c₁ first =>
      have hsize := h c c₁ fed first hfirst
      have hsuffix : c'.input <:+ (c₁.arriveAll later).input :=
        ((hnext first).conserves haccess c₁).after hlater
      have hlength := hsuffix.length_le
      rw [Cursor.arriveAll_input] at hlength
      simp only [List.length_append, List.flatten_append] at hsize hlength ⊢
      omega

theorem map {d : Decoder Bytes α} {n : Nat} (h : d.TakesAtLeast n) (hd : d.Linear) (f : α → γ) :
    (d.map f).TakesAtLeast n := by
  have haccess : Access.stream ≠ .rewrite := nofun
  exact h.bind hd (fun value => .pure (f value)) haccess

theorem getBytes (n : Nat) : (getBytes n : Decoder Bytes Bytes).TakesAtLeast n := by
  intro c c' fed value hafter
  rw [outcome_getBytes] at hafter
  obtain ⟨fed, later, ending, rfl, hfirst, hlater⟩ := Step.after_bind_answer hafter
  rcases ensure_after hfirst with ⟨rfl, hsize, -⟩ | ⟨rfl, -⟩
  · obtain ⟨rfl, hended⟩ := Step.after_answer hlater
    cases hended
    show (List.drop n (c.arriveAll fed).input).length + n ≤ _
    rw [List.length_drop, Cursor.arriveAll_input, List.append_nil]
    omega
  · obtain ⟨-, hended⟩ := Step.after_answer hlater
    cases hended

/-- What a decoder takes of bytes that are given to it in chunks. -/
theorem length_le {d : Decoder Bytes α} {n : Nat} (h : d.TakesAtLeast n) {bytes taken : Bytes}
    {value : α} (htakes : d.Takes bytes value taken) : n ≤ taken.length := by
  obtain ⟨first, later, leftover, unread, -, hdone, htaken⟩ := htakes
  obtain ⟨fed, step, hfed, hafter, hresult⟩ :=
    Result.feedPending_ofStep (d.outcome (.start .incomplete first)) later
  have hrun : (Result.ofStep (d.outcome (.start .incomplete first))).feedPending later =
      (.done value leftover, []) := hdone
  rw [hrun] at hfed hresult
  rw [List.append_nil] at hfed
  subst hfed
  obtain ⟨c, rfl, rfl⟩ := Result.ofStep_eq_done hresult.symm
  have hsize : c.input.length + n ≤ (first ++ later.flatten).length := h _ c later value hafter
  rw [← htaken, List.length_append] at hsize
  omega

end Decoder.TakesAtLeast

end StreamDecode
