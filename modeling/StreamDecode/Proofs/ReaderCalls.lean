import StreamDecode.Proofs.Accounts

set_option autoImplicit false

/-! # What comes of the calls on a reader

Somebody who reads a file asks for single records, has a visitor take record after record, or hands
the file over to another reader, in any order. All this comes down to asking for one record after
the other: `RecordReader.visit_follows` says which records a visit asks for, and
`ReaderCall.performAll_advance` says it of a sequence of calls. So what is preserved from one record
to the next holds whatever calls are made (`Composed.reader_accounts`). -/

namespace StreamDecode

variable {α σ : Type}

/-! ## Visits -/

/-- What a visitor has come to after some records. -/
def visited (visitor : σ → α → σ × Bool) (state : σ) (records : List α) : σ :=
  records.foldl (fun state value => (visitor state value).1) state

/-- The visitor wants more after each of the records. -/
def goesOn (visitor : σ → α → σ × Bool) : σ → List α → Bool
  | _, [] => true
  | state, value :: records =>
      (visitor state value).2 && goesOn visitor (visitor state value).1 records

namespace RecordReader

/-- The visitor was handed these records, which asking for one after the other gives, and went on
    until it wanted no more, there was none, or `limit` records were read. -/
structure Follows (d : Decoder Bytes α) (visitor : σ → α → σ × Bool) (limit : Nat)
    (before : Visit σ) (records : List α) (after : Visit σ) : Prop where
  counted : after.count = before.count + records.length
  state : after.state = visited visitor before.state records
  answered : before.reader.answers d records.length = records.map .ok
  wanted : goesOn visitor before.state records.dropLast = true
  /-- The visitor wants no more: the next record is the one behind those that it was handed. -/
  stopped : goesOn visitor before.state records = false →
    after.reader = before.reader.advance d records.length
  /-- There is no next record. -/
  exhausted : goesOn visitor before.state records = true → records.length < limit →
    after.reader = before.reader.advance d (records.length + 1) ∧
      ∃ error, ((before.reader.advance d records.length).next d).1 = .error error
  limited : goesOn visitor before.state records = true → limit ≤ records.length →
    records.length = limit ∧ after.reader = before.reader.advance d records.length

/-- A record, and what the visitor goes on with. -/
theorem Follows.cons {d : Decoder Bytes α} {visitor : σ → α → σ × Bool} {limit : Nat}
    {before after : Visit σ} {value : α} {records : List α} {state : σ} {reader : RecordReader}
    (hnext : before.reader.next d = (.ok value, reader))
    (hvisitor : visitor before.state value = (state, true))
    (h : Follows d visitor limit ⟨before.count + 1, state, reader⟩ records after) :
    Follows d visitor (limit + 1) before (value :: records) after := by
  have hgoes : ∀ records, goesOn visitor before.state (value :: records) =
      goesOn visitor state records := by
    intro records
    simp [goesOn, hvisitor]
  have hadvance : ∀ n, before.reader.advance d (n + 1) = reader.advance d n := by
    intro n
    rw [advance, hnext]
  constructor
  case counted =>
    have hcounted : after.count = before.count + 1 + records.length := h.counted
    rw [hcounted, List.length_cons]
    omega
  case state => simp [h.state, visited, hvisitor]
  case answered =>
    have hanswered : reader.answers d records.length = records.map .ok := h.answered
    rw [List.length_cons, answers, hnext, hanswered, List.map_cons]
  case wanted =>
    cases records with
    | nil => rfl
    | cons second records =>
        rw [List.dropLast_cons_cons, hgoes]
        exact h.wanted
  case stopped =>
    rw [hgoes, List.length_cons, hadvance]
    exact h.stopped
  case exhausted =>
    rw [hgoes, List.length_cons, hadvance, hadvance]
    exact fun hgo hless => h.exhausted hgo (Nat.lt_of_succ_lt_succ hless)
  case limited =>
    rw [hgoes, List.length_cons, hadvance]
    intro hgo hfull
    obtain ⟨hlength, hreader⟩ := h.limited hgo (Nat.le_of_succ_le_succ hfull)
    exact ⟨congrArg (· + 1) hlength, hreader⟩

theorem visit_follows (d : Decoder Bytes α) (visitor : σ → α → σ × Bool) (limit : Nat)
    (before : Visit σ) :
    ∃ records, Follows d visitor limit before records (visit d visitor limit before) := by
  induction limit generalizing before with
  | zero =>
      refine ⟨[], rfl, rfl, rfl, rfl, nofun, fun _ hless => ?_, fun _ _ => ⟨rfl, rfl⟩⟩
      exact (Nat.not_lt_zero _ hless).elim
  | succ limit ih =>
      rw [visit]
      rcases hnext : before.reader.next d with ⟨error | value, reader⟩
      · refine ⟨[], rfl, rfl, rfl, rfl, nofun, fun _ _ => ⟨?_, error, ?_⟩, fun _ hfull => ?_⟩
        · rw [List.length_nil, Nat.zero_add, advance, advance, hnext]
        · rw [List.length_nil, advance, hnext]
        · exact (Nat.not_succ_le_zero _ hfull).elim
      · dsimp only
        rcases hvisitor : visitor before.state value with ⟨state, _ | _⟩
        · have hgoes : goesOn visitor before.state [value] = false := by simp [goesOn, hvisitor]
          refine ⟨[value], rfl, ?_, ?_, rfl, fun _ => ?_, ?_, ?_⟩
          · simp [visited, hvisitor]
          · rw [List.length_singleton, answers, answers, hnext, List.map_singleton]
          · rw [List.length_singleton, advance, advance, hnext]
          · simp [hgoes]
          · simp [hgoes]
        · obtain ⟨records, hrecords⟩ := ih ⟨before.count + 1, state, reader⟩
          exact ⟨value :: records, hrecords.cons hnext hvisitor⟩

/-- A visit asks for the records that it hands over, and for one more if there is none. -/
theorem Follows.reads {d : Decoder Bytes α} {visitor : σ → α → σ × Bool} {limit : Nat}
    {before after : Visit σ} {records : List α} (h : Follows d visitor limit before records after) :
    ∃ n, after.reader = before.reader.advance d n ∧
      (records.map .ok).Sublist (before.reader.answers d n) ∧
      returned (before.reader.answers d n) = records := by
  have hreads : after.reader = before.reader.advance d records.length ∨
      after.reader = before.reader.advance d (records.length + 1) ∧
        ∃ error, ((before.reader.advance d records.length).next d).1 = .error error := by
    cases hgo : goesOn visitor before.state records with
    | false => exact .inl (h.stopped hgo)
    | true =>
        rcases Nat.lt_or_ge records.length limit with hless | hfull
        · exact .inr (h.exhausted hgo hless)
        · exact .inl (h.limited hgo hfull).2
  rcases hreads with hreader | ⟨hreader, error, herror⟩
  · refine ⟨records.length, hreader, h.answered ▸ List.Sublist.refl _, ?_⟩
    rw [h.answered, returned_map_ok]
  · have hanswers : before.reader.answers d (records.length + 1) =
        records.map .ok ++ [.error error] := by
      rw [answers_add, h.answered, answers, answers, herror]
    refine ⟨records.length + 1, hreader, ?_, ?_⟩
    · rw [hanswers]
      exact List.sublist_append_left _ _
    · rw [hanswers, returned_append, returned_map_ok, returned_error, List.append_nil]

end RecordReader

/-! ## Calls -/

/-- A call of somebody who reads a file. -/
inductive ReaderCall (α : Type) where
  /-- Ask for the next record. -/
  | next
  /-- Hand one record after the other to a visitor, of at most `limit`. Whether it wants more
      depends on the records that it has been handed. -/
  | visit (wants : List α → Bool) (limit : Nat)
  /-- Hand the file over to another reader and go on with that one. -/
  | move

namespace ReaderCall

/-- The answers that a call gives, and the reader after it. What ends a visit is not told. -/
def perform (d : Decoder Bytes α) : ReaderCall α → RecordReader →
    List (Except ReaderError α) × RecordReader
  | next, r =>
      let (answer, r) := r.next d
      ([answer], r)
  | visit wants limit, r =>
      let visited := RecordReader.visit d
        (fun seen value => (seen ++ [value], wants (seen ++ [value]))) limit ⟨0, [], r⟩
      (visited.state.map .ok, visited.reader)
  | move, r =>
      let (_, r) := r.handOver
      ([], r)

/-- The answers that the calls give, one after the other, and the reader after them. -/
def performAll (d : Decoder Bytes α) : List (ReaderCall α) → RecordReader →
    List (Except ReaderError α) × RecordReader
  | [], r => ([], r)
  | call :: calls, r =>
      let (answers, r) := call.perform d r
      let (later, r) := performAll d calls r
      (answers ++ later, r)

theorem performAll_cons (d : Decoder Bytes α) (call : ReaderCall α) (calls : List (ReaderCall α))
    (r : RecordReader) :
    performAll d (call :: calls) r =
      ((call.perform d r).1 ++ (performAll d calls (call.perform d r).2).1,
        (performAll d calls (call.perform d r).2).2) := rfl

theorem visited_collect (wants : List α → Bool) (seen records : List α) :
    visited (fun seen value => (seen ++ [value], wants (seen ++ [value]))) seen records =
      seen ++ records := by
  induction records generalizing seen with
  | nil => exact (List.append_nil seen).symm
  | cons value records ih =>
      have hrest := ih (seen ++ [value])
      rwa [List.append_assoc] at hrest

/-- A call asks for some number of records, and tells of these that there are. -/
theorem perform_advance (d : Decoder Bytes α) (call : ReaderCall α) (r : RecordReader) :
    ∃ n, (call.perform d r).2 = r.advance d n ∧ (call.perform d r).1.Sublist (r.answers d n) ∧
      returned (r.answers d n) = returned (call.perform d r).1 := by
  cases call with
  | next => exact ⟨1, rfl, List.Sublist.refl _, rfl⟩
  | move => exact ⟨0, rfl, List.Sublist.refl _, rfl⟩
  | visit wants limit =>
      obtain ⟨records, hfollows⟩ := RecordReader.visit_follows d
        (fun seen value => (seen ++ [value], wants (seen ++ [value]))) limit ⟨0, [], r⟩
      obtain ⟨n, hreader, hsublist, hreturned⟩ := hfollows.reads
      have hstate := hfollows.state
      rw [visited_collect, List.nil_append] at hstate
      refine ⟨n, hreader, ?_, ?_⟩
      · rwa [perform, hstate]
      · rw [perform, hstate, returned_map_ok, hreturned]

/-- So do any number of calls. -/
theorem performAll_advance (d : Decoder Bytes α) (calls : List (ReaderCall α)) (r : RecordReader) :
    ∃ n, (performAll d calls r).2 = r.advance d n ∧
      (performAll d calls r).1.Sublist (r.answers d n) ∧
      returned (r.answers d n) = returned (performAll d calls r).1 := by
  induction calls generalizing r with
  | nil => exact ⟨0, rfl, List.Sublist.refl _, rfl⟩
  | cons call calls ih =>
      obtain ⟨m, hreader, hsublist, hreturned⟩ := perform_advance d call r
      obtain ⟨n, hreader', hsublist', hreturned'⟩ := ih (call.perform d r).2
      rw [hreader] at hreader' hsublist' hreturned'
      refine ⟨m + n, ?_, ?_, ?_⟩
      · rw [performAll_cons, RecordReader.advance_add, ← hreader', hreader]
      · rw [performAll_cons, RecordReader.answers_add, hreader]
        exact hsublist.append hsublist'
      · rw [performAll_cons, RecordReader.answers_add, returned_append, returned_append, hreturned,
          hreturned', hreader]

end ReaderCall

/-! ## Any calls -/

/-- Whatever calls are made, what a reader of a file has come to is accounted for. The calls amount
    to asking for one record after the other, `n` times, and their answers are among those that this
    gives, with all its records. As long as no record is lost, the bytes that the records have
    taken, what the last one has left over and the unread part of the file are the file. The reader
    counts the records. Once a record is lost the reader says that it has halted, and once the file
    has ended it says so, and in both cases it stays as it is. A visit hands over what asking for
    one record after the other would give. And if every record takes something, there are at most as
    many of them as the file has bytes, and visits are over by then. -/
theorem Composed.reader_accounts {access : Access} {d : Decoder Bytes α} (h : Composed access d)
    (haccess : access ≠ .rewrite) (file : Bytes) {chunkSize : Nat} (hsize : 1 ≤ chunkSize)
    (calls : List (ReaderCall α)) :
    let start := RecordReader.ofSource (.file file) chunkSize
    let log := (ReaderCall.performAll d calls start).1
    let r := (ReaderCall.performAll d calls start).2
    ∃ n, r = start.advance d n ∧ log.Sublist (start.answers d n) ∧
      returned (start.answers d n) = returned log ∧
      (¬ Lost (start.answers d n) → ∃ pieces unread, r.source = .file unread ∧
        d.Accounts file (returned log) pieces (r.pending ++ unread) ∧
        pieces.flatten ++ r.pending ++ unread = file) ∧
      r.recordsRead = (returned log).length ∧
      (Lost (start.answers d n) → r.next d = (.error (.input ⟨.streamHalted, 0, 0⟩), r)) ∧
      (.error .endOfStream ∈ start.answers d n → r.next d = (.error .endOfStream, r)) ∧
      (∀ (σ : Type) (visitor : σ → α → σ × Bool) (state : σ) (limit : Nat), ∃ records,
        RecordReader.Follows d visitor limit ⟨0, state, r⟩ records
          (RecordReader.visit d visitor limit ⟨0, state, r⟩)) ∧
      ((∀ bytes value, ¬ d.Takes bytes value []) → (returned log).length ≤ file.length ∧
        ∀ (σ : Type) (visitor : σ → α → σ × Bool) (state : σ) (limit : Nat), file.length < limit →
          (RecordReader.visit d visitor limit ⟨0, state, r⟩).count < limit) := by
  intro start log r
  obtain ⟨n, hreader, hlog, hreturned⟩ := ReaderCall.performAll_advance d calls start
  have hinv : r.Accounted d file (start.answers d n) := by
    have hadvance := h.advance_accounted haccess n (RecordReader.Accounted.ofSource d file hsize)
    rwa [List.nil_append, ← hreader] at hadvance
  refine ⟨n, hreader, hlog, hreturned, fun hfound => ?_, ?_, fun hlost => ?_, fun hend => ?_,
    fun σ visitor state limit => RecordReader.visit_follows d visitor limit _, fun hd => ⟨?_, ?_⟩⟩
  · have hlive : r.halted = false := by
      rw [Bool.eq_false_iff, ne_eq, hinv.halted]
      exact hfound
    obtain ⟨pieces, rest, haccounts, hrest⟩ := hinv.accounts
    obtain ⟨unread, hreads, rfl⟩ := hrest hlive
    rw [hreturned] at haccounts
    refine ⟨pieces, unread, hreads.source, haccounts, ?_⟩
    rw [List.append_assoc]
    exact haccounts.flatten
  · rw [← hreturned]
    exact hinv.counted
  · exact RecordReader.next_of_halted (hinv.halted.2 hlost) d
  · obtain ⟨hlive, hpending, hatEnd⟩ := hinv.ended hend
    exact RecordReader.next_of_ended hlive hpending hatEnd d
  · rw [← hreturned]
    exact hinv.length_le hd
  · intro σ visitor state limit hlimit
    obtain ⟨records, hfollows⟩ :=
      RecordReader.visit_follows d visitor limit ⟨0, state, r⟩
    have hanswered : r.answers d records.length = records.map .ok := hfollows.answered
    have hall := (h.advance_accounted haccess records.length hinv).length_le hd
    rw [hanswered, returned_append, returned_map_ok, List.length_append] at hall
    rw [hfollows.counted]
    show 0 + records.length < limit
    omega

/-- A packet: a byte that says how many bytes follow it. -/
def Decoder.packet : Decoder Bytes Bytes := word8.bind fun size => getBytes size.toNat

theorem Composed.packet {access : Access} : Composed access Decoder.packet :=
  .bind (.map _ (.word 1 .big)) fun _ => .getBytes _

/-- Every packet takes at least the byte of its size. -/
theorem Decoder.packet_takes (bytes value : Bytes) : ¬ packet.Takes bytes value [] := by
  have haccess : Access.stream ≠ .rewrite := by decide
  have hbytes : Composed .stream (getBytes 1 : Decoder Bytes Bytes) := .getBytes 1
  have hword : Composed .stream (word 1 .big : Decoder Bytes UInt64) := .word 1 .big
  have hword8 : (word8 : Decoder Bytes UInt8).TakesAtLeast 1 :=
    ((TakesAtLeast.getBytes 1).map hbytes.linear _).map hword.linear _
  have hpacket : packet.TakesAtLeast 1 :=
    hword8.bind (hword.map _).linear (fun size => .getBytes size.toNat) haccess
  intro htakes
  exact absurd (hpacket.length_le htakes) (by decide)

/-- Two packets and one that is cut short, read two bytes at a time by a visit that is content with
    one of them, and by single calls, after the file has changed hands. -/
theorem packets_reader_accounts :
    let start := RecordReader.ofSource (.file [2, 7, 8, 0, 3, 9]) 2
    let calls := [ReaderCall.visit (fun seen => seen.length < 1) 9, .next, .move, .next, .next]
    let log := (ReaderCall.performAll Decoder.packet calls start).1
    let r := (ReaderCall.performAll Decoder.packet calls start).2
    log = [.ok [7, 8], .ok [], .error (.input ⟨.truncatedRecord, 0, 2⟩),
        .error (.input ⟨.streamHalted, 0, 0⟩)] ∧
      r.recordsRead = 2 ∧ r.next Decoder.packet = (.error (.input ⟨.streamHalted, 0, 0⟩), r) ∧
      (returned log).length ≤ 6 := by
  intro start calls log r
  have hlog : log = [.ok [7, 8], .ok [], .error (.input ⟨.truncatedRecord, 0, 2⟩),
      .error (.input ⟨.streamHalted, 0, 0⟩)] := by
    unfold log calls start
    cbv
  have haccess : Access.stream ≠ .rewrite := by decide
  have hsize : 1 ≤ 2 := by decide
  obtain ⟨n, -, hsublist, -, -, hcounted, hlost, -, -, hbound⟩ :=
    Composed.packet.reader_accounts haccess [2, 7, 8, 0, 3, 9] hsize calls
  refine ⟨hlog, ?_, hlost ⟨.input ⟨.truncatedRecord, 0, 2⟩, ?_, rfl⟩, ?_⟩
  · have hreturned : (returned log).length = 2 := by rw [hlog]; rfl
    exact hcounted.trans hreturned
  · refine hsublist.subset ?_
    show _ ∈ log
    rw [hlog]
    simp
  · exact (hbound Decoder.packet_takes).1

end StreamDecode
