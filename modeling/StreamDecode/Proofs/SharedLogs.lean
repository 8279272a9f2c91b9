import Mathlib.Logic.Function.Basic
import StreamDecode.LogPool
import StreamDecode.Proofs.LawfulBuffer
import StreamDecode.Proofs.Lineage

set_option autoImplicit false

/-! # Logs that share vectors are lists of their own

`LogPool.Lists` says which list a log stands for. What a step does to the vectors is to let them
grow at their ends (`LogPool.GrowsTo`), and a log looks at the first chunks of its vector only; so
the list of a log is its own, whatever is pushed onto others that share the vector, and wherever
the log is kept. The log that is pushed onto gets its vector longer in place or takes its chunks
elsewhere; both times it stands for the longer list.

Adding all chunks of another log reads them one after the other, perhaps from the vector that it
adds them to. `LogTable.PushesAll` follows its rounds, in which both logs are looked up anew: they
come to an end because no chunk is added to the log that is read from, which takes that the two
logs are not the same one. -/

namespace StreamDecode

variable {β : Type}

namespace LogPool

variable {pool later : LogPool β} {log other : Log} {chunks others : List β} {chunk : β}

/-! ## The list of a log -/

/-- Each vector of the pool is also one of the later pool, where it may have more chunks behind. -/
def GrowsTo (pool later : LogPool β) : Prop :=
  ∀ (v : Nat) (vector : Array β), pool.vectors[v]? = some vector →
    ∃ vector', later.vectors[v]? = some vector' ∧ vector.toList <+: vector'.toList

theorem GrowsTo.refl (pool : LogPool β) : pool.GrowsTo pool := by
  intro v vector hv
  exact ⟨vector, hv, List.prefix_rfl⟩

theorem GrowsTo.trans {last : LogPool β} (h : pool.GrowsTo later) (h' : later.GrowsTo last) :
    pool.GrowsTo last := by
  intro v vector hv
  obtain ⟨vector', hv', hprefix⟩ := h v vector hv
  obtain ⟨vector'', hv'', hprefix'⟩ := h' v vector' hv'
  exact ⟨vector'', hv'', hprefix.trans hprefix'⟩

theorem vectorOf_of_getElem? {v : Nat} {vector : Array β} (hlog : log.vector = some v)
    (hv : pool.vectors[v]? = some vector) : pool.vectorOf log = vector := by
  simp only [vectorOf, hlog, hv, Option.getD_some]

theorem contents_of_vector_eq_none (hlog : log.vector = none) : pool.contents log = [] := by
  simp only [contents, vectorOf, hlog, List.take_nil]

variable [Buffer β]

/-- The log stands for the list: its vector is one of the pool, it counts no more chunks than the
    vector has, and the first so many of these are the list. None of them is empty. -/
structure Lists (pool : LogPool β) (log : Log) (chunks : List β) : Prop where
  contents_eq : pool.contents log = chunks
  count_le : log.count ≤ (pool.vectorOf log).size
  present : ∀ v, log.vector = some v → v < pool.vectors.size
  solid : ∀ chunk ∈ chunks, Buffer.isEmpty chunk = false

theorem lists_empty (pool : LogPool β) : pool.Lists .empty [] where
  contents_eq := contents_of_vector_eq_none rfl
  count_le := Nat.zero_le _
  present := by simp [Log.empty]
  solid := by simp

theorem Lists.count_eq (h : pool.Lists log chunks) : log.count = chunks.length := by
  have hle := h.count_le
  rw [← h.contents_eq, contents, List.length_take, Array.length_toList]
  omega

/-- The list of a log stays what it is while the vectors grow. -/
theorem Lists.grows (h : pool.Lists log chunks) (hgrows : pool.GrowsTo later) :
    later.Lists log chunks := by
  cases hlog : log.vector with
  | none =>
      have hcount : log.count ≤ (later.vectorOf log).size := by
        have hle := h.count_le
        simp only [vectorOf, hlog] at hle ⊢
        exact hle
      refine ⟨?_, hcount, by simp [hlog], h.solid⟩
      rw [contents_of_vector_eq_none hlog, ← h.contents_eq, contents_of_vector_eq_none hlog]
  | some v =>
      obtain ⟨vector, hv⟩ : ∃ vector, pool.vectors[v]? = some vector :=
        ⟨_, Array.getElem?_eq_getElem (h.present v hlog)⟩
      obtain ⟨vector', hv', more, hmore⟩ := hgrows v vector hv
      have hcount : log.count ≤ vector.toList.length := by
        have hle := h.count_le
        rwa [vectorOf_of_getElem? hlog hv, ← Array.length_toList] at hle
      have hvector' := vectorOf_of_getElem? hlog hv'
      refine ⟨?_, ?_, ?_, h.solid⟩
      · -- the chunks that the log counts are among those that were there before
        rw [← h.contents_eq, contents, contents, hvector', vectorOf_of_getElem? hlog hv, ← hmore,
          List.take_append_of_le_length hcount]
      · rw [hvector', ← Array.length_toList, ← hmore, List.length_append]
        omega
      · intro w hw
        obtain rfl : v = w := by rw [hlog] at hw; exact Option.some.inj hw
        exact (Array.getElem?_eq_some_iff.1 hv').1

/-! ## Adding a chunk -/

/-- The three things that a push can do: nothing for an empty chunk, to let the vector of the log
    grow in place if the log counts all its chunks, or to take the chunks of the log to a new
    vector. -/
theorem push_cases (pool : LogPool β) (log : Log) (chunk : β) :
    (Buffer.isEmpty chunk = true ∧ pool.push log chunk = (pool, log)) ∨
    (Buffer.isEmpty chunk = false ∧
      ∃ v, log.vector = some v ∧ (pool.vectorOf log).size = log.count ∧
        pool.push log chunk =
          (⟨pool.vectors.modify v (·.push chunk)⟩, ⟨some v, log.count + 1⟩)) ∨
    (Buffer.isEmpty chunk = false ∧
      pool.push log chunk =
        (⟨pool.vectors.push ((pool.contents log).toArray.push chunk)⟩,
          ⟨some pool.vectors.size, log.count + 1⟩)) := by
  cases hempty : Buffer.isEmpty chunk with
  | true => exact .inl ⟨rfl, by simp only [push, hempty, if_true]⟩
  | false =>
      cases hlog : log.vector with
      | none =>
          refine .inr (.inr ⟨rfl, ?_⟩)
          simp only [push, hempty, hlog, push.pushApart, Bool.false_eq_true, if_false]
      | some v =>
          by_cases hsize : (pool.vectorOf log).size = log.count
          · refine .inr (.inl ⟨rfl, v, rfl, hsize, ?_⟩)
            simp only [push, hempty, hlog, hsize, Bool.false_eq_true, if_false, if_true]
          · refine .inr (.inr ⟨rfl, ?_⟩)
            simp only [push, hempty, hlog, hsize, push.pushApart, Bool.false_eq_true, if_false]

theorem growsTo_push (pool : LogPool β) (log : Log) (chunk : β) :
    pool.GrowsTo (pool.push log chunk).1 := by
  intro w vector hw
  rcases push_cases pool log chunk with ⟨-, h⟩ | ⟨-, v, -, -, h⟩ | ⟨-, h⟩ <;> rw [h]
  · exact ⟨vector, hw, List.prefix_rfl⟩
  · by_cases hvw : v = w
    · refine ⟨vector.push chunk, ?_, ?_⟩
      · rw [Array.getElem?_modify, if_pos hvw, hw]
        rfl
      · rw [Array.toList_push]
        exact List.prefix_append _ _
    · refine ⟨vector, ?_, List.prefix_rfl⟩
      rw [Array.getElem?_modify, if_neg hvw, hw]
  · refine ⟨vector, ?_, List.prefix_rfl⟩
    rw [Array.getElem?_push_lt (Array.getElem?_eq_some_iff.1 hw).1]
    exact congrArg some (Array.getElem?_eq_some_iff.1 hw).2

/-- What a push makes of a list. -/
def pushed (chunks : List β) (chunk : β) : List β :=
  if Buffer.isEmpty chunk then chunks else chunks ++ [chunk]

theorem Lists.solid_append (h : pool.Lists log chunks) (hchunk : Buffer.isEmpty chunk = false) :
    ∀ x ∈ chunks ++ [chunk], Buffer.isEmpty x = false := by
  intro x hx
  rcases List.mem_append.1 hx with hx | hx
  · exact h.solid x hx
  · rw [List.mem_singleton.1 hx, hchunk]

/-- A log that counts all of its vector stands for the longer list when the vector has grown. -/
theorem Lists.push_inPlace {v : Nat} (h : pool.Lists log chunks) (hlog : log.vector = some v)
    (hsize : (pool.vectorOf log).size = log.count) (hchunk : Buffer.isEmpty chunk = false) :
    LogPool.Lists ⟨pool.vectors.modify v (·.push chunk)⟩ ⟨some v, log.count + 1⟩
      (chunks ++ [chunk]) := by
  have hvector : pool.vectors[v]? = some (pool.vectorOf log) := by
    rw [vectorOf_of_getElem? hlog (Array.getElem?_eq_getElem (h.present v hlog))]
    exact Array.getElem?_eq_getElem _
  have hgrown : LogPool.vectorOf ⟨pool.vectors.modify v (·.push chunk)⟩ ⟨some v, log.count + 1⟩ =
      (pool.vectorOf log).push chunk := by
    refine vectorOf_of_getElem? rfl ?_
    rw [Array.getElem?_modify, if_pos rfl, hvector]
    rfl
  have hwhole : (pool.vectorOf log).toList = chunks := by
    rw [← h.contents_eq, contents, ← hsize, ← Array.length_toList, List.take_length]
  refine ⟨?_, ?_, ?_, h.solid_append hchunk⟩
  · rw [contents, hgrown, Array.toList_push, hwhole]
    exact List.take_of_length_le (by simp [h.count_eq])
  · have hsame : log.count + 1 = ((pool.vectorOf log).push chunk).size := by
      rw [Array.size_push, hsize]
    rw [hgrown]
    exact Nat.le_of_eq hsame
  · intro w hw
    rw [← Option.some.inj hw, Array.size_modify]
    exact h.present v hlog

/-- A new vector has the chunks of the log and the one that is added. -/
theorem Lists.push_apart (h : pool.Lists log chunks) (hchunk : Buffer.isEmpty chunk = false) :
    LogPool.Lists ⟨pool.vectors.push ((pool.contents log).toArray.push chunk)⟩
      ⟨some pool.vectors.size, log.count + 1⟩ (chunks ++ [chunk]) := by
  have hgrown : LogPool.vectorOf ⟨pool.vectors.push ((pool.contents log).toArray.push chunk)⟩
      ⟨some pool.vectors.size, log.count + 1⟩ = (pool.contents log).toArray.push chunk :=
    vectorOf_of_getElem? rfl Array.getElem?_push_size
  refine ⟨?_, ?_, ?_, h.solid_append hchunk⟩
  · rw [contents, hgrown, Array.toList_push, h.contents_eq]
    exact List.take_of_length_le (by simp [h.count_eq])
  · have hsame : log.count + 1 = ((pool.contents log).toArray.push chunk).size := by
      rw [Array.size_push, List.size_toArray, h.contents_eq, h.count_eq]
    rw [hgrown]
    exact Nat.le_of_eq hsame
  · intro w hw
    rw [← Option.some.inj hw, Array.size_push]
    exact Nat.lt_succ_self _

theorem Lists.push (h : pool.Lists log chunks) (chunk : β) :
    (pool.push log chunk).1.Lists (pool.push log chunk).2 (pushed chunks chunk) := by
  rcases push_cases pool log chunk with ⟨hempty, hpush⟩ | ⟨hempty, v, hlog, hsize, hpush⟩ |
      ⟨hempty, hpush⟩ <;> simp only [hpush, pushed, hempty, if_true, Bool.false_eq_true, if_false]
  · exact h
  · exact h.push_inPlace hlog hsize hempty
  · exact h.push_apart hempty

/-! ## Adding all chunks of another log -/

/-- A chunk that a log counts is there to be read. -/
theorem Lists.getElem?_vectorOf (h : pool.Lists log chunks) {i : Nat} (hi : i < log.count) :
    (pool.vectorOf log)[i]? = chunks[i]? := by
  rw [← h.contents_eq, contents, List.getElem?_take, if_pos hi, Array.getElem?_toList]

/-- The chunk that a log has at a position, and the ones behind it. -/
theorem Lists.exists_chunk (h : pool.Lists log chunks) {i : Nat} (hi : i < log.count) :
    ∃ chunk, (pool.vectorOf log)[i]? = some chunk ∧ Buffer.isEmpty chunk = false ∧
      chunks.drop i = chunk :: chunks.drop (i + 1) := by
  have hlength : i < chunks.length := by rwa [h.count_eq] at hi
  refine ⟨chunks[i], ?_, h.solid _ (List.getElem_mem hlength),
    List.drop_eq_getElem_cons hlength⟩
  rw [h.getElem?_vectorOf hi, List.getElem?_eq_getElem hlength]

/-- The chunks that are read are those that the other log had before, though the vector that they
    are read from may grow meanwhile. -/
theorem Lists.pushFrom {n i : Nat} (h : pool.Lists log chunks) (hother : pool.Lists other others)
    (hn : i + n = other.count) :
    (pushFrom other n i pool log).1.Lists (pushFrom other n i pool log).2
        (chunks ++ others.drop i) ∧
      pool.GrowsTo (pushFrom other n i pool log).1 := by
  induction n generalizing i pool log chunks with
  | zero =>
      have hdrop : others.drop i = [] := by
        rw [List.drop_eq_nil_iff, ← hother.count_eq]
        omega
      rw [hdrop, List.append_nil]
      exact ⟨h, .refl pool⟩
  | succ n ih =>
      obtain ⟨chunk, hread, hempty, hdrop⟩ := hother.exists_chunk (i := i) (by omega)
      have hgrows := growsTo_push pool log chunk
      have hpushed : pushed chunks chunk = chunks ++ [chunk] := by
        simp only [pushed, hempty, Bool.false_eq_true, if_false]
      obtain ⟨hlists, hlater⟩ :=
        ih (i := i + 1) (h.push chunk) (hother.grows hgrows) (by omega)
      rw [hpushed, List.append_assoc, List.singleton_append, ← hdrop] at hlists
      simp only [LogPool.pushFrom, hread]
      exact ⟨hlists, hgrows.trans hlater⟩

theorem Lists.pushAll (h : pool.Lists log chunks) (hother : pool.Lists other others) :
    (pool.pushAll log other).1.Lists (pool.pushAll log other).2 (chunks ++ others) ∧
      pool.GrowsTo (pool.pushAll log other).1 :=
  h.pushFrom hother (Nat.zero_add _)

theorem flatten_congr (h : later.contents log = pool.contents log) (counter : Nat) :
    later.flatten counter log = pool.flatten counter log := by
  simp only [flatten, h]

/-- The bytes of a log are those of its chunks. -/
theorem toBytes_flatten [LawfulBuffer β] (pool : LogPool β) (counter : Nat) (log : Log) :
    Buffer.toBytes (pool.flatten counter log).1 = (pool.contents log).flatMap Buffer.toBytes := by
  unfold flatten
  split
  · next h => rw [h, List.flatMap_nil, LawfulBuffer.toBytes_absent]
  · exact Buffer.toBytes_join counter _

end LogPool

/-! ## Logs in registers -/

/-- A step that may write the log of a register. -/
inductive LogCommand (β : Type) where
  /-- Add a chunk to a log. -/
  | push (name : String) (chunk : β)
  /-- Make a log a copy of another one. -/
  | copy (name source : String)
  /-- Add all chunks of a log to another one. -/
  | pushAll (name source : String)
  /-- Write the merge of two logs, each of which may be missing, to a register. Without an outer one
      there is nothing to write. -/
  | merge (name : String) (outer inner : Option String)

namespace LogCommand

/-- The register that a step may write. -/
def target : LogCommand β → String
  | push name _ | copy name _ | pushAll name _ | merge name _ _ => name

/-- The list that a step writes, given the lists of all registers. -/
def written [Buffer β] (lists : String → List β) : LogCommand β → List β
  | push name chunk => LogPool.pushed (lists name) chunk
  | copy _ source => lists source
  | pushAll name source => lists name ++ lists source
  | merge _ (some outer) inner => lists outer ++ (inner.elim [] lists)
  | merge name none _ => lists name

/-- What a step makes of lists that share nothing. -/
def onLists [Buffer β] (lists : String → List β) (command : LogCommand β) : String → List β :=
  Function.update lists command.target (command.written lists)

/-- What steps make of empty lists, one after the other. -/
def listsAfter [Buffer β] (commands : List (LogCommand β)) : String → List β :=
  commands.foldl onLists fun _ => []

end LogCommand

namespace LogTable

variable [Buffer β] {t : LogTable β} {lists : String → List β} {name source : String}

/-- Perform a step. -/
def perform (t : LogTable β) : LogCommand β → LogTable β
  | .push name chunk => t.push name chunk
  | .copy name source => t.copy name source
  | .pushAll name source => t.pushAll name source
  | .merge name outer inner =>
      match t.merge outer inner with
      | (t, some merged) => { t with logs := t.logs.set name merged }
      | (t, none) => t

/-- Perform steps one after the other. -/
def performAll (t : LogTable β) (commands : List (LogCommand β)) : LogTable β :=
  commands.foldl perform t

/-- Each register holds a log that stands for a list. -/
def Mirrors (t : LogTable β) (lists : String → List β) : Prop :=
  ∀ name, t.pool.Lists (t.get name) (lists name)

omit [Buffer β] in
theorem get_set (pool : LogPool β) (logs : Registers Log) (name other : String) (log : Log) :
    (LogTable.mk pool (logs.set name log)).get other =
      if other = name then log else (LogTable.mk pool logs).get other := by
  unfold get
  rw [Registers.get?_set]
  split <;> rfl

/-- A register is written with a log of the pool, whose vectors may have grown before. -/
theorem Mirrors.write (h : t.Mirrors lists) {pool : LogPool β} {log : Log} {chunks : List β}
    (hgrows : t.pool.GrowsTo pool) (hlog : pool.Lists log chunks) (name : String) :
    (LogTable.mk pool (t.logs.set name log)).Mirrors (Function.update lists name chunks) := by
  intro other
  rw [get_set]
  by_cases hother : other = name
  · rw [if_pos hother, hother, Function.update_self]
    exact hlog
  · rw [if_neg hother, Function.update_of_ne hother]
    exact (h other).grows hgrows

/-- A step writes the list that it should, if any, and lets vectors grow. -/
theorem Mirrors.perform (h : t.Mirrors lists) (command : LogCommand β) :
    (t.perform command).Mirrors (command.onLists lists) ∧
      t.pool.GrowsTo (t.perform command).pool := by
  cases command with
  | push name chunk =>
      have hgrows := LogPool.growsTo_push t.pool (t.get name) chunk
      exact ⟨h.write hgrows ((h name).push chunk) name, hgrows⟩
  | copy name source =>
      exact ⟨h.write (.refl _) (h source) name, .refl _⟩
  | pushAll name source =>
      obtain ⟨hlog, hgrows⟩ := (h name).pushAll (h source)
      exact ⟨h.write hgrows hlog name, hgrows⟩
  | merge name outer inner =>
      cases outer with
      | none =>
          have hsame : LogCommand.onLists lists (.merge name none inner) = lists :=
            Function.update_eq_self name lists
          rw [hsame]
          exact ⟨h, .refl _⟩
      | some outer =>
          cases inner with
          | none =>
              have hlog : t.pool.Lists (t.get outer) (lists outer ++ []) := by
                rw [List.append_nil]
                exact h outer
              exact ⟨h.write (.refl _) hlog name, .refl _⟩
          | some inner =>
              obtain ⟨hlog, hgrows⟩ := (h outer).pushAll (h inner)
              exact ⟨h.write hgrows hlog name, hgrows⟩

/-- Steps write the lists that they should, one after the other. -/
theorem Mirrors.performAll (h : t.Mirrors lists) (commands : List (LogCommand β)) :
    (t.performAll commands).Mirrors (commands.foldl LogCommand.onLists lists) ∧
      t.pool.GrowsTo (t.performAll commands).pool := by
  induction commands generalizing t lists with
  | nil => exact ⟨h, .refl t.pool⟩
  | cons command commands ih =>
      obtain ⟨hstep, hgrows⟩ := h.perform command
      obtain ⟨hrest, hlater⟩ := ih hstep
      exact ⟨hrest, hgrows.trans hlater⟩

theorem mirrors_empty : (empty : LogTable β).Mirrors fun _ => [] := by
  intro name
  exact LogPool.lists_empty _

omit [Buffer β] in
theorem get_set_of_ne (t : LogTable β) (pool : LogPool β) (log : Log) {other : String}
    (hother : other ≠ name) : (LogTable.mk pool (t.logs.set name log)).get other = t.get other := by
  rw [get_set, if_neg hother]
  rfl

/-- A step leaves the other registers alone. -/
theorem get_perform_of_ne (t : LogTable β) (command : LogCommand β) {other : String}
    (hother : other ≠ command.target) : (t.perform command).get other = t.get other := by
  cases command with
  | push | copy | pushAll => exact t.get_set_of_ne _ _ hother
  | merge name outer inner =>
      -- without an outer log nothing is written
      cases outer with
      | none => rfl
      | some outer => cases inner <;> exact t.get_set_of_ne _ _ hother

/-! ## The rounds of adding all chunks -/

/-- The rounds in which the chunks that the log of `source` has from position `i` on are added to
    the log of `name`. Each round looks up both logs anew and goes on from what it has written. -/
inductive PushesAll (name source : String) : Nat → LogTable β → LogTable β → Prop
  | done {i : Nat} {t : LogTable β} (whole : (t.get source).count ≤ i) :
      PushesAll name source i t t
  | round {i : Nat} {t t' : LogTable β} {chunk : β} (more : i < (t.get source).count)
      (reads : (t.pool.vectorOf (t.get source))[i]? = some chunk)
      (later : PushesAll name source (i + 1) (t.push name chunk) t') :
      PushesAll name source i t t'

theorem get_push (t : LogTable β) (name : String) (chunk : β) (other : String) :
    (t.push name chunk).get other =
      if other = name then (t.pool.push (t.get name) chunk).2 else t.get other :=
  get_set _ t.logs name other _

theorem get_pushAll (t : LogTable β) (name source other : String) :
    (t.pushAll name source).get other =
      if other = name then (t.pool.pushAll (t.get name) (t.get source)).2 else t.get other :=
  get_set _ t.logs name other _

/-- The rounds end if the log that they read from is not the one that they write, because it counts
    what it has counted before. -/
theorem exists_pushesAll {others : List β} {n i : Nat} (hne : name ≠ source)
    (hsource : t.pool.Lists (t.get source) others) (hn : i + n = (t.get source).count) :
    ∃ t', PushesAll name source i t t' ∧
      t'.pool = (LogPool.pushFrom (t.get source) n i t.pool (t.get name)).1 ∧
      ∀ other, t'.get other =
        if other = name then (LogPool.pushFrom (t.get source) n i t.pool (t.get name)).2
        else t.get other := by
  induction n generalizing i t with
  | zero =>
      refine ⟨t, .done (by omega), rfl, ?_⟩
      intro other
      split
      · next h => rw [h]; rfl
      · rfl
  | succ n ih =>
      have hmore : i < (t.get source).count := by omega
      obtain ⟨chunk, hread, -, -⟩ := hsource.exists_chunk hmore
      have hsame : (t.push name chunk).get source = t.get source := by
        rw [get_push, if_neg hne.symm]
      have hwritten : (t.push name chunk).get name = (t.pool.push (t.get name) chunk).2 := by
        rw [get_push, if_pos rfl]
      have hgrown : (t.push name chunk).pool.Lists ((t.push name chunk).get source) others := by
        rw [hsame]
        exact hsource.grows (LogPool.growsTo_push t.pool (t.get name) chunk)
      obtain ⟨t', hlater, hpool, hget⟩ := ih (i := i + 1) hgrown (by rw [hsame]; omega)
      rw [hsame, hwritten] at hpool hget
      refine ⟨t', .round hmore hread hlater, ?_, ?_⟩
      · simp only [LogPool.pushFrom, hread]
        exact hpool
      · intro other
        simp only [LogPool.pushFrom, hread]
        rw [hget other]
        split
        · rfl
        · next h => rw [get_push, if_neg h]

/-- Each round is determined by the one before it. -/
theorem PushesAll.unique {i : Nat} {t' t'' : LogTable β} (h : PushesAll name source i t t')
    (h' : PushesAll name source i t t'') : t' = t'' := by
  induction h with
  | done whole =>
      cases h' with
      | done _ => rfl
      | round more _ _ => omega
  | round more reads _ ih =>
      cases h' with
      | done whole => omega
      | round _ reads' later' =>
          rw [reads] at reads'
          cases reads'
          exact ih later'

/-- What the rounds leave behind is the same as adding the chunks that were there at the start. -/
theorem pushesAll_pushAll {others : List β} (hne : name ≠ source)
    (hsource : t.pool.Lists (t.get source) others) :
    ∃ t', PushesAll name source 0 t t' ∧ t'.pool = (t.pushAll name source).pool ∧
      ∀ other, t'.get other = (t.pushAll name source).get other := by
  obtain ⟨t', hrounds, hpool, hget⟩ := exists_pushesAll hne hsource (Nat.zero_add _)
  refine ⟨t', hrounds, hpool, ?_⟩
  intro other
  rw [hget, get_pushAll]
  rfl

/-- Merging two logs is adding the chunks of the inner one, in rounds, to a copy of the outer one.
    -/
theorem merge_eq_pushesAll {inner : String} {others : List β} (outer : String) (hne : name ≠ inner)
    (hinner : t.pool.Lists (t.get inner) others) :
    ∃ t', PushesAll name inner 0 (t.copy name outer) t' ∧
      t.merge (some outer) (some inner) = (⟨t'.pool, t.logs⟩, some (t'.get name)) := by
  have hread : (t.copy name outer).get inner = t.get inner :=
    t.get_perform_of_ne (.copy name outer) hne.symm
  have hcopied : (t.copy name outer).get name = t.get outer :=
    (get_set t.pool t.logs name name _).trans (if_pos rfl)
  have hlists : (t.copy name outer).pool.Lists ((t.copy name outer).get inner) others := by
    rw [hread]
    exact hinner
  obtain ⟨t', hrounds, hpool, hget⟩ := pushesAll_pushAll hne hlists
  refine ⟨t', hrounds, ?_⟩
  rw [hpool, hget name, get_pushAll, if_pos rfl, pushAll, hread, hcopied]
  rfl

/-- The rounds of adding the chunks of a log to itself never end, because each of them adds one more
    that is still to be read. -/
theorem not_pushesAll_self {chunks : List β} {i : Nat} {t' : LogTable β}
    (h : t.pool.Lists (t.get name) chunks) (hi : i < chunks.length) :
    ¬ PushesAll name name i t t' := by
  intro hrounds
  induction hrounds generalizing chunks with
  | done whole => rw [h.count_eq] at whole; omega
  | @round i t t' chunk more reads later ih =>
      have hsolid : Buffer.isEmpty chunk = false := by
        rw [h.getElem?_vectorOf more] at reads
        exact h.solid chunk (List.mem_of_getElem? reads)
      have hlonger : (t.push name chunk).pool.Lists ((t.push name chunk).get name)
          (chunks ++ [chunk]) := by
        have hpushed := h.push chunk
        rw [LogPool.pushed, hsolid, if_neg Bool.false_ne_true] at hpushed
        rw [get_push, if_pos rfl]
        exact hpushed
      refine ih hlonger ?_
      rw [List.length_append, List.length_singleton]
      omega

/-! ## Logs as lists of their own -/

/-- After any steps each log stands for the list that these steps make of lists which share
    nothing, and counts no more chunks than its vector has. A step leaves the logs of other
    registers alone, and a log that is kept anywhere shows the same chunks, and the same bytes,
    after any further steps. Adding all chunks of one register to another one comes to an end in
    rounds; so does it when two logs are merged, which adds the chunks of the inner log to a copy
    of the outer one. -/
theorem independent_lists [LawfulBuffer β] (commands : List (LogCommand β)) :
    let t := performAll empty commands
    let lists := LogCommand.listsAfter commands
    (∀ (name : String) (counter : Nat),
      t.pool.contents (t.get name) = lists name ∧
      (t.get name).count = (lists name).length ∧
      (t.get name).count ≤ (t.pool.vectorOf (t.get name)).size ∧
      Buffer.toBytes (t.pool.flatten counter (t.get name)).1 =
        (lists name).flatMap Buffer.toBytes) ∧
    (∀ (command : LogCommand β) (other : String), other ≠ command.target →
      (t.perform command).get other = t.get other) ∧
    (∀ (name : String) (later : List (LogCommand β)) (counter : Nat),
      (t.performAll later).pool.contents (t.get name) = t.pool.contents (t.get name) ∧
      (t.performAll later).pool.flatten counter (t.get name) =
        t.pool.flatten counter (t.get name)) ∧
    (∀ name source : String, name ≠ source →
      ∃ t', PushesAll name source 0 t t' ∧ t'.pool = (t.pushAll name source).pool ∧
        ∀ other, t'.get other = (t.pushAll name source).get other) ∧
    (∀ inner : Option String, t.merge none inner = (t, none)) ∧
    (∀ outer : String, t.merge (some outer) none = (t, some (t.get outer))) ∧
    ∀ name outer inner : String, name ≠ inner →
      ∃ t', PushesAll name inner 0 (t.copy name outer) t' ∧
        t.merge (some outer) (some inner) = (⟨t'.pool, t.logs⟩, some (t'.get name)) := by
  intro t lists
  have hlists : t.Mirrors lists := (mirrors_empty.performAll commands).1
  refine ⟨?_, ?_, ?_, ?_, ?_, ?_, ?_⟩
  · intro name counter
    refine ⟨(hlists name).contents_eq, (hlists name).count_eq, (hlists name).count_le, ?_⟩
    rw [LogPool.toBytes_flatten, (hlists name).contents_eq]
  · intro command other hother
    exact t.get_perform_of_ne command hother
  · intro name later counter
    have hsame := ((hlists name).grows (hlists.performAll later).2).contents_eq
    have hcontents : (t.performAll later).pool.contents (t.get name) =
        t.pool.contents (t.get name) := by rw [hsame, (hlists name).contents_eq]
    exact ⟨hcontents, LogPool.flatten_congr hcontents counter⟩
  · intro name source hne
    exact pushesAll_pushAll hne (hlists source)
  · intro inner
    rfl
  · intro outer
    rfl
  · intro name outer inner hne
    exact merge_eq_pushesAll outer hne (hlists inner)

/-- Two logs use one vector until they grow apart; one of them then takes in the other, and a third
    one merges both. -/
theorem shared_vector_independent_lists :
    let commands : List (LogCommand Bytes) :=
      [.push "outer" [1], .copy "inner" "outer", .push "outer" [2], .push "inner" [],
        .push "inner" [3], .pushAll "outer" "inner", .merge "both" (some "outer") (some "inner")]
    let t := performAll empty commands
    t.pool.contents (t.get "inner") = [[1], [3]] ∧
      t.pool.contents (t.get "outer") = [[1], [2], [1], [3]] ∧
      Buffer.toBytes (t.pool.flatten 0 (t.get "both")).1 = [1, 2, 1, 3, 1, 3] ∧
      (t.perform (.push "outer" [4])).get "inner" = t.get "inner" ∧
      ∃ t', PushesAll "outer" "inner" 0 t t' := by
  intro commands t
  obtain ⟨hlists, hframe, -, hrounds, -⟩ := independent_lists commands
  obtain ⟨t', ht', -⟩ := hrounds "outer" "inner" (by decide)
  refine ⟨?_, ?_, ?_, hframe (.push "outer" [4]) "inner" (by decide), t', ht'⟩
  · rw [(hlists "inner" 0).1]
    decide
  · rw [(hlists "outer" 0).1]
    decide
  · rw [(hlists "both" 0).2.2.2]
    decide

end LogTable

end StreamDecode
