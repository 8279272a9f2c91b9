import StreamDecode.Proofs.Lineage
import StreamDecode.Proofs.Mapping

set_option autoImplicit false

/-! # A run that is overwritten, and flags that guard it

In memory a suspended run is not a value. Its copies refer to the same gathered chunks, the same
open nodes and the same place for the value, and resuming it changes these in place. In `SharedRuns`
all that a run has is kept in one place, so this sharing is at its worst: a suspended result is a
reference to the place, with the function to apply in the end and a flag, and resuming it goes on
from wherever the run stands.

The flag is what saves it. Copying and mapping pass it on and a new suspension gets a new one, so of
the results that refer to one run only those of its last suspension are not marked
(`Handle.Shows`). Therefore runs in shared places cannot be told from runs that are values
(`SharedRuns.Mirrors`). -/

namespace StreamDecode

variable {β α γ : Type}

/-! ## Runs in shared places -/

/-- A result that refers to its run while it is suspended. -/
inductive Handle (β α : Type) where
  | failed (error : DecodeError)
  | suspended (run : Nat) (change : α → α) (flag : Nat)
  | done (value : α) (leftover : β)

namespace Handle

/-- What refers to a run that stands there, with a function to apply to its value. -/
def ofResult (run : Nat) (change : α → α) (flag : Nat) : Result β α → Handle β α
  | .failed error => failed error
  | .suspended _ => suspended run change flag
  | .done value leftover => done (change value) leftover

/-- Change the value, now or once there is one. -/
def map (f : α → α) : Handle β α → Handle β α
  | failed error => failed error
  | suspended run change flag => suspended run (f ∘ change) flag
  | done value leftover => done (f value) leftover

end Handle

/-- Results in registers, the places of their runs, and the flags of their suspensions. -/
structure SharedRuns (β α : Type) where
  registers : Registers (Handle β α)
  /-- Where each run stands. -/
  runs : Array (Result β α)
  /-- Which of the suspensions have been resumed. -/
  flags : Array Bool

namespace SharedRuns

/-- Before the first step. -/
def empty : SharedRuns β α := ⟨[], #[], #[]⟩

/-- The handle in a register. -/
def get (m : SharedRuns β α) (name : String) : Except SessionError (Handle β α) :=
  match m.registers.get? name with
  | some handle => .ok handle
  | none => .error (.emptyRegister name)

/-- Where a run stands. -/
def stand (runs : Array (Result β α)) (run : Nat) : Result β α :=
  runs[run]?.getD (.failed (Failure.report ⟨.strayYield, []⟩))

/-- Resume what a handle refers to, in place. -/
def feed (m : SharedRuns β α) (source : String) (handle : Handle β α) (chunk : β) (dest : String) :
    Except SessionError (SharedRuns β α) :=
  let registers := m.registers.clear source
  match handle with
  | .suspended run change flag =>
      if m.flags[flag]?.getD false then .error .alreadyResumed
      else
        let next := (stand m.runs run).feed chunk
        .ok {
          registers := registers.set dest (.ofResult run change m.flags.size next)
          runs := m.runs.setIfInBounds run next
          flags := (m.flags.setIfInBounds flag true).push false }
  | final => .ok { m with registers := registers.set dest final }

/-- Perform a step of a session. -/
def perform [Buffer β] (d : Decoder β α) (m : SharedRuns β α) :
    SessionCommand β α → Except SessionError (SharedRuns β α)
  | .start dest input =>
      let result := d.runPartial input
      .ok {
        registers := m.registers.set dest (.ofResult m.runs.size id m.flags.size result)
        runs := m.runs.push result
        flags := m.flags.push false }
  | .copy source dest =>
      (m.get source).map fun handle => { m with registers := m.registers.set dest handle }
  | .map source f dest =>
      (m.get source).map fun handle => { m with
        registers := (m.registers.clear source).set dest (handle.map f) }
  | .feed source chunk dest => (m.get source).bind fun handle => m.feed source handle chunk dest

/-- Perform steps in turn; one that is not possible changes nothing. -/
def performAll [Buffer β] (d : Decoder β α) (m : SharedRuns β α)
    (commands : List (SessionCommand β α)) : SharedRuns β α :=
  commands.foldl (fun m command => (m.perform d command).toOption.getD m) m

end SharedRuns

/-! ## What a handle shows -/

/-- The handle shows what is held. If it is suspended and has not been resumed, it is of the last
    suspension of its run, and so what is held is where the run stands. -/
def Handle.Shows (runs : Array (Result β α)) (flags : Array Bool) (latest : Nat → Nat) :
    Handle β α → Held β α → Prop
  | .failed error, held => held.result = .failed error
  | .done value leftover, held => held.result = .done value leftover
  | .suspended run change flag, held =>
      held.point = flag ∧ (∃ resume, held.result = .suspended resume) ∧ run < runs.size ∧
        flag < flags.size ∧ (flags[flag]?.getD false = false →
          latest run = flag ∧ held.result = (SharedRuns.stand runs run).map change)

namespace Handle.Shows

variable {runs : Array (Result β α)} {flags : Array Bool} {latest : Nat → Nat}
  {handle : Handle β α} {held : Held β α}

theorem map (h : handle.Shows runs flags latest held) (f : α → α) :
    (handle.map f).Shows runs flags latest { held with result := held.result.map f } := by
  cases handle with
  | failed error =>
      have hresult : held.result = .failed error := h
      exact congrArg (·.map f) hresult
  | done value leftover =>
      have hresult : held.result = .done value leftover := h
      exact congrArg (·.map f) hresult
  | suspended run change flag =>
      obtain ⟨hpoint, ⟨resume, hresult⟩, hrun, hflag, hstands⟩ := h
      refine ⟨hpoint, ⟨fun chunk => (resume chunk).map f, ?_⟩, hrun, hflag, fun hset => ?_⟩
      · exact congrArg (·.map f) hresult
      · obtain ⟨hlatest, hheld⟩ := hstands hset
        refine ⟨hlatest, ?_⟩
        rw [← Result.map_comp, ← hheld]

/-- What refers to a run that has come to the result just now. -/
theorem ofResult {run : Nat} {result : Result β α} (hrun : run < runs.size)
    (hstand : SharedRuns.stand runs run = result) (change : α → α)
    (hlatest : latest run = flags.size) :
    (Handle.ofResult run change flags.size result).Shows runs (flags.push false) latest
      ⟨result.map change, flags.size⟩ := by
  cases result with
  | failed error => rfl
  | done value leftover => rfl
  | suspended resume =>
      refine ⟨rfl, ⟨_, rfl⟩, hrun, ?_, fun _ => ⟨hlatest, ?_⟩⟩
      · rw [Array.size_push]
        exact Nat.lt_succ_self _
      · rw [hstand]

/-- Another run is started. -/
theorem push (h : handle.Shows runs flags latest held) (result : Result β α) (flag : Nat) :
    handle.Shows (runs.push result) (flags.push false)
      (fun run => if run = runs.size then flag else latest run) held := by
  cases handle with
  | failed error => exact h
  | done value leftover => exact h
  | suspended run change flag' =>
      obtain ⟨hpoint, hresult, hrun, hflag, hstands⟩ := h
      refine ⟨hpoint, hresult, ?_, ?_, fun hset => ?_⟩
      · rw [Array.size_push]
        exact Nat.lt_succ_of_lt hrun
      · rw [Array.size_push]
        exact Nat.lt_succ_of_lt hflag
      · rw [getD_push_false] at hset
        obtain ⟨hlatest, hheld⟩ := hstands hset
        refine ⟨(if_neg (Nat.ne_of_lt hrun)).trans hlatest, ?_⟩
        rw [hheld, SharedRuns.stand, SharedRuns.stand, Array.getElem?_push_lt hrun,
          Array.getElem?_eq_getElem hrun]

/-- A run is resumed at its last suspension. The other results that refer to this run and are not
    marked have the same flag, and are marked now. -/
theorem resume (h : handle.Shows runs flags latest held) {run flag : Nat}
    (hflag : flag < flags.size) (hlatest : latest run = flag) (next : Result β α) (flag' : Nat) :
    handle.Shows (runs.setIfInBounds run next) ((flags.setIfInBounds flag true).push false)
      (fun other => if other = run then flag' else latest other) held := by
  cases handle with
  | failed error => exact h
  | done value leftover => exact h
  | suspended other change mark =>
      obtain ⟨hpoint, hresult, hother, hmark, hstands⟩ := h
      refine ⟨hpoint, hresult, ?_, ?_, fun hset => ?_⟩
      · rwa [Array.size_setIfInBounds]
      · rw [Array.size_push, Array.size_setIfInBounds]
        exact Nat.lt_succ_of_lt hmark
      · rw [getD_push_false, ← Bool.not_eq_true, getD_mark hflag, not_or, Bool.not_eq_true] at hset
        obtain ⟨hlast, hheld⟩ := hstands hset.1
        have hne : other ≠ run := by
          rintro rfl
          exact hset.2 (hlast.symm.trans hlatest)
        refine ⟨(if_neg hne).trans hlast, ?_⟩
        rw [hheld, SharedRuns.stand, SharedRuns.stand, Array.getElem?_setIfInBounds_ne hne.symm]

end Handle.Shows

/-! ## Sessions -/

namespace SharedRuns

/-- The handles show what the session holds, where `latest` is the flag of the last suspension of
    each run. -/
structure Mirrors (m : SharedRuns β α) (latest : Nat → Nat) (s : Session β α) : Prop where
  shows : Registers.Related (Handle.Shows m.runs m.flags latest) m.registers s.registers
  flags : m.flags = s.resumed

theorem Mirrors.empty : (SharedRuns.empty : SharedRuns β α).Mirrors id Session.empty :=
  ⟨fun _ => .none, rfl⟩

theorem stand_push (runs : Array (Result β α)) (result : Result β α) :
    stand (runs.push result) runs.size = result := by
  simp [stand]

theorem stand_set {runs : Array (Result β α)} {run : Nat} (hrun : run < runs.size)
    (next : Result β α) : stand (runs.setIfInBounds run next) run = next := by
  simp [stand, hrun]

section

variable [Buffer β] {d : Decoder β α} {m : SharedRuns β α} {s : Session β α} {latest : Nat → Nat}
  {source dest : String} {handle : Handle β α}

theorem perform_of_empty {command : SessionCommand β α} (hsource : command.source? = some source)
    (hget : m.registers.get? source = none) :
    m.perform d command = .error (.emptyRegister source) := by
  cases command with
  | start dest input => cases hsource
  | copy source dest =>
      cases hsource
      simp [perform, get, hget, Except.map]
  | map source f dest =>
      cases hsource
      simp [perform, get, hget, Except.map]
  | feed source chunk dest =>
      cases hsource
      simp [perform, get, hget, Except.bind]

theorem perform_copy (hget : m.registers.get? source = some handle) :
    m.perform d (.copy source dest) = .ok { m with registers := m.registers.set dest handle } := by
  simp [perform, get, hget, Except.map]

theorem perform_map (hget : m.registers.get? source = some handle) (f : α → α) :
    m.perform d (.map source f dest) =
      .ok { m with registers := (m.registers.clear source).set dest (handle.map f) } := by
  simp [perform, get, hget, Except.map]

theorem perform_feed (hget : m.registers.get? source = some handle) (chunk : β) :
    m.perform d (.feed source chunk dest) = m.feed source handle chunk dest := by
  simp [perform, get, hget, Except.bind]

/-- The step is refused by both for the same reason, or performed by both. -/
def Agree (d : Decoder β α) (m : SharedRuns β α) (s : Session β α) (command : SessionCommand β α) :
    Prop :=
  (∃ error, m.perform d command = .error error ∧ s.perform d command = .error error) ∨
    ∃ m' latest' s', m.perform d command = .ok m' ∧ s.perform d command = .ok s' ∧
      m'.Mirrors latest' s'

/-- Resuming a run in place is resuming what is held. -/
theorem Mirrors.feed (h : m.Mirrors latest s) {held : Held β α}
    (hhandle : m.registers.get? source = some handle) (hheld : s.registers.get? source = some held)
    (hshows : handle.Shows m.runs m.flags latest held) (chunk : β) (dest : String) :
    Agree d m s (.feed source chunk dest) := by
  unfold Agree
  rw [perform_feed hhandle, Session.perform_feed hheld]
  have hcleared := h.shows.clear source
  cases handle with
  | failed error =>
      have hresult : held.result = .failed error := hshows
      have hfinal : held.result.IsFinal := by rw [hresult]; trivial
      rw [Session.feed_of_isFinal hfinal]
      exact .inr ⟨_, latest, _, rfl, rfl, hcleared.set dest hshows, h.flags⟩
  | done value leftover =>
      have hresult : held.result = .done value leftover := hshows
      have hfinal : held.result.IsFinal := by rw [hresult]; trivial
      rw [Session.feed_of_isFinal hfinal]
      exact .inr ⟨_, latest, _, rfl, rfl, hcleared.set dest hshows, h.flags⟩
  | suspended run change flag =>
      obtain ⟨rfl, ⟨resume, hresult⟩, hrun, hflag, hstands⟩ := hshows
      have hflags : s.wasResumed held.point = m.flags[held.point]?.getD false := by
        rw [h.flags, Session.wasResumed]
      by_cases hset : m.flags[held.point]?.getD false = true
      · refine .inl ⟨.alreadyResumed, if_pos hset, ?_⟩
        exact Session.feed_of_resumed hresult (hflags.trans hset)
      · obtain ⟨hlatest, hstand⟩ := hstands (by simpa using hset)
        -- what the held result resumes to is what the run resumes to, changed
        have hnext : resume chunk = ((stand m.runs run).feed chunk).map change := by
          rw [← Result.feed_map, ← hstand, hresult]
          rfl
        rw [Session.feed_of_not_resumed hresult (by rwa [hflags]), hnext]
        let runs := m.runs.setIfInBounds run ((stand m.runs run).feed chunk)
        let flags := m.flags.setIfInBounds held.point true
        let latest' := fun other => if other = run then flags.size else latest other
        have hothers : Registers.Related (Handle.Shows runs (flags.push false) latest')
            (m.registers.clear source) (s.registers.clear source) :=
          hcleared.mono fun _ _ hother => hother.resume hflag hlatest _ _
        have hresumed :
            (Handle.ofResult run change flags.size ((stand m.runs run).feed chunk)).Shows
              runs (flags.push false) latest'
              ⟨((stand m.runs run).feed chunk).map change, flags.size⟩ := by
          refine .ofResult ?_ (stand_set hrun _) change (if_pos rfl)
          rwa [Array.size_setIfInBounds]
        have hsize : flags.size = m.flags.size := Array.size_setIfInBounds
        refine .inr ⟨_, latest', _, if_neg hset, rfl, ?_, ?_⟩
        · rw [← hsize, Session.hold, ← h.flags]
          exact hothers.set dest hresumed
        · rw [Session.hold, h.flags]

/-- Step by step, runs in shared places do what runs do that are values. -/
theorem Mirrors.step (h : m.Mirrors latest s) (command : SessionCommand β α) :
    Agree d m s command := by
  have hempty : ∀ {source}, command.source? = some source → s.registers.get? source = none →
      Agree d m s command := fun hsource hget =>
    .inl ⟨_, perform_of_empty hsource (h.shows.eq_none hget), Session.perform_of_empty hsource hget⟩
  cases command with
  | start dest input =>
      let latest' := fun run => if run = m.runs.size then m.flags.size else latest run
      have hothers := h.shows.mono fun _ _ hother => hother.push (d.runPartial input) m.flags.size
      have hstarted : (Handle.ofResult m.runs.size id m.flags.size (d.runPartial input)).Shows
          (m.runs.push (d.runPartial input)) (m.flags.push false) latest'
          ⟨(d.runPartial input).map id, m.flags.size⟩ := by
        refine .ofResult ?_ (stand_push _ _) id (if_pos rfl)
        rw [Array.size_push]
        exact Nat.lt_succ_self _
      rw [Result.map_id] at hstarted
      refine .inr ⟨_, latest', _, rfl, rfl, ?_, ?_⟩
      · rw [Session.hold, ← h.flags]
        exact hothers.set dest hstarted
      · rw [Session.hold, h.flags]
  | copy source dest =>
      rcases hheld : s.registers.get? source with _ | held
      · exact hempty rfl hheld
      · obtain ⟨handle, hhandle, hshows⟩ := h.shows.exists_left hheld
        exact .inr ⟨_, latest, _, perform_copy hhandle, Session.perform_copy hheld,
          h.shows.set dest hshows, h.flags⟩
  | map source f dest =>
      rcases hheld : s.registers.get? source with _ | held
      · exact hempty rfl hheld
      · obtain ⟨handle, hhandle, hshows⟩ := h.shows.exists_left hheld
        exact .inr ⟨_, latest, _, perform_map hhandle f, Session.perform_map hheld f,
          (h.shows.clear source).set dest (hshows.map f), h.flags⟩
  | feed source chunk dest =>
      rcases hheld : s.registers.get? source with _ | held
      · exact hempty rfl hheld
      · obtain ⟨handle, hhandle, hshows⟩ := h.shows.exists_left hheld
        exact h.feed hhandle hheld hshows chunk dest

/-- All steps. -/
theorem Mirrors.steps (h : m.Mirrors latest s) (commands : List (SessionCommand β α)) :
    ∃ latest', (m.performAll d commands).Mirrors latest' (s.performAll d commands) := by
  induction commands generalizing m latest s with
  | nil => exact ⟨latest, h⟩
  | cons command commands ih =>
      rw [performAll, Session.performAll, List.foldl_cons, List.foldl_cons]
      rcases h.step command with ⟨error, hm, hs⟩ | ⟨m', latest', s', hm, hs, h'⟩
      · rw [hm, hs]
        exact ih h
      · rw [hm, hs]
        exact ih h'

end

end SharedRuns

/-! ## Any session -/

/-- What is seen of a result. -/
inductive Status (β α : Type) where
  | failed (error : DecodeError)
  | suspended
  | done (value : α) (leftover : β)

def Result.status : Result β α → Status β α
  | .failed error => .failed error
  | .suspended _ => .suspended
  | .done value leftover => .done value leftover

def Handle.status : Handle β α → Status β α
  | .failed error => .failed error
  | .suspended _ _ _ => .suspended
  | .done value leftover => .done value leftover

theorem Handle.Shows.status_eq {runs : Array (Result β α)} {flags : Array Bool}
    {latest : Nat → Nat} {handle : Handle β α} {held : Held β α}
    (h : handle.Shows runs flags latest held) : handle.status = held.result.status := by
  cases handle with
  | failed error =>
      have hresult : held.result = .failed error := h
      rw [hresult]
      rfl
  | done value leftover =>
      have hresult : held.result = .done value leftover := h
      rw [hresult]
      rfl
  | suspended run change flag =>
      obtain ⟨-, ⟨resume, hresult⟩, -⟩ := h
      rw [hresult]
      rfl

/-- Feeding the register gives the result, in another register or the same, and leaves all others as
    they are. -/
def Session.FeedGives [Buffer β] (d : Decoder β α) (s : Session β α) (source : String) (chunk : β)
    (dest : String) (result : Result β α) : Prop :=
  ∃ s', s.perform d (.feed source chunk dest) = .ok s' ∧
    ∀ name, (s'.registers.get? name).map Held.result =
      if name = dest then some result
      else if name = source then none
      else (s.registers.get? name).map Held.result

theorem Session.feedGives_of_moved [Buffer β] {d : Decoder β α} {s : Session β α}
    {source dest : String} {chunk : β} {held : Held β α} {resumed : Array Bool}
    (hperform : s.perform d (.feed source chunk dest) =
      .ok ⟨(s.registers.clear source).set dest held, resumed⟩) :
    s.FeedGives d source chunk dest held.result := by
  refine ⟨_, hperform, fun name => ?_⟩
  rw [Registers.get?_set, Registers.get?_clear]
  by_cases hdest : name = dest
  · simp [hdest]
  · by_cases hsource : name = source <;> simp [hdest, hsource]

/-- Every suspension is resumed at most once, and copies never disturb each other, whatever steps a
    session has made. What a register holds is what a fresh run comes to along the lineage of this
    register. Feeding a suspended result is refused, and changes nothing, if this suspension has
    been resumed before, through this register, a copy or what was mapped from one of them;
    otherwise it succeeds. Feeding a final result gives it back. And all this is so where the
    results of a run refer to one place that is overwritten when it is resumed: the same is seen in
    every register, and the same steps are refused. -/
theorem Session.resumed_at_most_once [Buffer β] (d : Decoder β α)
    (commands : List (SessionCommand β α)) :
    let s := Session.empty.performAll d commands
    let c := Chronicle.recordAll d Session.empty Chronicle.empty commands
    let m := SharedRuns.empty.performAll d commands
    c.resumptions.Nodup ∧
      (∀ name, (s.registers.get? name).map Held.result =
        (c.lineages.get? name).map (Lineage.replay d)) ∧
      (∀ source l, c.lineages.get? source = some l → ∀ chunk dest,
        (∀ resume, l.replay d = .suspended resume →
          (l.born ∈ c.resumptions →
            s.perform d (.feed source chunk dest) = .error .alreadyResumed ∧
              s.performAll d [.feed source chunk dest] = s) ∧
          (l.born ∉ c.resumptions → s.FeedGives d source chunk dest (resume chunk))) ∧
        ((l.replay d).IsFinal → s.FeedGives d source chunk dest (l.replay d))) ∧
      (∀ name, (m.registers.get? name).map Handle.status =
        (s.registers.get? name).map fun held => held.result.status) ∧
      ∀ command, (m.perform d command).map (fun _ => ()) =
        (s.perform d command).map fun _ => () := by
  intro s c m
  have htells : c.Tells d s := (Chronicle.Tells.empty d).steps commands
  obtain ⟨latest, hmirrors⟩ : ∃ latest, m.Mirrors latest s :=
    SharedRuns.Mirrors.empty.steps commands
  refine ⟨htells.once, htells.held.map_eq fun _ _ hl => hl.1, fun source l hl chunk dest => ?_,
    hmirrors.shows.map_eq fun _ _ hshows => hshows.status_eq, fun command => ?_⟩
  · rcases htells.feed_cases hl chunk dest with ⟨resume, hreplay, hresumed, hperform⟩ |
      ⟨resume, hreplay, hnew, hperform⟩ | ⟨held, hfinal, hdescribes, hperform⟩
    · rw [hreplay]
      refine ⟨fun resume' _ => ⟨fun _ => ⟨hperform, ?_⟩, fun hnew => (hnew hresumed).elim⟩, nofun⟩
      simp [performAll, hperform, Except.toOption]
    · rw [hreplay]
      refine ⟨fun resume' hresume => ⟨fun hresumed => (hnew hresumed).elim, fun _ => ?_⟩, nofun⟩
      cases hresume
      exact feedGives_of_moved hperform
    · refine ⟨fun resume hreplay => ?_, fun _ => hdescribes.1 ▸ feedGives_of_moved hperform⟩
      rw [hreplay] at hfinal
      exact hfinal.elim
  · rcases hmirrors.step command with ⟨error, hm, hs⟩ | ⟨m', latest', s', hm, hs, -⟩
    · rw [hm, hs]
      rfl
    · rw [hm, hs]
      rfl

/-- The second byte of a word is fed to a result that is kept twice: the other copy is used up, also
    where it has been mapped. -/
example :
    let s := (Session.empty : Session Bytes UInt16).performAll Decoder.word16be
      [.start "a" [1], .copy "a" "b", .feed "a" [2] "a", .map "b" (· + 1) "c"]
    ((s.perform Decoder.word16be (.feed "c" [3] "c")).map fun _ => ()) =
        .error .alreadyResumed ∧
      ((s.registers.get? "a").map fun held => held.result.status) = some (.done 258 []) := by
  constructor <;> cbv

end StreamDecode
