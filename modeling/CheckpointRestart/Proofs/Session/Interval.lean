import CheckpointRestart.Proofs.Session.Additive

/-! # Checkpoints are an interval apart

A session counts the interval from the last call that renewed it, and only setups, checkpoints that
were written and ends of restarts renew it. What a call does to the clock, the interval and the
attempt is said once; from it follow, for every run, how far a checkpoint is from the last renewal
before it, that attempts that wrote nothing do not move the deadline, and that nothing is written
after the clock has failed.
-/

namespace CheckpointRestart

variable {α σ : Type}

/-- The time never goes back, as far as it can be read. -/
def Clock.Steady (c : Clock) : Prop :=
  ∀ i j a b, i ≤ j → c.times i = some a → c.times j = some b → a ≤ b

/-! ## The calls that read the clock -/

namespace Session

variable {s t : Session α σ} {label count : UInt64}

/-- The time that is read in a call that leads from one session to another, if it is read there. -/
def timeRead? (s t : Session α σ) : Option Nat :=
  if t.clock.timesRead = s.clock.timesRead then none else s.clock.times s.clock.timesRead

theorem timeRead?_eq_some_iff {time : Nat} : s.timeRead? t = some time ↔
    t.clock.timesRead ≠ s.clock.timesRead ∧ s.clock.times s.clock.timesRead = some time := by
  rw [timeRead?]
  split
  · next same => exact iff_of_false (by simp) fun h => h.1 same
  · next differs => exact (and_iff_right differs).symm

theorem timeRead?_same (h : t.clock = s.clock) : s.timeRead? t = none := by
  rw [timeRead?, if_pos (by rw [h])]

theorem timeRead?_next (h : t.clock.timesRead = s.clock.timesRead + 1) :
    s.timeRead? t = s.clock.times s.clock.timesRead := by
  rw [timeRead?, if_neg (by omega)]

/-- The clock is read in a call, and does not answer. -/
def ClockFails (s t : Session α σ) : Prop :=
  t.clock.epochsRead ≠ s.clock.epochsRead ∧ s.clock.epochs s.clock.epochsRead = none ∨
    t.clock.timesRead ≠ s.clock.timesRead ∧ s.clock.times s.clock.timesRead = none

variable [Storage σ]

/-- How a setup can end. -/
inductive SetUp (s : Session α σ) : Session α σ → Prop
  | failed : SetUp s { s with clock := s.clock.readEpoch.2.readTime.2, enabled := false }
  | run {epoch : UInt64} {time : Nat} {base : Path} {storage : σ} :
    s.clock.epochs s.clock.epochsRead = some epoch → s.clock.times s.clock.timesRead = some time →
    SetUp s { s with
      clock := s.clock.readEpoch.2.readTime.2, storage, base := some base, ordinal := 0,
      intervalStart := time, enabled := true }

theorem setUp (s : Session α σ) : SetUp s s.setup := by
  unfold setup
  dsimp only
  split
  · next epoch time hepoch htime =>
    split
    · exact .failed
    · exact .run hepoch htime
  · exact .failed

/-- How a start can end: nothing happens, the clock fails, it is too early, or a checkpoint is
opened as far as the storage allows. -/
inductive Started (s : Session α σ) (label count : UInt64) : Session α σ → Prop
  | idle : Started s label count s
  | failed : s.clock.times s.clock.timesRead = none →
    Started s label count { s with clock := s.clock.readTime.2, enabled := false }
  | early {base : Path} {time : Nat} : s.enabled = true → s.base = some base →
    s.clock.times s.clock.timesRead = some time → time - s.intervalStart < s.settings.interval →
    Started s label count { s with
      clock := s.clock.readTime.2, attempt := some ⟨base.join (toString s.ordinal), 0, true⟩ }
  | due {base : Path} {time : Nat} {opened : Bool} {storage : σ} : s.enabled = true →
    s.base = some base → s.clock.times s.clock.timesRead = some time →
    s.settings.interval ≤ time - s.intervalStart →
    openCheckpoint s.storage (base.join (toString s.ordinal)) ⟨label, count⟩ = (opened, storage) →
    Started s label count { s with
      clock := s.clock.readTime.2, storage,
      attempt := some ⟨base.join (toString s.ordinal), 0, !opened⟩ }

theorem started (s : Session α σ) (label count : UInt64) : Started s label count (s.start label count) := by
  unfold start readTime
  dsimp only
  split
  · next base enabled held =>
    split
    · next s' read =>
      obtain ⟨failed, rfl⟩ := Prod.mk.inj read
      exact .failed failed
    · next time s' read =>
      obtain ⟨succeeded, rfl⟩ := Prod.mk.inj read
      split
      · next early => exact .early enabled held succeeded early
      · next due => exact .due enabled held succeeded (Nat.le_of_not_lt due) rfl
  · exact .idle

theorem saveEntry_eq (s : Session α σ) (entry : Option Entry) :
    ∃ storage attempt, s.saveEntry entry = { s with storage, attempt } ∧
      ∀ a, attempt = some a → a.skipped = false → ∃ a', s.attempt = some a' ∧ a'.skipped = false := by
  have skips (a : Attempt) : (s.attempt.map fun a => { a with skipped := true }) = some a →
      a.skipped = false → ∃ a', s.attempt = some a' ∧ a'.skipped = false := by
    intro held live
    obtain ⟨a', -, rfl⟩ := Option.map_eq_some_iff.mp held
    cases live
  unfold saveEntry
  split
  · exact ⟨s.storage, s.attempt, rfl, fun a held live => ⟨a, held, live⟩⟩
  · exact ⟨s.storage, _, rfl, skips⟩
  · next a entry active =>
    split
    · exact ⟨s.storage, _, rfl, skips⟩
    · refine ⟨_, _, rfl, fun a' _ _ => ?_⟩
      unfold activeAttempt? at active
      split at active
      · obtain ⟨held, live⟩ := Option.filter_eq_some_iff.mp active
        exact ⟨a, held, by simpa using live⟩
      · cases active

omit [Storage σ]

/-- How an attempt can end. -/
inductive Ended (s : Session α σ) : Bool → Session α σ → Prop
  | idle : (s.enabled = true → s.attempt = none) → Ended s false s
  | skipped {a : Attempt} {stats : SessionStats} : s.enabled = true → s.attempt = some a →
    a.skipped = true → Ended s false { s with attempt := none, ordinal := s.ordinal + 1, stats }
  | written {a : Attempt} {time : Nat} {stats : SessionStats} : s.enabled = true →
    s.attempt = some a → a.skipped = false → s.clock.times s.clock.timesRead = some time →
    Ended s true { s with
      attempt := none, ordinal := s.ordinal + 1, stats, clock := s.clock.readTime.2, intervalStart := time }
  | last {a : Attempt} {stats : SessionStats} : s.enabled = true →
    s.attempt = some a → a.skipped = false → s.clock.times s.clock.timesRead = none →
    Ended s true { s with
      attempt := none, ordinal := s.ordinal + 1, stats, clock := s.clock.readTime.2, enabled := false }

theorem ended (s : Session α σ) : Ended s s.finish.1 s.finish.2 := by
  unfold finish readTime
  dsimp only
  split
  · next a enabled held =>
    split
    · next skipped => exact .skipped enabled held skipped
    · next live =>
      have live : a.skipped = false := by simpa using live
      split
      · next time s' read =>
        obtain ⟨succeeded, rfl⟩ := Prod.mk.inj read
        exact .written enabled held live succeeded
      · next s' read =>
        obtain ⟨failed, rfl⟩ := Prod.mk.inj read
        exact .last enabled held live failed
  · next idle =>
    exact .idle fun enabled => Option.eq_none_iff_forall_ne_some.mpr fun a => idle a enabled

theorem restartFinish_eq (s : Session α σ) :
    s.restartFinish = { s with
      restart := none, clock := s.clock.readTime.2,
      intervalStart := (s.clock.times s.clock.timesRead).getD s.intervalStart } := by
  unfold restartFinish readTime Clock.readTime
  dsimp only
  cases s.clock.times s.clock.timesRead <;> rfl

end Session

/-! ## What a call does to the interval and the attempt -/

variable [DecidableEq α] [Storage σ]

namespace Call

variable {s t : Session α σ} {c : Call α}

/-- The time that a call reads. -/
def reading? (s : Session α σ) (c : Call α) : Option Nat :=
  s.timeRead? (c.perform s)

/-- The time that a call reads to begin a new interval. -/
def renewal? (s : Session α σ) (c : Call α) : Option Nat :=
  match c with
  | setup => if s.setup.enabled then c.reading? s else none
  | finish => if s.finish.1 then c.reading? s else none
  | restartFinish => c.reading? s
  | _ => none

theorem reading?_of_renewal? {time : Nat} (h : c.renewal? s = some time) :
    c.reading? s = some time := by
  cases c with
  | setup | finish =>
    unfold renewal? at h
    dsimp only at h
    split at h
    · exact h
    · cases h
  | restartFinish => exact h
  | start | save | restartLabel | restore => cases h

/-- The call neither begins an attempt nor ends one. -/
def Passes (s : Session α σ) : Call α → Prop
  | start label count => (start label count).reading? s = none
  | finish => s.finish.2.attempt = s.attempt
  | _ => True

/-- An attempt that entries can go to has been there before the call. -/
def Inherits (s t : Session α σ) (c : Call α) : Prop :=
  ∀ a, t.attempt = some a → a.skipped = false →
    c.Passes s ∧ ∃ a', s.attempt = some a' ∧ a'.skipped = false

/-- What a call does to the interval and the attempt of an enabled session. -/
structure Pace (s t : Session α σ) (c : Call α) : Prop where
  times : t.clock.times = s.clock.times
  later : s.clock.timesRead ≤ t.clock.timesRead
  enabled : t.enabled = true → s.enabled = true ∨ c = .setup
  interval : t.enabled = true → c.renewal? s = some t.intervalStart ∨
    c.renewal? s = none ∧ s.enabled = true ∧ t.intervalStart = s.intervalStart
  attempt : c.Inherits s t ∨ ∃ label count time, c = .start label count ∧ s.enabled = true ∧
    c.reading? s = some time ∧ s.settings.interval ≤ time - s.intervalStart

theorem Pace.quiet (clock : t.clock = s.clock) (enabled : t.enabled = s.enabled)
    (start : t.intervalStart = s.intervalStart) (renewal : c.renewal? s = none) (inherits : c.Inherits s t) :
    Pace s t c where
  times := by rw [clock]
  later := by rw [clock]
  enabled h := .inl (enabled ▸ h)
  interval h := .inr ⟨renewal, enabled ▸ h, start⟩
  attempt := .inl inherits

theorem Pace.disabled (times : t.clock.times = s.clock.times)
    (later : s.clock.timesRead ≤ t.clock.timesRead) (disabled : t.enabled = false)
    (inherits : c.Inherits s t) : Pace s t c where
  times
  later
  enabled h := absurd h (by rw [disabled]; exact Bool.false_ne_true)
  interval h := absurd h (by rw [disabled]; exact Bool.false_ne_true)
  attempt := .inl inherits

theorem inherits_of_attempt_eq (passes : c.Passes s) (same : t.attempt = s.attempt) : c.Inherits s t :=
  fun a held live => ⟨passes, a, same ▸ held, live⟩

theorem pace_setup (s : Session α σ) : Pace s s.setup (.setup : Call α) := by
  have renewal : (setup : Call α).renewal? s = if s.setup.enabled then s.timeRead? s.setup else none := rfl
  have done := s.setUp
  generalize s.setup = t at renewal done ⊢
  cases done with
  | failed => exact .disabled rfl (Nat.le_succ _) rfl (inherits_of_attempt_eq trivial rfl)
  | run epoch time =>
    refine ⟨rfl, Nat.le_succ _, fun _ => .inr rfl, fun _ => .inl ?_,
      .inl (inherits_of_attempt_eq trivial rfl)⟩
    rw [renewal, if_pos rfl, Session.timeRead?_next rfl, time]

theorem pace_start (s : Session α σ) (label count : UInt64) :
    Pace s (s.start label count) (.start label count : Call α) := by
  have reading : (start label count : Call α).reading? s = s.timeRead? (s.start label count) := rfl
  have done := s.started label count
  generalize s.start label count = t at reading done ⊢
  cases done with
  | idle => exact .quiet rfl rfl rfl rfl (inherits_of_attempt_eq (reading.trans (Session.timeRead?_same rfl)) rfl)
  | failed time =>
    rw [Session.timeRead?_next rfl, time] at reading
    exact .disabled rfl (Nat.le_succ _) rfl (inherits_of_attempt_eq reading rfl)
  | early enabled base time early =>
    refine ⟨rfl, Nat.le_succ _, .inl, fun h => .inr ⟨rfl, h, rfl⟩, .inl ?_⟩
    rintro a ⟨⟩ ⟨⟩
  | due enabled base time due opened =>
    rw [Session.timeRead?_next rfl, time] at reading
    exact ⟨rfl, Nat.le_succ _, .inl, fun h => .inr ⟨rfl, h, rfl⟩,
      .inr ⟨label, count, _, rfl, enabled, reading, due⟩⟩

theorem pace_finish (s : Session α σ) : Pace s s.finish.2 (.finish : Call α) := by
  have renewal : (finish : Call α).renewal? s = if s.finish.1 then s.timeRead? s.finish.2 else none := rfl
  have passes : (finish : Call α).Passes s ↔ s.finish.2.attempt = s.attempt := Iff.rfl
  have done := s.ended
  generalize s.finish.1 = result at renewal done
  generalize s.finish.2 = t at renewal passes done ⊢
  cases done with
  | idle => exact .quiet rfl rfl rfl renewal (inherits_of_attempt_eq (passes.mpr rfl) rfl)
  | skipped => exact .quiet rfl rfl rfl renewal (fun a held => by cases held)
  | written enabled held live time =>
    refine ⟨rfl, Nat.le_succ _, .inl, fun _ => .inl ?_, .inl fun a held => by cases held⟩
    rw [renewal, if_pos rfl, Session.timeRead?_next rfl, time]
  | last => exact .disabled rfl (Nat.le_succ _) rfl fun a held => by cases held

theorem pace_restartFinish (s : Session α σ) : Pace s s.restartFinish (.restartFinish : Call α) := by
  have renewal : (restartFinish : Call α).renewal? s = s.timeRead? s.restartFinish := rfl
  rw [Session.restartFinish_eq] at renewal ⊢
  rw [Session.timeRead?_next rfl] at renewal
  refine ⟨rfl, Nat.le_succ _, .inl, fun h => ?_, .inl (inherits_of_attempt_eq trivial rfl)⟩
  cases time : s.clock.times s.clock.timesRead with
  | none => exact .inr ⟨renewal.trans time, h, rfl⟩
  | some time' => exact .inl (renewal.trans time)

theorem pace (s : Session α σ) (c : Call α) : Pace s (c.perform s) c := by
  cases c with
  | setup => exact pace_setup s
  | start label count => exact pace_start s label count
  | save x =>
    obtain ⟨storage, attempt, eq, kept⟩ := s.saveEntry_eq x.record?
    change Pace s (x.perform s) _
    rw [x.perform_eq, eq]
    exact .quiet rfl rfl rfl rfl fun a held live => ⟨trivial, kept a held live⟩
  | finish => exact pace_finish s
  | restartLabel =>
    change Pace s s.restartLabel.2 _
    unfold Session.restartLabel
    split <;> exact .quiet rfl rfl rfl rfl (inherits_of_attempt_eq trivial rfl)
  | restore x =>
    change Pace s (x.perform s).2 _
    rcases x.perform_cases s with ⟨e, run⟩ | ⟨r, address, run⟩
    · rw [run]
      exact .quiet rfl rfl rfl rfl (inherits_of_attempt_eq trivial rfl)
    · rw [run]
      exact .quiet rfl rfl rfl rfl (inherits_of_attempt_eq trivial rfl)
  | restartFinish => exact pace_restartFinish s

/-- A call that the clock fails in disables the session, except for the end of a restart. -/
theorem disabled_of_clockFails {s : Session α σ} {c : Call α}
    (kind : c = .setup ∨ (∃ label count, c = .start label count) ∨ c = .finish)
    (fails : s.ClockFails (c.perform s)) : (c.perform s).enabled = false := by
  rcases kind with rfl | ⟨label, count, rfl⟩ | rfl
  · change s.ClockFails s.setup at fails
    change s.setup.enabled = false
    have done := s.setUp
    generalize s.setup = t at fails done ⊢
    cases done with
    | failed => rfl
    | run epoch time =>
      rcases fails with ⟨-, none⟩ | ⟨-, none⟩
      · cases epoch.symm.trans none
      · cases time.symm.trans none
  · change s.ClockFails (s.start label count) at fails
    change (s.start label count).enabled = false
    have done := s.started label count
    generalize s.start label count = t at fails done ⊢
    cases done with
    | idle => rcases fails with ⟨read, -⟩ | ⟨read, -⟩ <;> exact absurd rfl read
    | failed => rfl
    | early enabled base time | due enabled base time =>
      rcases fails with ⟨read, -⟩ | ⟨-, none⟩
      · exact absurd rfl read
      · cases time.symm.trans none
  · change s.ClockFails s.finish.2 at fails
    change s.finish.2.enabled = false
    have done := s.ended
    generalize s.finish.1 = result at done
    generalize s.finish.2 = t at fails done ⊢
    cases done with
    | idle | skipped => rcases fails with ⟨read, -⟩ | ⟨read, -⟩ <;> exact absurd rfl read
    | written enabled held live time =>
      rcases fails with ⟨read, -⟩ | ⟨-, none⟩
      · exact absurd rfl read
      · cases time.symm.trans none
    | last => rfl

end Call

/-! ## Runs -/

section Runs

variable {origin : Session α InMemory} {calls more : List (Call α)} {c : Call α}

/-- The times read by the calls that began an interval, in their order. -/
def renewals (s : Session α InMemory) : List (Call α) → List Nat
  | [] => []
  | c :: rest => (c.renewal? s).toList ++ renewals (c.perform s) rest

theorem renewals_concat (s : Session α InMemory) (calls : List (Call α)) (c : Call α) :
    renewals s (calls ++ [c]) = renewals s calls ++ (c.renewal? (after s calls)).toList := by
  induction calls generalizing s with
  | nil => exact List.append_nil _
  | cons d calls ih =>
    rw [List.cons_append, renewals, renewals, ih, List.append_assoc]
    rfl

/-- The attempt that is there after some calls was begun by a start, which read the time, and no
call after it has begun another one or ended it. -/
structure BegunBy (origin : Session α InMemory) (front : List (Call α)) (label count : UInt64) (time : Nat)
    (back : List (Call α)) : Prop where
  reading : (Call.start label count).reading? (after origin front) = some time
  passes : ∀ between c rest, back = between ++ c :: rest →
    c.Passes (after origin (front ++ .start label count :: between))

/-- The attempt that is there was begun an interval after the last renewal before it. -/
def BegunInTime (origin : Session α InMemory) (calls : List (Call α)) : Prop :=
  ∃ front label count time back r, calls = front ++ .start label count :: back ∧
    BegunBy origin front label count time back ∧ (renewals origin front).getLast? = some r ∧
    r + origin.settings.interval ≤ time

theorem BegunInTime.concat (h : BegunInTime origin calls) (passes : c.Passes (after origin calls)) :
    BegunInTime origin (calls ++ [c]) := by
  obtain ⟨front, label, count, time, back, r, rfl, begun, last, apart⟩ := h
  refine ⟨front, label, count, time, back ++ [c], r, by simp, ⟨begun.reading, ?_⟩, last, apart⟩
  intro between d rest split
  rcases List.eq_nil_or_concat rest with rfl | ⟨rest', e, rfl⟩
  · obtain ⟨rfl, rfl⟩ := List.append_inj' split rfl |>.imp_right List.singleton_inj.mp
    exact passes
  · rw [List.concat_eq_append, ← List.cons_append, ← List.append_assoc] at split
    obtain ⟨rfl, -⟩ := List.append_inj' split rfl
    exact begun.passes between d rest' rfl

/-- What holds between the calls of a run. -/
structure Paced (origin : Session α InMemory) (calls : List (Call α)) : Prop where
  settings : (after origin calls).settings = origin.settings
  times : (after origin calls).clock.times = origin.clock.times
  past : ∀ r ∈ renewals origin calls, ∃ i < (after origin calls).clock.timesRead,
    origin.clock.times i = some r
  interval : (after origin calls).enabled = true →
    (renewals origin calls).getLast? = some (after origin calls).intervalStart
  attempt : ∀ a, (after origin calls).attempt = some a → a.skipped = false → BegunInTime origin calls

theorem paced_new (settings : Settings) (storage : InMemory) (clock : Clock) :
    Paced (.new settings storage clock : Session α InMemory) [] where
  settings := rfl
  times := rfl
  past r mem := by cases mem
  interval enabled := by cases enabled
  attempt a held := by cases held

namespace Paced

variable (h : Paced origin calls)
include h

/-- A call does not read an earlier time than the renewals before it. -/
theorem le_reading (steady : origin.clock.Steady) {r time : Nat}
    (last : (renewals origin calls).getLast? = some r)
    (reading : c.reading? (after origin calls) = some time) : r ≤ time := by
  obtain ⟨i, before, read⟩ := h.past r (List.mem_of_getLast? last)
  obtain ⟨-, read'⟩ := Session.timeRead?_eq_some_iff.1 reading
  rw [h.times] at read'
  exact steady i _ r time before.le read read'

theorem concat (steady : origin.clock.Steady) (c : Call α) : Paced origin (calls ++ [c]) := by
  have pace := Call.pace (after origin calls) c
  constructor
  · rw [after_concat, settings_perform, h.settings]
  · rw [after_concat, pace.times, h.times]
  · intro r mem
    rw [renewals_concat, List.mem_append, Option.mem_toList] at mem
    rw [after_concat]
    rcases mem with old | new
    · obtain ⟨i, before, read⟩ := h.past r old
      exact ⟨i, before.trans_le pace.later, read⟩
    · obtain ⟨moved, read⟩ := Session.timeRead?_eq_some_iff.1 (Call.reading?_of_renewal? new)
      rw [h.times] at read
      exact ⟨_, lt_of_le_of_ne pace.later (Ne.symm moved), read⟩
  · intro enabled
    rw [after_concat] at enabled ⊢
    rw [renewals_concat]
    rcases pace.interval enabled with new | ⟨none, before, same⟩
    · rw [new, Option.toList_some, List.getLast?_concat]
    · rw [none, Option.toList_none, List.append_nil, h.interval before, same]
  · intro a held live
    rw [after_concat] at held
    rcases pace.attempt with inherits | ⟨label, count, time, rfl, enabled, reading, due⟩
    · obtain ⟨passes, a', held', live'⟩ := inherits a held live
      exact (h.attempt a' held' live').concat passes
    · have last := h.interval enabled
      have le := h.le_reading steady last reading
      rw [h.settings] at due
      refine ⟨calls, label, count, time, [], _, rfl, ⟨reading, fun between d rest split => ?_⟩, last, by omega⟩
      simp at split

end Paced

theorem paced (settings : Settings) (storage : InMemory) {clock : Clock} (steady : clock.Steady)
    (calls : List (Call α)) : Paced (.new settings storage clock) calls := by
  induction calls using List.reverseRecOn with
  | nil => exact paced_new settings storage clock
  | append_singleton calls c ih => exact ih.concat steady c

theorem enabled_by_setup (disabled : (after origin calls).enabled = false)
    (enabled : (after origin (calls ++ more)).enabled = true) :
    ∃ between rest, more = between ++ .setup :: rest ∧
      (after origin (calls ++ between ++ [.setup])).enabled = true := by
  induction more using List.reverseRecOn with
  | nil =>
    rw [List.append_nil, disabled] at enabled
    cases enabled
  | append_singleton more c ih =>
    rw [← List.append_assoc, after_concat] at enabled
    rcases (Call.pace _ c).enabled enabled with before | rfl
    · obtain ⟨between, rest, rfl, found⟩ := ih before
      exact ⟨between, rest ++ [c], by simp, found⟩
    · exact ⟨more, [], rfl, by rwa [after_concat]⟩

omit [DecidableEq α] in
theorem attempt_of_finish {s : Session α InMemory} (written : s.finish.1 = true) :
    s.enabled = true ∧ ∃ a, s.attempt = some a ∧ a.skipped = false := by
  have done := s.ended
  generalize s.finish.2 = t at done
  rw [written] at done
  cases done with
  | written enabled held live | last enabled held live => exact ⟨enabled, _, held, live⟩

/-- What a start does that reads the time. Before the deadline its attempt is skipped and nothing is
stored; from then on it opens a checkpoint, and skips the attempt only if the storage refuses that. -/
def OpensFrom (deadline : Nat) (s : Session α InMemory) (label count : UInt64) (time : Nat) : Prop :=
  ∃ base, s.base = some base ∧
    let directory := base.join (toString s.ordinal)
    let t := s.start label count
    if time < deadline then
      t.storage = s.storage ∧ t.attempt = some ⟨directory, 0, true⟩
    else
      let (opened, storage) := Session.openCheckpoint s.storage directory ⟨label, count⟩
      t.storage = storage ∧ t.attempt = some ⟨directory, 0, !opened⟩

theorem Paced.opensFrom (h : Paced origin calls) (steady : origin.clock.Steady) {label count : UInt64}
    {time : Nat} (reading : (Call.start label count).reading? (after origin calls) = some time) :
    ∃ r, (renewals origin calls).getLast? = some r ∧
      OpensFrom (r + origin.settings.interval) (after origin calls) label count time := by
  have interval := h.interval
  have settings := h.settings
  have le (enabled : (after origin calls).enabled = true) := h.le_reading steady (interval enabled) reading
  change (after origin calls).timeRead? ((after origin calls).start label count) = some time at reading
  unfold OpensFrom
  generalize after origin calls = s at interval settings le reading ⊢
  have done := s.started label count
  generalize s.start label count = t at reading done ⊢
  obtain ⟨moved, read⟩ := Session.timeRead?_eq_some_iff.1 reading
  cases done with
  | idle => exact absurd rfl moved
  | failed none => cases none.symm.trans read
  | early enabled held read' early =>
    cases read'.symm.trans read
    have := le enabled
    rw [settings] at early
    refine ⟨s.intervalStart, interval enabled, _, held, ?_⟩
    dsimp only
    rw [if_pos (by omega)]
    exact ⟨rfl, rfl⟩
  | due enabled held read' late opened =>
    cases read'.symm.trans read
    have := le enabled
    rw [settings] at late
    refine ⟨s.intervalStart, interval enabled, _, held, ?_⟩
    dsimp only
    rw [if_neg (by omega), opened]
    exact ⟨rfl, rfl⟩

/-- In every run, checkpoints are written by attempts that began at least an interval after the last
renewal before them; attempts that wrote nothing do not move the time from which one is opened; and
once the clock has failed none is written until a setup has enabled the session again. -/
theorem interval_between_checkpoints (settings : Settings) (storage : InMemory) {clock : Clock}
    (steady : clock.Steady) (calls : List (Call α)) :
    let origin : Session α InMemory := .new settings storage clock
    let s := after origin calls
    (s.finish.1 = true → BegunInTime origin calls) ∧
    (∀ label count time, (Call.start label count).reading? s = some time →
      ∃ r, (renewals origin calls).getLast? = some r ∧
        OpensFrom (r + settings.interval) s label count time) ∧
    ∀ front c back, calls = front ++ c :: back →
      (c = .setup ∨ (∃ label count, c = .start label count) ∨ c = .finish) →
      (after origin front).ClockFails (c.perform (after origin front)) → s.finish.1 = true →
      ∃ between rest, back = between ++ .setup :: rest ∧
        (after origin (front ++ c :: between ++ [.setup])).enabled = true := by
  intro origin s
  have held : Paced origin calls := paced settings storage steady calls
  refine ⟨fun written => ?_, fun label count time reading => held.opensFrom steady reading, ?_⟩
  · obtain ⟨-, a, there, live⟩ := attempt_of_finish written
    exact held.attempt a there live
  · rintro front c back rfl kind fails written
    have disabled : (after origin (front ++ [c])).enabled = false := by
      rw [after_concat]
      exact Call.disabled_of_clockFails kind fails
    have enabled := (attempt_of_finish written).1
    have split (l : List (Call α)) : front ++ c :: l = front ++ [c] ++ l := List.append_cons _ _ _
    change (after origin (front ++ c :: back)).enabled = true at enabled
    rw [split] at enabled
    obtain ⟨between, rest, same, found⟩ := enabled_by_setup disabled enabled
    exact ⟨between, rest, same, by rw [split]; exact found⟩

end Runs

theorem Clock.steady_ticking (epoch : UInt64) (tick : Nat) (limit : Option Nat) :
    (Clock.ticking epoch tick limit).Steady := by
  intro i j a b le ha hb
  unfold ticking at ha hb
  dsimp only at ha hb
  split at ha
  · cases ha
  · split at hb
    · cases hb
    · cases ha
      cases hb
      exact Nat.mul_le_mul_right tick le

/-- The first attempt comes too early, and does not make the second wait longer. -/
theorem interval_between_checkpoints_second :
    let origin : Session Nat InMemory := .new ⟨10, "run-"⟩ ∅ (.ticking 5 6 none)
    let calls : List (Call Nat) := [.setup, .start 7 0, .finish, .start 7 0]
    (after origin [.setup, .start 7 0]).finish.1 = false ∧ (after origin calls).finish.1 = true ∧
      BegunInTime origin calls := by
  intro origin calls
  have written : (after origin calls).finish.1 = true := by decide +kernel
  exact ⟨by decide +kernel, written,
    (interval_between_checkpoints _ _ (Clock.steady_ticking 5 6 none) calls).1 written⟩

end CheckpointRestart
