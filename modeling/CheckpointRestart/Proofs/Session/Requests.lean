import CheckpointRestart.Proofs.Record.Entry
import CheckpointRestart.Proofs.Record.Directory
import CheckpointRestart.Proofs.Storage.Journal
import CheckpointRestart.Session.Basic

/-! # What a session writes

A program asks its session for checkpoints, one request after the other. Whatever the clock says and
whatever fails, the changes that the session makes come in a fixed order: the directory of the run
first, and for each request the directory of the checkpoint, its info record and its entries, of
which it may leave out all behind some point.
-/

namespace CheckpointRestart

variable {α σ : Type} [Storage σ]

/-- One call that saves an entry. -/
inductive Save (α : Type) where
  | pointer (width count : UInt64) (memory : Bytes)
  | reference (width count : UInt64) (address : α) (candidates : List (Candidate α))

namespace Save

variable [DecidableEq α]

def perform (s : Session α σ) : Save α → Session α σ
  | pointer width count memory => s.savePointer width count memory
  | reference width count address candidates => s.saveAlias width count address candidates

/-- The entry to be written, if there is one. -/
def record? : Save α → Option Entry
  | pointer width count memory => (Entry.ofMemory width count memory).toOption
  | reference width count address candidates =>
    (candidates.find? (·.address = address)).map fun c => ⟨width, count, .sameAs c.index⟩

theorem perform_eq (s : Session α σ) (x : Save α) : perform s x = s.saveEntry x.record? := by
  cases x <;> rfl

/-- All candidates have entries before number `index`. -/
def Backward (index : Nat) : Save α → Prop
  | pointer _ _ _ => True
  | reference _ _ _ candidates => ∀ c ∈ candidates, c.index.toNat < index

theorem sized_of_record? {x : Save α} {e : Entry} (h : x.record? = some e) : e.Sized := by
  cases x with
  | pointer width count memory =>
    cases made : Entry.ofMemory width count memory with
    | error fault => simp [record?, made, Except.toOption] at h
    | ok e' =>
      obtain rfl : e' = e := by simpa [record?, made, Except.toOption] using h
      exact Entry.sized_ofMemory made
  | reference width count address candidates =>
    obtain ⟨c, -, rfl⟩ := Option.map_eq_some_iff.mp h
    rintro payload ⟨⟩

theorem backward_of_record? {x : Save α} {e : Entry} {index : Nat} (h : x.record? = some e)
    (back : x.Backward index) : e.Backward index := by
  rintro target sameAs
  cases x with
  | pointer width count memory =>
    cases made : Entry.ofMemory width count memory with
    | error fault => simp [record?, made, Except.toOption] at h
    | ok e' =>
      obtain rfl : e' = e := by simpa [record?, made, Except.toOption] using h
      unfold Entry.ofMemory at made
      obtain ⟨n, -, made⟩ := bind_eq_ok_iff.1 made
      change (ite _ _ _ : Except FormatError Entry) = _ at made
      split at made
      · cases made
      · cases made
        cases sameAs
  | reference width count address candidates =>
    obtain ⟨c, found, rfl⟩ := Option.map_eq_some_iff.mp h
    cases sameAs
    exact back c (List.mem_of_find?_eq_some found)

end Save

/-- A request for a checkpoint. -/
structure Request (α : Type) where
  label : UInt64
  /-- The number of entries that the info record announces. -/
  count : UInt64
  saves : List (Save α)

namespace Request

def info (r : Request α) : Info :=
  ⟨r.label, r.count⟩

def perform [DecidableEq α] (s : Session α σ) (r : Request α) : Session α σ :=
  (r.saves.foldl Save.perform (s.start r.label r.count)).finish.2

/-- Aliases refer to entries written before. -/
def Backward (r : Request α) : Prop :=
  ∀ index, ∀ x : Save α, r.saves[index]? = some x → x.Backward index

end Request

/-! ## The order of changes -/

def checkpointPath (base : Path) (ordinal : Nat) : Path :=
  base.join (toString ordinal)

/-- The changes for the request with number `i`, each with its place. -/
inductive Step [DecidableEq α] (base : Path) (requests : List (Request α)) (i : Nat) :
    Nat → Change → Prop
  | checkpoint {r : Request α} : requests[i]? = some r →
    Step base requests i 0 (.directory (checkpointPath base i))
  | info {r : Request α} : requests[i]? = some r →
    Step base requests i 1 (.file (infoPath (checkpointPath base i)) r.info.encode)
  | entry {r : Request α} {j : Nat} {x : Save α} {e : Entry} : requests[i]? = some r →
    r.saves[j]? = some x → x.record? = some e →
    Step base requests i (j + 2) (.file (entryPath (checkpointPath base i) j) e.encode)

/-- The changes made before place `n` of request `i`. -/
inductive Journal [DecidableEq α] (base : Path) (requests : List (Request α)) :
    Nat → Nat → List Change → Prop
  | start : Journal base requests 0 0 [.directory base]
  | step {i n : Nat} {changes : List Change} {c : Change} : Journal base requests i n changes →
    Step base requests i n c → Journal base requests i (n + 1) (changes ++ [c])
  | next {i n : Nat} {changes : List Change} : Journal base requests i n changes →
    Journal base requests (i + 1) 0 changes

/-! ## Sessions keep to the order -/

section Sessions

variable [DecidableEq α] {base : Path} {requests : List (Request α)} {i j : Nat} {r : Request α}
  {s : Session α (Journaled σ)}

/-- Between two requests. A session that is disabled does nothing any more. -/
structure Resting (base : Path) (requests : List (Request α)) (i : Nat)
    (s : Session α (Journaled σ)) : Prop where
  journal : Journal base requests i 0 s.storage.changes
  idle : s.enabled = true → s.base = some base ∧ s.ordinal = i ∧ s.attempt = none

/-- What an attempt at request `i` has written after `j` of its saves. -/
def AttemptProgress (base : Path) (requests : List (Request α)) (i j : Nat) (changes : List Change)
    (a : Attempt) : Prop :=
  if a.skipped then ∃ n, Journal base requests i n changes
  else a.directory = checkpointPath base i ∧ a.written = j ∧
    Journal base requests i (j + 2) changes

/-- In an attempt, after `j` saves. -/
structure Attempting (base : Path) (requests : List (Request α)) (i j : Nat)
    (s : Session α (Journaled σ)) : Prop where
  enabled : s.enabled = true
  base_eq : s.base = some base
  ordinal : s.ordinal = i
  attempt : ∃ a, s.attempt = some a ∧ AttemptProgress base requests i j s.storage.changes a

omit [Storage σ] in
theorem Attempting.skipAttempt (h : Attempting base requests i j s) :
    Attempting base requests i (j + 1) s.skipAttempt := by
  obtain ⟨a, ha, progress⟩ := h.attempt
  refine ⟨h.enabled, h.base_eq, h.ordinal, { a with skipped := true }, ?_, ?_⟩
  · simp [Session.skipAttempt, ha]
  · unfold AttemptProgress at progress ⊢
    rw [if_pos rfl]
    split at progress
    · exact progress
    · exact ⟨_, progress.2.2⟩

theorem Attempting.save {x : Save α} (h : Attempting base requests i j s)
    (hr : requests[i]? = some r) (hx : r.saves[j]? = some x) :
    Attempting base requests i (j + 1) (x.perform s) := by
  obtain ⟨a, ha, progress⟩ := h.attempt
  rw [Save.perform_eq]
  unfold Session.saveEntry
  by_cases skipped : a.skipped = true
  · have none : s.activeAttempt? = none := by
      simp [Session.activeAttempt?, h.enabled, ha, skipped]
    rw [none]
    refine ⟨h.enabled, h.base_eq, h.ordinal, a, ha, ?_⟩
    unfold AttemptProgress at progress ⊢
    rwa [if_pos skipped] at progress ⊢
  · have active : s.activeAttempt? = some a := by
      simp [Session.activeAttempt?, h.enabled, ha, skipped]
    rw [active]
    cases entry : x.record? with
    | none => exact h.skipAttempt
    | some e =>
      dsimp only
      split
      · exact h.skipAttempt
      · next t made =>
        unfold AttemptProgress at progress
        rw [if_neg skipped] at progress
        obtain ⟨directory, written, journal⟩ := progress
        refine ⟨h.enabled, h.base_eq, h.ordinal, _, rfl, ?_⟩
        unfold AttemptProgress
        rw [if_neg skipped, (Journaled.make_eq_ok made).2, directory, written]
        exact ⟨rfl, rfl, journal.step (.entry hr hx entry)⟩

theorem Attempting.saves (hr : requests[i]? = some r) (front : List (Save α)) {back : List (Save α)}
    (split : r.saves = front ++ back) (h : Attempting base requests i front.length s) :
    Attempting base requests i r.saves.length (back.foldl Save.perform s) := by
  induction back generalizing front s with
  | nil =>
    rw [split, List.append_nil]
    exact h
  | cons x back ih =>
    refine ih (front ++ [x]) (by simp [split]) ?_
    rw [List.length_append]
    exact h.save hr (by simp [split])

omit [Storage σ] in
theorem Attempting.finish (h : Attempting base requests i j s) :
    Resting base requests (i + 1) s.finish.2 := by
  obtain ⟨a, ha, progress⟩ := h.attempt
  have journal : Journal base requests (i + 1) 0 s.storage.changes := by
    unfold AttemptProgress at progress
    split at progress
    · exact progress.choose_spec.next
    · exact progress.2.2.next
  unfold Session.finish
  rw [h.enabled, ha]
  dsimp only
  split
  · exact ⟨journal, fun _ => ⟨h.base_eq, by rw [h.ordinal], rfl⟩⟩
  · unfold Session.readTime
    dsimp only
    split
    · next same =>
      obtain ⟨-, rfl⟩ := Prod.mk.inj same
      exact ⟨journal, fun _ => ⟨h.base_eq, by rw [h.ordinal], rfl⟩⟩
    · next same =>
      obtain ⟨-, rfl⟩ := Prod.mk.inj same
      exact ⟨journal, nofun⟩

theorem progress_openCheckpoint {t : Journaled σ} (journal : Journal base requests i 0 t.changes)
    (hr : requests[i]? = some r) :
    let (opened, t') := Session.openCheckpoint t (checkpointPath base i) r.info
    AttemptProgress base requests i 0 t'.changes ⟨checkpointPath base i, 0, !opened⟩ := by
  unfold Session.openCheckpoint
  cases made : Storage.createDirectory (checkpointPath base i) t with
  | error e => exact ⟨0, journal⟩
  | ok u =>
    have journal := journal.step (.checkpoint hr)
    rw [← (Journaled.make_eq_ok made).2] at journal
    cases made : Storage.write (infoPath (checkpointPath base i)) r.info.encode u with
    | error e =>
      simp only [made]
      exact ⟨1, journal⟩
    | ok w =>
      have journal := journal.step (.info hr)
      rw [← (Journaled.make_eq_ok made).2] at journal
      simp only [made]
      exact ⟨rfl, rfl, journal⟩

theorem Resting.start (h : Resting base requests i s) (hr : requests[i]? = some r)
    (enabled : s.enabled = true) :
    ((s.start r.label r.count).enabled = false ∧
        (s.start r.label r.count).storage.changes = s.storage.changes) ∨
      Attempting base requests i 0 (s.start r.label r.count) := by
  obtain ⟨base_eq, ordinal, -⟩ := h.idle enabled
  unfold Session.start
  rw [enabled, base_eq]
  unfold Session.readTime
  dsimp only
  split
  · next same =>
    obtain ⟨-, rfl⟩ := Prod.mk.inj same
    exact .inl ⟨rfl, rfl⟩
  · next time t same =>
    obtain ⟨-, rfl⟩ := Prod.mk.inj same
    split
    · refine .inr ⟨enabled, base_eq, ordinal, _, rfl, ?_⟩
      exact ⟨0, h.journal⟩
    · refine .inr ⟨enabled, base_eq, ordinal, _, rfl, ?_⟩
      rw [ordinal]
      exact progress_openCheckpoint h.journal hr

theorem foldl_perform_of_disabled (disabled : s.enabled = false) (saves : List (Save α)) :
    saves.foldl Save.perform s = s := by
  induction saves with
  | nil => rfl
  | cons x saves ih =>
    have same : x.perform s = s := by
      rw [Save.perform_eq]
      simp [Session.saveEntry, Session.activeAttempt?, disabled]
    rw [List.foldl_cons, same, ih]

theorem Resting.perform (h : Resting base requests i s) (hr : requests[i]? = some r) :
    Resting base requests (i + 1) (r.perform s) := by
  unfold Request.perform
  -- a session that is or gets disabled makes no more changes
  have idle : ∀ t : Session α (Journaled σ), t.enabled = false →
      t.storage.changes = s.storage.changes →
      Resting base requests (i + 1) (r.saves.foldl Save.perform t).finish.2 := by
    intro t disabled same
    rw [foldl_perform_of_disabled disabled]
    have finish : t.finish = (false, t) := by simp [Session.finish, disabled]
    rw [finish]
    refine ⟨?_, fun e => ?_⟩
    · rw [same]
      exact h.journal.next
    · rw [disabled] at e
      cases e
  cases enabled : s.enabled with
  | false =>
    have start : s.start r.label r.count = s := by simp [Session.start, enabled]
    rw [start]
    exact idle s enabled rfl
  | true =>
    rcases h.start hr enabled with ⟨disabled, same⟩ | attempting
    · exact idle _ disabled same
    · exact (attempting.saves hr [] rfl).finish

/-- The changes that a session makes for some requests come in their order. -/
theorem Resting.performAll (front : List (Request α)) {back : List (Request α)}
    (split : requests = front ++ back)
    (h : Resting base requests front.length s) :
    Resting base requests requests.length (back.foldl Request.perform s) := by
  induction back generalizing front s with
  | nil =>
    rw [split, List.append_nil]
    rwa [split, List.append_nil] at h
  | cons r back ih =>
    refine ih (front ++ [r]) (by simp [split]) ?_
    rw [List.length_append]
    exact h.perform (by simp [split])

theorem resting_setup (requests : List (Request α)) {settings : Settings} {storage : σ} {clock : Clock} {epoch : UInt64}
    (began : clock.readEpoch.1 = some epoch)
    (ready : (Session.new settings (.start storage) clock : Session α (Journaled σ)).setup.enabled = true) :
    (∃ t, Storage.createDirectory ⟨runName settings.stem epoch⟩ storage = .ok t) ∧
      Resting ⟨runName settings.stem epoch⟩ requests 0
        (Session.new settings (.start storage) clock : Session α (Journaled σ)).setup := by
  unfold Session.setup at ready ⊢
  dsimp only [Session.new] at ready ⊢
  rw [began] at ready ⊢
  cases time : clock.readEpoch.2.readTime.1 with
  | none =>
    rw [time] at ready
    cases ready
  | some time =>
    rw [time] at ready
    dsimp only at ready ⊢
    split at ready
    · cases ready
    · next t made =>
      obtain ⟨made, changes⟩ := Journaled.make_eq_ok made
      refine ⟨⟨_, made⟩, ?_, fun _ => ⟨rfl, rfl, rfl⟩⟩
      dsimp only
      rw [changes]
      exact .start

end Sessions

/-! ## The journal leads to the storage of the run -/

/-- A session with a journal, and one without that has done the same. -/
structure Shadows (storage : σ) (s : Session α (Journaled σ)) (s' : Session α σ) : Prop where
  same : s' = { s with storage := s.storage.storage }
  replay : CutOff storage s.storage.changes s.storage.changes s.storage.storage

namespace Shadows

variable {storage : σ} {s : Session α (Journaled σ)} {s' : Session α σ}

theorem make {t : Journaled σ} (c : Change)
    (replay : CutOff storage t.changes t.changes t.storage) :
    (∃ e, t.make c = .error e ∧ c.apply t.storage = .error e) ∨
      ∃ u, t.make c = .ok u ∧ c.apply t.storage = .ok u.storage ∧
        CutOff storage u.changes u.changes u.storage := by
  unfold Journaled.make
  cases made : c.apply t.storage with
  | error e => exact .inl ⟨e, rfl, rfl⟩
  | ok u => exact .inr ⟨⟨u, t.changes ++ [c]⟩, rfl, rfl, replay.concat made⟩

theorem setup (h : Shadows storage s s') : Shadows storage s.setup s'.setup := by
  obtain ⟨rfl, replay⟩ := h
  unfold Session.setup
  dsimp only
  cases s.clock.readEpoch.1 with
  | none => exact ⟨rfl, replay⟩
  | some epoch =>
    cases s.clock.readEpoch.2.readTime.1 with
    | none => exact ⟨rfl, replay⟩
    | some time =>
      dsimp only
      rcases make (.directory ⟨runName s.settings.stem epoch⟩) replay with
        ⟨e, journaled, plain⟩ | ⟨u, journaled, plain, replay⟩
      · rw [show Storage.createDirectory _ s.storage = _ from journaled,
          show Storage.createDirectory _ s.storage.storage = _ from plain]
        exact ⟨rfl, replay⟩
      · rw [show Storage.createDirectory _ s.storage = _ from journaled,
          show Storage.createDirectory _ s.storage.storage = _ from plain]
        exact ⟨rfl, replay⟩

theorem openCheckpoint {t : Journaled σ} (replay : CutOff storage t.changes t.changes t.storage)
    (directory : Path) (info : Info) :
    let (opened, u) := Session.openCheckpoint t directory info
    Session.openCheckpoint t.storage directory info = (opened, u.storage) ∧
      CutOff storage u.changes u.changes u.storage := by
  unfold Session.openCheckpoint
  rcases make (.directory directory) replay with ⟨e, journaled, plain⟩ | ⟨u, journaled, plain, replay⟩
  · rw [show Storage.createDirectory _ t = _ from journaled,
      show Storage.createDirectory _ t.storage = _ from plain]
    exact ⟨rfl, replay⟩
  · rw [show Storage.createDirectory _ t = _ from journaled,
      show Storage.createDirectory _ t.storage = _ from plain]
    dsimp only
    rcases make (.file (infoPath directory) info.encode) replay with
      ⟨e, journaled, plain⟩ | ⟨w, journaled, plain, replay⟩
    · rw [show Storage.write _ _ u = _ from journaled,
        show Storage.write _ _ u.storage = _ from plain]
      exact ⟨rfl, replay⟩
    · rw [show Storage.write _ _ u = _ from journaled,
        show Storage.write _ _ u.storage = _ from plain]
      exact ⟨rfl, replay⟩

theorem start (h : Shadows storage s s') (label count : UInt64) :
    Shadows storage (s.start label count) (s'.start label count) := by
  obtain ⟨rfl, replay⟩ := h
  obtain ⟨settings, journaled, clock, enabled, base, ordinal, _, attempt, restart, stats⟩ := s
  unfold Session.start Session.readTime
  dsimp only at replay ⊢
  cases enabled with
  | false => exact ⟨rfl, replay⟩
  | true =>
    cases base with
    | none => exact ⟨rfl, replay⟩
    | some base =>
      dsimp only
      cases clock.readTime.1 with
      | none => exact ⟨rfl, replay⟩
      | some time =>
        dsimp only
        split
        · exact ⟨rfl, replay⟩
        · obtain ⟨plain, replay⟩ := openCheckpoint replay (base.join (toString ordinal)) ⟨label, count⟩
          rw [plain]
          exact ⟨rfl, replay⟩

theorem saveEntry (h : Shadows storage s s') (entry : Option Entry) :
    Shadows storage (s.saveEntry entry) (s'.saveEntry entry) := by
  obtain ⟨rfl, replay⟩ := h
  unfold Session.saveEntry Session.activeAttempt?
  dsimp only
  cases (if s.enabled then s.attempt.filter (!·.skipped) else none) with
  | none => exact ⟨rfl, replay⟩
  | some a =>
    cases entry with
    | none => exact ⟨rfl, replay⟩
    | some entry =>
      dsimp only
      rcases make (.file (entryPath a.directory a.written) entry.encode) replay with
        ⟨e, journaled, plain⟩ | ⟨w, journaled, plain, replay⟩
      · rw [show Storage.write _ _ s.storage = _ from journaled,
          show Storage.write _ _ s.storage.storage = _ from plain]
        exact ⟨rfl, replay⟩
      · rw [show Storage.write _ _ s.storage = _ from journaled,
          show Storage.write _ _ s.storage.storage = _ from plain]
        exact ⟨rfl, replay⟩

theorem finish (h : Shadows storage s s') : Shadows storage s.finish.2 s'.finish.2 := by
  obtain ⟨rfl, replay⟩ := h
  obtain ⟨settings, journaled, clock, enabled, base, ordinal, _, attempt, restart, stats⟩ := s
  unfold Session.finish Session.readTime
  dsimp only at replay ⊢
  cases enabled with
  | false => exact ⟨rfl, replay⟩
  | true =>
    cases attempt with
    | none => exact ⟨rfl, replay⟩
    | some a =>
      dsimp only
      split
      · exact ⟨rfl, replay⟩
      · cases clock.readTime.1 with
        | none => exact ⟨rfl, replay⟩
        | some time => exact ⟨rfl, replay⟩

theorem perform [DecidableEq α] (h : Shadows storage s s') (r : Request α) :
    Shadows storage (r.perform s) (r.perform s') := by
  have saves : ∀ (saves : List (Save α)) {t : Session α (Journaled σ)} {t' : Session α σ},
      Shadows storage t t' →
      Shadows storage (saves.foldl Save.perform t) (saves.foldl Save.perform t') := by
    intro saves
    induction saves with
    | nil => exact id
    | cons x saves ih =>
      intro t t' h
      refine ih ?_
      rw [Save.perform_eq, Save.perform_eq]
      exact h.saveEntry x.record?
  exact (saves r.saves (h.start r.label r.count)).finish

theorem new (settings : Settings) (storage : σ) (clock : Clock) :
    Shadows (α := α) storage (Session.new settings (Journaled.start storage) clock)
      (Session.new settings storage clock) :=
  ⟨rfl, .stop⟩

end Shadows

/-- The journal of a run, made as a whole, leads to the storage that the run ends with. -/
theorem cutOff_run [DecidableEq α] (settings : Settings) (storage : σ) (clock : Clock)
    (requests : List (Request α)) :
    let journaled := requests.foldl Request.perform
      (Session.new settings (Journaled.start storage) clock).setup
    CutOff storage journaled.storage.changes journaled.storage.changes
      (requests.foldl Request.perform (Session.new settings storage clock).setup).storage := by
  have all : ∀ (requests : List (Request α)) {s : Session α (Journaled σ)} {s' : Session α σ},
      Shadows storage s s' →
      Shadows storage (requests.foldl Request.perform s) (requests.foldl Request.perform s') := by
    intro requests
    induction requests with
    | nil => exact id
    | cons r requests ih => exact fun h => ih (h.perform r)
  obtain ⟨same, replay⟩ := all requests (Shadows.new settings storage clock).setup
  dsimp only
  rw [same]
  exact replay

end CheckpointRestart
