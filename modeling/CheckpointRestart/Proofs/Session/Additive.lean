import CheckpointRestart.Proofs.Session.Restoring

/-! # Sessions only add to their storage

Writing a file replaces what it held. Sessions never come to do that, in whatever order their calls
come and whatever fails: files go only to directories that the session has created itself, each to a
name of its own. What one call can do is said once; all invariants follow from that.
-/

namespace CheckpointRestart

variable {α σ : Type} [DecidableEq α] [Storage σ]

/-- One call to a session. -/
inductive Call (α : Type) where
  | setup
  | start (label count : UInt64)
  | save (x : Save α)
  | finish
  | restartLabel
  | restore (x : Restore α)
  | restartFinish

namespace Call

/-- The session after a call. -/
def perform (s : Session α σ) : Call α → Session α σ
  | setup => s.setup
  | start label count => s.start label count
  | save x => x.perform s
  | finish => s.finish.2
  | restartLabel => s.restartLabel.2
  | restore x => (x.perform s).2
  | restartFinish => s.restartFinish

/-- The changes that a call makes in the storage, in their order. -/
def changes (s : Session α σ) (c : Call α) : List Change :=
  (c.perform { s with storage := Journaled.start s.storage }).storage.changes

end Call

/-! ## What a call can do -/

/-- The changes of a call, with what becomes of the run and of the attempt. An attempt that has been
skipped is of no interest. -/
inductive Effect (s t : Session α σ) : Call α → List Change → Prop
  | quiet {c : Call α} : t.base = s.base →
    (∀ a, t.attempt = some a → a.skipped = false → s.attempt = some a) → Effect s t c []
  | run {c : Call α} {epoch : UInt64} : t.base = some ⟨runName s.settings.stem epoch⟩ →
    t.attempt = s.attempt → Effect s t c [.directory ⟨runName s.settings.stem epoch⟩]
  | skipped {c : Call α} {base : Path} : s.base = some base → t.base = s.base →
    (∀ a, t.attempt = some a → a.skipped = true) →
    Effect s t c [.directory (checkpointPath base s.ordinal)]
  | opened {base : Path} {i : Info} : s.base = some base → t.base = s.base →
    t.attempt = some ⟨checkpointPath base s.ordinal, 0, false⟩ →
    Effect s t (.start i.label i.count) [.directory (checkpointPath base s.ordinal),
      .file (infoPath (checkpointPath base s.ordinal)) i.encode]
  | entry {c : Call α} {a : Attempt} {e : Entry} : s.attempt = some a → a.skipped = false →
    t.base = s.base → t.attempt = some { a with written := a.written + 1 } →
    Effect s t c [.file (entryPath a.directory a.written) e.encode]

section Effects

variable {s : Session α (Journaled σ)}

/-- A session with a journal has made these changes in a call. -/
def MadeBy (s t : Session α (Journaled σ)) (c : Call α) : Prop :=
  t.settings = s.settings ∧ ∃ made, t.storage.changes = s.storage.changes ++ made ∧ Effect s t c made

omit [DecidableEq α] [Storage σ] in
theorem MadeBy.quiet {t : Session α (Journaled σ)} {c : Call α} (settings : t.settings = s.settings)
    (storage : t.storage = s.storage) (base : t.base = s.base)
    (attempt : ∀ a, t.attempt = some a → a.skipped = false → s.attempt = some a) : MadeBy s t c :=
  ⟨settings, [], by rw [storage, List.append_nil], .quiet base attempt⟩

omit [DecidableEq α] in
theorem madeBy_setup (c : Call α) : MadeBy s s.setup c := by
  unfold Session.setup
  dsimp only
  cases s.clock.readEpoch.1 with
  | none => exact .quiet rfl rfl rfl fun a ha _ => ha
  | some epoch =>
    cases s.clock.readEpoch.2.readTime.1 with
    | none => exact .quiet rfl rfl rfl fun a ha _ => ha
    | some time =>
      dsimp only
      split
      · exact .quiet rfl rfl rfl fun a ha _ => ha
      · next made =>
        exact ⟨rfl, _, (Journaled.make_eq_ok made).2, .run rfl rfl⟩

omit [DecidableEq α] in
theorem madeBy_start (label count : UInt64) : MadeBy s (s.start label count) (.start label count) := by
  obtain ⟨settings, journaled, clock, enabled, base, ordinal, _, attempt, restart, stats⟩ := s
  unfold Session.start Session.readTime
  dsimp only
  cases enabled with
  | false => exact .quiet rfl rfl rfl fun a ha _ => ha
  | true =>
    cases base with
    | none => exact .quiet rfl rfl rfl fun a ha _ => ha
    | some base =>
      dsimp only
      cases clock.readTime.1 with
      | none => exact .quiet rfl rfl rfl fun a ha _ => ha
      | some time =>
        dsimp only
        split
        · refine .quiet rfl rfl rfl ?_
          rintro a ⟨⟩ ⟨⟩
        · unfold Session.openCheckpoint
          cases made : Storage.createDirectory (base.join (toString ordinal)) journaled with
          | error fault =>
            refine .quiet rfl rfl rfl ?_
            rintro a ⟨⟩ ⟨⟩
          | ok opened =>
            have first := (Journaled.make_eq_ok made).2
            dsimp only
            cases made : Storage.write (infoPath (base.join (toString ordinal)))
                (Info.encode ⟨label, count⟩) opened with
            | error fault =>
              refine ⟨rfl, _, first, .skipped rfl rfl ?_⟩
              rintro a ⟨⟩
              rfl
            | ok filled =>
              have second := (Journaled.make_eq_ok made).2
              refine ⟨rfl, _, ?_, .opened (i := ⟨label, count⟩) rfl rfl rfl⟩
              dsimp only
              rw [second, first, List.append_assoc]
              rfl

omit [DecidableEq α] in
theorem madeBy_saveEntry (c : Call α) (entry : Option Entry) : MadeBy s (s.saveEntry entry) c := by
  have skip : MadeBy s s.skipAttempt c := by
    refine .quiet rfl rfl rfl ?_
    intro a ha live
    obtain ⟨a, -, rfl⟩ := Option.map_eq_some_iff.mp ha
    cases live
  unfold Session.saveEntry
  cases active : s.activeAttempt? with
  | none => exact .quiet rfl rfl rfl fun a ha _ => ha
  | some a =>
    cases entry with
    | none => exact skip
    | some entry =>
      dsimp only
      split
      · exact skip
      · next made =>
        obtain ⟨-, held, live⟩ : s.enabled = true ∧ s.attempt = some a ∧ a.skipped = false := by
          simpa [Session.activeAttempt?] using active
        exact ⟨rfl, _, (Journaled.make_eq_ok made).2, .entry held live rfl rfl⟩

theorem madeBy_perform (c : Call α) : MadeBy s (c.perform s) c := by
  cases c with
  | setup => exact madeBy_setup _
  | start label count => exact madeBy_start label count
  | save x =>
    change MadeBy s (x.perform s) _
    rw [Save.perform_eq]
    exact madeBy_saveEntry _ _
  | finish =>
    change MadeBy s s.finish.2 _
    unfold Session.finish Session.readTime
    split
    · dsimp only
      split
      · exact .quiet rfl rfl rfl nofun
      · split
        · next same =>
          obtain ⟨-, rfl⟩ := Prod.mk.inj same
          exact .quiet rfl rfl rfl nofun
        · next same =>
          obtain ⟨-, rfl⟩ := Prod.mk.inj same
          exact .quiet rfl rfl rfl nofun
    · exact .quiet rfl rfl rfl fun a ha _ => ha
  | restartLabel =>
    change MadeBy s s.restartLabel.2 _
    unfold Session.restartLabel
    split <;> exact .quiet rfl rfl rfl fun a ha _ => ha
  | restore x =>
    change MadeBy s (x.perform s).2 _
    rcases x.perform_cases s with ⟨e, run⟩ | ⟨r, address, run⟩
    · rw [run]
      exact .quiet rfl rfl rfl fun a ha _ => ha
    · rw [run]
      exact .quiet rfl rfl rfl fun a ha _ => ha
  | restartFinish =>
    change MadeBy s s.restartFinish _
    unfold Session.restartFinish Session.readTime
    dsimp only
    split
    · next same =>
      obtain ⟨-, rfl⟩ := Prod.mk.inj same
      exact .quiet rfl rfl rfl fun a ha _ => ha
    · next same =>
      obtain ⟨-, rfl⟩ := Prod.mk.inj same
      exact .quiet rfl rfl rfl fun a ha _ => ha

end Effects

/-! ## With and without a journal -/

namespace Journaled

variable (storage : Journaled σ) (checkpoint : Path)

theorem validateEntries_eq (remaining index : Nat) :
    validateEntries storage checkpoint remaining index =
      validateEntries storage.storage checkpoint remaining index := by
  induction remaining generalizing index with
  | zero => rfl
  | succ remaining ih =>
    rw [validateEntries, validateEntries, ih]
    rfl

theorem validateCheckpoint_eq :
    validateCheckpoint storage checkpoint = validateCheckpoint storage.storage checkpoint := by
  unfold validateCheckpoint
  simp only [validateEntries_eq]
  rfl

theorem newestValid_eq (directories : List Path) :
    Session.newestValid storage directories = Session.newestValid storage.storage directories := by
  induction directories with
  | nil => rfl
  | cons d rest ih => rw [Session.newestValid, Session.newestValid, validateCheckpoint_eq, ih]

end Journaled

namespace Shadows

variable {storage : σ} {s : Session α (Journaled σ)} {s' : Session α σ}

omit [DecidableEq α] in
theorem restore (h : Shadows storage s s') (x : Restore α) :
    (x.perform s').2 = { (x.perform s).2 with storage := (x.perform s).2.storage.storage } := by
  obtain ⟨rfl, -⟩ := h
  cases x with
  | pointer width count address dest =>
    have next : Session.nextEntry { s with storage := s.storage.storage } width count =
        s.nextEntry width count := rfl
    rw [Restore.perform, Restore.perform, Session.perform_readPointer, Session.perform_readPointer, next]
    cases s.nextEntry width count with
    | error fault => rfl
    | ok found =>
      obtain ⟨r, body⟩ := found
      cases body with
      | sameAs target => rfl
      | data payload =>
        dsimp only
        by_cases small : dest.length < payload.length
        · rw [if_pos small, if_pos small]
        · rw [if_neg small, if_neg small]
          cases restorePayload dest payload (width * count).toNat <;> rfl
  | reference width count =>
    have next : Session.nextEntry { s with storage := s.storage.storage } width count =
        s.nextEntry width count := rfl
    rw [Restore.perform, Restore.perform, Session.perform_readAlias, Session.perform_readAlias, next]
    cases s.nextEntry width count with
    | error fault => rfl
    | ok found =>
      obtain ⟨r, body⟩ := found
      cases body with
      | data payload => rfl
      | sameAs target =>
        dsimp only
        cases r.addresses[target.toNat]? <;> rfl

theorem call (h : Shadows storage s s') (c : Call α) :
    Shadows storage (c.perform s) (c.perform s') := by
  cases c with
  | setup => exact h.setup
  | start label count => exact h.start label count
  | save x =>
    change Shadows storage (x.perform s) (x.perform s')
    rw [Save.perform_eq, Save.perform_eq]
    exact h.saveEntry x.record?
  | finish => exact h.finish
  | restartLabel =>
    obtain ⟨rfl, replay⟩ := h
    change Shadows storage s.restartLabel.2 (Session.restartLabel _).2
    unfold Session.restartLabel
    have found : Session.newestValid s.storage (checkpoints s.storage s.settings.stem) =
        Session.newestValid s.storage.storage (checkpoints s.storage.storage s.settings.stem) :=
      Journaled.newestValid_eq _ _
    dsimp only
    rw [found]
    cases Session.newestValid s.storage.storage (checkpoints s.storage.storage s.settings.stem) <;>
      exact ⟨rfl, replay⟩
  | restore x =>
    refine ⟨h.restore x, ?_⟩
    change CutOff storage (x.perform s).2.storage.changes (x.perform s).2.storage.changes
      (x.perform s).2.storage.storage
    rcases x.perform_cases s with ⟨e, run⟩ | ⟨r, address, run⟩
    · rw [run]
      exact h.replay
    · rw [run]
      exact h.replay
  | restartFinish =>
    obtain ⟨rfl, replay⟩ := h
    change Shadows storage s.restartFinish (Session.restartFinish _)
    unfold Session.restartFinish Session.readTime
    dsimp only
    cases s.clock.readTime.1 <;> exact ⟨rfl, replay⟩

end Shadows

section Changes

variable (s : Session α σ) (c : Call α)

theorem shadows_perform :
    Shadows s.storage (c.perform { s with storage := Journaled.start s.storage }) (c.perform s) :=
  Shadows.call ⟨rfl, .stop⟩ c

/-- Making its changes one after the other is all that a call does to the storage. -/
theorem cutOff_changes : CutOff s.storage (c.changes s) (c.changes s) (c.perform s).storage := by
  have h := shadows_perform s c
  rw [h.same]
  exact h.replay

theorem settings_perform : (c.perform s).settings = s.settings := by
  rw [(shadows_perform s c).same]
  exact (madeBy_perform c).1

theorem effect_perform : Effect s (c.perform s) c (c.changes s) := by
  obtain ⟨-, made, changes, effect⟩ :=
    madeBy_perform (s := { s with storage := Journaled.start s.storage }) c
  have same : c.changes s = made := changes
  rw [same, (shadows_perform s c).same]
  cases effect with
  | quiet base attempt => exact .quiet base attempt
  | run base attempt => exact .run base attempt
  | skipped held base attempt => exact .skipped held base attempt
  | opened held base attempt => exact .opened held base attempt
  | entry held live base attempt => exact .entry held live base attempt

end Changes

/-! ## Where runs lie -/

theorem open_runName (stem : String) (epoch : UInt64) : Path.Open ⟨runName stem epoch⟩ := by
  refine ⟨append_toString_ne_empty stem _, fun last => ?_⟩
  have filled : (toString epoch.toNat).toList ≠ [] := by
    rw [toList_toString]
    exact Nat.toDigits_ne_nil
  rw [runName, String.toList_append, List.getLast?_append, List.getLast?_eq_some_getLast filled] at last
  refine not_mem_toString (c := '/') rfl epoch.toNat ?_
  rw [← Option.some.inj last]
  exact List.getLast_mem filled

/-- How deep the directories of runs lie. -/
def runDepth (stem : String) : Nat :=
  (⟨runName stem 0⟩ : Path).components.length

theorem length_components_runName (stem : String) (epoch : UInt64) :
    (⟨runName stem epoch⟩ : Path).components.length = runDepth stem := by
  obtain ⟨front, last, split⟩ := Path.pieces_append_plain stem.toList
  have raw (n : Nat) : Path.rawPieces ⟨stem ++ toString n⟩ =
      front.map String.ofList ++ [String.ofList last ++ toString n] := by
    rw [Path.rawPieces, String.toList_append, split _ (not_mem_toString rfl n), List.map_append,
      List.map_singleton, String.ofList_append, String.ofList_toList]
  -- the last piece is a component
  have length (n : Nat) : (⟨stem ++ toString n⟩ : Path).components.length =
      if front = [] then 1
      else ((front.map String.ofList).tail.filter fun s => s ≠ "" ∧ s ≠ ".").length + 2 := by
    have filled := append_toString_ne_empty stem n
    have kept := append_toString_ne_empty (.ofList last) n
    have kept' := append_toString_ne_dot (.ofList last) n
    rw [Path.components, raw]
    generalize stem ++ toString n = text at filled
    generalize String.ofList last ++ toString n = name at kept kept'
    cases front <;> simp [filled, kept, kept']
  exact (length epoch.toNat).trans (length _).symm

theorem components_checkpointPath_of_open {base : Path} (h : base.Open) (i : Nat) :
    (checkpointPath base i).components = base.components ++ [toString i] :=
  Path.components_join h (isName_toString i)

/-! ## What holds between calls -/

section Invariant

variable {origin : Session α InMemory} {calls : List (Call α)} {c : Call α} {key : List String}

def after (origin : Session α InMemory) (calls : List (Call α)) : Session α InMemory :=
  calls.foldl Call.perform origin

theorem after_concat (origin : Session α InMemory) (calls : List (Call α)) (c : Call α) :
    after origin (calls ++ [c]) = c.perform (after origin calls) := by
  simp [after]

/-- One of the calls is a start that has created the directory under a key. -/
def CreatedByStart (origin : Session α InMemory) (calls : List (Call α)) (key : List String) : Prop :=
  ∃ front label count p, front ++ [.start label count] <+: calls ∧
    .directory p ∈ (Call.start label count).changes (after origin front) ∧ p.components = key

theorem CreatedByStart.concat (h : CreatedByStart origin calls key) (c : Call α) :
    CreatedByStart origin (calls ++ [c]) key := by
  obtain ⟨front, label, count, p, before, made, same⟩ := h
  exact ⟨front, label, count, p, before.trans (List.prefix_append _ _), made, same⟩

/-- An attempt that entries may still go to: its directory is one of the session, and the names of
the entries to come are free. -/
structure Writable (origin : Session α InMemory) (calls : List (Call α)) (a : Attempt) : Prop where
  isOpen : a.directory.Open
  length : a.directory.components.length = runDepth (after origin calls).settings.stem + 1
  created : CreatedByStart origin calls a.directory.components
  present : a.directory.components ∈ (after origin calls).storage.directories
  free : ∀ j, a.written ≤ j → a.directory.components ++ [toString j] ∉ (after origin calls).storage.files

theorem Writable.concat {a a' : Attempt} (h : Writable origin calls a)
    (same : a'.directory = a.directory) (later : a.written ≤ a'.written)
    (others : ∀ j p contents, a'.written ≤ j → .file p contents ∈ c.changes (after origin calls) →
      p.components ≠ a.directory.components ++ [toString j]) : Writable origin (calls ++ [c]) a' := by
  have cut := cutOff_changes (after origin calls) c
  constructor
  · exact same ▸ h.isOpen
  · rw [same, after_concat, settings_perform, h.length]
  · exact same ▸ h.created.concat c
  · rw [same, after_concat]
    exact cut.mem_directories_iff.2 (.inl h.present)
  · intro j hj
    rw [same, after_concat, cut.mem_files_iff]
    rintro (mem | ⟨p, contents, mem, place⟩)
    · exact h.free j (later.trans hj) mem
    · exact others j p contents hj mem place

/-- What holds between calls. -/
structure Tidy (origin : Session α InMemory) (calls : List (Call α)) : Prop where
  arises : (after origin calls).storage.Arises
  base : ∀ b, (after origin calls).base = some b →
    b.Open ∧ b.components.length = runDepth (after origin calls).settings.stem
  attempt : ∀ a, (after origin calls).attempt = some a → a.skipped = false → Writable origin calls a

theorem tidy_new {storage : InMemory} (arises : storage.Arises) (settings : Settings) (clock : Clock) :
    Tidy (Session.new settings storage clock : Session α InMemory) [] :=
  ⟨arises, nofun, nofun⟩

namespace Tidy

variable (h : Tidy origin calls)

include h

theorem checkpointPath {b : Path} (held : (after origin calls).base = some b) (i : Nat) :
    (checkpointPath b i).Open ∧ (checkpointPath b i).components.length =
      runDepth (after origin calls).settings.stem + 1 := by
  obtain ⟨isOpen, length⟩ := h.base b held
  refine ⟨Path.open_join isOpen (isName_toString i), ?_⟩
  rw [components_checkpointPath_of_open isOpen, List.length_append, length]
  rfl

theorem of_directory {p : Path} (mem : .directory p ∈ c.changes (after origin calls)) :
    p.components ∉ (after origin calls).storage.directories ∧
      (p.components.length = runDepth (after origin calls).settings.stem ∨
        p.components.length = runDepth (after origin calls).settings.stem + 1) := by
  have cut := cutOff_changes (after origin calls) c
  have effect := effect_perform (after origin calls) c
  -- a directory is always the first change
  have fresh {q : Path} {rest : List Change} (first : c.changes (after origin calls) = .directory q :: rest) :
      q.components ∉ (after origin calls).storage.directories := by
    rw [first] at cut
    cases cut with
    | next made _ =>
      intro present
      have free := (InMemory.createDirectory_eq_ok made).1
      rw [InMemory.contains, Std.ExtTreeSet.contains_iff_mem.mpr present] at free
      cases free
  generalize made : c.changes (after origin calls) = changes at effect mem
  cases effect with
  | quiet => cases mem
  | @run _ epoch =>
    cases List.mem_singleton.mp mem
    exact ⟨fresh made, .inl (length_components_runName _ epoch)⟩
  | skipped held =>
    cases List.mem_singleton.mp mem
    exact ⟨fresh made, .inr (h.checkpointPath held _).2⟩
  | opened held =>
    rcases List.mem_cons.mp mem with e | mem
    · cases e
      exact ⟨fresh made, .inr (h.checkpointPath held _).2⟩
    · cases List.mem_singleton.mp mem
  | entry => cases List.mem_singleton.mp mem

theorem of_file {p : Path} {contents : Bytes} (mem : .file p contents ∈ c.changes (after origin calls)) :
    p.components ∉ (after origin calls).storage.files ∧
      ∃ directory name, p.components = directory ++ [name] ∧
        directory.length = runDepth (after origin calls).settings.stem + 1 ∧
        CreatedByStart origin (calls ++ [c]) directory ∧
        (directory ∉ (after origin calls).storage.directories ∨ ∃ a,
          (after origin calls).attempt = some a ∧ a.skipped = false ∧ a.directory.components = directory) := by
  have effect := effect_perform (after origin calls) c
  generalize made : c.changes (after origin calls) = changes at effect mem
  cases effect with
  | quiet => cases mem
  | run => cases List.mem_singleton.mp mem
  | skipped => cases List.mem_singleton.mp mem
  | opened held =>
    rcases List.mem_cons.mp mem with e | mem
    · cases e
    cases List.mem_singleton.mp mem
    obtain ⟨isOpen, length⟩ := h.checkpointPath held (after origin calls).ordinal
    have created : Change.directory _ ∈ Call.changes (after origin calls) _ := made ▸ List.mem_cons_self
    have fresh := (h.of_directory created).1
    have place := Path.components_join isOpen isName_info
    refine ⟨?_, _, _, place, length, ⟨calls, _, _, _, List.prefix_rfl, created, rfl⟩, .inl fresh⟩
    rw [infoPath, place]
    exact (h.arises.rooted.not_mem_below fresh (fun e => by simp [e] at length) (by simp)).2
  | @entry _ a e held live =>
    cases List.mem_singleton.mp mem
    have writable := h.attempt a held live
    have place := Path.components_join writable.isOpen (isName_toString a.written)
    refine ⟨?_, _, _, place, writable.length, writable.created.concat c, .inr ⟨a, held, live, rfl⟩⟩
    rw [entryPath, place]
    exact writable.free a.written (Nat.le_refl _)

theorem bytes?_perform {contents : Bytes} (held : (after origin calls).storage.bytes? key = some contents) :
    (c.perform (after origin calls)).storage.bytes? key = some contents := by
  rw [← held]
  refine (cutOff_changes (after origin calls) c).bytes?_of_not_mem fun p bytes mem same => ?_
  have fresh := (h.of_file mem).1
  rw [← same] at fresh
  rw [InMemory.bytes?, Std.ExtTreeMap.getElem?_eq_none fresh] at held
  cases held

theorem writable_opened {a : Attempt} {b : Path} {info : Info} {i : Nat}
    (held : (after origin calls).base = some b) (made : Call.changes (after origin calls) c =
      [.directory (CheckpointRestart.checkpointPath b i),
        .file (infoPath (CheckpointRestart.checkpointPath b i)) info.encode])
    (isStart : c = .start info.label info.count)
    (same : a.directory = CheckpointRestart.checkpointPath b i) : Writable origin (calls ++ [c]) a := by
  have cut := cutOff_changes (after origin calls) c
  obtain ⟨isOpen, length⟩ := h.checkpointPath held i
  have created : Change.directory (CheckpointRestart.checkpointPath b i) ∈ c.changes (after origin calls) :=
    made ▸ List.mem_cons_self
  constructor
  · exact same ▸ isOpen
  · rw [same, after_concat, settings_perform, length]
  · subst isStart
    exact ⟨calls, _, _, _, List.prefix_rfl, created, by rw [same]⟩
  · rw [same, after_concat]
    exact cut.mem_directories_iff.2 (.inr ⟨_, created, rfl⟩)
  · intro j _
    have fresh := (h.of_directory created).1
    rw [same, after_concat, cut.mem_files_iff, made]
    rintro (mem | ⟨p, contents, mem, place⟩)
    · exact (h.arises.rooted.not_mem_below fresh (fun e => by simp [e] at length) (by simp)).2 mem
    · rcases List.mem_cons.mp mem with e | mem
      · cases e
      · cases List.mem_singleton.mp mem
        rw [infoPath, Path.components_join isOpen isName_info] at place
        exact toString_ne_info j (List.singleton_inj.mp (List.append_cancel_left place)).symm

theorem concat (c : Call α) : Tidy origin (calls ++ [c]) := by
  have cut := cutOff_changes (after origin calls) c
  have effect := effect_perform (after origin calls) c
  have settings := settings_perform (after origin calls) c
  generalize made : c.changes (after origin calls) = changes at effect
  refine ⟨?_, ?_, ?_⟩
  · rw [after_concat]
    exact cut.arises h.arises
  · rw [after_concat, settings]
    cases effect with
    | quiet base | skipped _ base | opened _ base | entry _ _ base =>
      rw [base]
      exact h.base
    | @run _ epoch base =>
      rw [base]
      rintro b ⟨⟩
      exact ⟨open_runName _ epoch, length_components_runName _ epoch⟩
  · rw [after_concat]
    intro a ha live
    cases effect with
    | quiet base attempt =>
      refine (h.attempt a (attempt a ha live) live).concat rfl (Nat.le_refl _) ?_
      rw [made]
      nofun
    | run base attempt =>
      rw [attempt] at ha
      refine (h.attempt a ha live).concat rfl (Nat.le_refl _) ?_
      intro j p contents _ mem
      rw [made] at mem
      cases List.mem_singleton.mp mem
    | skipped held base attempt =>
      rw [attempt a ha] at live
      cases live
    | opened held base attempt =>
      rw [attempt] at ha
      cases ha
      exact h.writable_opened held made rfl rfl
    | @entry _ a' e held live' base attempt =>
      rw [attempt] at ha
      cases ha
      have writable := h.attempt a' held live'
      refine writable.concat rfl (Nat.le_succ _) ?_
      intro j p contents hj mem place
      rw [made] at mem
      cases List.mem_singleton.mp mem
      rw [entryPath, Path.components_join writable.isOpen (isName_toString _)] at place
      have same := toString_injective (List.singleton_inj.mp (List.append_cancel_left place))
      have : a'.written + 1 ≤ j := hj
      omega

theorem append (more : List (Call α)) : Tidy origin (calls ++ more) := by
  induction more generalizing calls with
  | nil => rwa [List.append_nil]
  | cons c more ih =>
    rw [List.append_cons]
    exact ih (h.concat c)

end Tidy

/-! ## Finished checkpoints -/

/-- A directory of a checkpoint that no attempt writes to any more. -/
structure Sealed (origin : Session α InMemory) (calls : List (Call α)) (key : List String) : Prop where
  length : key.length = runDepth (after origin calls).settings.stem + 1
  present : key ∈ (after origin calls).storage.directories
  idle : ∀ a, (after origin calls).attempt = some a → a.skipped = false → a.directory.components ≠ key

theorem Sealed.concat (h : Sealed origin calls key) (tidy : Tidy origin calls) (c : Call α) :
    Sealed origin (calls ++ [c]) key := by
  refine ⟨?_, ?_, ?_⟩
  · rw [after_concat, settings_perform, h.length]
  · rw [after_concat]
    exact (cutOff_changes (after origin calls) c).mem_directories_iff.mpr (.inl h.present)
  · rw [after_concat]
    intro a ha live
    have effect := effect_perform (after origin calls) c
    generalize made : c.changes (after origin calls) = changes at effect
    cases effect with
    | quiet base attempt => exact h.idle a (attempt a ha live) live
    | run base attempt => exact h.idle a (attempt ▸ ha) live
    | skipped held base attempt =>
      rw [attempt a ha] at live
      cases live
    | opened held base attempt =>
      rw [attempt] at ha
      cases ha
      rintro rfl
      exact (tidy.of_directory (made ▸ List.mem_cons_self)).1 h.present
    | @entry _ a' e held live' base attempt =>
      rw [attempt] at ha
      cases ha
      exact h.idle a' held live'

/-- Nothing changes below the directory of a finished checkpoint. -/
theorem Sealed.below (h : Sealed origin calls key) (tidy : Tidy origin calls) (c : Call α)
    (below : List String) :
    (key ++ below ∈ (after origin (calls ++ [c])).storage.directories ↔
        key ++ below ∈ (after origin calls).storage.directories) ∧
      (after origin (calls ++ [c])).storage.bytes? (key ++ below) =
        (after origin calls).storage.bytes? (key ++ below) := by
  have cut := cutOff_changes (after origin calls) c
  rw [after_concat]
  constructor
  · rw [cut.mem_directories_iff]
    refine ⟨fun mem => mem.resolve_right ?_, .inl⟩
    rintro ⟨p, mem, place⟩
    obtain ⟨fresh, length⟩ := tidy.of_directory mem
    have length' := congrArg List.length place
    rw [List.length_append, h.length] at length'
    obtain rfl : below = [] := List.eq_nil_of_length_eq_zero (by omega)
    rw [place, List.append_nil] at fresh
    exact fresh h.present
  · refine cut.bytes?_of_not_mem fun p contents mem place => ?_
    obtain ⟨-, directory, name, place', length, -, own⟩ := tidy.of_file mem
    rw [place'] at place
    obtain rfl : key = directory :=
      (List.append_inj place (h.length.trans length.symm)).1
    rcases own with fresh | ⟨a, held, live, same⟩
    · exact fresh h.present
    · exact h.idle a held live same

theorem Sealed.append (h : Sealed origin calls key) (tidy : Tidy origin calls) (more : List (Call α))
    (below : List String) :
    (key ++ below ∈ (after origin (calls ++ more)).storage.directories ↔
        key ++ below ∈ (after origin calls).storage.directories) ∧
      (after origin (calls ++ more)).storage.bytes? (key ++ below) =
        (after origin calls).storage.bytes? (key ++ below) := by
  induction more generalizing calls with
  | nil => rw [List.append_nil]; exact ⟨.rfl, rfl⟩
  | cons c more ih =>
    obtain ⟨directories, files⟩ := h.below tidy c below
    rw [List.append_cons, ← directories, ← files]
    exact ih (h.concat tidy c) (tidy.concat c)

omit [DecidableEq α] [Storage σ] in
theorem finish_of_written {s : Session α σ} {a : Attempt} (held : s.attempt = some a)
    (written : s.finish.1 = true) :
    a.skipped = false ∧ s.finish.2.attempt = none ∧ s.finish.2.storage = s.storage := by
  obtain ⟨settings, storage, clock, enabled, base, ordinal, _, attempt, restart, stats⟩ := s
  obtain rfl : attempt = some a := held
  unfold Session.finish Session.readTime at written ⊢
  cases enabled with
  | false => cases written
  | true =>
    dsimp only at written ⊢
    cases live : a.skipped with
    | true =>
      rw [live] at written
      cases written
    | false =>
      refine ⟨rfl, ?_⟩
      cases clock.readTime.1 <;> exact ⟨rfl, rfl⟩

theorem sealed_finish {a : Attempt} (tidy : Tidy origin calls)
    (written : (after origin calls).finish.1 = true) (held : (after origin calls).attempt = some a) :
    Sealed origin (calls ++ [.finish]) a.directory.components := by
  obtain ⟨live, idle, -⟩ := finish_of_written held written
  have writable := tidy.attempt a held live
  refine ⟨?_, ?_, ?_⟩
  · rw [after_concat, settings_perform, writable.length]
  · rw [after_concat]
    exact (cutOff_changes _ _).mem_directories_iff.mpr (.inl writable.present)
  · rw [after_concat]
    change ∀ a, (after origin calls).finish.2.attempt = some a → _
    rw [idle]
    nofun

/-- Whatever calls a session has got, one more call keeps all directories and files as they are. The
files that it writes go to directories that starts of the session have created. Nothing changes any
more below the directory of a checkpoint that was written. -/
theorem additive_perform {storage : InMemory} (arises : storage.Arises) (settings : Settings)
    (clock : Clock) (calls : List (Call α)) (c : Call α) :
    let origin : Session α InMemory := .new settings storage clock
    let s := after origin calls
    let t := c.perform s
    CutOff s.storage (c.changes s) (c.changes s) t.storage ∧
    (∀ key ∈ s.storage.directories, key ∈ t.storage.directories) ∧
    (∀ key contents, s.storage.bytes? key = some contents → t.storage.bytes? key = some contents) ∧
    (∀ p contents, .file p contents ∈ c.changes s →
      CreatedByStart origin (calls ++ [c]) p.components.dropLast) ∧
    ∀ front back a, calls = front ++ .finish :: back → (after origin front).finish.1 = true →
      (after origin front).attempt = some a → ∀ below,
        (a.directory.components ++ below ∈ t.storage.directories ↔
          a.directory.components ++ below ∈ (after origin front).storage.directories) ∧
        t.storage.bytes? (a.directory.components ++ below) =
          (after origin front).storage.bytes? (a.directory.components ++ below) := by
  intro origin s t
  have tidy (calls : List (Call α)) : Tidy origin calls := (tidy_new arises settings clock).append calls
  have cut := cutOff_changes s c
  refine ⟨cut, fun key mem => cut.mem_directories_iff.2 (.inl mem),
    fun key contents held => (tidy calls).bytes?_perform held, fun p contents mem => ?_, ?_⟩
  · obtain ⟨-, directory, name, place, -, created, -⟩ := (tidy calls).of_file mem
    rwa [place, List.dropLast_concat]
  · rintro front back a rfl written held below
    have finished := sealed_finish (tidy front) written held
    have kept := finished.append (tidy _) (back ++ [c]) below
    have storage : (after origin (front ++ [.finish])).storage = (after origin front).storage := by
      rw [after_concat]
      exact (finish_of_written held written).2.2
    have whole : after origin (front ++ [.finish] ++ (back ++ [c])) = t := by
      rw [← List.append_assoc, after_concat, List.append_assoc]
      rfl
    rwa [storage, whole] at kept

end Invariant

/-- A second checkpoint does not change the first. -/
theorem additive_perform_second :
    let origin : Session Nat InMemory := .new ⟨0, "run-"⟩ ∅ (.still 5)
    let front : List (Call Nat) := [.setup, .start 7 1, .save (.pointer 8 1 [42])]
    ((Call.start 9 0).perform (after origin (front ++ [.finish]))).storage.bytes? ["run-5", "0", "0"] =
      (after origin front).storage.bytes? ["run-5", "0", "0"] := by
  intro origin front
  have written : (after origin front).finish.1 = true := by decide +kernel
  have held : (after origin front).attempt = some ⟨⟨"run-5/0"⟩, 1, false⟩ := by decide +kernel
  have place : (⟨"run-5/0"⟩ : Path).components = ["run-5", "0"] := by decide +kernel
  have kept := ((additive_perform .empty ⟨0, "run-"⟩ (.still 5) (front ++ [.finish]) (.start 9 0)).2.2.2.2
    front [] _ rfl written held ["0"]).2
  rwa [place] at kept

end CheckpointRestart
