import CheckpointRestart.Proofs.Session.CrashConsistency

/-! # The checkpoint that a restart selects

Directories are found by the numbers in their names and then looked up under the numbers as they are
written. A name with leading zeros therefore leads to a directory that was found already, or to one
that is not there. Neither makes a difference to what is selected: the newest valid checkpoint.
-/

namespace CheckpointRestart

/-- The time at which the run of a checkpoint began, and the place of the checkpoint in the run. -/
structure Stamp where
  epoch : UInt64
  ordinal : UInt64
  deriving DecidableEq, Repr

namespace Stamp

/-- An earlier run is older, and within a run a smaller ordinal. -/
def Older (x y : Stamp) : Prop :=
  x.epoch < y.epoch ∨ (x.epoch = y.epoch ∧ x.ordinal < y.ordinal)

/-- Where the checkpoint is, with both numbers written without leading zeros. -/
def path (stem : String) (x : Stamp) : Path :=
  checkpointPath ⟨runName stem x.epoch⟩ x.ordinal.toNat

/-- There is a directory for the checkpoint. -/
def Present (storage : InMemory) (stem : String) (x : Stamp) : Prop :=
  (x.path stem).components ∈ storage.directories

/-- The checkpoint is there and passes validation, with the info record `info`. -/
def Valid (storage : InMemory) (stem : String) (x : Stamp) (info : Info) : Prop :=
  x.Present storage stem ∧ validateCheckpoint storage (x.path stem) = .ok info

variable {x y : Stamp} {stem : String}

theorem older_or_eq (h : ¬ x.Older y) : y = x ∨ y.Older x := by
  obtain ⟨e, o⟩ := x
  obtain ⟨e', o'⟩ := y
  simp only [Older, not_or, not_and, UInt64.lt_iff_toNat_lt, Stamp.mk.injEq, ← UInt64.toNat_inj] at h ⊢
  omega

theorem components_path (plain : '/' ∉ stem.toList) (x : Stamp) :
    (x.path stem).components = [runName stem x.epoch, toString x.ordinal.toNat] :=
  components_checkpointPath (isName_runName plain x.epoch) x.ordinal.toNat

theorem path_injective (plain : '/' ∉ stem.toList) (h : x.path stem = y.path stem) : x = y := by
  have same := congrArg Path.components h
  rw [components_path plain, components_path plain] at same
  obtain ⟨run, rest⟩ := List.cons.inj same
  have epoch : x.epoch = y.epoch := runName_injective run
  have ordinal : x.ordinal = y.ordinal :=
    UInt64.toNat_inj.mp (toString_injective (List.cons.inj rest).1)
  cases x
  cases y
  simp only at epoch ordinal
  rw [epoch, ordinal]

end Stamp

/-! ## The order in which checkpoints are tried -/

/-- What is found in a storage, in the order in which it is tried. A run that is found under several
names is listed as often. -/
def stamps {σ : Type} [Storage σ] (storage : σ) (stem : String) : List Stamp :=
  (numbersIn storage .top (runEpoch? stem)).flatMap fun epoch =>
    (numbersIn storage ⟨runName stem epoch⟩ ordinal?).map (Stamp.mk epoch)

section Order

variable {σ : Type} [Storage σ] {storage : σ} {stem : String} {x y : Stamp}

theorem checkpoints_eq_map_path : checkpoints storage stem = (stamps storage stem).map (Stamp.path stem) := by
  simp only [checkpoints, stamps, List.map_flatMap, List.map_map]
  rfl

theorem pairwise_numbersIn (p : Path) (number? : String → Option UInt64) :
    (numbersIn storage p number?).Pairwise fun a b => b ≤ a := by
  unfold numbersIn
  split
  · exact pairwise_descending _
  · exact List.Pairwise.nil

theorem mem_flatMap_stamp_iff {epochs : List UInt64} {ordinals : UInt64 → List UInt64} :
    x ∈ epochs.flatMap (fun e => (ordinals e).map (Stamp.mk e)) ↔
      x.epoch ∈ epochs ∧ x.ordinal ∈ ordinals x.epoch := by
  obtain ⟨epoch, ordinal⟩ := x
  simp only [List.mem_flatMap, List.mem_map, Stamp.mk.injEq]
  constructor
  · rintro ⟨e, he, o, ho, rfl, rfl⟩
    exact ⟨he, ho⟩
  · rintro ⟨he, ho⟩
    exact ⟨epoch, he, ordinal, ho, rfl, rfl⟩

theorem idxOf_lt_idxOf_of_lt {xs : List UInt64} {a b : UInt64} (sorted : xs.Pairwise fun a b => b ≤ a)
    (ha : a ∈ xs) (lt : b < a) : xs.idxOf a < xs.idxOf b := by
  induction xs with
  | nil => cases ha
  | cons c xs ih =>
    obtain ⟨le, sorted⟩ := List.pairwise_cons.mp sorted
    have hb : c ≠ b := by
      rintro rfl
      rcases List.mem_cons.mp ha with rfl | ha
      · exact UInt64.lt_irrefl _ lt
      · exact UInt64.not_lt.mpr (le a ha) lt
    rw [List.idxOf_cons_ne xs hb]
    by_cases e : c = a
    · rw [List.idxOf_cons_eq xs e]
      exact Nat.zero_lt_succ _
    · rw [List.idxOf_cons_ne xs e]
      exact Nat.succ_lt_succ (ih sorted ((List.mem_cons.mp ha).resolve_left (Ne.symm e)))

theorem idxOf_map_of_injective {α β : Type} [DecidableEq α] [DecidableEq β] {f : α → β}
    (inj : ∀ a b, f a = f b → a = b) (xs : List α) (a : α) : (xs.map f).idxOf (f a) = xs.idxOf a := by
  induction xs with
  | nil => rfl
  | cons b xs ih =>
    rw [List.map_cons]
    by_cases e : b = a
    · rw [List.idxOf_cons_eq _ e, List.idxOf_cons_eq _ (congrArg f e)]
    · rw [List.idxOf_cons_ne _ e, List.idxOf_cons_ne _ fun same => e (inj b a same), ih]

/-- Of the checkpoints of descending runs, each listed in descending order, a newer one is found
before an older one, however often a run is listed. -/
theorem idxOf_flatMap_lt {epochs : List UInt64} {ordinals : UInt64 → List UInt64}
    (sorted : epochs.Pairwise fun a b => b ≤ a)
    (each : ∀ e, (ordinals e).Pairwise fun a b => b ≤ a)
    (hx : x ∈ epochs.flatMap fun e => (ordinals e).map (Stamp.mk e)) (older : y.Older x) :
    (epochs.flatMap fun e => (ordinals e).map (Stamp.mk e)).idxOf x <
      (epochs.flatMap fun e => (ordinals e).map (Stamp.mk e)).idxOf y := by
  induction epochs with
  | nil => cases hx
  | cons e epochs ih =>
    obtain ⟨le, sorted⟩ := List.pairwise_cons.mp sorted
    have inj : ∀ a b, Stamp.mk e a = Stamp.mk e b → a = b := fun _ _ same => (Stamp.mk.inj same).2
    have outside : ∀ z : Stamp, z.epoch ≠ e → z ∉ (ordinals e).map (Stamp.mk e) := by
      intro z ne hz
      obtain ⟨o, -, rfl⟩ := List.mem_map.mp hz
      exact ne rfl
    rw [List.flatMap_cons]
    by_cases here : x.epoch = e
    · have inside : x ∈ (ordinals e).map (Stamp.mk e) := by
        subst here
        exact List.mem_map.mpr ⟨x.ordinal, (mem_flatMap_stamp_iff.1 hx).2, rfl⟩
      rw [List.idxOf_append_of_mem inside]
      by_cases there : y ∈ (ordinals e).map (Stamp.mk e)
      · obtain ⟨o, ho, rfl⟩ := List.mem_map.mp inside
        obtain ⟨o', ho', rfl⟩ := List.mem_map.mp there
        rw [List.idxOf_append_of_mem there, idxOf_map_of_injective inj, idxOf_map_of_injective inj]
        refine idxOf_lt_idxOf_of_lt (each e) ho ?_
        exact older.elim (fun lt => absurd lt (UInt64.lt_irrefl e)) (·.2)
      · rw [List.idxOf_append_of_notMem there]
        exact Nat.lt_of_lt_of_le (List.idxOf_lt_length_of_mem inside) (Nat.le_add_right _ _)
    · have later : x ∈ epochs.flatMap fun e => (ordinals e).map (Stamp.mk e) := by
        rw [List.flatMap_cons, List.mem_append] at hx
        exact hx.resolve_left (outside x here)
      have lt : x.epoch < e :=
        UInt64.lt_of_le_of_ne (le _ (mem_flatMap_stamp_iff.1 later).1) here
      have below : y.epoch ≠ e := by
        rintro rfl
        rcases older with h | ⟨h, -⟩
        · exact UInt64.lt_irrefl _ (UInt64.lt_trans h lt)
        · exact here h.symm
      rw [List.idxOf_append_of_notMem (outside x here), List.idxOf_append_of_notMem (outside y below)]
      exact Nat.add_lt_add_left (ih sorted later) _

theorem idxOf_path_lt (plain : '/' ∉ stem.toList) (hx : x ∈ stamps storage stem) (older : y.Older x) :
    (checkpoints storage stem).idxOf (x.path stem) < (checkpoints storage stem).idxOf (y.path stem) := by
  have inj : ∀ a b : Stamp, a.path stem = b.path stem → a = b := fun _ _ => Stamp.path_injective plain
  rw [checkpoints_eq_map_path, idxOf_map_of_injective inj, idxOf_map_of_injective inj]
  exact idxOf_flatMap_lt (pairwise_numbersIn _ _) (fun _ => pairwise_numbersIn _ _) hx older

theorem Session.newestValid_eq_some {ps : List Path} {p : Path} {info : Info}
    (h : newestValid storage ps = some (p, info)) :
    validateCheckpoint storage p = .ok info ∧ p ∈ ps ∧
      ∀ q info', validateCheckpoint storage q = .ok info' → ¬ ps.idxOf q < ps.idxOf p := by
  induction ps with
  | nil => cases h
  | cons first ps ih =>
    rw [newestValid] at h
    split at h
    · next found valid =>
      cases h
      refine ⟨valid, List.mem_cons_self, fun q info' _ lt => ?_⟩
      rw [List.idxOf_cons_self] at lt
      exact Nat.not_lt_zero _ lt
    · next e invalid =>
      obtain ⟨valid, mem, before⟩ := ih h
      refine ⟨valid, List.mem_cons_of_mem _ mem, fun q info' valid' lt => ?_⟩
      have other : ∀ q info', validateCheckpoint storage q = .ok info' → first ≠ q := by
        rintro q info' valid' rfl
        rw [invalid] at valid'
        cases valid'
      rw [List.idxOf_cons_ne ps (other q info' valid'), List.idxOf_cons_ne ps (other p info valid)] at lt
      exact before q info' valid' (Nat.lt_of_succ_lt_succ lt)

theorem Session.newestValid_eq_none_iff {ps : List Path} :
    newestValid storage ps = none ↔ ∀ p ∈ ps, ∀ info, validateCheckpoint storage p ≠ .ok info := by
  induction ps with
  | nil => simp [newestValid]
  | cons first ps ih =>
    rw [newestValid, List.forall_mem_cons]
    cases validateCheckpoint storage first with
    | ok info => simp
    | error e => simp [ih]

end Order

/-! ## What is found in memory -/

namespace InMemory

variable {storage : InMemory} {stem : String} {x : Stamp} {info : Info}

theorem Rooted.mem_stamps (h : storage.Rooted) (plain : '/' ∉ stem.toList) (present : x.Present storage stem) :
    x ∈ stamps storage stem := by
  rw [Stamp.Present, Stamp.components_path plain] at present
  have run : Path.components ⟨runName stem x.epoch⟩ = [runName stem x.epoch] :=
    Path.components_of_isName (isName_runName plain x.epoch)
  have parent : [runName stem x.epoch] ∈ storage.directories :=
    (hasParent_iff.1 (h _ (.inl present))).resolve_left (by simp)
  have listed {p : Path} {name : String} {number? : String → Option UInt64} {n : UInt64}
      (there : p.text = "" ∨ p.components ∈ storage.directories) (fine : Path.IsName name)
      (inside : p.components ++ [name] ∈ storage.directories) (number : number? name = some n) :
      n ∈ numbersIn storage p number? := by
    rw [numbersIn_eq there, (List.mergeSort_perm _ _).mem_iff, List.mem_filterMap]
    exact ⟨name, mem_namesIn_iff.2 ⟨inside, fine.nonempty, fine.not_dot, fine.not_dots⟩, number⟩
  refine mem_flatMap_stamp_iff.2 ⟨?_, ?_⟩
  · exact listed (.inl rfl) (isName_runName plain x.epoch) parent (runEpoch?_runName stem x.epoch)
  · refine listed (.inr (run ▸ parent)) (isName_toString x.ordinal.toNat) ?_ (ordinal?_toString x.ordinal)
    rw [run]
    exact present

theorem Rooted.present (h : storage.Rooted) (plain : '/' ∉ stem.toList)
    (valid : validateCheckpoint storage (x.path stem) = .ok info) : x.Present storage stem := by
  obtain ⟨⟨bytes, read, -⟩, -⟩ := validateCheckpoint_eq_ok_iff.1 valid
  rw [read_eq_ok_iff, Stamp.path, components_infoPath (isName_runName plain x.epoch), bytes?] at read
  obtain ⟨file, found, -⟩ := Option.map_eq_some_iff.mp read
  have stored := Std.ExtTreeMap.mem_iff_isSome_getElem?.mpr (Option.isSome_of_eq_some found)
  rw [Stamp.Present, Stamp.components_path plain]
  exact (hasParent_iff.1 (h _ (.inr stored))).resolve_left (by simp)

theorem Rooted.path_mem_checkpoints (h : storage.Rooted) (plain : '/' ∉ stem.toList)
    (present : x.Present storage stem) : x.path stem ∈ checkpoints storage stem := by
  rw [checkpoints_eq_map_path]
  exact List.mem_map_of_mem (h.mem_stamps plain present)

theorem Rooted.exists_valid_iff (h : storage.Rooted) (plain : '/' ∉ stem.toList) :
    (Session.newestValid storage (checkpoints storage stem)).isSome = true ↔
      ∃ x info, Stamp.Valid storage stem x info := by
  constructor
  · intro some
    obtain ⟨⟨p, info⟩, found⟩ := Option.isSome_iff_exists.mp some
    obtain ⟨valid, mem, -⟩ := Session.newestValid_eq_some found
    rw [checkpoints_eq_map_path] at mem
    obtain ⟨x, -, rfl⟩ := List.mem_map.mp mem
    exact ⟨x, info, h.present plain valid, valid⟩
  · rintro ⟨x, info, present, valid⟩
    rw [Option.isSome_iff_ne_none]
    intro none
    exact Session.newestValid_eq_none_iff.1 none _ (h.path_mem_checkpoints plain present) info valid

/-- All that is valid besides the selected checkpoint is older. -/
theorem Rooted.newest_of_newestValid (h : storage.Rooted) (plain : '/' ∉ stem.toList) {p : Path}
    (found : Session.newestValid storage (checkpoints storage stem) = some (p, info)) :
    ∃ x : Stamp, p = x.path stem ∧ x.Valid storage stem info ∧
      ∀ (y : Stamp) (info' : Info), y.Valid storage stem info' → y = x ∨ y.Older x := by
  obtain ⟨valid, mem, before⟩ := Session.newestValid_eq_some found
  rw [checkpoints_eq_map_path] at mem
  obtain ⟨x, -, rfl⟩ := List.mem_map.mp mem
  refine ⟨x, rfl, ⟨h.present plain valid, valid⟩, fun y info' ⟨present, valid'⟩ => ?_⟩
  apply Stamp.older_or_eq
  intro older
  exact before _ info' valid' (idxOf_path_lt plain (h.mem_stamps plain present) older)

end InMemory

/-! ## The selection -/

theorem Session.restartLabel_eq {α : Type} {σ : Type} [Storage σ] (s : Session α σ) :
    let selected := newestValid s.storage (checkpoints s.storage s.settings.stem)
    s.restartLabel.1 = selected.map (·.2.label) ∧
      (∀ p info, selected = some (p, info) → s.restartLabel.2.restarting = some p) ∧
      ∃ restart, s.restartLabel.2 = { s with restart } := by
  unfold restartLabel
  cases newestValid s.storage (checkpoints s.storage s.settings.stem) with
  | none => exact ⟨rfl, nofun, s.restart, rfl⟩
  | some found =>
    refine ⟨rfl, ?_, _, rfl⟩
    rintro p info ⟨⟩
    rfl

/-- A restart selects the newest valid checkpoint, if there is one, and changes nothing else. Every
checkpoint that has a directory is tried, and a newer one is tried before an older one. -/
theorem restartLabel_newest {α : Type} {s : Session α InMemory} (arises : s.storage.Arises)
    (plain : '/' ∉ s.settings.stem.toList) :
    let stem := s.settings.stem
    let tried := checkpoints s.storage stem
    let restart := s.restartLabel
    ((∃ label, restart.1 = some label) ↔ ∃ x info, Stamp.Valid s.storage stem x info) ∧
      (∀ label, restart.1 = some label → ∃ x info, Stamp.Valid s.storage stem x info ∧
        (∀ y info', Stamp.Valid s.storage stem y info' → y = x ∨ y.Older x) ∧
        label = info.label ∧ restart.2.restarting = some (x.path stem)) ∧
      (∀ x y : Stamp, x.Present s.storage stem → y.Present s.storage stem → y.Older x →
        x.path stem ∈ tried ∧ y.path stem ∈ tried ∧
          tried.idxOf (x.path stem) < tried.idxOf (y.path stem)) ∧
      restart.2.storage = s.storage ∧ restart.2.enabled = s.enabled ∧
      restart.2.ordinal = s.ordinal ∧ restart.2.stats = s.stats := by
  intro stem tried restart
  have rooted := arises.rooted
  obtain ⟨label, restarting, _, frame⟩ := s.restartLabel_eq
  refine ⟨?_, fun l selected => ?_, fun x y hx hy older => ?_, ?_⟩
  · rw [← rooted.exists_valid_iff plain, ← Option.isSome_iff_exists, label, Option.isSome_map]
  · obtain ⟨⟨p, info⟩, found, rfl⟩ := Option.map_eq_some_iff.mp (label.symm.trans selected)
    obtain ⟨x, rfl, valid, newest⟩ := rooted.newest_of_newestValid plain found
    exact ⟨x, info, valid, newest, rfl, restarting _ info found⟩
  · exact ⟨rooted.path_mem_checkpoints plain hx, rooted.path_mem_checkpoints plain hy,
      idxOf_path_lt plain (rooted.mem_stamps plain hx) older⟩
  · rw [show restart.2 = _ from frame]
    exact ⟨rfl, rfl, rfl, rfl⟩

/-- Run 10 is found under two names, and its checkpoint, which is tried first, announces an entry that
is not there. The checkpoint of run 9 remains. -/
theorem restartLabel_newest_zeros :
    let made : Except StorageError InMemory := do
      let s ← InMemory.createDirectory ⟨"run-9"⟩ ∅
      let s ← InMemory.createDirectory ⟨"run-9/1"⟩ s
      let s ← InMemory.write ⟨"run-9/1/info"⟩ [53, 10, 48, 10] s
      let s ← InMemory.createDirectory ⟨"run-010"⟩ s
      let s ← InMemory.createDirectory ⟨"run-10"⟩ s
      let s ← InMemory.createDirectory ⟨"run-10/3"⟩ s
      InMemory.write ⟨"run-10/3/info"⟩ [54, 10, 49, 10] s
    ∃ storage, made = .ok storage ∧ storage.Arises ∧
      (checkpoints storage "run-").idxOf (Stamp.path "run-" ⟨10, 3⟩) <
        (checkpoints storage "run-").idxOf (Stamp.path "run-" ⟨9, 1⟩) ∧
      ∃ label, (Session.new ⟨0, "run-"⟩ storage (.still 11) : Session Nat InMemory).restartLabel.1 =
        some label := by
  intro made
  have done : made.toOption.isSome = true := by decide +kernel
  obtain ⟨storage, ok⟩ := Option.isSome_iff_exists.mp done
  have ok : made = .ok storage := eq_ok_of_toOption ok
  have arises : storage.Arises := by
    simp only [made, bind_eq_ok_iff] at ok
    obtain ⟨_, h₁, _, h₂, _, h₃, _, h₄, _, h₅, _, h₆, h₇⟩ := ok
    exact .write (.createDirectory (.createDirectory (.createDirectory (.write (.createDirectory
      (.createDirectory .empty h₁) h₂) h₃) h₄) h₅) h₆) h₇
  have nine : made.toOption.map (fun s => decide ((Stamp.path "run-" ⟨9, 1⟩).components ∈ s.directories)) =
      some true := by decide +kernel
  have ten : made.toOption.map (fun s => decide ((Stamp.path "run-" ⟨10, 3⟩).components ∈ s.directories)) =
      some true := by decide +kernel
  have valid : made.toOption.map (fun s => (validateCheckpoint s (Stamp.path "run-" ⟨9, 1⟩)).toOption) =
      some (some ⟨5, 0⟩) := by decide +kernel
  rw [ok] at nine ten valid
  have nine := of_decide_eq_true (Option.some.inj nine)
  have ten := of_decide_eq_true (Option.some.inj ten)
  have plain : '/' ∉ "run-".toList := by decide
  obtain ⟨found, -, order, -⟩ :=
    @restartLabel_newest Nat (Session.new ⟨0, "run-"⟩ storage (.still 11)) arises plain
  refine ⟨storage, ok, arises, (order ⟨10, 3⟩ ⟨9, 1⟩ ten nine (.inl (by decide))).2.2, ?_⟩
  exact found.mpr ⟨⟨9, 1⟩, ⟨5, 0⟩, nine, eq_ok_of_toOption (Option.some.inj valid)⟩

end CheckpointRestart
