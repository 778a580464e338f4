import CheckpointRestart.Proofs.Session.Requests

/-! # Sessions that are cut off

A run may end at any moment, even in the middle of writing a file. A restart then selects the latest
checkpoint of the run that is complete. If there is none, it selects what it would have selected
without the run.
-/

namespace CheckpointRestart

variable {α : Type} [DecidableEq α] {b stem : String} {epoch : UInt64}
  {requests : List (Request α)} {i j k n : Nat} {r : Request α} {changes done : List Change}
  {c d : Change} {storage left : InMemory}

/-! ## The paths of a run -/

section Paths

variable (name : Path.IsName b)

include name

theorem components_checkpointPath (i : Nat) :
    (checkpointPath ⟨b⟩ i).components = [b, toString i] := by
  rw [checkpointPath, Path.components_join (Path.open_of_isName name) (isName_toString i),
    Path.components_of_isName name]
  rfl

theorem open_checkpointPath (i : Nat) : (checkpointPath ⟨b⟩ i).Open :=
  Path.open_join (Path.open_of_isName name) (isName_toString i)

theorem components_infoPath (i : Nat) :
    (infoPath (checkpointPath ⟨b⟩ i)).components = [b, toString i, "info"] := by
  rw [infoPath, Path.components_join (open_checkpointPath name i) isName_info,
    components_checkpointPath name]
  rfl

theorem components_entryPath (i j : Nat) :
    (entryPath (checkpointPath ⟨b⟩ i) j).components = [b, toString i, toString j] := by
  rw [entryPath, Path.components_join (open_checkpointPath name i) (isName_toString j),
    components_checkpointPath name]
  rfl

end Paths

/-- The name of what is made at place `n` inside the directory of a checkpoint; at the first place
that is the directory itself. -/
def stepName : Nat → List String
  | 0 => []
  | 1 => ["info"]
  | j + 2 => [toString j]

/-- The components of what is made at place `n` for request `i`. -/
def stepKey (b : String) (i n : Nat) : List String :=
  b :: toString i :: stepName n

theorem stepName_injective {m n : Nat} (h : stepName m = stepName n) : m = n := by
  match m, n with
  | 0, 0 | 1, 1 => rfl
  | 0, 1 | 0, _ + 2 | 1, 0 | _ + 2, 0 => cases h
  | 1, j + 2 => exact absurd (List.cons.inj h).1.symm (toString_ne_info j)
  | j + 2, 1 => exact absurd (List.cons.inj h).1 (toString_ne_info j)
  | j + 2, k + 2 => rw [toString_injective (List.cons.inj h).1]

theorem stepKey_injective {m : Nat} (h : stepKey b i n = stepKey b k m) : i = k ∧ n = m := by
  obtain ⟨-, h⟩ := List.cons.inj h
  obtain ⟨ordinal, name⟩ := List.cons.inj h
  exact ⟨toString_injective ordinal, stepName_injective name⟩

theorem Step.components (h : Step ⟨b⟩ requests i n c) (name : Path.IsName b) :
    c.path.components = stepKey b i n := by
  cases h with
  | checkpoint => exact components_checkpointPath name i
  | info => exact components_infoPath name i
  | entry => exact components_entryPath name i _

theorem Step.unique (h : Step ⟨b⟩ requests i n c) (h' : Step ⟨b⟩ requests i n d) : c = d := by
  cases h with
  | checkpoint =>
    cases h'
    rfl
  | info hr =>
    cases h' with
    | info hr' =>
      cases hr.symm.trans hr'
      rfl
  | entry hr hx he =>
    cases h' with
    | entry hr' hx' he' =>
      cases hr.symm.trans hr'
      cases hx.symm.trans hx'
      cases he.symm.trans he'
      rfl

namespace Journal

theorem mem (h : Journal ⟨b⟩ requests i n changes) (hc : c ∈ changes) :
    c = .directory ⟨b⟩ ∨ ∃ k m, (k < i ∨ k = i ∧ m < n) ∧ Step ⟨b⟩ requests k m c := by
  induction h with
  | start => exact .inl (List.mem_singleton.mp hc)
  | @step i n changes c' _ made ih =>
    rcases List.mem_append.mp hc with hc | hc
    · refine (ih hc).imp_right fun ⟨k, m, before, made⟩ => ⟨k, m, ?_, made⟩
      omega
    · obtain rfl := List.mem_singleton.mp hc
      exact .inr ⟨i, n, .inr ⟨rfl, by omega⟩, made⟩
  | next _ ih =>
    refine (ih hc).imp_right fun ⟨k, m, before, made⟩ => ⟨k, m, ?_, made⟩
    omega

theorem first (h : Journal ⟨b⟩ requests i n changes) : ∃ rest, changes = .directory ⟨b⟩ :: rest := by
  induction h with
  | start => exact ⟨[], rfl⟩
  | @step _ _ _ c _ _ ih =>
    obtain ⟨rest, rfl⟩ := ih
    exact ⟨rest ++ [c], rfl⟩
  | next _ ih => exact ih

theorem head (h : Journal ⟨b⟩ requests i n changes) (name : Path.IsName b) (hc : c ∈ changes) :
    c.path.components.head? = some b := by
  rcases h.mem hc with rfl | ⟨k, m, -, made⟩
  · rw [Change.path, Path.components_of_isName name]
    rfl
  · rw [made.components name]
    rfl

/-- No path is changed twice. -/
theorem distinct (h : Journal ⟨b⟩ requests i n changes) (name : Path.IsName b) :
    changes.Pairwise fun c d => c.path.components ≠ d.path.components := by
  induction h with
  | start => simp
  | @step i n changes c journal made ih =>
    refine List.pairwise_append.mpr ⟨ih, List.pairwise_singleton _ _, fun d hd c' hc' => ?_⟩
    obtain rfl := List.mem_singleton.mp hc'
    rw [made.components name]
    rcases journal.mem hd with rfl | ⟨k, m, before, made'⟩
    · rw [Change.path, Path.components_of_isName name]
      simp [stepKey]
    · rw [made'.components name]
      intro e
      have := stepKey_injective e
      omega
  | next _ ih => exact ih

end Journal

/-! ## The files of a run -/

/-- All that the request announces has been written. -/
structure Complete (done : List Change) (checkpoint : Path) (r : Request α) : Prop where
  info : .file (infoPath checkpoint) r.info.encode ∈ done
  entries : ∀ j < r.count.toNat, ∃ contents, .file (entryPath checkpoint j) contents ∈ done

/-- A run in the directory `b` that was cut off. -/
structure Interrupted (b : String) (requests : List (Request α)) (storage : InMemory)
    (changes done : List Change) (left : InMemory) : Prop where
  name : Path.IsName b
  journal : ∃ i n, Journal ⟨b⟩ requests i n changes
  backward : ∀ r ∈ requests, r.Backward
  rooted : storage.Rooted
  fresh : [b] ∉ storage.directories
  cut : CutOff storage changes done left

namespace Interrupted

variable (h : Interrupted b requests storage changes done left)

include h

theorem below {key : List String} (hk : key ≠ []) :
    b :: key ∉ storage.directories ∧ storage.bytes? (b :: key) = none := by
  obtain ⟨directories, files⟩ := h.rooted.not_mem_below h.fresh (by simp) hk
  rw [List.singleton_append] at directories files
  refine ⟨directories, ?_⟩
  rw [InMemory.bytes?, Std.ExtTreeMap.getElem?_eq_none files]
  rfl

theorem step_of_key (hc : c ∈ changes) (hk : c.path.components = stepKey b i n) :
    Step ⟨b⟩ requests i n c := by
  obtain ⟨_, _, journal⟩ := h.journal
  rcases journal.mem hc with rfl | ⟨k, m, -, made⟩
  · rw [Change.path, Path.components_of_isName h.name] at hk
    simp [stepKey] at hk
  · rw [made.components h.name] at hk
    obtain ⟨rfl, rfl⟩ := stepKey_injective hk
    exact made

theorem file_cases (i n : Nat) :
    (∃ p contents, .file p contents ∈ done ∧ Step ⟨b⟩ requests i n (.file p contents) ∧
        left.bytes? (stepKey b i n) = some contents) ∨
      (∀ p contents, p.components = stepKey b i n → .file p contents ∉ done) ∧
        (left.bytes? (stepKey b i n) = none ∨
          ∃ p contents part, Step ⟨b⟩ requests i n (.file p contents) ∧ part <+: contents ∧
            part ≠ contents ∧ left.bytes? (stepKey b i n) = some part) := by
  obtain ⟨_, _, journal⟩ := h.journal
  have distinct := journal.distinct h.name
  have before : storage.bytes? (stepKey b i n) = none := (h.below (List.cons_ne_nil _ _)).2
  have sub : ∀ c ∈ done, c ∈ changes := h.cut.done_prefix.subset
  by_cases planned : ∃ p contents, .file p contents ∈ changes ∧ p.components = stepKey b i n
  · obtain ⟨p, contents, hc, hp⟩ := planned
    have made := h.step_of_key hc hp
    have cases := h.cut.bytes?_of_mem distinct hc
    rw [hp, before] at cases
    rcases cases with ⟨mem, bytes⟩ | ⟨not_mem, bytes⟩
    · exact .inl ⟨p, contents, mem, made, bytes⟩
    · refine .inr ⟨fun q contents' hq mem => not_mem ?_, bytes.imp_right ?_⟩
      · rwa [made.unique (h.step_of_key (sub _ mem) hq)]
      · rintro ⟨part, start, short, bytes⟩
        exact ⟨p, contents, part, made, start, short, bytes⟩
  · refine .inr ⟨fun p contents hp mem => planned ⟨p, contents, sub _ mem, hp⟩, .inl ?_⟩
    rw [h.cut.bytes?_of_not_mem fun p contents hc e => planned ⟨p, contents, hc, e.symm⟩, before]

theorem read_info_iff (hr : requests[i]? = some r) {info : Info} :
    (∃ bytes, Storage.read (infoPath (checkpointPath ⟨b⟩ i)) left = .ok bytes ∧
        Info.decode bytes = .ok info) ↔
      .file (infoPath (checkpointPath ⟨b⟩ i)) r.info.encode ∈ done ∧ info = r.info := by
  simp only [InMemory.read_eq_ok_iff]
  have key : (infoPath (checkpointPath ⟨b⟩ i)).components = stepKey b i 1 :=
    components_infoPath h.name i
  rw [key]
  rcases h.file_cases i 1 with ⟨p, contents, mem, made, bytes⟩ | ⟨absent, bytes⟩
  · cases made with
    | info hr' =>
      cases hr.symm.trans hr'
      rw [bytes]
      constructor
      · rintro ⟨_, ⟨⟩, decoded⟩
        rw [Info.decode_encode] at decoded
        exact ⟨mem, (Except.ok.inj decoded).symm⟩
      · rintro ⟨-, rfl⟩
        exact ⟨_, rfl, Info.decode_encode _⟩
  · refine iff_of_false ?_ fun ⟨mem, _⟩ => absent _ _ key mem
    rintro ⟨found, hf, decoded⟩
    rcases bytes with bytes | ⟨p, contents, part, made, start, short, bytes⟩
    · rw [bytes] at hf
      cases hf
    · rw [bytes] at hf
      cases hf
      cases made with
      | info => exact Info.decode_ne_ok_of_prefix start short decoded

theorem validEntry_iff (i j : Nat) :
    ValidEntry left (checkpointPath ⟨b⟩ i) j ↔
      ∃ contents, .file (entryPath (checkpointPath ⟨b⟩ i) j) contents ∈ done := by
  unfold ValidEntry
  simp only [InMemory.read_eq_ok_iff]
  have key : (entryPath (checkpointPath ⟨b⟩ i) j).components = stepKey b i (j + 2) :=
    components_entryPath h.name i j
  rw [key]
  rcases h.file_cases i (j + 2) with ⟨p, contents, mem, made, bytes⟩ | ⟨absent, bytes⟩
  · cases made with
    | @entry r _ x e hr hx he =>
      refine iff_of_true ⟨_, e, bytes, ?_, ?_⟩ ⟨_, mem⟩
      · exact Entry.decode_encode (Save.sized_of_record? he)
      · exact Save.backward_of_record? he (h.backward r (List.mem_of_getElem? hr) j x hx)
  · refine iff_of_false ?_ fun ⟨_, mem⟩ => absent _ _ key mem
    rintro ⟨found, e, hf, decoded, -⟩
    rcases bytes with bytes | ⟨p, contents, part, made, start, short, bytes⟩
    · rw [bytes] at hf
      cases hf
    · rw [bytes] at hf
      cases hf
      cases made with
      | entry hr hx he =>
        exact Entry.decode_ne_ok_of_prefix (Save.sized_of_record? he) start short decoded

/-- A checkpoint of the run is valid exactly if it is complete. -/
theorem validateCheckpoint_iff (hr : requests[i]? = some r) {info : Info} :
    validateCheckpoint left (checkpointPath ⟨b⟩ i) = .ok info ↔
      Complete done (checkpointPath ⟨b⟩ i) r ∧ info = r.info := by
  rw [validateCheckpoint_eq_ok_iff, h.read_info_iff hr]
  simp only [h.validEntry_iff]
  constructor
  · rintro ⟨⟨mem, rfl⟩, entries⟩
    exact ⟨⟨mem, entries⟩, rfl⟩
  · rintro ⟨⟨mem, entries⟩, rfl⟩
    exact ⟨⟨mem, rfl⟩, entries⟩

/-! ## The directories of a run -/

theorem mem_directories_iff {key : List String} :
    key ∈ left.directories ↔ key ∈ storage.directories ∨
      (key = [b] ∧ .directory ⟨b⟩ ∈ done) ∨
      ∃ k, key = [b, toString k] ∧ .directory (checkpointPath ⟨b⟩ k) ∈ done := by
  obtain ⟨_, _, journal⟩ := h.journal
  rw [h.cut.mem_directories_iff]
  refine or_congr_right ⟨?_, ?_⟩
  · rintro ⟨p, mem, rfl⟩
    rcases journal.mem (h.cut.done_prefix.subset mem) with e | ⟨k, m, -, made⟩
    · cases e
      exact .inl ⟨Path.components_of_isName h.name, mem⟩
    · cases made with
      | checkpoint => exact .inr ⟨k, components_checkpointPath h.name k, mem⟩
  · rintro (⟨rfl, mem⟩ | ⟨k, rfl, mem⟩)
    · exact ⟨_, mem, Path.components_of_isName h.name⟩
    · exact ⟨_, mem, components_checkpointPath h.name k⟩

theorem request_of_directory (mem : .directory (checkpointPath ⟨b⟩ k) ∈ done) :
    ∃ r, requests[k]? = some r := by
  cases h.step_of_key (i := k) (n := 0) (h.cut.done_prefix.subset mem)
    (components_checkpointPath h.name k) with
  | checkpoint hr => exact ⟨_, hr⟩

theorem directory_of_complete (complete : Complete done (checkpointPath ⟨b⟩ i) r) :
    .directory (checkpointPath ⟨b⟩ i) ∈ done := by
  have parent := h.cut.hasParent complete.info
  rw [components_infoPath h.name, InMemory.hasParent_iff] at parent
  have parent : [b, toString i] ∈ left.directories := parent.resolve_left (by simp)
  rcases h.mem_directories_iff.1 parent with old | ⟨e, -⟩ | ⟨k, e, mem⟩
  · exact absurd old (h.below (by simp)).1
  · simp at e
  · obtain rfl : i = k := toString_injective (by simpa using e)
    exact mem

theorem mem_ordinals_iff (few : requests.length ≤ UInt64.size) (begun : .directory ⟨b⟩ ∈ done)
    {o : UInt64} : o ∈ numbersIn left ⟨b⟩ ordinal? ↔
      .directory (checkpointPath ⟨b⟩ o.toNat) ∈ done := by
  have there : Path.components ⟨b⟩ ∈ left.directories := by
    rw [Path.components_of_isName h.name]
    exact h.mem_directories_iff.2 (.inr (.inl ⟨rfl, begun⟩))
  rw [InMemory.numbersIn_eq (.inr there), (List.mergeSort_perm _ _).mem_iff, List.mem_filterMap,
    Path.components_of_isName h.name]
  simp only [InMemory.mem_namesIn_iff, h.mem_directories_iff]
  constructor
  · rintro ⟨name, ⟨old | ⟨e, -⟩ | ⟨k, e, mem⟩, -⟩, number⟩
    · exact absurd old (h.below (by simp)).1
    · simp at e
    · obtain rfl : name = toString k := by simpa using e
      obtain ⟨r, hr⟩ := h.request_of_directory mem
      have small : k < UInt64.size := (List.getElem?_eq_some_iff.mp hr).1.trans_le few
      have same := ordinal?_toString (.ofNat k)
      rw [UInt64.toNat_ofNat_of_lt' small, number] at same
      cases same
      rwa [UInt64.toNat_ofNat_of_lt' small]
  · intro mem
    obtain ⟨filled, not_dot, not_dots, -⟩ := isName_toString o.toNat
    exact ⟨toString o.toNat, ⟨.inr (.inr ⟨_, rfl, mem⟩), filled, not_dot, not_dots⟩,
      ordinal?_toString o⟩

/-! ## Other runs -/

theorem mem_directories_iff_of_ne {b' : String} (ne : b' ≠ b) {key : List String} :
    b' :: key ∈ left.directories ↔ b' :: key ∈ storage.directories := by
  rw [h.mem_directories_iff]
  simp [ne]

theorem bytes?_of_ne {b' : String} (ne : b' ≠ b) {key : List String} :
    left.bytes? (b' :: key) = storage.bytes? (b' :: key) := by
  obtain ⟨_, _, journal⟩ := h.journal
  refine h.cut.bytes?_of_not_mem fun p contents hc e => ne ?_
  have head := journal.head h.name hc
  rw [Change.path, ← e] at head
  exact Option.some.inj head

theorem numbersIn_of_ne {b' : String} (name : Path.IsName b') (ne : b' ≠ b)
    (number? : String → Option UInt64) :
    numbersIn left ⟨b'⟩ number? = numbersIn storage ⟨b'⟩ number? := by
  refine InMemory.numbersIn_congr ?_ (fun n => ?_) number?
  · rw [Path.components_of_isName name, h.mem_directories_iff_of_ne ne]
  · rw [Path.components_of_isName name, List.singleton_append, h.mem_directories_iff_of_ne ne]

theorem validateCheckpoint_of_ne {b' : String} (name : Path.IsName b') (ne : b' ≠ b) {o : Nat}
    {info : Info} : validateCheckpoint left (checkpointPath ⟨b'⟩ o) = .ok info ↔
      validateCheckpoint storage (checkpointPath ⟨b'⟩ o) = .ok info := by
  simp only [validateCheckpoint_eq_ok_iff, ValidEntry, InMemory.read_eq_ok_iff,
    components_infoPath name, components_entryPath name, h.bytes?_of_ne ne]

end Interrupted

theorem Interrupted.numbersIn_top (h : Interrupted (runName stem epoch) requests storage changes done left)
    (begun : .directory ⟨runName stem epoch⟩ ∈ done)
    (newest : ∀ e ∈ numbersIn storage .top (runEpoch? stem), e < epoch) :
    numbersIn left .top (runEpoch? stem) = epoch :: numbersIn storage .top (runEpoch? stem) := by
  have names : (left.namesIn []).Perm (runName stem epoch :: storage.namesIn []) := by
    rw [List.perm_ext_iff_of_nodup (left.nodup_namesIn _)]
    · intro name
      obtain ⟨filled, not_dot, not_dots, -⟩ := h.name
      rw [InMemory.mem_namesIn_iff, List.mem_cons, InMemory.mem_namesIn_iff, List.nil_append,
        h.mem_directories_iff]
      constructor
      · rintro ⟨old | ⟨e, -⟩ | ⟨k, e, -⟩, fine⟩
        · exact .inr ⟨old, fine⟩
        · exact .inl (by simpa using e)
        · simp at e
      · rintro (rfl | ⟨old, fine⟩)
        · exact ⟨.inr (.inl ⟨rfl, begun⟩), filled, not_dot, not_dots⟩
        · exact ⟨.inl old, fine⟩
    · refine List.nodup_cons.mpr ⟨fun mem => h.fresh ?_, storage.nodup_namesIn _⟩
      exact (InMemory.mem_namesIn_iff.1 mem).1
  rw [InMemory.numbersIn_top]
  refine descending_eq ?_ (List.pairwise_cons.mpr ⟨fun e he => UInt64.le_of_lt (newest e he), ?_⟩)
  · refine (names.filterMap _).trans ?_
    rw [List.filterMap_cons, runEpoch?_runName, InMemory.numbersIn_top]
    exact (List.mergeSort_perm _ _).symm.cons _
  · rw [InMemory.numbersIn_top]
    exact pairwise_descending _

theorem Interrupted.checkpoints_eq
    (h : Interrupted (runName stem epoch) requests storage changes done left)
    (plain : '/' ∉ stem.toList) (begun : .directory ⟨runName stem epoch⟩ ∈ done)
    (newest : ∀ e ∈ numbersIn storage .top (runEpoch? stem), e < epoch) :
    checkpoints left stem =
      (numbersIn left ⟨runName stem epoch⟩ ordinal?).map
          (fun o => checkpointPath ⟨runName stem epoch⟩ o.toNat) ++
        checkpoints storage stem := by
  rw [checkpoints, h.numbersIn_top begun newest, List.flatMap_cons, checkpoints]
  refine congrArg _ (List.flatMap_congr fun e he => ?_)
  have ne : runName stem e ≠ runName stem epoch := fun same =>
    UInt64.ne_of_lt (newest e he) (runName_injective same)
  dsimp only
  rw [h.numbersIn_of_ne (isName_runName plain e) ne]

/-! ## The newest valid checkpoint -/

namespace Session

section Newest

variable {σ : Type} [Storage σ] {s s' : σ} {ps qs : List Path}

theorem newestValid_append (none : ∀ p ∈ ps, ∀ info, validateCheckpoint s p ≠ .ok info) :
    newestValid s (ps ++ qs) = newestValid s qs := by
  induction ps with
  | nil => rfl
  | cons p ps ih =>
    rw [List.cons_append, newestValid]
    split
    · next info valid => exact absurd valid (none p List.mem_cons_self info)
    · exact ih fun q hq => none q (List.mem_cons_of_mem _ hq)

theorem newestValid_congr
    (same : ∀ p ∈ ps, ∀ info, validateCheckpoint s p = .ok info ↔ validateCheckpoint s' p = .ok info) :
    newestValid s ps = newestValid s' ps := by
  induction ps with
  | nil => rfl
  | cons p ps ih =>
    have rest := ih fun q hq => same q (List.mem_cons_of_mem _ hq)
    rw [newestValid, newestValid]
    cases valid : validateCheckpoint s p with
    | ok info => rw [(same p List.mem_cons_self info).mp valid]
    | error e =>
      cases valid' : validateCheckpoint s' p with
      | ok info =>
        rw [(same p List.mem_cons_self info).mpr valid'] at valid
        cases valid
      | error e' => exact rest

theorem newestValid_of_greatest {path : UInt64 → Path} {os : List UInt64} {o : UInt64} {info : Info}
    (sorted : os.Pairwise fun a b => b ≤ a) (mem : o ∈ os)
    (valid : validateCheckpoint s (path o) = .ok info)
    (greatest : ∀ o' ∈ os, o < o' → ∀ info, validateCheckpoint s (path o') ≠ .ok info) :
    newestValid s (os.map path ++ qs) = some (path o, info) := by
  induction os with
  | nil => cases mem
  | cons first os ih =>
    obtain ⟨le, sorted⟩ := List.pairwise_cons.mp sorted
    rw [List.map_cons, List.cons_append, newestValid]
    by_cases e : first = o
    · rw [e, valid]
    · have mem : o ∈ os := (List.mem_cons.mp mem).resolve_left (Ne.symm e)
      have lt : o < first := UInt64.lt_of_le_of_ne (le o mem) (Ne.symm e)
      split
      · next info' valid' => exact absurd valid' (greatest first List.mem_cons_self lt info')
      · exact ih sorted mem fun o' ho' => greatest o' (List.mem_cons_of_mem _ ho')

theorem restartLabel_new {β : Type} (settings : Settings) (storage : σ) (clock : Clock) :
    (new settings storage clock : Session β σ).restartLabel.1 =
        (newestValid storage (checkpoints storage settings.stem)).map (·.2.label) ∧
      (new settings storage clock : Session β σ).restartLabel.2.restarting =
        (newestValid storage (checkpoints storage settings.stem)).map (·.1) := by
  unfold restartLabel
  dsimp only [new]
  cases newestValid storage (checkpoints storage settings.stem) with
  | none => exact ⟨rfl, rfl⟩
  | some found => exact ⟨rfl, rfl⟩

end Newest

end Session

/-! ## Crash consistency -/

namespace Interrupted

variable (h : Interrupted (runName stem epoch) requests storage changes done left)

include h

theorem left_eq_of_not_begun (not_begun : .directory ⟨runName stem epoch⟩ ∉ done) :
    left = storage ∧ done = [] := by
  obtain ⟨_, _, journal⟩ := h.journal
  obtain ⟨rest, rfl⟩ := journal.first
  cases h.cut with
  | stop => exact ⟨rfl, rfl⟩
  | next => exact absurd List.mem_cons_self not_begun

/-- The latest complete checkpoint of the run is selected. -/
theorem newestValid_of_complete (plain : '/' ∉ stem.toList)
    (newest : ∀ e ∈ numbersIn storage .top (runEpoch? stem), e < epoch)
    (few : requests.length ≤ UInt64.size) (hr : requests[i]? = some r)
    (complete : Complete done (checkpointPath ⟨runName stem epoch⟩ i) r)
    (latest : ∀ k r', i < k → requests[k]? = some r' →
      ¬ Complete done (checkpointPath ⟨runName stem epoch⟩ k) r') :
    Session.newestValid left (checkpoints left stem) =
      some (checkpointPath ⟨runName stem epoch⟩ i, r.info) := by
  have begun : .directory ⟨runName stem epoch⟩ ∈ done := by
    by_contra not_begun
    have := complete.info
    rw [(h.left_eq_of_not_begun not_begun).2] at this
    cases this
  have small : i < UInt64.size := (List.getElem?_eq_some_iff.mp hr).1.trans_le few
  have number : (UInt64.ofNat i).toNat = i := UInt64.toNat_ofNat_of_lt' small
  have directory := h.directory_of_complete complete
  rw [h.checkpoints_eq plain begun newest]
  have selected : Session.newestValid left ((numbersIn left ⟨runName stem epoch⟩ ordinal?).map
        (fun o => checkpointPath ⟨runName stem epoch⟩ o.toNat) ++ checkpoints storage stem) =
      some (checkpointPath ⟨runName stem epoch⟩ (UInt64.ofNat i).toNat, r.info) := by
    refine Session.newestValid_of_greatest (o := .ofNat i) ?_ ?_ ?_ fun o ho later info valid => ?_
    · have there : Path.components ⟨runName stem epoch⟩ ∈ left.directories := by
        rw [Path.components_of_isName h.name]
        exact h.mem_directories_iff.2 (.inr (.inl ⟨rfl, begun⟩))
      rw [InMemory.numbersIn_eq (.inr there)]
      exact pairwise_descending _
    · rw [h.mem_ordinals_iff few begun, number]
      exact directory
    · rw [number]
      exact (h.validateCheckpoint_iff hr).mpr ⟨complete, rfl⟩
    · obtain ⟨r', hr'⟩ := h.request_of_directory ((h.mem_ordinals_iff few begun).mp ho)
      rw [UInt64.lt_iff_toNat_lt, number] at later
      exact latest _ r' later hr' ((h.validateCheckpoint_iff hr').mp valid).1
  rwa [number] at selected

/-- Without a complete checkpoint of the run, the run makes no difference. -/
theorem newestValid_of_none (plain : '/' ∉ stem.toList)
    (newest : ∀ e ∈ numbersIn storage .top (runEpoch? stem), e < epoch)
    (few : requests.length ≤ UInt64.size)
    (none : ∀ k r, requests[k]? = some r →
      ¬ Complete done (checkpointPath ⟨runName stem epoch⟩ k) r) :
    Session.newestValid left (checkpoints left stem) =
      Session.newestValid storage (checkpoints storage stem) := by
  by_cases begun : .directory ⟨runName stem epoch⟩ ∈ done
  · rw [h.checkpoints_eq plain begun newest, Session.newestValid_append]
    · refine Session.newestValid_congr fun p hp info => ?_
      obtain ⟨e, he, hp⟩ := List.mem_flatMap.mp hp
      obtain ⟨o, -, rfl⟩ := List.mem_map.mp hp
      have ne : runName stem e ≠ runName stem epoch := fun same =>
        UInt64.ne_of_lt (newest e he) (runName_injective same)
      exact h.validateCheckpoint_of_ne (isName_runName plain e) ne
    · intro p hp info valid
      obtain ⟨o, ho, rfl⟩ := List.mem_map.mp hp
      obtain ⟨r, hr⟩ := h.request_of_directory ((h.mem_ordinals_iff few begun).mp ho)
      exact none _ r hr ((h.validateCheckpoint_iff hr).mp valid).1
  · rw [(h.left_eq_of_not_begun begun).1]

end Interrupted

/-- A run that is the newest of a storage may be cut off at any point, whatever its clock says. A
restart then selects the checkpoint of the latest request for which everything announced has been
written; if there is none, it selects what it would have selected without the run. Ordinals are
64-bit numbers, so there are at most `2 ^ 64` requests. -/
theorem restartLabel_of_cutOff {β : Type} {settings settings' : Settings} {clock clock' : Clock}
    (arises : storage.Arises) (plain : '/' ∉ settings.stem.toList)
    (began : clock.readEpoch.1 = some epoch)
    (ready : (Session.new settings storage clock : Session α InMemory).setup.enabled = true)
    (newest : ∀ e ∈ numbersIn storage .top (runEpoch? settings.stem), e < epoch)
    (few : requests.length ≤ UInt64.size) (backward : ∀ r ∈ requests, r.Backward)
    (cut : CutOff storage (requests.foldl Request.perform (Session.new settings (.start storage) clock :
      Session α (Journaled InMemory)).setup).storage.changes done left)
    (same : settings'.stem = settings.stem) :
    let run : Path := ⟨runName settings.stem epoch⟩
    let restart := (Session.new settings' left clock' : Session β InMemory).restartLabel
    let restart' := (Session.new settings' storage clock' : Session β InMemory).restartLabel
    (∀ i r, requests[i]? = some r → Complete done (checkpointPath run i) r →
      (∀ k r', i < k → requests[k]? = some r' → ¬ Complete done (checkpointPath run k) r') →
      restart.1 = some r.label ∧ restart.2.restarting = some (checkpointPath run i)) ∧
    ((∀ i r, requests[i]? = some r → ¬ Complete done (checkpointPath run i) r) →
      restart.1 = restart'.1 ∧ restart.2.restarting = restart'.2.restarting) := by
  rw [(Shadows.new settings storage clock).setup.same] at ready
  obtain ⟨⟨t, made⟩, resting⟩ := resting_setup requests began ready
  have name := isName_runName plain epoch
  have fresh : [runName settings.stem epoch] ∉ storage.directories := by
    intro mem
    have free := (InMemory.createDirectory_eq_ok made).1
    rw [InMemory.contains, Path.components_of_isName name,
      Std.ExtTreeSet.contains_iff_mem.mpr mem] at free
    cases free
  have journal := (resting.performAll [] rfl).journal
  have h := Interrupted.mk name ⟨_, _, journal⟩ backward arises.rooted fresh cut
  obtain ⟨label, restarting⟩ := Session.restartLabel_new (β := β) settings' left clock'
  obtain ⟨label', restarting'⟩ := Session.restartLabel_new (β := β) settings' storage clock'
  dsimp only
  rw [label, restarting, label', restarting', same]
  constructor
  · intro i r hr complete latest
    rw [h.newestValid_of_complete plain newest few hr complete latest]
    exact ⟨rfl, rfl⟩
  · intro none
    rw [h.newestValid_of_none plain newest few none]
    exact ⟨rfl, rfl⟩

/-- Two requests, of which the second lacks its last entry: the first one is selected. -/
theorem restartLabel_of_missing_entry :
    let requests : List (Request Nat) := [⟨7, 1, [.pointer 8 1 [42]]⟩,
      ⟨9, 2, [.pointer 8 1 [43], .reference 8 1 5 [⟨8, 1, 0, 5⟩]]⟩]
    let changes := (requests.foldl Request.perform
      (Session.new ⟨0, "run-"⟩ (.start ∅) (.still 5) : Session Nat (Journaled InMemory)).setup).storage.changes
    ∃ left, CutOff ∅ changes (changes.take 7) left ∧
      (Session.new ⟨0, "run-"⟩ left (.still 6) : Session Nat InMemory).restartLabel.1 = some 7 := by
  intro requests changes
  obtain ⟨left, cut⟩ := (cutOff_run ⟨0, "run-"⟩ (∅ : InMemory) (.still 5) requests).exists_take 7
  have backward : ∀ r ∈ requests, r.Backward := by
    intro r hr index x hx
    simp [requests] at hr
    rcases hr with rfl | rfl
    · match index with
      | 0 =>
        cases hx
        trivial
      | _ + 1 => cases hx
    · match index with
      | 0 =>
        cases hx
        trivial
      | 1 =>
        cases hx
        simp [Save.Backward]
      | _ + 2 => cases hx
  have same : (⟨0, "run-"⟩ : Settings).stem = (⟨0, "run-"⟩ : Settings).stem := rfl
  have began : (Clock.still 5).readEpoch.1 = some 5 := rfl
  have newest : ∀ e ∈ numbersIn (∅ : InMemory) .top (runEpoch? "run-"), e < 5 := by
    have none : numbersIn (∅ : InMemory) .top (runEpoch? "run-") = [] := by decide +kernel
    rw [none]
    nofun
  have selected := (@restartLabel_of_cutOff _ _ _ _ _ _ _ Nat _ _ _ (.still 6) .empty (by decide) began
    (by decide +kernel) newest (by decide) backward cut same).1 0 _ rfl
  have complete : Complete (changes.take 7) (checkpointPath ⟨runName "run-" 5⟩ 0) (requests[0]) := by
    refine ⟨by decide +kernel, fun j hj => ?_⟩
    obtain rfl : j = 0 := Nat.lt_one_iff.mp hj
    exact ⟨[97, 108, 105, 97, 115, 48, 10, 56, 10, 49, 10, 10, 42, 10], by decide +kernel⟩
  have absent : ∀ c ∈ changes.take 7, c.path ≠ entryPath (checkpointPath ⟨runName "run-" 5⟩ 1) 1 := by
    decide +kernel
  refine ⟨left, cut, (selected complete fun k r' later hr' whole => ?_).1⟩
  match k with
  | 1 =>
    cases hr'
    obtain ⟨contents, mem⟩ := whole.entries 1 (by decide)
    exact absent _ mem rfl
  | _ + 2 => cases hr'

end CheckpointRestart
