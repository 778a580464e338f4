import CheckpointRestart.Proofs.Collections
import CheckpointRestart.Storage.InMemory
import Mathlib.Data.List.Induction

/-! # Storages that are cut off

A journaled storage remembers what was made in it, one change after the other. When the power fails,
the storage is left with some of the changes made and perhaps one more file that holds only the
start of what was to be written. In an in-memory storage nothing else is touched.
-/

namespace CheckpointRestart

/-- Something that was made in a storage. -/
inductive Change where
  | directory (path : Path)
  | file (path : Path) (contents : Bytes)
  deriving DecidableEq, Repr

namespace Change

variable {σ : Type} [Storage σ]

def path : Change → Path
  | directory p => p
  | file p _ => p

def apply : Change → σ → Except StorageError σ
  | directory p, s => Storage.createDirectory p s
  | file p contents, s => Storage.write p contents s

end Change

/-- A storage with all the changes that were made in it, in their order. -/
structure Journaled (σ : Type) where
  storage : σ
  changes : List Change

namespace Journaled

variable {σ : Type} [Storage σ]

def start (s : σ) : Journaled σ :=
  ⟨s, []⟩

/-- Makes a change, and writes it down unless it fails. -/
def make (c : Change) (s : Journaled σ) : Except StorageError (Journaled σ) :=
  (c.apply s.storage).map fun t => ⟨t, s.changes ++ [c]⟩

instance : Storage (Journaled σ) where
  createDirectory p := make (.directory p)
  write p contents := make (.file p contents)
  read p s := Storage.read p s.storage
  directoriesIn p s := Storage.directoriesIn p s.storage
  contains p s := Storage.contains p s.storage

theorem make_eq_ok {c : Change} {s s' : Journaled σ} (h : s.make c = .ok s') :
    c.apply s.storage = .ok s'.storage ∧ s'.changes = s.changes ++ [c] := by
  unfold make at h
  cases made : c.apply s.storage with
  | error e =>
    rw [made] at h
    cases h
  | ok t =>
    rw [made] at h
    cases h
    exact ⟨rfl, rfl⟩

end Journaled

/-- Making `changes` in a storage is cut off: of them, `done` have been made, and of the file that
was being written there is nothing or only a start. -/
inductive CutOff {σ : Type} [Storage σ] : σ → List Change → List Change → σ → Prop
  | stop {s : σ} {changes : List Change} : CutOff s changes [] s
  | torn {s s' : σ} {p : Path} {contents part : Bytes} {rest : List Change} : part <+: contents →
    part ≠ contents → Storage.write p part s = .ok s' → CutOff s (.file p contents :: rest) [] s'
  | next {s s' s'' : σ} {c : Change} {rest done : List Change} : c.apply s = .ok s' →
    CutOff s' rest done s'' → CutOff s (c :: rest) (c :: done) s''

namespace CutOff

variable {σ : Type} [Storage σ] {s s' s'' : σ} {changes done : List Change} {c : Change}

theorem done_prefix (h : CutOff s changes done s') : done <+: changes := by
  induction h with
  | stop => exact List.nil_prefix
  | torn => exact List.nil_prefix
  | next _ _ ih => exact List.prefix_cons_iff.mpr (.inr ⟨_, rfl, ih⟩)

theorem concat (h : CutOff s changes changes s') (made : c.apply s' = .ok s'') :
    CutOff s (changes ++ [c]) (changes ++ [c]) s'' := by
  induction changes generalizing s with
  | nil =>
    cases h
    exact .next made .stop
  | cons d rest ih =>
    cases h with
    | next first later => exact .next first (ih later)

/-- What is cut off may be cut off earlier. -/
theorem exists_take (h : CutOff s changes done s') (n : Nat) :
    ∃ t, CutOff s changes (done.take n) t := by
  induction h generalizing n with
  | stop => exact ⟨_, by rw [List.take_nil]; exact .stop⟩
  | torn => exact ⟨_, by rw [List.take_nil]; exact .stop⟩
  | next made _ ih =>
    cases n with
    | zero => exact ⟨_, .stop⟩
    | succ n =>
      obtain ⟨t, later⟩ := ih n
      exact ⟨t, .next made later⟩

end CutOff

namespace InMemory

variable {s s' s'' : InMemory} {p : Path} {contents : Bytes} {key : List String}

def bytes? (s : InMemory) (key : List String) : Option Bytes :=
  s.files[key]?.map (·.contents)

theorem read_eq_ok_iff : Storage.read p s = .ok contents ↔ s.bytes? p.components = some contents := by
  change read p s = _ ↔ _
  unfold read bytes?
  cases s.files[p.components]? <;> simp

theorem createDirectory_eq_ok (h : Storage.createDirectory p s = .ok s') :
    s.contains p = false ∧ s.hasParent p.components = true ∧
      s' = { s with directories := s.directories.insert p.components } := by
  change createDirectory p s = _ at h
  unfold createDirectory at h
  split at h
  · cases h
  · next free =>
    split at h
    · next parent =>
      cases h
      exact ⟨by simpa using free, parent, rfl⟩
    · cases h

theorem write_eq_ok (h : Storage.write p contents s = .ok s') :
    p.components ∉ s.directories ∧ s.hasParent p.components = true ∧
      s'.directories = s.directories ∧ (∀ key, key ∈ s'.files ↔ key = p.components ∨ key ∈ s.files) ∧
      ∀ key, s'.bytes? key = if key = p.components then some contents else s.bytes? key := by
  change write p contents s = _ at h
  unfold write at h
  dsimp only at h
  split at h
  · cases h
  · next free =>
    cases h
    obtain ⟨fresh, parent⟩ : p.components ∉ s.directories ∧ s.hasParent p.components = true := by
      simpa using free
    refine ⟨fresh, parent, rfl, fun key => TreeMap.mem_insert_iff, fun key => ?_⟩
    rw [bytes?, TreeMap.getElem?_insert_iff, bytes?]
    split <;> rfl

/-! ## Every path has a parent -/

/-- Storages that come about by their own operations. -/
inductive Arises : InMemory → Prop
  | empty : Arises ∅
  | createDirectory {s s' : InMemory} {p : Path} : Arises s → createDirectory p s = .ok s' → Arises s'
  | write {s s' : InMemory} {p : Path} {contents : Bytes} : Arises s →
    write p contents s = .ok s' → Arises s'
  | remove {s : InMemory} {p : Path} : Arises s → Arises (s.remove p).2

/-- What is in a storage lies in a directory of it. -/
def Rooted (s : InMemory) : Prop :=
  ∀ key, key ∈ s.directories ∨ key ∈ s.files → s.hasParent key = true

theorem hasParent_iff : s.hasParent key = true ↔ key.dropLast = [] ∨ key.dropLast ∈ s.directories := by
  unfold hasParent
  split
  · next h => simp [h]
  · next h =>
    rw [Std.ExtTreeSet.contains_iff_mem]
    exact ⟨.inr, fun or => or.resolve_left h⟩

theorem hasParent_mono (sub : ∀ key ∈ s.directories, key ∈ s'.directories)
    (h : s.hasParent key = true) : s'.hasParent key = true :=
  hasParent_iff.2 ((hasParent_iff.1 h).imp_right (sub _))

theorem Arises.rooted (h : Arises s) : s.Rooted := by
  induction h with
  | empty =>
    rintro key (h | h)
    · exact absurd h Std.ExtTreeSet.not_mem_empty
    · exact absurd h Std.ExtTreeMap.not_mem_empty
  | @createDirectory s s' p _ run ih =>
    obtain ⟨-, parent, rfl⟩ := createDirectory_eq_ok run
    intro key h
    refine hasParent_mono (s := s) (fun k hk => TreeSet.mem_insert_iff.2 (.inr hk)) ?_
    rcases h with h | h
    · rcases TreeSet.mem_insert_iff.1 h with rfl | h
      · exact parent
      · exact ih key (.inl h)
    · exact ih key (.inr h)
  | @write s s' p contents _ run ih =>
    obtain ⟨-, parent, directories, files, -⟩ := write_eq_ok run
    intro key h
    refine hasParent_mono (s := s) (fun k hk => directories ▸ hk) ?_
    rw [directories, files] at h
    rcases h with h | rfl | h
    · exact ih key (.inl h)
    · exact parent
    · exact ih key (.inr h)
  | @remove s p _ ih =>
    unfold InMemory.remove
    split
    · intro key h
      refine ih key (h.imp_right fun h => ?_)
      exact (Std.ExtTreeMap.mem_erase.mp h).2
    · exact ih

theorem Rooted.not_mem_below (h : s.Rooted) {base below : List String} (absent : base ∉ s.directories)
    (hb : base ≠ []) (hne : below ≠ []) :
    base ++ below ∉ s.directories ∧ base ++ below ∉ s.files := by
  suffices ∀ below, below ≠ [] → base ++ below ∉ s.directories ∧ base ++ below ∉ s.files from
    this below hne
  intro below
  induction below using List.reverseRecOn with
  | nil => exact fun h => absurd rfl h
  | append_singleton below name ih =>
    intro _
    have outside : base ++ below ∉ s.directories := by
      cases below with
      | nil => simpa using absent
      | cons x xs => exact (ih (by simp)).1
    have none : ¬ s.hasParent (base ++ (below ++ [name])) = true := by
      rw [hasParent_iff, ← List.append_assoc, List.dropLast_concat]
      simp [hb, outside]
    exact ⟨fun mem => none (h _ (.inl mem)), fun mem => none (h _ (.inr mem))⟩

end InMemory

/-! ## What is left -/

namespace CutOff

variable {s s' : InMemory} {changes done : List Change} {p : Path} {contents : Bytes}
  {key : List String}

theorem mem_directories_iff (h : CutOff s changes done s') :
    key ∈ s'.directories ↔ key ∈ s.directories ∨ ∃ p, .directory p ∈ done ∧ p.components = key := by
  induction h with
  | stop => simp
  | torn _ _ run => simp [(InMemory.write_eq_ok run).2.2.1]
  | @next s t s' c rest done made _ ih =>
    rw [ih]
    cases c with
    | directory q =>
      obtain ⟨-, -, rfl⟩ := InMemory.createDirectory_eq_ok made
      rw [TreeSet.mem_insert_iff]
      simp only [List.mem_cons, Change.directory.injEq, or_and_right, exists_or, exists_eq_left]
      rw [eq_comm, or_assoc, or_left_comm]
    | file q bytes =>
      rw [(InMemory.write_eq_ok made).2.2.1]
      simp

theorem mem_files_iff (h : CutOff s changes changes s') :
    key ∈ s'.files ↔ key ∈ s.files ∨ ∃ p contents, .file p contents ∈ changes ∧ p.components = key := by
  induction changes generalizing s with
  | nil =>
    cases h
    simp
  | cons c rest ih =>
    cases h with
    | next made later =>
      rw [ih later]
      cases c with
      | directory q =>
        obtain ⟨-, -, rfl⟩ := InMemory.createDirectory_eq_ok made
        simp
      | file q bytes =>
        rw [(InMemory.write_eq_ok made).2.2.2.1]
        simp only [List.mem_cons, Change.file.injEq, or_and_right, exists_or, and_assoc]
        rw [eq_comm, or_assoc, or_left_comm]
        simp

theorem arises (h : CutOff s changes done s') (start : s.Arises) : s'.Arises := by
  induction h with
  | stop => exact start
  | torn _ _ run => exact start.write run
  | @next s t s' c rest done made _ ih =>
    cases c with
    | directory q => exact ih (start.createDirectory made)
    | file q bytes => exact ih (start.write made)

theorem hasParent (h : CutOff s changes done s') (hp : .file p contents ∈ done) :
    s'.hasParent p.components = true := by
  induction h with
  | stop => cases hp
  | torn => cases hp
  | @next s t s' c rest done made later ih =>
    rcases List.mem_cons.mp hp with rfl | hp
    · obtain ⟨-, parent, directories, -⟩ := InMemory.write_eq_ok made
      refine InMemory.hasParent_mono (fun k hk => later.mem_directories_iff.2 (.inl ?_)) parent
      rwa [directories]
    · exact ih hp

theorem bytes?_apply {c : Change} (made : c.apply s = .ok s')
    (ne : ∀ p contents, c = .file p contents → key ≠ p.components) :
    s'.bytes? key = s.bytes? key := by
  cases c with
  | directory q =>
    obtain ⟨-, -, rfl⟩ := InMemory.createDirectory_eq_ok made
    rfl
  | file q bytes => exact ((InMemory.write_eq_ok made).2.2.2.2 key).trans (if_neg (ne q bytes rfl))

/-- Where nothing was to be written, a file is as it was. -/
theorem bytes?_of_not_mem (h : CutOff s changes done s')
    (none : ∀ p contents, .file p contents ∈ changes → key ≠ p.components) :
    s'.bytes? key = s.bytes? key := by
  induction h with
  | stop => rfl
  | torn _ _ run =>
    exact ((InMemory.write_eq_ok run).2.2.2.2 key).trans (if_neg (none _ _ List.mem_cons_self))
  | next made _ ih =>
    rw [ih fun p contents hp => none p contents (List.mem_cons_of_mem _ hp)]
    exact bytes?_apply made fun p contents e => none p contents (e ▸ List.mem_cons_self)

/-- A file that was to be written holds all of its contents, or only their start, or what it held
before. -/
theorem bytes?_of_mem (h : CutOff s changes done s')
    (distinct : changes.Pairwise fun c d => c.path.components ≠ d.path.components)
    (hp : .file p contents ∈ changes) :
    (.file p contents ∈ done ∧ s'.bytes? p.components = some contents) ∨
      .file p contents ∉ done ∧ (s'.bytes? p.components = s.bytes? p.components ∨
        ∃ part, part <+: contents ∧ part ≠ contents ∧ s'.bytes? p.components = some part) := by
  induction h with
  | stop => exact .inr ⟨by simp, .inl rfl⟩
  | @torn s s' q bytes part rest start short run =>
    refine .inr ⟨by simp, ?_⟩
    rw [(InMemory.write_eq_ok run).2.2.2.2]
    rcases List.mem_cons.mp hp with e | hp
    · cases e
      exact .inr ⟨part, start, short, if_pos rfl⟩
    · exact .inl (if_neg (Ne.symm (List.rel_of_pairwise_cons distinct hp)))
  | @next s t s' c rest done made later ih =>
    have others : ∀ d ∈ rest, c.path.components ≠ d.path.components :=
      fun d hd => List.rel_of_pairwise_cons distinct hd
    rcases List.mem_cons.mp hp with rfl | hp
    · have now : t.bytes? p.components = some contents := by
        rw [(InMemory.write_eq_ok made).2.2.2.2, if_pos rfl]
      exact .inl ⟨List.mem_cons_self, (later.bytes?_of_not_mem fun q _ hq => others _ hq).trans now⟩
    · have ne : Change.file p contents ≠ c := fun e => others _ hp (by rw [e])
      have other := others _ hp
      have before : t.bytes? p.components = s.bytes? p.components :=
        bytes?_apply made fun q bytes e => by
          subst e
          exact other.symm
      rw [List.mem_cons, or_iff_right ne, ← before]
      exact ih distinct.of_cons hp

end CutOff

end CheckpointRestart
