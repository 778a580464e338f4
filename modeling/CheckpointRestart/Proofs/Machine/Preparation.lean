import CheckpointRestart.Proofs.Instrument.Ready
import CheckpointRestart.Proofs.Machine.Cutting
import CheckpointRestart.Proofs.Machine.Extents
import CheckpointRestart.Proofs.Machine.LiveValues

/-! # Running a prepared function

What is added to a function for the sake of sizes makes no difference to its runs, since nothing
that is added can fail. A size is widened where it was given or an allocation has just asked for it,
and where pointers are merged, the sizes of each of them are defined if the pointer is. An
instruction that is said to have a result may give none; an allocation that asks for such a result
fails, so that no pointer has it for a size.
-/

namespace CheckpointRestart

namespace Function

variable {f : Function} {b d : BlockId} {i : Instruction} {v : ValueId} {op : Op}

/-! ## Results without a value -/

theorem Defines.not_barren (def_ : f.Defines d v op) (shaped : f.Shaped)
    (produces : op.producesValue = true) : ¬ f.Barren v := by
  rintro ⟨b, hb, i, hi, hr, none⟩
  obtain ⟨-, rfl⟩ := def_.unique shaped hb hi hr
  exact Bool.false_ne_true (none.symm.trans produces)

theorem Shaped.not_barren_of_given (shaped : f.Shaped) (given : v ∈ f.params) : ¬ f.Barren v := by
  rintro ⟨b, hb, i, hi, hr, -⟩
  exact shaped.params v (mem_defined_iff.2 ⟨b, hb, mem_results_iff.2 ⟨i, hi, hr⟩⟩) given

theorem Shaped.barren_iff (shaped : f.Shaped) (hb : b ∈ f.layout) (hi : i ∈ f.body b)
    (hr : i.result = some v) : f.Barren v ↔ i.op.producesValue = false := by
  constructor
  · intro barren
    by_contra produces
    have def_ : f.Defines b v i.op := ⟨hb, by rwa [← hr]⟩
    exact def_.not_barren shaped (by simpa using produces) barren
  · exact fun none => ⟨b, hb, i, hi, hr, none⟩

end Function

open CheckpointRestart.Function

theorem Flow.define_ne_none {env : Env} {r : Option ValueId} {v : ValueId} (h : env[v]? ≠ none)
    (flow : Flow) : (flow.define r env)[v]? ≠ none := by
  by_cases e : r = some v
  · subst e
    cases flow with
    | next result =>
      cases result with
      | none => exact h
      | some a => simp [define_self]
    | _ => exact h
  · rwa [define_of_ne e]

theorem Exec.execOp_load {σ : Type} [Storage σ] {f : Function} {haltAfter : Option Nat}
    {i : Instruction} {x : Operand} {s t : State σ} {flow : Flow} (hop : i.op = .load x)
    (run : execOp f haltAfter i s = .ok flow t) : ∃ p, s.env.operand? x = some (.ptr p) := by
  obtain ⟨r, op⟩ := i
  obtain rfl : op = .load x := hop
  change EStateM.bind (require f _ .noResult r) _ s = _ at run
  obtain ⟨v, s₁, found, run⟩ := run_bind_eq_ok_iff.1 run
  obtain ⟨-, rfl⟩ := require_eq_ok_iff.1 found
  obtain ⟨p, s₂, pointer, -⟩ := run_bind_eq_ok_iff.1 run
  obtain ⟨pointer, -⟩ := operandAs_eq_ok_iff.1 pointer
  obtain ⟨a, ha, kind⟩ := Option.bind_eq_some_iff.mp pointer
  cases a with
  | ptr q => exact ⟨q, ha⟩
  | _ => cases kind

/-- What is at hand has a value, unless it is barren. -/
structure Furnished (f : Function) (map : ExtentMap) (b : BlockId) (done : List Instruction)
    (env : Env) : Prop where
  defined : ∀ v, f.AtHand v b done → ¬ f.Barren v → env[v]? ≠ none
  belongs : env.BelongsTo f
  sizes : ∀ (v : ValueId) (x : Extent), map[v]? = some x → env[v]? ≠ none →
    ∀ c ∈ x.sizeValues, ¬ f.Barren c
  asked : ∀ v w, ⟨some v, .malloc (.value w)⟩ ∈ done → env[w]? ≠ none

theorem Prepared.not_barren {f₀ f : Function} {map : ExtentMap} (prep : Prepared f₀ f map) {v : ValueId}
    {x : Extent} (known : map[v]? = some x) : ¬ f.Barren v := by
  have shaped := prep.draft.shaped
  cases (prep.sound.settled v x known).origin with
  | parameter params =>
    exact shaped.not_barren_of_given (by rw [prep.draft.params, params]; simp)
  | alloca def_ => exact (prep.draft.defines def_).not_barren shaped rfl
  | malloc def_ => exact (prep.draft.defines def_).not_barren shaped rfl
  | merge def_ => exact (prep.draft.defines def_).not_barren shaped rfl
  | derived def_ der => exact (prep.draft.defines def_).not_barren shaped (by cases der <;> rfl)

theorem Function.Widened.not_barren {f : Function} {bytes : Operand} {c : ValueId}
    (h : f.Widened bytes (.value c)) (shaped : f.Shaped)
    (asked : ∀ w, bytes = .value w → ¬ f.Barren w) : ¬ f.Barren c := by
  cases h with
  | same => exact asked c rfl
  | cast def_ => exact def_.not_barren shaped rfl

namespace Furnished

variable {f₀ f : Function} {map : ExtentMap} {b c : BlockId} {done rest : List Instruction}
  {i j : Instruction} {v : ValueId} {x : Extent} {env : Env}

section Next

variable {σ : Type} [Storage σ] {s t : State σ} {config : RunConfig} {result : Option Value}
  (prep : Prepared f₀ f map) (h : Furnished f map b done s.env) (place : f.Place b done (i :: rest))
  (run : execOp f config.haltAfter i s = .ok (.next result) t)

include prep h place run

theorem sizes_defined (known : map[v]? = some x) (hr : i.result = some v) :
    ∀ c ∈ x.sizeValues, ¬ f.Barren c := by
  have shaped := prep.draft.shaped
  have used : ∀ {w : ValueId} {a : Value}, s.env.operand? (.value w) = some a → s.env[w]? ≠ none :=
    fun found => Option.ne_none_iff_exists'.mpr ⟨_, found⟩
  intro c hc
  have origin := (prep.sound.settled v x known).origin
  cases origin with
  | parameter params =>
    have given : v ∈ f.params := by rw [prep.draft.params, params]; simp
    exact absurd given (shaped.params v (mem_defined_iff.2
      ⟨b, place.mem_layout, mem_results_iff.2 ⟨i, place.mem_body, hr⟩⟩))
  | alloca => rcases Extent.mem_sizeValues_iff.1 hc with e | e <;> cases e
  | malloc def_ wide =>
    obtain ⟨-, rfl⟩ := prep.eq_of_defines def_ place.mem_layout place.mem_body hr
    obtain ⟨n, found, -⟩ := Exec.execOp_malloc rfl run
    rcases Extent.mem_sizeValues_iff.1 hc with e | e
    · cases e
    · dsimp only at e
      subst e
      refine wide.not_barren shaped fun w hw barren => ?_
      subst hw
      obtain ⟨a, ha, -⟩ := Option.bind_eq_some_iff.mp found
      exact used ha (h.belongs.eq_none shaped barren)
  | merge def_ =>
    obtain ⟨-, rfl⟩ := prep.eq_of_defines def_ place.mem_layout place.mem_body hr
    cases place.plain _ List.mem_cons_self
  | @derived _ _ source _ _ _ def_ der =>
    obtain ⟨-, rfl⟩ := prep.eq_of_defines def_ place.mem_layout place.mem_body hr
    obtain ⟨y, known, width, count⟩ := prep.sound.derived v _ _ known rfl
    have there : ∃ a, s.env.operand? (.value source) = some a := by
      cases der with
      | gep =>
        obtain ⟨p, n, found, -⟩ := Exec.execOp_gep rfl run
        exact ⟨_, found⟩
      | load =>
        obtain ⟨p, found⟩ := Exec.execOp_load rfl run
        exact ⟨_, found⟩
      | cast =>
        obtain ⟨a, -, found, -⟩ := Exec.execOp_cast rfl run
        exact ⟨a, found⟩
    obtain ⟨a, found⟩ := there
    refine h.sizes source y known (used found) c ?_
    rw [Extent.mem_sizeValues_iff] at hc ⊢
    rwa [width, count]

theorem next : Furnished f map b (done ++ [i]) ((Flow.next result).define i.result s.env) where
  defined v hand inhabited := by
    by_cases hr : i.result = some v
    · have produces : i.op.producesValue = true := by
        simpa using mt (prep.draft.shaped.barren_iff place.mem_layout place.mem_body hr).mpr inhabited
      obtain ⟨a, rfl⟩ := Option.isSome_iff_exists.mp ((Exec.execOp_env run).2.2 produces)
      rw [hr, Flow.define_self]
      exact Option.some_ne_none a
    · rw [Flow.define_of_ne hr]
      exact h.defined v (hand.of_snoc hr) inhabited
  belongs := h.belongs.advanced prep.draft.shaped (c := ⟨b, i :: rest⟩) place (.next rfl run)
  sizes v x known there := by
    by_cases hr : i.result = some v
    · exact h.sizes_defined prep place run known hr
    · rw [Flow.define_of_ne hr] at there
      exact h.sizes v x known there
  asked v w mem := by
    refine Flow.define_ne_none ?_ _
    rcases List.mem_append.mp mem with before | now
    · exact h.asked v w before
    · obtain rfl := List.mem_singleton.mp now
      obtain ⟨n, found, -⟩ := Exec.execOp_malloc rfl run
      obtain ⟨a, ha, -⟩ := Option.bind_eq_some_iff.mp found
      exact Option.ne_none_iff_exists'.mpr ⟨a, ha⟩

end Next

section Jump

variable (prep : Prepared f₀ f map) (h : Furnished f map c done env) (place : f.Place c done [i])
  (last : i.op.isTerminator = true) (edge : b ∈ f.successors c)

include prep h place last edge

theorem sizes_incoming {u : ValueId} {y : Extent} (takes : TakesFrom (f.body b) u c)
    (known : map[u]? = some y) : ∀ q ∈ y.sizeValues, env[q]? ≠ none := by
  have shaped := prep.draft.shaped
  intro q hq
  have settled := prep.sound.settled u y known
  have hb := shaped.successor_mem place.mem_layout edge
  have ne : i.result ≠ some u := by
    by_cases given : u ∈ f₀.params
    · intro hr
      have defined := mem_defined_iff.2 ⟨c, place.mem_layout, mem_results_iff.2 ⟨i, place.mem_body, hr⟩⟩
      exact shaped.params u defined (prep.draft.params ▸ given)
    · obtain ⟨d, op, def_, inner⟩ := settled.exists_defines given
      exact (prep.draft.defines def_).result_ne shaped place.mem_layout place.mem_body last inner
  have hand := prep.draft.strict.atHand_incoming hb takes place.body ne
  have original := prep.draft.original_of_isTerminator place.mem_body last
  have size := hand.covered (settled.sizes q hq).1 place.body fun k hk => by
    obtain rfl := Option.mem_some_iff.mp hk
    exact original
  exact h.defined q size (h.sizes u y known (h.defined u hand (prep.not_barren known)) q hq)

/-- A merge that was added takes effect wherever control comes from. -/
theorem fault?_of_added (hj : j ∈ (f.block b).phis) (added : ¬ Original f₀.values.size j)
    (shaped₀ : f₀.Shaped) : env.fault? f c j = none := by
  have shaped := prep.draft.shaped
  have hb := shaped.successor_mem place.mem_layout edge
  have pred : c ∈ f.predecessors b := mem_predecessors_iff.2 ⟨place.mem_layout, edge⟩
  have inner : b ≠ f.entry := by
    rintro rfl
    rw [shaped.entry_free] at pred
    cases pred
  have reach : f.Reachable b := .step place.reachable edge hb
  have mem : j ∈ f.body b := (List.takeWhile_sublist _).subset hj
  obtain ⟨v, x, incoming, r, def_, known, hr, size⟩ :=
    prep.added b j mem added (isPhi_of_mem_takeWhile hj)
  have merge := (prep.sound.settled v x known).provenance_of_phi shaped₀ def_
  obtain ⟨b', incoming', def', -, width, count⟩ := (prep.merged v x known merge).merge
  obtain ⟨rfl, same⟩ := def'.unique shaped₀ def_.1 def_.2 rfl
  cases same
  have placed : ∀ {size : Extent → Operand}, (∀ x w, size x = .value w → w ∈ x.sizeValues) →
      map.MergedSize f b incoming size (.value r) → env.fault? f c j = none := by
    intro size hsize merged
    rcases merged with ⟨r', e, now⟩ | all
    · cases e
      obtain ⟨-, rfl⟩ := now.unique shaped hb mem hr
      obtain ⟨z, taken, from_c⟩ := prep.wellFormed.exists_incoming hb mem rfl pred
      unfold Env.fault?
      rw [taken]
      cases z with
      | const k => rfl
      | value q =>
        obtain ⟨u, y, into, known, hs⟩ := ExtentMap.mem_sizesIn from_c
        have takes : TakesFrom (f.body b) u c := ⟨_, (prep.draft.defines def_).2, incoming, rfl, into⟩
        have there := h.sizes_incoming prep place last edge takes known q (hsize y q hs)
        obtain ⟨a, ha⟩ := Option.ne_none_iff_exists'.mp there
        simp only [ha]
    · exact absurd (mem_results_iff.2 ⟨j, hj, hr⟩) (prep.size_not_mem_phis reach inner def_ hsize all)
  rcases Extent.mem_sizeValues_iff.1 size with e | e
  · exact placed (fun _ _ h => Extent.mem_sizeValues_iff.2 (.inl h)) (e ▸ width)
  · exact placed (fun _ _ h => Extent.mem_sizeValues_iff.2 (.inr h)) (e ▸ count)

variable (ready : ∀ j ∈ (f.block b).phis, ∃ a, env.incoming? c j = some a) (shaped₀ : f₀.Shaped)

include ready shaped₀

omit last in
theorem sizes_merged (known : map[v]? = some x) (merged : v ∈ results (f.block b).phis) :
    ∀ q ∈ x.sizeValues, ¬ f.Barren q := by
  have shaped := prep.draft.shaped
  have hb := shaped.successor_mem place.mem_layout edge
  have pred : c ∈ f.predecessors b := mem_predecessors_iff.2 ⟨place.mem_layout, edge⟩
  obtain ⟨j, hj, hr⟩ := mem_results_iff.1 merged
  have mem : j ∈ f.body b := (List.takeWhile_sublist _).subset hj
  have phi := isPhi_of_mem_takeWhile hj
  have settled := prep.sound.settled v x known
  have given : v ∉ f₀.params := fun given => shaped.params v
    (mem_defined_iff.2 ⟨b, hb, mem_results_iff.2 ⟨j, mem, hr⟩⟩) (prep.draft.params ▸ given)
  obtain ⟨d, op, def_, -⟩ := settled.exists_defines given
  obtain ⟨rfl, rfl⟩ := prep.eq_of_defines def_ hb mem hr
  obtain ⟨pairs, rfl⟩ := Op.isPhi_iff.1 phi
  obtain ⟨d, incoming, def', -, width, count⟩ :=
    (prep.merged v x known (settled.provenance_of_phi shaped₀ def_)).merge
  obtain ⟨rfl, same⟩ := def'.unique shaped₀ def_.1 def_.2 rfl
  cases same
  obtain ⟨z, taken, from_c⟩ := prep.wellFormed.exists_incoming hb mem rfl pred
  have placed : ∀ {size : Extent → Operand} {q : ValueId},
      (∀ x w, size x = .value w → w ∈ x.sizeValues) →
      map.MergedSize f b pairs size (.value q) → ¬ f.Barren q := by
    intro size q hsize merged
    rcases merged with ⟨r, e, now⟩ | all
    · cases e
      exact now.not_barren shaped rfl
    · have into : (.value q, c) ∈ map.sizesIn size [(z, c)] :=
        List.mem_singleton.mpr (congrArg (·, c) (all z c from_c).symm)
      obtain ⟨u, y, mem_u, known, hs⟩ := ExtentMap.mem_sizesIn into
      cases List.mem_singleton.mp mem_u
      obtain ⟨a, ha⟩ := ready _ hj
      rw [Env.incoming?, taken] at ha
      exact h.sizes u y known (Option.ne_none_iff_exists'.mpr ⟨a, ha⟩) q (hsize y q hs)
  intro q hq
  rcases Extent.mem_sizeValues_iff.1 hq with e | e
  · exact placed (fun _ _ h => Extent.mem_sizeValues_iff.2 (.inl h)) (e ▸ width)
  · exact placed (fun _ _ h => Extent.mem_sizeValues_iff.2 (.inr h)) (e ▸ count)

theorem jump (belongs : (env.merge c (f.block b).phis).BelongsTo f) :
    Furnished f map b (f.block b).phis (env.merge c (f.block b).phis) := by
  have shaped := prep.draft.shaped
  have hb := shaped.successor_mem place.mem_layout edge
  have nodup : (results (f.block b).phis).Nodup := ((List.nodup_flatMap.mp shaped.once).1 b hb).sublist
    ((List.takeWhile_sublist _).filterMap _)
  have taken : ∀ {v}, v ∈ results (f.block b).phis → (env.merge c (f.block b).phis)[v]? ≠ none := by
    intro v hv
    obtain ⟨j, hj, hr⟩ := mem_results_iff.1 hv
    rw [Env.merge_of_mem ready nodup hj hr]
    exact Option.ne_none_iff_exists'.mpr (ready j hj)
  refine ⟨fun v hand inhabited => ?_, belongs, fun v x known there => ?_, fun v w mem => ?_⟩
  · by_cases hv : v ∈ results (f.block b).phis
    · exact taken hv
    · have ne : i.result ≠ some v := fun hr => inhabited
        ((shaped.barren_iff place.mem_layout place.mem_body hr).mpr (Op.producesValue_of_isTerminator last))
      rw [Env.merge_of_not_mem ready hv]
      exact h.defined v (hand.of_jump hv place.body edge ne) inhabited
  · by_cases hv : v ∈ results (f.block b).phis
    · exact h.sizes_merged prep place edge ready shaped₀ known hv
    · rw [Env.merge_of_not_mem ready hv] at there
      exact h.sizes v x known there
  · cases isPhi_of_mem_takeWhile mem

end Jump

theorem advanced {σ : Type} [Storage σ] {config : RunConfig} {c c' : Control} {s t : State σ}
    (prep : Prepared f₀ f map) (shaped₀ : f₀.Shaped) (h : Furnished f map c.block done s.env)
    (place : f.Place c.block done c.todo) (run : Advanced f config c s c' t) :
    ∃ done, f.Place c'.block done c'.todo ∧ Furnished f map c'.block done t.env := by
  have shaped := prep.draft.shaped
  have belongs := h.belongs.advanced shaped place run
  obtain ⟨b, todo⟩ := c
  cases run with
  | @next i rest result t todo_eq exec =>
    obtain rfl : todo = i :: rest := todo_eq
    refine ⟨done ++ [i], ⟨place.reachable, ?_, fun j hj => place.plain j (List.mem_cons_of_mem _ hj)⟩,
      h.next prep place exec⟩
    rw [List.append_assoc]
    exact place.body
  | @jump i rest d t todo_eq exec ready =>
    obtain rfl : todo = i :: rest := todo_eq
    have fits := (Exec.execOp_env exec).2
    obtain rfl := shaped.rest_eq_nil place.mem_layout place.body fits.1
    have edge : d ∈ f.successors b := mem_successors_of_target place.body fits.2
    have reach := Faithful.reachable_next prep place edge
    exact ⟨(f.block d).phis, ⟨reach, List.takeWhile_append_dropWhile.symm,
      shaped.phisLead d reach.inside_end⟩, h.jump prep place fits.1 edge ready shaped₀ belongs⟩

theorem entry (prep : Prepared f₀ f map) (given : ∀ v ∈ f.params, env[v]? ≠ none)
    (only : ∀ v a, env[v]? = some a → v ∈ f.params) : Furnished f map f.entry [] env where
  defined v hand _ := hand.elim (given v) fun here => absurd ⟨.entry, by simp⟩ here
  belongs v a found := .inl (only v a found)
  sizes v x known there c hc := by
    have shaped := prep.draft.shaped
    obtain ⟨a, ha⟩ := Option.ne_none_iff_exists'.mp there
    have given := only v a ha
    have fresh : ∀ {d op}, ¬ f₀.Defines d v op := fun def_ =>
      shaped.params v (prep.draft.defines def_).mem_defined given
    cases (prep.sound.settled v x known).origin with
    | parameter params wide =>
      rcases Extent.mem_sizeValues_iff.1 hc with e | e
      · cases e
      · dsimp only at e
        subst e
        refine wide.not_barren shaped fun w hw => ?_
        cases hw
        exact shaped.not_barren_of_given (by rw [prep.draft.params, params]; simp)
    | alloca def_ => exact absurd def_ fresh
    | malloc def_ => exact absurd def_ fresh
    | merge def_ => exact absurd def_ fresh
    | derived def_ => exact absurd def_ fresh
  asked _ _ mem := nomatch mem

end Furnished

/-! ## The function that was there and the function with additions -/

theorem findSome?_filter {α β : Type} {g : α → Option β} {p : α → Bool} {xs : List α}
    (rest : ∀ x ∈ xs, p x = false → g x = none) : (xs.filter p).findSome? g = xs.findSome? g := by
  induction xs with
  | nil => rfl
  | cons x xs ih =>
    have ih := ih fun y hy => rest y (List.mem_cons_of_mem _ hy)
    cases hx : p x with
    | true =>
      rw [List.filter_cons_of_pos hx, List.findSome?_cons, List.findSome?_cons, ih]
    | false =>
      rw [List.filter_cons_of_neg (by simp [hx]), List.findSome?_cons, rest x List.mem_cons_self hx, ih]

namespace Function

variable {f₀ f : Function} {b : BlockId} {pending : ValueSet}

namespace Draft

variable (h : f₀.Draft f pending)

include h

theorem phis_eq (hb : b ∈ f.layout) :
    (f₀.block b).phis = (f.block b).phis.filter (Original f₀.values.size) ∧
      (f₀.block b).afterPhis = (f.block b).afterPhis.filter (Original f₀.values.size) := by
  have body : (f₀.block b).body = (f.block b).phis.filter (Original f₀.values.size) ++
      (f.block b).afterPhis.filter (Original f₀.values.size) := by
    rw [← List.filter_append, Block.phis, Block.afterPhis, List.takeWhile_append_dropWhile]
    exact (h.kept b).symm
  have merges : ∀ i ∈ (f.block b).phis.filter (Original f₀.values.size), i.op.isPhi = true :=
    fun i hi => isPhi_of_mem_takeWhile (List.mem_of_mem_filter hi)
  have plain : ∀ i ∈ (f.block b).afterPhis.filter (Original f₀.values.size), i.op.isPhi = false :=
    fun i hi => h.shaped.phisLead b hb i (List.mem_of_mem_filter hi)
  constructor
  · rw [Block.phis, body, List.takeWhile_append_of_pos (by simpa using merges), takeWhile_of_plain plain,
      List.append_nil]
  · rw [Block.afterPhis, body, List.dropWhile_append_of_pos (by simpa using merges),
      dropWhile_of_plain plain]

theorem mem_results_phis_iff (hb : b ∈ f.layout) {v : ValueId} (old : v.index < f₀.values.size) :
    v ∈ results (f₀.block b).phis ↔ v ∈ results (f.block b).phis := by
  rw [(h.phis_eq hb).1, mem_results_iff, mem_results_iff]
  constructor
  · rintro ⟨i, hi, hr⟩
    exact ⟨i, List.mem_of_mem_filter hi, hr⟩
  · rintro ⟨i, hi, hr⟩
    refine ⟨i, List.mem_filter.mpr ⟨hi, decide_eq_true fun r e => ?_⟩, hr⟩
    cases hr.symm.trans e
    exact old

end Draft

end Function

theorem Value.exists_cast?_i64 (a : Value) : ∃ b, a.cast? .i64 = some b := by
  cases a <;> exact ⟨_, rfl⟩

theorem mem_of_pair_sublist {α : Type} {x y : α} {xs ys : List α} (sub : [x, y].Sublist (xs ++ y :: ys))
    (fresh : y ∉ ys) : x ∈ xs := by
  obtain ⟨front, back, split, sub_front, sub_back⟩ := List.sublist_append_iff.mp sub
  cases front with
  | cons z front =>
    obtain ⟨rfl, -⟩ := List.cons.inj split
    exact sub_front.subset List.mem_cons_self
  | nil =>
    obtain rfl : [x, y] = back := split
    cases sub_back with
    | cons _ sub => exact absurd (sub.subset (by simp)) fresh
    | cons_cons _ sub => exact absurd (sub.subset (by simp)) fresh

/-- Control of the second run is where that of the first run is, and may have additions before it.
What was there before has the same value in both. -/
structure Alongside {σ : Type} (n : Nat) (c : Control) (s : State σ) (c' : Control) (s' : State σ) :
    Prop where
  control : c = ⟨c'.block, c'.todo.filter (Original n)⟩
  more : c'.todo ≠ []
  same : ∀ v : ValueId, v.index < n → s'.env[v]? = s.env[v]?
  state : s' = { s with env := s'.env }

namespace Prepared

variable {f₀ f : Function} {map : ExtentMap} {σ : Type} {config : RunConfig} {b d : BlockId}
  {i : Instruction} {done rest : List Instruction} {s : State σ} {env : Env}

structure Follows (f₀ f : Function) (map : ExtentMap) (c : Control) (s : State σ) (c' : Control)
    (s' : State σ) : Prop extends Alongside f₀.values.size c s c' s' where
  place : ∃ done, f.Place c'.block done c'.todo ∧ Furnished f map c'.block done s'.env

section

variable (prep : Prepared f₀ f map)

include prep

theorem advanceRun_of_added [Storage σ] (config : RunConfig) (place : f.Place b done (i :: rest))
    (h : Furnished f map b done s.env) (added : ¬ Original f₀.values.size i) :
    ∃ env : Env, advanceRun f config ⟨b, i :: rest⟩ s = .running ⟨b, rest⟩ { s with env } ∧
      ∀ v : ValueId, v.index < f₀.values.size → env[v]? = s.env[v]? := by
  have mem := place.mem_body
  obtain ⟨⟨r, hr, -⟩, cast | merge⟩ := prep.draft.added b i mem added
  · obtain ⟨w, bits, hop, -⟩ := cast
    have there : s.env[w]? ≠ none := by
      rcases prep.draft.asked b i mem added w hop with given | ⟨v, sub⟩
      · have given : w ∈ f.params := prep.draft.params ▸ given
        exact h.defined w (.inl given) (prep.draft.shaped.not_barren_of_given given)
      · have nodup : (results (f.body b)).Nodup :=
          (List.nodup_flatMap.mp prep.draft.shaped.once).1 b place.mem_layout
        rw [place.body] at sub nodup
        refine h.asked v w (mem_of_pair_sublist sub fun again => ?_)
        rw [results_append, results_cons, hr] at nodup
        exact (List.nodup_cons.mp (List.nodup_append.mp nodup).2.1).1 (mem_results_iff.2 ⟨i, again, hr⟩)
    obtain ⟨a, ha⟩ := Option.ne_none_iff_exists'.mp there
    obtain ⟨wide, widened⟩ := a.exists_cast?_i64
    refine ⟨s.env.insert r wide, ?_, fun v old => ?_⟩
    · obtain ⟨_, _⟩ := i
      subst hr hop
      have found : s.env.operand? (.value w) = some a := ha
      have run : execOp f config.haltAfter ⟨some r, .cast (.value w) .i64⟩ s = .ok (.next (some wide)) s := by
        change EStateM.bind (Exec.operand f (.value w)) _ s = _
        unfold EStateM.bind
        rw [Exec.operand_of_some found]
        dsimp only
        rw [widened]
        rfl
      simp only [advanceRun, execInstruction_run, run]
      rfl
    · refine TreeMap.getElem?_insert_iff.trans (if_neg ?_)
      rintro rfl
      refine added fun r' e => ?_
      cases hr.symm.trans e
      exact old
  · obtain ⟨pairs, hop, -⟩ := merge
    have plain := place.plain i List.mem_cons_self
    rw [hop] at plain
    cases plain

theorem matched_beginRun (plain : ∀ i ∈ f₀.body f₀.entry, i.op.isPhi = false) (args : List Value)
    (s : State σ) : Matched (Follows f₀ f map) (beginRun f₀ args s) (beginRun f args s) := by
  have shaped := prep.draft.shaped
  by_cases count : args.length = f₀.params.length
  · obtain ⟨env, given, begin⟩ := beginRun_eq f₀ s count
    have entry := shaped.entry_mem
    have none₀ : (f₀.block f₀.entry).phis = [] := takeWhile_of_plain plain
    have none : (f.block f.entry).phis = [] := takeWhile_of_plain fun i hi => prep.draft.entry_isPhi plain hi
    have place : f.Place f.entry (f.block f.entry).phis (f.block f.entry).afterPhis :=
      ⟨.refl entry, List.takeWhile_append_dropWhile.symm, shaped.phisLead _ entry⟩
    have begun : beginRun f args s = .running ⟨f.entry, (f.block f.entry).afterPhis⟩ { s with env } := by
      rw [begin f prep.draft.params, Exec.enter_none_run, none]
      rfl
    have begun₀ : beginRun f₀ args s = .running ⟨f₀.entry, (f₀.block f₀.entry).afterPhis⟩ { s with env } := by
      rw [begin f₀ rfl, Exec.enter_none_run, none₀]
      rfl
    rw [none] at place
    have furnished : Furnished f map f.entry [] env := .entry prep (prep.draft.params ▸ given)
      fun v a => mem_params_of_beginRun begun
    rw [begun, begun₀]
    refine .running ⟨⟨?_, shaped.afterPhis_ne_nil entry, fun _ _ => rfl, rfl⟩, _, place, furnished⟩
    rw [prep.draft.entry, ← (prep.draft.phis_eq (prep.draft.entry ▸ entry)).2]
  · unfold beginRun
    rw [prep.draft.params, if_pos count, if_pos count]
    exact .done

variable (spells : f₀.Spells f) (wf₀ : f₀.WellFormed)

include spells wf₀

theorem matched_enter (h : Furnished f map b done env) (place : f.Place b done [i])
    (last : i.op.isTerminator = true) (edge : d ∈ f.successors b)
    (same : ∀ v : ValueId, v.index < f₀.values.size → env[v]? = s.env[v]?) :
    Matched (Alongside f₀.values.size) (.ofEnter (Exec.enter f₀ (some b) d s))
      (.ofEnter (Exec.enter f (some b) d { s with env })) := by
  have shaped := prep.draft.shaped
  have hd := shaped.successor_mem place.mem_layout edge
  have hd₀ : d ∈ f₀.layout := prep.draft.layout ▸ hd
  have pred : b ∈ f₀.predecessors d := by
    rw [mem_predecessors_iff, ← prep.draft.layout, ← prep.draft.successors place.mem_layout]
    exact ⟨place.mem_layout, edge⟩
  obtain ⟨phis, after⟩ := prep.draft.phis_eq hd
  have mem₀ : ∀ j ∈ (f₀.block d).phis, j ∈ f₀.body d := fun j hj => (List.takeWhile_sublist _).subset hj
  -- an old merge takes the same
  have incoming : ∀ j ∈ (f₀.block d).phis, ∃ x, j.incoming? b = some x ∧
      ∀ v, x = .value v → v.index < f₀.values.size := by
    intro j hj
    obtain ⟨pairs, hop⟩ := Op.isPhi_iff.1 (isPhi_of_mem_takeWhile hj)
    obtain ⟨x, taken, from_b⟩ := wf₀.exists_incoming hd₀ (mem₀ j hj) hop pred
    refine ⟨x, taken, fun v hx => (wf₀.fits d hd₀ j (mem₀ j hj)).operands v ?_⟩
    rw [hop, Op.mem_usedValues_iff]
    exact List.mem_map.mpr ⟨_, from_b, hx⟩
  have faults : (f.block d).phis.findSome? (env.fault? f b) =
      (f₀.block d).phis.findSome? (s.env.fault? f₀ b) := by
    rw [← findSome?_filter (p := fun j => decide (Original f₀.values.size j)), ← phis]
    · refine findSome?_congr fun j hj => ?_
      obtain ⟨x, taken, old⟩ := incoming j hj
      unfold Env.fault?
      rw [taken]
      cases x with
      | const k => rfl
      | value v =>
        dsimp only
        rw [same v (old v rfl), spells.names v (old v rfl)]
    · intro j hj added
      exact h.fault?_of_added prep place last edge hj (of_decide_eq_false added) wf₀.toShaped
  rw [Exec.enter_eq, Exec.enter_eq, faults]
  cases none : (f₀.block d).phis.findSome? (s.env.fault? f₀ b) with
  | some e => exact .done
  | none =>
    have ready₀ : ∀ j ∈ (f₀.block d).phis, ∃ a, s.env.incoming? b j = some a := fun j hj =>
      Env.fault?_eq_none_iff.1 (List.findSome?_eq_none_iff.mp none j hj)
    rw [none] at faults
    have ready : ∀ j ∈ (f.block d).phis, ∃ a, env.incoming? b j = some a := fun j hj =>
      Env.fault?_eq_none_iff.1 (List.findSome?_eq_none_iff.mp faults j hj)
    refine .running ⟨by rw [after], shaped.afterPhis_ne_nil hd, fun v old => ?_, rfl⟩
    dsimp only
    by_cases merged : v ∈ results (f₀.block d).phis
    · obtain ⟨j, hj, hr⟩ := mem_results_iff.1 merged
      have nodup : (results (f.block d).phis).Nodup :=
        ((List.nodup_flatMap.mp shaped.once).1 d hd).sublist ((List.takeWhile_sublist _).filterMap _)
      have nodup₀ : (results (f₀.block d).phis).Nodup :=
        ((List.nodup_flatMap.mp wf₀.once).1 d hd₀).sublist ((List.takeWhile_sublist _).filterMap _)
      have there : j ∈ (f.block d).phis := List.mem_of_mem_filter (phis ▸ hj)
      rw [Env.merge_of_mem ready nodup there hr, Env.merge_of_mem ready₀ nodup₀ hj hr]
      obtain ⟨x, taken, old⟩ := incoming j hj
      rw [Env.incoming?, Env.incoming?, taken]
      cases x with
      | const k => rfl
      | value v => exact same v (old v rfl)
    · rw [Env.merge_of_not_mem ready₀ merged,
        Env.merge_of_not_mem ready (mt (prep.draft.mem_results_phis_iff hd old).mpr merged)]
      exact same v old

theorem matched_original [Storage σ] (config : RunConfig) (h : Furnished f map b done env)
    (place : f.Place b done (i :: rest)) (original : Original f₀.values.size i)
    (same : ∀ v : ValueId, v.index < f₀.values.size → env[v]? = s.env[v]?) :
    Matched (Alongside f₀.values.size)
      (advanceRun f₀ config ⟨b, i :: rest.filter (Original f₀.values.size)⟩ s)
      (advanceRun f config ⟨b, i :: rest⟩ { s with env }) := by
  have shaped := prep.draft.shaped
  have hb := place.mem_layout
  have hi : i ∈ f₀.body b := prep.draft.mem_body_iff.2 ⟨place.mem_body, original⟩
  have fits := wf₀.fits b (prep.draft.layout ▸ hb) i hi
  unfold advanceRun
  dsimp only
  have stepped := (spells.renamed fits (place.plain i List.mem_cons_self)
    fun v hv => same v (fits.operands v hv)).stepped config.haltAfter (s := s) rfl
  generalize execInstruction f₀ config.haltAfter i s = r at stepped
  generalize execInstruction f config.haltAfter i { s with env } = r' at stepped
  cases stepped with
  | error e =>
    rw [e]
    exact .done
  | @ok flow t fits =>
    dsimp only
    cases flow with
    | next result =>
      refine .running ⟨rfl, shaped.ne_nil_of_not_isTerminator hb place.body fits.1, fun v old => ?_, rfl⟩
      exact Flow.define_congr (same v old) _
    | jump d =>
      obtain rfl := shaped.rest_eq_nil hb place.body fits.1
      have edge : d ∈ f.successors b := mem_successors_of_target place.body fits.2
      exact prep.matched_enter spells wf₀ (s := { t with env := s.env }) h place fits.1 edge same
    | leave v => exact .done
    | halt => exact .done

/-- A step is matched by a step and those of the additions in front. -/
theorem matched_step [Storage σ] {c c' : Control} {s s' : State σ} (related : Follows f₀ f map c s c' s') :
    ∃ k, Matched (Follows f₀ f map) (advanceRun f₀ config c s)
      ((Progress.advance f config)^[k + 1] (.running c' s')) := by
  obtain ⟨b, todo⟩ := c'
  induction todo generalizing s' with
  | nil => exact absurd rfl related.more
  | cons i rest ih =>
    obtain ⟨done, place, furnished⟩ := related.place
    have later : ∀ {c'' : Control} {t : State σ}, advanceRun f config ⟨b, i :: rest⟩ s' = .running c'' t →
        ∃ done, f.Place c''.block done c''.todo ∧ Furnished f map c''.block done t.env := fun run =>
      furnished.advanced prep wf₀.toShaped place (advanced_of_running run)
    by_cases original : Original f₀.values.size i
    · refine ⟨0, ?_⟩
      have control : c = ⟨b, i :: rest.filter (Original f₀.values.size)⟩ :=
        related.control.trans (congrArg (Control.mk b) (List.filter_cons_of_pos (by simpa using original)))
      have matched := prep.matched_original spells wf₀ config furnished place original related.same
      rw [← related.state, ← control] at matched
      change Matched _ _ (advanceRun f config ⟨b, i :: rest⟩ s')
      generalize advanceRun f config ⟨b, i :: rest⟩ s' = q at matched later
      generalize advanceRun f₀ config c s = p at matched
      cases matched with
      | done => exact .done
      | running along => exact .running ⟨along, later rfl⟩
    · obtain ⟨env, run, kept⟩ := prep.advanceRun_of_added config place furnished original
      have control : c = ⟨b, rest.filter (Original f₀.values.size)⟩ :=
        related.control.trans (congrArg (Control.mk b) (List.filter_cons_of_neg (by simpa using original)))
      have inner : i.op.isTerminator = false := by
        rcases (prep.draft.added b i place.mem_body original).op with ⟨w, bits, hop, -⟩ | ⟨pairs, hop, -⟩
        all_goals
          rw [hop]
          rfl
      have more := prep.draft.shaped.ne_nil_of_not_isTerminator place.mem_layout place.body inner
      have next : Follows f₀ f map c s ⟨b, rest⟩ { s' with env } := ⟨⟨control, more,
        fun v old => (kept v old).trans (related.same v old), by rw [related.state]⟩, later run⟩
      obtain ⟨k, matched⟩ := ih next
      refine ⟨k + 1, ?_⟩
      rw [Function.iterate_succ_apply]
      change Matched _ _ ((Progress.advance f config)^[k + 1] (advanceRun f config ⟨b, i :: rest⟩ s'))
      rwa [run]

/-- What is added for the sake of sizes makes no difference to a run. -/
theorem runsAlike (name : f.name = f₀.name) (given : ∀ v ∈ f₀.params, v.index < f₀.values.size)
    (plain : ∀ i ∈ f₀.body f₀.entry, i.op.isPhi = false) : f₀.RunsAlike f := by
  refine .of_ends name prep.draft.params (fun v hv => spells.types v (given v hv))
    fun config args s r t => ?_
  exact (prep.matched_beginRun plain args s).ends_iff fun _ _ _ _ related =>
    prep.matched_step spells wf₀ related

end

end Prepared

/-- A function in which the extents of pointers have been found, and whose merge blocks have been
split, passes the checks that it passed, and does what it did. -/
theorem runsAlike_of_findExtents {oracle : AliasOracle} {f f' g : Function} {e : Extents}
    {merges : BlockSet} (co : f.Coherent) (valid : f.validate = .ok ()) (passes : f.checkScoping = .ok ())
    (plain : ∀ i ∈ f.body f.entry, i.op.isPhi = false) (found : findExtents oracle f = .ok e f')
    (split : f'.splitMerges = (merges, g)) :
    g.validate = .ok () ∧ g.checkScoping = .ok () ∧ f.RunsAlike g := by
  obtain ⟨wf, prep, splitting⟩ := splitting_findExtents co valid passes plain found split
  have ready := prep.ready plain splitting.cuts
  refine ⟨validate_eq_ok_iff.2 ready.wellFormed, (checkScoping_eq_ok_iff ready.wellFormed).mpr ready.strict, ?_⟩
  have advances := (within_findExtents found).2
  have spells : f.Spells f' := ⟨advances.valueNames, advances.types,
    fun b hb => advances.blockNames b ((co.mem_layout b).mp hb)⟩
  refine (prep.runsAlike spells wf advances.name co.params plain).trans ?_
  exact splitting.cuts.runsAlike prep.draft.coherent prep.wellFormed
    fun i hi => prep.draft.entry_isPhi plain hi

/-- Puts a number into one of two buffers and prints it. -/
def choosing : Function where
  name := "choosing"
  params := [⟨0⟩]
  returns := .int 8
  values := #[⟨"n", .int 32⟩, ⟨"small", .bytePtr⟩, ⟨"large", .bytePtr⟩, ⟨"less", .int 1⟩,
    ⟨"p", .bytePtr⟩, ⟨"x", .int 8⟩]
  blocks := #[
    ⟨"entry", [
      .define ⟨1⟩ (.malloc (.value ⟨0⟩)),
      .define ⟨3⟩ (.compare .lt (.value ⟨0⟩) (.const (.int 32 4))),
      .effect (.condBr (.value ⟨3⟩) ⟨1⟩ ⟨2⟩)]⟩,
    ⟨"other", [
      .define ⟨2⟩ (.malloc (.const (.int 32 4))),
      .effect (.br ⟨2⟩)]⟩,
    ⟨"join", [
      .define ⟨4⟩ (.phi [(.value ⟨1⟩, ⟨0⟩), (.value ⟨2⟩, ⟨1⟩)]),
      .effect (.store (.const (.int 8 7)) (.value ⟨4⟩)),
      .define ⟨5⟩ (.load (.value ⟨4⟩)),
      .effect (.call "print" [.value ⟨5⟩]),
      .effect (.ret (some (.value ⟨5⟩)))]⟩]
  layout := [⟨0⟩, ⟨1⟩, ⟨2⟩]

/-- Three values and a block are added: the size that is asked for as a 64-bit integer, and the sizes
of the buffer that is chosen. -/
theorem runsAlike_of_choosing :
    ∃ e f' merges g, findExtents .conservative choosing = .ok e f' ∧ f'.splitMerges = (merges, g) ∧
      g.values.size = 9 ∧ g.blocks.size = 4 ∧ g.validate = .ok () ∧ g.checkScoping = .ok () ∧
      ∃ t : State InMemory, t.output = #["7"] ∧
        ComesTo (fun n => runFunction g { stepLimit := n } [.int 32 3]
          (.initial (.new .default ∅ (.still 5)))) (.ok (.returned (some (.int 8 7)))) t := by
  have coherent : choosing.Coherent := by decide
  have sizes : ((findExtents .conservative).perform choosing).1.toOption.isSome = true ∧
      ((findExtents .conservative).perform choosing).2.splitMerges.2.values.size = 9 ∧
      ((findExtents .conservative).perform choosing).2.splitMerges.2.blocks.size = 4 := by
    decide +kernel
  let start : Progress InMemory :=
    beginRun choosing [.int 32 3] (.initial (.new .default ∅ (.still 5)))
  have ran : (match (Progress.advance choosing {})^[9] start with
      | .done r t => some (r, t.output)
      | .running _ _ => none) = some (.ok (.returned (some (.int 8 7))), #["7"]) := by
    decide +kernel
  obtain ⟨done, values, blocks⟩ := sizes
  obtain ⟨e, found⟩ := Option.isSome_iff_exists.mp done
  have found := Edit.run_of_perform found
  obtain ⟨valid, passes, alike⟩ := runsAlike_of_findExtents coherent (eq_ok_of_toOption (by cbv))
    (eq_ok_of_toOption (by cbv)) (by decide) found rfl
  cases done : (Progress.advance choosing {})^[9] start with
  | running c t =>
    rw [done] at ran
    cases ran
  | done r t =>
    rw [done] at ran
    obtain ⟨rfl, printed⟩ := Prod.mk.inj (Option.some.inj ran)
    have comes : ComesTo (fun n => runFunction choosing { stepLimit := n } [.int 32 3]
        (.initial (.new .default ∅ (.still 5)))) (.ok (.returned (some (.int 8 7)))) t :=
      (comesTo_iff start).mpr ⟨9, done⟩
    obtain ⟨env, comes⟩ := (alike.function {} [.int 32 3] _ _ t).mp ⟨t.env, comes⟩
    exact ⟨e, _, _, _, found, rfl, values, blocks, valid, passes, { t with env }, printed, comes⟩

end CheckpointRestart
