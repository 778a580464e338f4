import CheckpointRestart.Proofs.Program.Reader.Canonical

/-! # Reading a program that was written

The text of a program is read line by line. Between two functions there is an empty line, which is
skipped, and a function ends with the line that holds its closing brace alone.
-/

namespace CheckpointRestart

open Text

namespace Reader

variable {g : Function} {b : BlockId} {i : Instruction} {s : List Char}

/-! ## The lines of a function -/

/-- A line between the braces of a function: it is no comment and does not close the function. -/
structure Inner (s : List Char) : Prop where
  tight : Tight s
  line : '\n' ∉ s
  first : ∃ c ∈ s.head?, c = '%' ∨ isWord c = true

theorem Inner.skipped (h : Inner s) : (s.isEmpty || s.head? == some ';') = false := by
  obtain ⟨c, hc, first⟩ := h.first
  cases s with
  | nil => cases hc
  | cons d s =>
    cases hc
    have ne : c ≠ ';' := by
      rintro rfl
      rcases first with e | e
      · cases e
      · exact absurd e (by decide)
    simp [ne]

theorem Inner.ne_brace (h : Inner s) : s ≠ ['\x7d'] := by
  rintro rfl
  obtain ⟨c, hc, first⟩ := h.first
  cases hc
  revert first
  decide

theorem inner_label (h : isIdentifier (g.blockName b).toList = true) :
    Inner ((g.blockName b).toList ++ [':']) := by
  obtain ⟨nonempty, words⟩ := isIdentifier_iff.1 h
  have colon : Tight [':'] := .singleton (by decide)
  refine ⟨(part_of_isIdentifier h).tight.append colon [], ?_, ?_⟩
  · rw [List.mem_append, not_or]
    exact ⟨not_mem_of_all words rfl, by decide⟩
  · cases e : (g.blockName b).toList with
    | nil => exact absurd e nonempty
    | cons c name => exact ⟨c, rfl, .inr (words c (by simp [e]))⟩

theorem inner_instruction (h : g.Legible) (hb : b ∈ g.layout) (hi : i ∈ g.body b) :
    Inner (instructionText g i) := by
  have statement := Context.statement_text ((h.instructions b hb i hi).reads h [] 0)
  rw [instructionText_eq]
  cases result : i.result with
  | none =>
    obtain ⟨c, hc, word⟩ := statement.first
    exact ⟨statement.tight, statement.line, c, hc, .inr word⟩
  | some v =>
    have name := h.values v (Function.mem_named_of_result hb hi result)
    obtain ⟨-, words⟩ := isIdentifier_iff.1 name
    have percent : Tight ['%'] := .singleton (by decide)
    refine ⟨?_, ?_, '%', rfl, .inl rfl⟩
    · have tight := percent.append statement.tight ((g.valueName v).toList ++ " = ".toList)
      simpa using tight
    · have free : '\n' ∉ (g.valueName v).toList := not_mem_of_all words rfl
      have line := statement.line
      have equals : '\n' ∉ " = ".toList := by decide
      simp only [List.mem_cons, List.mem_append, not_or]
      exact ⟨by decide, free, equals, line⟩

theorem inner_blockTexts (h : g.Legible) (hb : b ∈ g.layout) : ∀ s ∈ blockTexts g b, Inner s := by
  intro s hs
  rcases List.mem_cons.mp hs with rfl | hs
  · exact inner_label (h.blocks b hb)
  · obtain ⟨i, hi, rfl⟩ := List.mem_map.mp hs
    exact inner_instruction h hb hi

theorem newline_not_mem_parameterText {p : ValueId} (h : isIdentifier (g.valueName p).toList = true) :
    '\n' ∉ parameterText g p := by
  obtain ⟨-, words⟩ := isIdentifier_iff.1 h
  have name : '\n' ∉ (g.valueName p).toList := not_mem_of_all words rfl
  have type : '\n' ∉ (g.valueType p).render.toList := not_mem_of_all (fun _ => Ty.isTypeChar_of_mem_render) rfl
  simp only [parameterText, List.mem_cons, List.mem_append, not_or]
  exact ⟨by decide, name, by decide, by decide, type⟩

theorem tight_header (h : g.Legible) : Tight g.renderHeader.toList ∧ '\n' ∉ g.renderHeader.toList := by
  rw [renderHeader_toList]
  constructor
  · have first : Tight ['f'] := .singleton (by decide)
    have last : Tight ['\x7b'] := .singleton (by decide)
    have tight := first.append last ("n ".toList ++ (g.name.toList ++
      '(' :: (commaJoin (g.params.map (parameterText g)) ++ [')']) ++
      ' ' :: '-' :: '>' :: ' ' :: (g.returns.render.toList ++ [' '])))
    simpa using tight
  · obtain ⟨-, words⟩ := isIdentifier_iff.1 h.name
    have name : '\n' ∉ g.name.toList := not_mem_of_all words rfl
    have type : '\n' ∉ g.returns.render.toList := not_mem_of_all (fun _ => Ty.isTypeChar_of_mem_render) rfl
    have params : '\n' ∉ commaJoin (g.params.map (parameterText g)) := by
      intro mem
      rcases mem_commaJoin mem with e | e | ⟨q, hq, mem⟩
      · exact absurd e (by decide)
      · exact absurd e (by decide)
      · obtain ⟨p, hp, rfl⟩ := List.mem_map.mp hq
        exact newline_not_mem_parameterText (h.values p (List.mem_append_left _ hp)) mem
    simp only [List.mem_cons, List.mem_append, not_or, List.not_mem_nil, not_false_eq_true, and_true]
    exact ⟨by decide, ⟨⟨name, by decide, params, by decide⟩, by decide, by decide, by decide, by decide, type,
      by decide⟩, by decide⟩

def texts (g : Function) : List (List Char) :=
  g.renderHeader.toList :: (g.layout.flatMap (blockTexts g) ++ [['\x7d']])

theorem trim_renderLines (h : g.Legible) : g.renderLines.map (fun l => trim l.toList) = texts g := by
  have header := (tight_header h).1.trim
  have block {b : BlockId} (hb : b ∈ g.layout) :
      (g.renderBlock b).map (fun l => trim l.toList) = blockTexts g b := by
    have label := (inner_label (h.blocks b hb)).tight.trim
    have colon : (g.blockName b ++ ":").toList = (g.blockName b).toList ++ [':'] := String.toList_append
    rw [Function.renderBlock, List.map_cons, colon, label, blockTexts, List.map_map]
    refine congrArg _ (List.map_congr_left fun i hi => ?_)
    have tight := (inner_instruction h hb hi).tight
    have text : ("  " ++ g.renderInstruction i).toList = [' ', ' '] ++ (instructionText g i ++ []) := by
      simp [instructionText]
    rw [Function.comp_apply, text]
    exact tight.trim_surrounded (List.all_eq_true.mp rfl) (by simp)
  rw [Function.renderLines, List.map_append, List.map_append, List.map_flatMap, List.map_singleton, header,
    List.flatMap_congr fun b hb => block hb]
  rfl

theorem newline_not_mem_renderLines (h : g.Legible) : ∀ l ∈ g.renderLines, '\n' ∉ l.toList := by
  intro l hl
  rw [Function.renderLines, List.mem_append, List.mem_append] at hl
  rcases hl with (hl | hl) | hl
  · rw [List.mem_singleton.mp hl]
    exact (tight_header h).2
  · obtain ⟨b, hb, hl⟩ := List.mem_flatMap.mp hl
    rcases List.mem_cons.mp hl with rfl | hl
    · rw [String.toList_append]
      exact (inner_label (h.blocks b hb)).line
    · obtain ⟨i, hi, rfl⟩ := List.mem_map.mp hl
      have line := (inner_instruction h hb hi).line
      rw [String.toList_append, List.mem_append, not_or]
      exact ⟨by decide, line⟩
  · rw [List.mem_singleton.mp hl]
    decide

/-! ## One function after the other -/

theorem progress_inner {p : Progress} {first line : Line} {body : List Line} (opened : p.opened = some (first, body))
    (h : Inner line.text) : progress p line = .ok { p with opened := some (first, line :: body) } := by
  rw [progress, h.skipped, opened]
  simp only [Bool.false_eq_true, if_false, h.ne_brace]
  rfl

theorem foldlM_inner {fs : List Function} {first : Line} {body lines : List Line}
    (h : ∀ line ∈ lines, Inner line.text) : lines.foldlM progress ⟨fs, some (first, body)⟩ =
      .ok ⟨fs, some (first, lines.reverse ++ body)⟩ := by
  induction lines generalizing body with
  | nil => rfl
  | cons line lines ih =>
    rw [List.foldlM_cons, progress_inner rfl (h line List.mem_cons_self), ok_bind]
    have rest := @ih (line :: body) fun l hl => h l (List.mem_cons_of_mem _ hl)
    rw [rest, List.reverse_cons, List.append_assoc]
    rfl

/-- The function is read again from its lines, as one that `same` holds of. -/
def Rereads (same : Function → Function → Prop) (g : Function) : Prop :=
  ∀ first body, first.text = g.renderHeader.toList → body.map Line.text = g.layout.flatMap (blockTexts g) →
    ∃ f, function first body = .ok f ∧ f.name = g.name ∧ same g f

theorem foldlM_texts {same : Function → Function → Prop} {fs : List Function} {lines : List Line}
    (h : g.Legible) (rereads : Rereads same g) (new : ∀ f ∈ fs, f.name ≠ g.name)
    (written : lines.map Line.text = texts g) :
    ∃ f, lines.foldlM progress ⟨fs, none⟩ = .ok ⟨fs ++ [f], none⟩ ∧ f.name = g.name ∧ same g f := by
  cases lines with
  | nil => cases written
  | cons first lines =>
    rw [List.map_cons, texts, List.cons.injEq, List.map_eq_append_iff] at written
    obtain ⟨head, body, last, rfl, inside, brace⟩ := written
    obtain ⟨closing, rfl, closed⟩ := List.map_eq_singleton_iff.mp brace
    obtain ⟨f, read, name, holds⟩ := rereads first body head inside
    refine ⟨f, ?_, name, holds⟩
    have opening : progress ⟨fs, none⟩ first = .ok ⟨fs, some (first, [])⟩ := by
      have start : (afterStart? "fn " first.text).isSome = true := by
        rw [head, renderHeader_toList, afterStart?_append]
        rfl
      have skipped : (first.text.isEmpty || first.text.head? == some ';') = false := by
        rw [head, renderHeader_toList]
        rfl
      rw [progress, skipped, start]
      rfl
    have inner : ∀ line ∈ body, Inner line.text := by
      intro line hl
      have mem : line.text ∈ g.layout.flatMap (blockTexts g) := inside ▸ List.mem_map_of_mem hl
      obtain ⟨b, hb, mem⟩ := List.mem_flatMap.mp mem
      exact inner_blockTexts h hb _ mem
    have distinct : ¬ ∃ f' ∈ fs, f'.name = f.name := by
      rintro ⟨f', hf', e⟩
      exact new f' hf' (e.trans name)
    have finish : progress ⟨fs, some (first, body.reverse)⟩ closing = .ok ⟨fs ++ [f], none⟩ := by
      rw [progress, closed]
      simp [read, distinct, ok_bind, pure, Except.pure]
    rw [List.foldlM_cons, opening, ok_bind, List.foldlM_append, foldlM_inner inner, ok_bind, List.append_nil,
      List.foldlM_cons, finish, ok_bind]
    rfl

theorem progress_blank {p : Progress} {line : Line} (blank : line.text = []) : progress p line = .ok p := by
  rw [progress, blank]
  rfl

def programTexts (gs : List Function) : List (List Char) :=
  List.intercalate [[]] (gs.map texts)

theorem programTexts_cons {g g' : Function} {gs : List Function} :
    programTexts (g :: g' :: gs) = texts g ++ [] :: programTexts (g' :: gs) := by
  simp [programTexts, List.intercalate_cons_cons]

theorem foldlM_programTexts {same : Function → Function → Prop} {gs fs : List Function} {lines : List Line}
    (legible : ∀ g ∈ gs, g.Legible) (rereads : ∀ g ∈ gs, Rereads same g)
    (distinct : (fs.map (·.name) ++ gs.map (·.name)).Nodup) (written : lines.map Line.text = programTexts gs) :
    ∃ hs, lines.foldlM progress ⟨fs, none⟩ = .ok ⟨fs ++ hs, none⟩ ∧ List.Forall₂ same gs hs := by
  induction gs generalizing fs lines with
  | nil =>
    cases List.map_eq_nil_iff.mp written
    exact ⟨[], by simp [pure, Except.pure], .nil⟩
  | cons g gs ih =>
    have new : ∀ f ∈ fs, f.name ≠ g.name := by
      intro f hf e
      exact (List.nodup_append.mp distinct).2.2 f.name (List.mem_map_of_mem hf) g.name List.mem_cons_self e
    have hg := legible g List.mem_cons_self
    have one := rereads g List.mem_cons_self
    cases gs with
    | nil =>
      have written : lines.map Line.text = texts g := by simpa [programTexts, List.intercalate] using written
      obtain ⟨f, run, -, holds⟩ := foldlM_texts hg one new written
      exact ⟨[f], run, .cons holds .nil⟩
    | cons g' gs =>
      rw [programTexts_cons, List.map_eq_append_iff] at written
      obtain ⟨here, there, rfl, front, back⟩ := written
      cases there with
      | nil => cases back
      | cons blank rest =>
        rw [List.map_cons, List.cons.injEq] at back
        obtain ⟨f, run, name, holds⟩ := foldlM_texts hg one new front
        have distinct' : ((fs ++ [f]).map (·.name) ++ (g' :: gs).map (·.name)).Nodup := by
          simpa [name] using distinct
        obtain ⟨hs, more, all⟩ := @ih (fs ++ [f]) rest (fun k hk => legible k (List.mem_cons_of_mem _ hk))
          (fun k hk => rereads k (List.mem_cons_of_mem _ hk)) distinct' back.2
        refine ⟨f :: hs, ?_, .cons holds all⟩
        rw [List.foldlM_append, run, ok_bind, List.foldlM_cons, progress_blank back.1, ok_bind, more,
          List.append_assoc]
        rfl

end Reader

namespace Program

open Reader

variable {p : Program}

def renderLines (gs : List Function) : List (List Char) :=
  List.intercalate [[]] (gs.map fun g => g.renderLines.map String.toList)

theorem renderLines_singleton {g : Function} : renderLines [g] = g.renderLines.map String.toList := by
  simp [renderLines, List.intercalate]

theorem renderLines_cons {g g' : Function} {gs : List Function} : renderLines (g :: g' :: gs) =
    g.renderLines.map String.toList ++ [] :: renderLines (g' :: gs) := by
  simp [renderLines, List.intercalate_cons_cons]

theorem render_toList (gs : List Function) :
    (Program.mk gs).render.toList = (renderLines gs).flatMap (· ++ ['\n']) := by
  have one (g : Function) : g.render.toList = (g.renderLines.map String.toList).flatMap (· ++ ['\n']) := by
    rw [Function.render, String.toList_join, List.flatMap_map, List.flatMap_map]
    exact List.flatMap_congr fun l _ => String.toList_append
  rw [render, String.toList_intercalate, List.map_map]
  induction gs with
  | nil => rfl
  | cons g gs ih =>
    cases gs with
    | nil => simp [renderLines_singleton, List.intercalate, one]
    | cons g' gs =>
      have rest : List.intercalate "\n".toList ((g' :: gs).map (String.toList ∘ Function.render)) =
          (renderLines (g' :: gs)).flatMap (· ++ ['\n']) := ih
      rw [List.map_cons] at rest
      rw [List.map_cons, List.map_cons, List.intercalate_cons_cons, rest, renderLines_cons, List.flatMap_append,
        ← one, List.flatMap_cons, List.append_assoc]
      rfl

theorem newline_not_mem_renderLines {gs : List Function} (legible : ∀ g ∈ gs, g.Legible) :
    ∀ l ∈ renderLines gs, '\n' ∉ l := by
  have one {g : Function} (hg : g.Legible) : ∀ l ∈ g.renderLines.map String.toList, '\n' ∉ l := by
    intro l hl
    obtain ⟨s, hs, rfl⟩ := List.mem_map.mp hl
    exact Reader.newline_not_mem_renderLines hg s hs
  induction gs with
  | nil => simp [renderLines, List.intercalate]
  | cons g gs ih =>
    have here := one (legible g List.mem_cons_self)
    cases gs with
    | nil => rwa [renderLines_singleton]
    | cons g' gs =>
      rw [renderLines_cons]
      intro l hl
      rcases List.mem_append.mp hl with hl | hl
      · exact here l hl
      · rcases List.mem_cons.mp hl with rfl | hl
        · exact List.not_mem_nil
        · exact ih (fun k hk => legible k (List.mem_cons_of_mem _ hk)) l hl

theorem lines_render (legible : ∀ g ∈ p.functions, g.Legible) :
    (lines p.render.toList).map trim = programTexts p.functions := by
  obtain ⟨gs⟩ := p
  rw [render_toList, lines_flatMap (newline_not_mem_renderLines legible)]
  have one {g : Function} (hg : g.Legible) : (g.renderLines.map String.toList).map trim = texts g := by
    rw [List.map_map]
    exact trim_renderLines hg
  change ∀ g ∈ gs, g.Legible at legible
  change (renderLines gs).map trim = programTexts gs
  induction gs with
  | nil => rfl
  | cons g gs ih =>
    have here := one (legible g List.mem_cons_self)
    cases gs with
    | nil => simpa [renderLines_singleton, programTexts, List.intercalate] using here
    | cons g' gs =>
      rw [programTexts_cons, ← here, ← ih fun k hk => legible k (List.mem_cons_of_mem _ hk), renderLines_cons,
        List.map_append]
      rfl

theorem read_of_rereads {same : Function → Function → Prop} (legible : ∀ g ∈ p.functions, g.Legible)
    (rereads : ∀ g ∈ p.functions, Rereads same g) (distinct : (p.functions.map (·.name)).Nodup) :
    ∃ q, read p.render = .ok q ∧ List.Forall₂ same p.functions q.functions := by
  have written : (numberedLines p.render).map Line.text = programTexts p.functions := by
    rw [← lines_render legible, numberedLines, List.map_map]
    conv_rhs => rw [← List.zipIdx_map_fst 0 (lines p.render.toList), List.map_map]
    rfl
  obtain ⟨hs, run, all⟩ := foldlM_programTexts legible rereads (by simpa using distinct : ([].map Function.name ++ p.functions.map (·.name)).Nodup) written
  refine ⟨⟨hs⟩, ?_, all⟩
  simp only [read, run, ok_bind]
  rfl

end Program

theorem map_eq_map_of_forall₂ {α β γ : Type} {same : α → β → Prop} {image : α → γ} {image' : β → γ} {xs : List α}
    {ys : List β} (one : ∀ x y, same x y → image' y = image x) (all : List.Forall₂ same xs ys) :
    ys.map image' = xs.map image := by
  induction all with
  | nil => rfl
  | cons h _ ih => rw [List.map_cons, List.map_cons, one _ _ h, ih]

/-! ## Programs that were read before -/

namespace Reader

/-- What is known of the functions read so far, and of the lines of the one that is still open. -/
structure Collected (p : Progress) : Prop where
  typed : ∀ f ∈ p.functions, ∃ g untyped, Typed g f untyped
  distinct : (p.functions.map (·.name)).Nodup
  single : ∀ first body, p.opened = some (first, body) → ∀ line ∈ body, '\n' ∉ line.text

theorem Collected.progress {p p' : Progress} {line : Line} (h : Collected p) (single : '\n' ∉ line.text)
    (run : progress p line = .ok p') : Collected p' := by
  unfold Reader.progress at run
  split at run
  · cases run
    exact h
  · split at run
    · split at run
      · cases run
        refine ⟨h.typed, h.distinct, ?_⟩
        rintro _ _ ⟨⟩
        simp
      · cases run
    · next first body opened =>
      split at run
      · obtain ⟨f, read, run⟩ := bind_eq_ok_iff.1 run
        split at run
        · cases run
        · next new =>
          cases run
          refine ⟨fun f' hf' => ?_, ?_, nofun⟩
          · rcases List.mem_append.mp hf' with hf' | hf'
            · exact h.typed f' hf'
            · rw [List.mem_singleton.mp hf']
              obtain ⟨g, untyped, transcript, types, wf⟩ := transcript_of_function
                (fun l hl => h.single first body opened l (List.mem_reverse.mp hl)) read
              exact ⟨g, untyped, transcript, types, wf⟩
          · rw [List.map_append, List.map_singleton, ← List.concat_eq_append]
            refine h.distinct.concat fun mem => new ?_
            obtain ⟨f', hf', e⟩ := List.mem_map.mp mem
            exact List.any_eq_true.mpr ⟨f', hf', by simpa using e⟩
      · cases run
        refine ⟨h.typed, h.distinct, ?_⟩
        rintro _ _ ⟨⟩
        exact List.forall_mem_cons.mpr ⟨single, h.single first body opened⟩

end Reader

namespace Program

open Reader

variable {p : Program} {text : String}

theorem typed_of_read (run : read text = .ok p) :
    (∀ f ∈ p.functions, ∃ g untyped, Typed g f untyped) ∧ (p.functions.map (·.name)).Nodup := by
  unfold read at run
  rw [bind_eq_ok_iff] at run
  obtain ⟨last, passes, run⟩ := run
  have single : ∀ line ∈ numberedLines text, '\n' ∉ line.text := by
    intro line hl
    obtain ⟨⟨l, n⟩, mem, rfl⟩ := List.mem_map.mp hl
    have free := not_mem_of_mem_lines (List.fst_mem_of_mem_zipIdx mem)
    exact fun found => free ((trim_isInfix l).subset found)
  have all := foldlM_ok_induction_on Collected (fun q line hl q' h step => h.progress (single line hl) step)
    ⟨by simp, by simp, fun _ _ e => by cases e⟩ passes
  split at run
  · cases run
  · cases run
    exact ⟨all.typed, all.distinct⟩

def canonical (p : Program) : Program :=
  ⟨p.functions.map Function.canonical⟩

theorem read_canonical (run : read text = .ok p) :
    read p.render = .ok p.canonical ∧ p.canonical.render = p.render := by
  obtain ⟨typed, distinct⟩ := typed_of_read run
  have legible : ∀ f ∈ p.functions, f.Legible := by
    intro f hf
    obtain ⟨g, untyped, h⟩ := typed f hf
    exact h.legible
  have rereads : ∀ f ∈ p.functions, Rereads (fun f h => h = f.canonical ∧ h.render = f.render) f := by
    intro f hf first body head lines
    obtain ⟨g, untyped, h⟩ := typed f hf
    obtain ⟨read, same⟩ := h.function_canonical head lines
    exact ⟨_, read, rfl, rfl, same⟩
  obtain ⟨q, read, all⟩ := read_of_rereads legible rereads distinct
  have functions : q.functions.map id = p.functions.map Function.canonical :=
    map_eq_map_of_forall₂ (fun _ _ h => h.1) all
  have texts : q.functions.map Function.render = p.functions.map Function.render :=
    map_eq_map_of_forall₂ (fun _ _ h => h.2) all
  rw [List.map_id] at functions
  have eq : q = p.canonical := by
    cases q
    exact congrArg Program.mk functions
  subst eq
  exact ⟨read, congrArg (String.intercalate "\n") texts⟩

end Program

end CheckpointRestart
