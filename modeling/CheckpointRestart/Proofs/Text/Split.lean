import CheckpointRestart.Text.Split
import Mathlib.Data.List.Infix

/-! # Cutting text where it was joined

Parts that are joined with separators are found again when the text is cut, as long as no separator
stands inside a part. For lists the separators are commas outside brackets. A part is closed if its
brackets match and it has no comma outside them, and tight if trimming leaves it as it is.
-/

namespace CheckpointRestart.Text

variable {s t front back : List Char} {c : Char}

/-! ## White space -/

/-- A text with no white space at its ends. -/
structure Tight (s : List Char) : Prop where
  nonempty : s ≠ []
  first : ∀ c ∈ s.head?, isBlank c = false
  last : ∀ c ∈ s.getLast?, isBlank c = false

namespace Tight

theorem singleton (h : isBlank c = false) : Tight [c] :=
  ⟨by simp, by simpa using h, by simpa using h⟩

theorem append (hs : Tight s) (ht : Tight t) (middle : List Char) : Tight (s ++ (middle ++ t)) := by
  refine ⟨by simp [hs.nonempty], ?_, ?_⟩
  · rw [List.head?_append_of_ne_nil _ hs.nonempty]
    exact hs.first
  · rw [← List.append_assoc, List.getLast?_append_of_ne_nil _ ht.nonempty]
    exact ht.last

theorem of_all (nonempty : s ≠ []) (h : ∀ c ∈ s, isBlank c = false) : Tight s :=
  ⟨nonempty, fun c hc => h c (List.mem_of_mem_head? hc), fun c hc => h c (List.mem_of_getLast? hc)⟩

theorem trimStart (h : Tight s) : trimStart s = s := by
  cases s with
  | nil => rfl
  | cons c s => exact List.dropWhile_cons_of_neg (by simp [h.first c rfl])

theorem trimEnd (h : Tight s) : trimEnd s = s := by
  have last := h.last
  rw [← List.head?_reverse] at last
  cases e : s.reverse with
  | nil => exact absurd (List.reverse_eq_nil_iff.mp e) h.nonempty
  | cons c r =>
    rw [e] at last
    rw [Text.trimEnd, e, List.dropWhile_cons_of_neg (by simp [last c rfl]), ← e, List.reverse_reverse]

theorem trim (h : Tight s) : trim s = s := by
  rw [Text.trim, h.trimStart, h.trimEnd]

theorem trim_surrounded (h : Tight s) (before : ∀ c ∈ front, isBlank c = true)
    (behind : ∀ c ∈ back, isBlank c = true) : Text.trim (front ++ (s ++ back)) = s := by
  have start : Text.trimStart (front ++ (s ++ back)) = s ++ back := by
    rw [Text.trimStart, List.dropWhile_append_of_pos before]
    cases s with
    | nil => exact absurd rfl h.nonempty
    | cons c s => exact List.dropWhile_cons_of_neg (by simp [h.first c rfl])
  rw [Text.trim, start, Text.trimEnd, List.reverse_append,
    List.dropWhile_append_of_pos fun c hc => behind c (List.mem_reverse.mp hc)]
  exact h.trimEnd

theorem trim_cons (h : Tight s) (blank : isBlank c = true) : Text.trim (c :: s) = s := by
  have : Text.trim ([c] ++ (s ++ [])) = s := h.trim_surrounded (by simpa using blank) (by simp)
  rwa [List.append_nil] at this

theorem trim_concat (h : Tight s) (blank : isBlank c = true) : Text.trim (s ++ [c]) = s := by
  have : Text.trim ([] ++ (s ++ [c])) = s := h.trim_surrounded (by simp) (by simpa using blank)
  rwa [List.nil_append] at this

end Tight

theorem tight_trim (h : trim s ≠ []) : Tight (trim s) := by
  have head : ∀ (t : List Char), ∀ c ∈ (t.dropWhile isBlank).head?, isBlank c = false := by
    intro t c hc
    have := List.head?_dropWhile_not isBlank t
    rw [Option.mem_def.mp hc] at this
    exact this
  refine ⟨h, ?_, ?_⟩
  · intro c hc
    -- trimming the end keeps the first character
    have front : ∃ back, trimStart s = trim s ++ back := by
      obtain ⟨back, e⟩ := List.dropWhile_suffix isBlank (l := (trimStart s).reverse)
      refine ⟨back.reverse, ?_⟩
      rw [trim, trimEnd, ← List.reverse_append, e, List.reverse_reverse]
    obtain ⟨back, e⟩ := front
    refine head s c ?_
    change c ∈ (trimStart s).head?
    rw [e, List.head?_append_of_ne_nil _ h]
    exact hc
  · intro c hc
    rw [trim, trimEnd, List.getLast?_reverse] at hc
    exact head _ c hc

theorem trim_isInfix (s : List Char) : trim s <:+: s := by
  have start : trimStart s <:+: s := (List.dropWhile_suffix isBlank).isInfix
  have suffix : (trimStart s).reverse.dropWhile isBlank <:+ (trimStart s).reverse :=
    List.dropWhile_suffix isBlank
  have front : trim s <+: trimStart s := by
    rw [← List.reverse_suffix]
    rwa [trim, trimEnd, List.reverse_reverse]
  exact front.isInfix.trans start

/-! ## Single separators -/

theorem splitAtChar?_append (h : c ∉ front) : splitAtChar? c (front ++ c :: back) = some (front, back) := by
  induction front with
  | nil => simp [splitAtChar?]
  | cons d front ih =>
    rw [List.mem_cons, not_or] at h
    simp [splitAtChar?, Ne.symm h.1, ih h.2]

theorem splitAtChar?_eq_none (h : c ∉ s) : splitAtChar? c s = none := by
  induction s with
  | nil => rfl
  | cons d s ih =>
    rw [List.mem_cons, not_or] at h
    simp [splitAtChar?, Ne.symm h.1, ih h.2]

theorem splitAtChar?_eq_some_iff :
    splitAtChar? c s = some (front, back) ↔ s = front ++ c :: back ∧ c ∉ front := by
  refine ⟨fun h => ?_, fun ⟨e, h⟩ => e ▸ splitAtChar?_append h⟩
  induction s generalizing front with
  | nil => cases h
  | cons d s ih =>
    rw [splitAtChar?] at h
    split at h
    · next e =>
      cases h
      simp [e]
    · next ne =>
      obtain ⟨⟨before, after⟩, found, e⟩ := Option.map_eq_some_iff.mp h
      cases e
      obtain ⟨rfl, free⟩ := ih found
      simp [free, Ne.symm ne]

theorem dropStart?_eq_some_iff {start rest : List Char} :
    dropStart? start s = some rest ↔ s = start ++ rest := by
  induction start generalizing s with
  | nil => simp [dropStart?, eq_comm]
  | cons c start ih =>
    cases s with
    | nil => simp [dropStart?]
    | cons d s =>
      by_cases e : c = d
      · simp [dropStart?, e, ih]
      · simp [dropStart?, e, Ne.symm e]

theorem dropStart?_append (start s : List Char) : dropStart? start (start ++ s) = some s :=
  dropStart?_eq_some_iff.2 rfl

theorem dropStart?_eq_none_iff {start : List Char} : dropStart? start s = none ↔ ¬ start <+: s := by
  rw [Option.eq_none_iff_forall_ne_some]
  simp only [ne_eq, dropStart?_eq_some_iff]
  constructor
  · rintro h ⟨rest, e⟩
    exact h rest e.symm
  · rintro h rest rfl
    exact h (List.prefix_append _ _)

theorem splitAt?_eq_none_iff {sep : List Char} (nonempty : sep ≠ []) :
    splitAt? sep s = none ↔ ¬ sep <:+: s := by
  induction s with
  | nil => simp [splitAt?, nonempty]
  | cons c s ih =>
    rw [splitAt?, List.infix_cons_iff, not_or]
    cases h : dropStart? sep (c :: s) with
    | none => simp [ih, dropStart?_eq_none_iff.1 h]
    | some rest =>
      simp only [reduceCtorEq, false_iff, not_and]
      intro free
      exact absurd ⟨rest, (dropStart?_eq_some_iff.1 h).symm⟩ free

/-- The first separator is found if its first character does not stand before it. -/
theorem splitAt?_append {sep : List Char} (h : c ∉ front) :
    splitAt? (c :: sep) (front ++ (c :: sep ++ back)) = some (front, back) := by
  induction front with
  | nil =>
    rw [List.nil_append, List.cons_append, splitAt?, ← List.cons_append, dropStart?_append]
  | cons d front ih =>
    rw [List.mem_cons, not_or] at h
    rw [List.cons_append, splitAt?, dropStart?, if_neg h.1, ih h.2]
    rfl

theorem splitAt?_pair {d : Char} (ne : c ≠ d) (h : d ∉ front) :
    splitAt? [c, d] (front ++ c :: d :: back) = some (front, back) := by
  induction front with
  | nil => simp [splitAt?, dropStart?]
  | cons e front ih =>
    rw [List.mem_cons, not_or] at h
    have free : dropStart? [c, d] (e :: (front ++ c :: d :: back)) = none := by
      cases front with
      | nil => simp [dropStart?, Ne.symm ne]
      | cons e' front =>
        have other : d ≠ e' := fun x => h.2 (x ▸ List.mem_cons_self)
        simp [dropStart?, other]
    rw [List.cons_append, splitAt?, free, ih h.2]
    rfl

theorem splitAtLast?_append {sep : List Char} (h : c ∉ back) :
    splitAtLast? (sep ++ [c]) (front ++ (sep ++ c :: back)) = some (front, back) := by
  have e : (front ++ (sep ++ c :: back)).reverse = back.reverse ++ (c :: sep.reverse ++ front.reverse) := by
    simp
  rw [splitAtLast?, e, List.reverse_concat, splitAt?_append (by simpa using h)]
  simp

theorem splitAtLast?_pair {d : Char} (ne : c ≠ d) (h : c ∉ back) :
    splitAtLast? [c, d] (front ++ c :: d :: back) = some (front, back) := by
  have e : (front ++ c :: d :: back).reverse = back.reverse ++ d :: c :: front.reverse := by simp
  rw [splitAtLast?, e]
  change (splitAt? [d, c] _).map _ = _
  rw [splitAt?_pair ne.symm (by simpa using h)]
  simp

/-! ## Beginnings and endings -/

theorem afterStart?_append (start : String) (s : List Char) :
    afterStart? start (start.toList ++ s) = some s :=
  dropStart?_append _ _

theorem beforeEnd?_eq_some_iff : beforeEnd? c s = some front ↔ s = front ++ [c] := by
  unfold beforeEnd?
  constructor
  · intro h
    split at h
    · next last =>
      cases h
      obtain ⟨ys, rfl⟩ := List.getLast?_eq_some_iff.mp last
      simp
    · cases h
  · rintro rfl
    simp

theorem beforeEnd?_concat : beforeEnd? c (front ++ [c]) = some front :=
  beforeEnd?_eq_some_iff.2 rfl

theorem between?_append (start : String) (s : List Char) :
    between? start c (start.toList ++ (s ++ [c])) = some s := by
  rw [between?, afterStart?_append, Option.bind_some, beforeEnd?_concat]

/-! ## Lists -/

/-- The bracket depth behind a text that is read from `depth` on, unless a comma outside all
brackets is met. -/
def depthBehind? (depth : Int) : List Char → Option Int
  | [] => some depth
  | c :: rest => if c = ',' ∧ depth = 0 then none else depthBehind? (depth + depthChange c) rest

theorem depthBehind?_append {d : Int} :
    depthBehind? d (s ++ t) = (depthBehind? d s).bind fun d => depthBehind? d t := by
  induction s generalizing d with
  | nil => rfl
  | cons c s ih =>
    rw [List.cons_append, depthBehind?, depthBehind?]
    split
    · rfl
    · exact ih

/-- Inside brackets the text changes no depth. -/
def Inner (s : List Char) : Prop :=
  ∀ d : Int, 0 < d → depthBehind? d s = some d

/-- Brackets match, and commas stand only inside them. -/
def Closed (s : List Char) : Prop :=
  ∀ d : Int, 0 ≤ d → depthBehind? d s = some d

theorem Closed.inner (h : Closed s) : Inner s :=
  fun d pos => h d (Int.le_of_lt pos)

theorem Inner.append (hs : Inner s) (ht : Inner t) : Inner (s ++ t) := by
  intro d pos
  rw [depthBehind?_append, hs d pos, Option.bind_some, ht d pos]

theorem Closed.append (hs : Closed s) (ht : Closed t) : Closed (s ++ t) := by
  intro d pos
  rw [depthBehind?_append, hs d pos, Option.bind_some, ht d pos]

/-- A character that neither separates nor nests. -/
def isPlain (c : Char) : Bool :=
  c != ',' && depthChange c == 0

theorem closed_of_plain (h : ∀ c ∈ s, isPlain c = true) : Closed s := by
  intro d pos
  induction s with
  | nil => rfl
  | cons c s ih =>
    have plain : c ≠ ',' ∧ depthChange c = 0 := by simpa [isPlain] using h c List.mem_cons_self
    rw [depthBehind?, if_neg fun e => plain.1 e.1, plain.2, Int.add_zero]
    exact ih fun d hd => h d (List.mem_cons_of_mem _ hd)

theorem inner_comma : Inner [',', ' '] := by
  intro d pos
  have ne : d ≠ 0 := by omega
  simp [depthBehind?, ne, depthChange]

theorem Inner.closed {opening closing : Char} (h : Inner s) (up : depthChange opening = 1)
    (down : depthChange closing = -1) : Closed (opening :: (s ++ [closing])) := by
  have comma : ∀ c, depthChange c ≠ 0 → c ≠ ',' := by
    rintro _ h rfl
    exact h (by decide)
  intro d pos
  have before := comma opening (by simp [up])
  have behind := comma closing (by simp [down])
  rw [depthBehind?, if_neg fun e => before e.1, up, depthBehind?_append, h _ (by omega), Option.bind_some,
    depthBehind?, if_neg fun e => behind e.1, down, depthBehind?]
  congr 1
  omega

theorem pieces_of_depthBehind? {d d' : Int} (h : depthBehind? d s = some d') : pieces d s = [s] := by
  induction s generalizing d with
  | nil => rfl
  | cons c s ih =>
    rw [depthBehind?] at h
    split at h
    · cases h
    · next inside => rw [pieces, if_neg inside, ih h]

theorem pieces_append {d : Int} (h : depthBehind? d s = some 0) :
    pieces d (s ++ ',' :: t) = s :: pieces 0 t := by
  induction s generalizing d with
  | nil =>
    cases h
    simp [pieces]
  | cons c s ih =>
    rw [depthBehind?] at h
    split at h
    · cases h
    · next inside => rw [List.cons_append, pieces, if_neg inside, ih h]

def commaJoin (parts : List (List Char)) : List Char :=
  [',', ' '].intercalate parts

theorem commaJoin_cons {p q : List Char} {parts : List (List Char)} :
    commaJoin (p :: q :: parts) = p ++ ',' :: ' ' :: commaJoin (q :: parts) := by
  simp [commaJoin, List.intercalate_cons_cons]

theorem commaJoin_singleton {p : List Char} : commaJoin [p] = p := by
  simp [commaJoin]

/-- A part of a list. -/
structure Part (s : List Char) : Prop where
  tight : Tight s
  closed : Closed s

theorem tight_commaJoin {p : List Char} {parts : List (List Char)}
    (h : ∀ q ∈ p :: parts, Tight q) : Tight (commaJoin (p :: parts)) := by
  induction parts generalizing p with
  | nil => simpa [commaJoin_singleton] using h p
  | cons q parts ih =>
    rw [commaJoin_cons]
    exact (h p List.mem_cons_self).append (ih fun r hr => h r (List.mem_cons_of_mem _ hr)) [',', ' ']

theorem inner_commaJoin {parts : List (List Char)} (h : ∀ p ∈ parts, Closed p) :
    Inner (commaJoin parts) := by
  induction parts with
  | nil => exact fun d _ => rfl
  | cons p parts ih =>
    have rest := ih fun q hq => h q (List.mem_cons_of_mem _ hq)
    cases parts with
    | nil =>
      rw [commaJoin_singleton]
      exact (h p List.mem_cons_self).inner
    | cons q parts =>
      rw [commaJoin_cons]
      exact (h p List.mem_cons_self).inner.append (inner_comma.append rest)

theorem map_trim_pieces {p : List Char} {parts : List (List Char)} (h : ∀ q ∈ p :: parts, Part q) :
    (pieces 0 (commaJoin (p :: parts))).map trim = p :: parts := by
  induction parts generalizing p with
  | nil =>
    obtain ⟨tight, closed⟩ := h p List.mem_cons_self
    rw [commaJoin_singleton, pieces_of_depthBehind? (closed 0 (Int.le_refl 0)), List.map_singleton,
      tight.trim]
  | cons q parts ih =>
    obtain ⟨tight, closed⟩ := h p List.mem_cons_self
    have rest := ih fun r hr => h r (List.mem_cons_of_mem _ hr)
    rw [commaJoin_cons, pieces_append (closed 0 (Int.le_refl 0)), List.map_cons, tight.trim]
    -- the blank behind the comma goes to the next part
    cases e : pieces 0 (commaJoin (q :: parts)) with
    | nil =>
      rw [e] at rest
      cases rest
    | cons r rs =>
      have blank : pieces 0 (' ' :: commaJoin (q :: parts)) = (' ' :: r) :: rs := by
        have level : (0 : Int) + depthChange ' ' = 0 := by decide
        rw [pieces, if_neg (by decide), level, e]
      rw [e] at rest
      rw [blank]
      have skip : trim (' ' :: r) = trim r := by
        rw [trim, trimStart, List.dropWhile_cons_of_pos (by decide)]
        rfl
      rw [List.map_cons] at rest ⊢
      rw [skip, rest]

/-- The parts of a list are found again. -/
theorem commaParts_commaJoin {parts : List (List Char)} (h : ∀ p ∈ parts, Part p) :
    commaParts (commaJoin parts) = parts := by
  cases parts with
  | nil => rfl
  | cons p parts =>
    have tight := tight_commaJoin fun q hq => (h q hq).tight
    rw [commaParts, tight.trim]
    split
    · next e => exact absurd e tight.nonempty
    · exact map_trim_pieces h

/-! ## Lines -/

theorem lineFeedPieces_append (free : '\n' ∉ front) :
    lineFeedPieces (front ++ '\n' :: s) = front :: lineFeedPieces s := by
  induction front with
  | nil => simp [lineFeedPieces, consPiece]
  | cons c front ih =>
    rw [List.mem_cons, not_or] at free
    rw [List.cons_append]
    change consPiece c (lineFeedPieces (front ++ '\n' :: s)) = _
    rw [ih free.2, consPiece, if_neg (Ne.symm free.1)]

/-- Lines that each end in a line feed are found again. -/
theorem lines_flatMap {ls : List (List Char)} (h : ∀ l ∈ ls, '\n' ∉ l) :
    lines (ls.flatMap (· ++ ['\n'])) = ls := by
  have pieces : lineFeedPieces (ls.flatMap (· ++ ['\n'])) = ls ++ [[]] := by
    induction ls with
    | nil => rfl
    | cons l ls ih =>
      rw [List.flatMap_cons, List.append_assoc, List.singleton_append,
        lineFeedPieces_append (h l List.mem_cons_self), ih fun k hk => h k (List.mem_cons_of_mem _ hk)]
      rfl
  simp [lines, pieces]

theorem not_mem_of_mem_lines {l : List Char} (h : l ∈ lines s) : '\n' ∉ l := by
  have all : ∀ s : List Char, ∀ l ∈ lineFeedPieces s, '\n' ∉ l := by
    intro s
    induction s with
    | nil => simp [lineFeedPieces]
    | cons c s ih =>
      change ∀ l ∈ consPiece c (lineFeedPieces s), '\n' ∉ l
      by_cases ne : c = '\n'
      · rw [consPiece.eq_def, if_pos ne]
        simpa using ih
      · rw [consPiece.eq_def, if_neg ne]
        cases e : lineFeedPieces s with
        | nil => simpa using Ne.symm ne
        | cons k ks =>
          rw [e] at ih
          intro l hl
          rcases List.mem_cons.mp hl with rfl | hl
          · simp [Ne.symm ne, ih k List.mem_cons_self]
          · exact ih l (List.mem_cons_of_mem _ hl)
  refine all s l ?_
  simp only [lines] at h
  split at h
  · exact List.dropLast_subset _ h
  · exact h

end CheckpointRestart.Text
