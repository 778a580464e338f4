import CheckpointRestart.Program.Printer
import CheckpointRestart.Program.Reader.Instruction
import CheckpointRestart.Proofs.Number.Literal
import CheckpointRestart.Proofs.Text.Split
import Mathlib

/-! # Types and constants are read back

The smallest parts of a program's text: names, types and constants. Each is written without a comma
outside brackets and without white space at its ends, so that it can stand in a list.
-/

namespace CheckpointRestart

open Text

/-! ## Characters -/

namespace Text

variable {s t : List Char} {c : Char}

def isWord (c : Char) : Bool :=
  c.isAlphanum || c == '_' || c == '.' || c == '-'

theorem isIdentifier_iff : isIdentifier s = true ↔ s ≠ [] ∧ ∀ c ∈ s, isWord c = true := by
  simp [isIdentifier, isWord]

theorem isWord_of_isNumeral (h : Number.isNumeral c = true) : isWord c = true := by
  simp only [Number.isNumeral, isWord, Bool.or_eq_true] at h ⊢
  rcases h with (h | h) | h
  exacts [.inl (.inl (.inl h)), .inl (.inr h), .inr h]

theorem of_ascii (p : Char → Bool) (all : ∀ n < 128, p (Char.ofNat n) = true) (lt : c.toNat < 128) :
    p c = true := by
  have := all c.toNat lt
  rwa [Char.ofNat_toNat] at this

theorem ascii_of_isWord (h : isWord c = true) : c.toNat < 128 := by
  simp only [isWord, Char.isAlphanum, Char.isAlpha, Char.isUpper, Char.isLower, Char.isDigit,
    Bool.or_eq_true, Bool.and_eq_true, decide_eq_true_eq, beq_iff_eq] at h
  rcases h with ((((h | h) | h) | rfl) | rfl) | rfl
  · exact lt_of_le_of_lt (UInt32.le_iff_toNat_le.mp h.2) (by decide)
  · exact lt_of_le_of_lt (UInt32.le_iff_toNat_le.mp h.2) (by decide)
  · exact lt_of_le_of_lt (UInt32.le_iff_toNat_le.mp h.2) (by decide)
  all_goals decide

theorem isBlank_of_isWord (h : isWord c = true) : isBlank c = false := by
  have := of_ascii (fun c => !isWord c || !isBlank c) (by decide +kernel) (ascii_of_isWord h)
  simpa [h] using this

theorem isPlain_of_isWord (h : isWord c = true) : isPlain c = true := by
  have := of_ascii (fun c => !isWord c || isPlain c) (by decide +kernel) (ascii_of_isWord h)
  simpa [h] using this

theorem not_mem_of_all {p : Char → Bool} (h : ∀ c ∈ s, p c = true) (hc : p c = false) : c ∉ s := by
  intro mem
  rw [h c mem] at hc
  cases hc

theorem part_of_words (nonempty : s ≠ []) (h : ∀ c ∈ s, isWord c = true) : Part s :=
  ⟨.of_all nonempty fun c hc => isBlank_of_isWord (h c hc),
    closed_of_plain fun c hc => isPlain_of_isWord (h c hc)⟩

theorem part_of_isIdentifier (h : isIdentifier s = true) : Part s :=
  part_of_words (isIdentifier_iff.1 h).1 (isIdentifier_iff.1 h).2

end Text

theorem isWord_of_mem_toString {i : Int} {c : Char} (h : c ∈ (toString i).toList) : isWord c = true :=
  isWord_of_isNumeral (Number.isNumeral_of_mem_toString h)

theorem part_toString (i : Int) : Part (toString i).toList :=
  part_of_words (toString_int_ne_nil i) fun _ => isWord_of_mem_toString

/-! ## Types -/

namespace Ty

variable {t : Ty} {s : List Char}

/-- Integers have 1 to 64 bits, and nothing points to `void`. -/
def Legal : Ty → Prop
  | int bits => 1 ≤ bits ∧ bits ≤ 64
  | ptr t => t.Legal ∧ t.isVoid = false
  | void | f32 | f64 => True

instance : (t : Ty) → Decidable t.Legal
  | int bits => inferInstanceAs (Decidable (1 ≤ bits ∧ bits ≤ 64))
  | ptr t =>
    have := instDecidableLegal t
    inferInstanceAs (Decidable (t.Legal ∧ t.isVoid = false))
  | void | f32 | f64 => .isTrue trivial

/-- The type under all pointer layers. -/
def core : Ty → Ty
  | ptr t => t.core
  | t => t

/-- The number of pointer layers. -/
def depth : Ty → Nat
  | ptr t => t.depth + 1
  | _ => 0

theorem layered_succ (t : Ty) (n : Nat) : t.layered (n + 1) = ptr (t.layered n) := by
  induction n generalizing t with
  | zero => rfl
  | succ n ih => exact ih (ptr t)

theorem layered_core (t : Ty) : t.core.layered t.depth = t := by
  induction t with
  | ptr t ih => rw [core, depth, layered_succ, ih]
  | _ => rfl

theorem isPointer_core (t : Ty) : t.core.isPointer = false := by
  induction t with
  | ptr t ih => exact ih
  | _ => rfl

theorem Legal.core (h : t.Legal) : t.core.Legal := by
  induction t with
  | ptr t ih => exact ih h.1
  | _ => exact h

theorem Legal.isVoid_core (h : t.Legal) : t.core.isVoid = true → t.depth = 0 := by
  induction t with
  | ptr t ih =>
    intro void
    cases t with
    | ptr t => exact absurd (ih h.1 void) (Nat.succ_ne_zero _)
    | void => exact absurd h.2 (by decide)
    | int | f32 | f64 => cases void
  | _ => exact fun _ => rfl

def isTypeChar (c : Char) : Bool :=
  c.isAlphanum || c == '<' || c == '>'

theorem isTypeChar_of_mem_render {c : Char} (h : c ∈ t.render.toList) : isTypeChar c = true := by
  have literal {text : List Char} (all : text.all isTypeChar = true) (h : c ∈ text) :
      isTypeChar c = true := List.all_eq_true.mp all c h
  induction t with
  | int bits =>
    rw [render, String.toList_append, List.mem_append] at h
    rcases h with h | h
    · exact literal (by decide) h
    · rw [toList_toString] at h
      simp [isTypeChar, Char.isAlphanum, isDigit_of_mem_toDigits h]
  | ptr t ih =>
    simp only [render, String.toList_append, List.mem_append] at h
    rcases h with (h | h) | h
    exacts [literal (by decide) h, ih h, literal (by decide) h]
  | _ => exact literal (by decide) h

theorem part_render (t : Ty) : Part t.render.toList := by
  induction t with
  | int bits =>
    rw [render, String.toList_append]
    refine part_of_words (by simp) fun c hc => ?_
    rcases List.mem_append.mp hc with hc | hc
    · rw [List.mem_singleton.mp hc]
      decide
    · exact isWord_of_mem_toString (i := bits) hc
  | ptr t ih =>
    have text : (ptr t).render.toList = "ptr".toList ++ ('<' :: (t.render.toList ++ ['>'])) := by
      simp [render]
    have keyword : Part "ptr".toList := part_of_words (by decide) (List.all_eq_true.mp rfl)
    rw [text]
    refine ⟨?_, keyword.closed.append (ih.closed.inner.closed rfl rfl)⟩
    exact keyword.tight.append (.singleton (by decide)) ('<' :: t.render.toList)
  | _ => exact part_of_words (by decide) (List.all_eq_true.mp rfl)

theorem render_core_head (t : Ty) : ∃ c rest, t.core.render.toList = c :: rest ∧ c ≠ 'p' := by
  induction t with
  | ptr t ih => exact ih
  | int bits => exact ⟨'i', (toString bits).toList, by simp [core, render], by decide⟩
  | void => exact ⟨'v', "oid".toList, rfl, by decide⟩
  | f32 => exact ⟨'f', "32".toList, rfl, by decide⟩
  | f64 => exact ⟨'f', "64".toList, rfl, by decide⟩

theorem trimStart_append {front s : List Char} (before : ∀ c ∈ front, isBlank c = true) :
    trimStart (front ++ s) = trimStart s :=
  List.dropWhile_append_of_pos before

theorem openings_core (t : Ty) (layers : Nat) {front : List Char} (rest : List Char)
    (before : ∀ c ∈ front, isBlank c = true) :
    openings layers (front ++ (t.core.render.toList ++ rest)) =
      (layers, front ++ (t.core.render.toList ++ rest)) := by
  obtain ⟨c, more, text, ne⟩ := render_core_head t
  have first := (part_render t.core).tight.first c (by rw [text]; rfl)
  rw [text, openings]
  split
  · next found =>
    rw [trimStart_append before, List.cons_append, trimStart,
      List.dropWhile_cons_of_neg (by simp [first])] at found
    simp [dropStart?, Ne.symm ne] at found
  · rfl

theorem openings_render (t : Ty) (layers : Nat) {front : List Char} (rest : List Char)
    (before : ∀ c ∈ front, isBlank c = true) :
    openings layers (front ++ (t.render.toList ++ rest)) = (layers + t.depth,
      (if t.depth = 0 then front else []) ++
        (t.core.render.toList ++ (List.replicate t.depth '>' ++ rest))) := by
  induction t generalizing layers front rest with
  | ptr t ih =>
    have text : (ptr t).render.toList ++ rest =
        ['p', 't', 'r', '<'] ++ (t.render.toList ++ ('>' :: rest)) := by simp [render]
    have found : dropStart? ['p', 't', 'r', '<'] (trimStart (front ++ ((ptr t).render.toList ++ rest))) =
        some (t.render.toList ++ ('>' :: rest)) := by
      rw [trimStart_append before, text, trimStart, List.cons_append,
        List.dropWhile_cons_of_neg (by decide), dropStart?_eq_some_iff]
      rfl
    rw [openings]
    split
    · next other =>
      rw [found] at other
      cases other
      have inner : openings (layers + 1) ([] ++ _) = _ := ih (layers + 1) ('>' :: rest) (by simp)
      rw [List.nil_append] at inner
      rw [inner, core, depth, if_neg (Nat.succ_ne_zero _), ite_self, List.replicate_succ',
        List.append_assoc, List.singleton_append]
      congr 1
      omega
    · next none =>
      rw [found] at none
      cases none
  | void => exact openings_core void layers rest before
  | int bits => exact openings_core (int bits) layers rest before
  | f32 => exact openings_core f32 layers rest before
  | f64 => exact openings_core f64 layers rest before

theorem closings?_replicate (n : Nat) (s : List Char) :
    closings? n (List.replicate n '>' ++ s) = some s := by
  induction n with
  | zero => rfl
  | succ n ih => exact ih

theorem closings?_blank {back : List Char} (n : Nat) (s : List Char)
    (behind : ∀ c ∈ back, isBlank c = true) : closings? n (back ++ (List.replicate n '>' ++ s)) =
      some ((if n = 0 then back else []) ++ s) := by
  cases n with
  | zero => rfl
  | succ n =>
    rw [closings?, trimStart_append behind]
    exact closings?_replicate n s

theorem readScalar?_render (h : t.Legal) (scalar : t.isPointer = false) :
    readScalar? t.render.toList = some t := by
  cases t with
  | ptr t => cases scalar
  | int bits =>
    have text : (int bits).render.toList = 'i' :: Nat.toDigits 10 bits := by
      rw [render, String.toList_append, toList_toString]
      rfl
    have digits : unsigned? 65 (Nat.toDigits 10 bits) = some bits :=
      unsigned?_toDigits (Nat.lt_succ_of_le h.2)
    have rest : afterStart? "i" ('i' :: Nat.toDigits 10 bits) = some (Nat.toDigits 10 bits) :=
      afterStart?_append "i" _
    rw [text, readScalar?]
    simp [rest, digits, h.1]
  | _ => decide

/-- A type is read back, also with white space around it. -/
theorem read?_surrounded {front back : List Char} (h : t.Legal)
    (before : ∀ c ∈ front, isBlank c = true) (behind : ∀ c ∈ back, isBlank c = true) :
    read? (front ++ (t.render.toList ++ back)) = some t := by
  have opened := openings_render t 0 back before
  have closed := closings?_blank t.depth
    (t.core.render.toList.reverse ++ (if t.depth = 0 then front else []).reverse)
    fun c (hc : c ∈ back.reverse) => behind c (List.mem_reverse.mp hc)
  have blank {s : List Char} (hs : ∀ c ∈ s, isBlank c = true) :
      ∀ c ∈ (if t.depth = 0 then s else []), isBlank c = true := by
    split
    · exact hs
    · simp
  have trimmed := (part_render t.core).tight.trim_surrounded (blank before) (blank behind)
  have void : ¬ (t.core.isVoid = true ∧ 0 < t.depth) := by
    rintro ⟨void, pos⟩
    rw [h.isVoid_core void] at pos
    cases pos
  have text : ((if t.depth = 0 then back.reverse else []) ++
      (t.core.render.toList.reverse ++ (if t.depth = 0 then front else []).reverse)).reverse =
      (if t.depth = 0 then front else []) ++
        (t.core.render.toList ++ if t.depth = 0 then back else []) := by
    split <;> simp
  rw [Nat.zero_add] at opened
  simp only [read?, opened, List.reverse_append, List.reverse_replicate, List.append_assoc]
  rw [closed, Option.bind_eq_bind, Option.bind_some, text, trimmed,
    readScalar?_render h.core (isPointer_core t), Option.bind_eq_bind, Option.bind_some, if_neg void,
    layered_core]

theorem read?_render (h : t.Legal) : read? t.render.toList = some t := by
  have : read? ([] ++ (t.render.toList ++ [])) = some t := read?_surrounded h (by simp) (by simp)
  rwa [List.nil_append, List.append_nil] at this

theorem readValue?_render (h : t.Legal) (value : t.isVoid = false) :
    readValue? t.render.toList = some t := by
  rw [readValue?, read?_render h]
  simp [value]

theorem readValue?_cons_blank (h : t.Legal) (value : t.isVoid = false) :
    readValue? (' ' :: t.render.toList) = some t := by
  have read : read? ([' '] ++ (t.render.toList ++ [])) = some t :=
    read?_surrounded h (List.all_eq_true.mp rfl) (by simp)
  rw [List.append_nil, List.singleton_append] at read
  rw [readValue?, read]
  simp [value]

theorem legal_of_readScalar? (h : readScalar? s = some t) : t.Legal := by
  unfold readScalar? at h
  split at h
  · cases h
    trivial
  · split at h
    · cases h
      trivial
    · split at h
      · cases h
        trivial
      · obtain ⟨digits, -, h⟩ := Option.bind_eq_some_iff.mp h
        obtain ⟨bits, found, rfl⟩ := Option.map_eq_some_iff.mp h
        obtain ⟨read, pos⟩ := Option.filter_eq_some_iff.mp found
        have lt := (Option.filter_eq_some_iff.mp read).2
        simp only [decide_eq_true_eq] at pos lt
        exact ⟨pos, by omega⟩

theorem legal_layered (h : t.Legal) (n : Nat) (void : t.isVoid = true → n = 0) :
    (t.layered n).Legal ∧ ((t.layered n).isVoid = true → t.isVoid = true) := by
  induction n with
  | zero => exact ⟨h, id⟩
  | succ n ih =>
    have value : t.isVoid = false := by
      by_contra h
      exact absurd (void (by simpa using h)) (Nat.succ_ne_zero n)
    obtain ⟨legal, inner⟩ := ih fun h => by simp [value] at h
    rw [layered_succ]
    refine ⟨⟨legal, ?_⟩, fun h => by cases h⟩
    by_contra h
    simp [value] at inner
    simp [inner] at h

theorem legal_of_read? (h : read? s = some t) : t.Legal := by
  unfold read? at h
  simp only [Option.bind_eq_bind, Option.bind_eq_some_iff] at h
  obtain ⟨core, -, u, scalar, h⟩ := h
  split at h
  · cases h
  · next layers =>
    cases h
    refine (legal_layered (legal_of_readScalar? scalar) _ fun void => ?_).1
    by_contra pos
    exact layers ⟨void, Nat.pos_of_ne_zero pos⟩

theorem legal_of_readValue? (h : readValue? s = some t) : t.Legal ∧ t.isVoid = false := by
  obtain ⟨read, value⟩ := Option.filter_eq_some_iff.mp h
  exact ⟨legal_of_read? read, by simpa using value⟩

end Ty

/-! ## Constants -/

namespace Constant

open Number Reader.Context

variable {c : Constant} {s : List Char}

/-- A constant of a legal type, in the range of its width. -/
def Legal : Constant → Prop
  | int bits n => (Ty.int bits).Legal ∧ Word.signExtend n bits = n
  | null t => t.Legal ∧ t.isPointer = true
  | f32 _ | f64 _ => True

instance : (c : Constant) → Decidable c.Legal
  | int bits n => inferInstanceAs (Decidable ((Ty.int bits).Legal ∧ Word.signExtend n bits = n))
  | null t => inferInstanceAs (Decidable (t.Legal ∧ t.isPointer = true))
  | f32 _ | f64 _ => .isTrue trivial

/-- The constant with the one NaN of its type in place of any other. -/
def canonical : Constant → Constant
  | f32 pattern => f32 (.ofNat (Format.single.canonical pattern.toNat))
  | f64 pattern => f64 (.ofNat (Format.double.canonical pattern.toNat))
  | c => c

theorem isWord_of_mem_float {fmt : Format} {bits : Nat} {x : Char}
    (h : x ∈ (Layout.source.render fmt bits).toList) : isWord x = true :=
  isWord_of_isNumeral (Layout.isNumeral_of_mem_render h)

theorem part_float {fmt : Format} {bits : Nat} (std : fmt.Standard) (lt : bits < fmt.patterns) :
    Part (Layout.source.render fmt bits).toList :=
  part_of_words (Layout.render_ne_nil std lt) fun _ => isWord_of_mem_float

def isLiteralChar (x : Char) : Bool :=
  isWord x || x == '<' || x == '>'

theorem isLiteralChar_of_isTypeChar {x : Char} (h : Ty.isTypeChar x = true) : isLiteralChar x = true := by
  simp only [Ty.isTypeChar, isLiteralChar, isWord, Bool.or_eq_true] at h ⊢
  rcases h with (h | h) | h
  exacts [.inl (.inl (.inl (.inl (.inl h)))), .inl (.inr h), .inr h]

theorem render_toList (c : Constant) : ∃ type literal : List Char,
    c.render.toList = type ++ ' ' :: literal ∧ (type ≠ [] ∧ ∀ x ∈ type, isWord x = true) ∧
      Part literal ∧ ∀ x ∈ literal, isLiteralChar x = true := by
  have literal {x : Char} (h : isWord x = true) : isLiteralChar x = true := by
    simp [isLiteralChar, h]
  cases c with
  | int bits value =>
    refine ⟨"i".toList ++ (toString bits).toList, (toString value.toInt).toList, by simp [render],
      ⟨by simp, fun x hx => ?_⟩,
      part_toString _, fun x hx => literal (isWord_of_mem_toString hx)⟩
    rcases List.mem_append.mp hx with hx | hx
    · rw [List.mem_singleton.mp hx]
      decide
    · exact isWord_of_mem_toString (i := bits) hx
  | f32 pattern =>
    exact ⟨"f32".toList, (Layout.source.render .single pattern.toNat).toList, by simp [render],
      ⟨by decide, List.all_eq_true.mp rfl⟩,
      part_float (.inl rfl) pattern.toNat_lt, fun x hx => literal (isWord_of_mem_float hx)⟩
  | f64 pattern =>
    exact ⟨"f64".toList, (Layout.source.render .double pattern.toNat).toList, by simp [render],
      ⟨by decide, List.all_eq_true.mp rfl⟩,
      part_float (.inr rfl) pattern.toNat_lt, fun x hx => literal (isWord_of_mem_float hx)⟩
  | null t =>
    exact ⟨"null".toList, t.render.toList, by simp [render], ⟨by decide, List.all_eq_true.mp rfl⟩, t.part_render,
      fun x hx => isLiteralChar_of_isTypeChar (Ty.isTypeChar_of_mem_render hx)⟩

theorem part_render (c : Constant) : Part c.render.toList := by
  obtain ⟨type, literal, text, ⟨nonempty, words⟩, part, -⟩ := c.render_toList
  have type := part_of_words nonempty words
  have blank : Closed [' '] := closed_of_plain (List.all_eq_true.mp rfl)
  rw [text]
  exact ⟨type.tight.append part.tight [' '], type.closed.append (blank.append part.closed)⟩

/-- A constant is read back, with the one NaN of its type in place of any other. -/
theorem constant?_render (h : c.Legal) : constant? c.render.toList = some c.canonical := by
  cases c with
  | int bits value =>
    have text : (int bits value).render.toList =
        (Ty.int bits).render.toList ++ ' ' :: (toString value.toInt).toList := by
      simp [render, Ty.render]
    have free : ' ' ∉ (Ty.int bits).render.toList :=
      not_mem_of_all (fun _ => Ty.isTypeChar_of_mem_render) rfl
    have keyword : (Ty.int bits).render.toList ≠ "null".toList := by simp [Ty.render]
    rw [text, constant?, splitAtChar?_append free]
    simp only [Option.bind_eq_bind, Option.bind_some, if_neg keyword, Ty.read?_render h.1,
      (part_toString _).tight.trim, int64?_toString, Option.map_some, ofInt, h.2, canonical]
  | f32 pattern =>
    obtain ⟨l, read, bits⟩ := toBits_read?_render (.inl rfl) pattern.toNat_lt
    have text : (f32 pattern).render.toList =
        "f32".toList ++ ' ' :: (Layout.source.render .single pattern.toNat).toList := by simp [render]
    have type : Ty.read? "f32".toList = some .f32 := Ty.read?_render (t := .f32) trivial
    have keyword : "f32".toList ≠ "null".toList := by decide
    rw [text, constant?, splitAtChar?_append (by decide)]
    simp only [Option.bind_eq_bind, Option.bind_some, if_neg keyword, type,
      (part_float (.inl rfl) pattern.toNat_lt).tight.trim, read, Option.map_some, bits, canonical]
  | f64 pattern =>
    obtain ⟨l, read, bits⟩ := toBits_read?_render (.inr rfl) pattern.toNat_lt
    have text : (f64 pattern).render.toList =
        "f64".toList ++ ' ' :: (Layout.source.render .double pattern.toNat).toList := by simp [render]
    have type : Ty.read? "f64".toList = some .f64 := Ty.read?_render (t := .f64) trivial
    have keyword : "f64".toList ≠ "null".toList := by decide
    rw [text, constant?, splitAtChar?_append (by decide)]
    simp only [Option.bind_eq_bind, Option.bind_some, if_neg keyword, type,
      (part_float (.inr rfl) pattern.toNat_lt).tight.trim, read, Option.map_some, bits, canonical]
  | null t =>
    have text : (null t).render.toList = "null".toList ++ ' ' :: t.render.toList := by simp [render]
    rw [text, constant?, splitAtChar?_append (by decide)]
    simp [Ty.read?_render h.1, h.2, canonical]

theorem legal_ofInt {bits : Nat} (h : (Ty.int bits).Legal) (n : Int64) : (ofInt bits n).Legal := by
  refine ⟨h, ?_⟩
  by_cases wide : bits = 0 ∨ 64 ≤ bits
  · simp only [Word.signExtend, if_pos wide]
  · have dvd : 2 ^ bits ∣ 2 ^ 64 := Nat.pow_dvd_pow 2 (by omega)
    simp only [Word.signExtend, if_neg wide, Int64.toInt_ofInt]
    rw [Int.bmod_bmod_of_dvd (show Nat.pow 2 bits ∣ Int64.size from dvd), Int.bmod_bmod]

theorem legal_of_constant? (h : constant? s = some c) : c.Legal := by
  unfold constant? at h
  simp only [Option.bind_eq_bind, Option.bind_eq_some_iff] at h
  obtain ⟨⟨type, literal⟩, -, h⟩ := h
  dsimp only at h
  split at h
  · obtain ⟨t, read, h⟩ := Option.bind_eq_some_iff.mp h
    split at h
    · next pointer =>
      cases h
      exact ⟨Ty.legal_of_read? read, pointer⟩
    · cases h
  · obtain ⟨t, read, h⟩ := Option.bind_eq_some_iff.mp h
    have legal := Ty.legal_of_read? read
    split at h
    · obtain ⟨n, -, rfl⟩ := Option.map_eq_some_iff.mp h
      exact legal_ofInt legal n
    · obtain ⟨l, -, rfl⟩ := Option.map_eq_some_iff.mp h
      trivial
    · obtain ⟨l, -, rfl⟩ := Option.map_eq_some_iff.mp h
      trivial
    · cases h

@[simp] theorem type_canonical (c : Constant) : c.canonical.type = c.type := by
  cases c <;> rfl

theorem render_canonical (c : Constant) : c.canonical.render = c.render := by
  cases c with
  | f32 pattern =>
    have lt := Format.canonical_lt (.inl rfl) pattern.toNat_lt
    rw [canonical, render, render, UInt32.toNat_ofNat_of_lt' lt, Layout.render_canonical (.inl rfl)]
  | f64 pattern =>
    have lt := Format.canonical_lt (.inr rfl) pattern.toNat_lt
    rw [canonical, render, render, UInt64.toNat_ofNat_of_lt' lt, Layout.render_canonical (.inr rfl)]
  | _ => rfl

end Constant

end CheckpointRestart
