import CheckpointRestart.Text.Decimal
import Mathlib.Data.List.Basic

/-! # Decimal integers are read back -/

namespace CheckpointRestart

theorem toList_toString (n : Nat) : (toString n).toList = Nat.toDigits 10 n := by
  rw [Nat.toString_eq_ofList_toDigits, String.toList_ofList]

namespace Text

theorem isDigit_of_mem_toDigits {c : Char} {n : Nat} (h : c ∈ Nat.toDigits 10 n) : c.isDigit = true :=
  Nat.isDigit_of_mem_toDigits (by decide) (by decide) h

theorem digitValue?_of_isDigit {c : Char} (h : c.isDigit = true) :
    digitValue? c = some (c.toNat - '0'.toNat) := by
  have range : '0'.val ≤ c.val ∧ c.val ≤ '9'.val := by simpa [Char.isDigit] using h
  exact if_pos range

theorem digits?_of_isDigit {s : List Char} (nonempty : s ≠ []) (h : ∀ c ∈ s, c.isDigit = true) :
    digits? s = some (Nat.ofDigitChars 10 s 0) := by
  have value : ∀ (s : List Char) (m : Nat), (∀ c ∈ s, c.isDigit = true) →
      s.foldlM (fun n c => (digitValue? c).map (10 * n + ·)) m = some (Nat.ofDigitChars 10 s m) := by
    intro s
    induction s with
    | nil => exact fun m _ => rfl
    | cons c s ih =>
      intro m h
      rw [List.foldlM_cons, digitValue?_of_isDigit (h c List.mem_cons_self)]
      exact ih _ fun d hd => h d (List.mem_cons_of_mem _ hd)
  unfold digits?
  split
  · exact absurd rfl nonempty
  · exact value s 0 h

theorem digits?_toDigits (n : Nat) : digits? (Nat.toDigits 10 n) = some n := by
  rw [digits?_of_isDigit Nat.toDigits_ne_nil fun c hc => isDigit_of_mem_toDigits hc,
    Nat.ofDigitChars_ten_toDigits]

theorem plainUInt64?_toDigits (n : UInt64) : plainUInt64? (Nat.toDigits 10 n.toNat) = some n := by
  have small : n.toNat < UInt64.size := n.toNat_lt
  rw [plainUInt64?, digits?_toDigits]
  simp [small]

theorem toDigits_ne_cons {c : Char} (h : c.isDigit = false) (n : Nat) (s : List Char) :
    Nat.toDigits 10 n ≠ c :: s := by
  intro e
  rw [isDigit_of_mem_toDigits (e ▸ List.mem_cons_self)] at h
  cases h

theorem unsigned?_toDigits {bound n : Nat} (lt : n < bound) :
    unsigned? bound (Nat.toDigits 10 n) = some n := by
  rw [unsigned?]
  · rw [digits?_toDigits]
    simp [lt]
  · exact fun rest e => toDigits_ne_cons (by decide) n rest e

theorem uint64?_toString (n : UInt64) : uint64? (toString n.toNat).toList = some n := by
  rw [toList_toString, uint64?, unsigned?_toDigits n.toNat_lt]
  simp

theorem toList_toString_negSucc (n : Nat) :
    (toString (Int.negSucc n)).toList = '-' :: Nat.toDigits 10 (n + 1) := by
  rw [Int.toString_eq_repr, Int.repr, String.toList_append, Nat.toList_repr]
  rfl

theorem toString_int_ne_nil (i : Int) : (toString i).toList ≠ [] := by
  cases i with
  | ofNat n =>
    have text : (toString (Int.ofNat n)).toList = Nat.toDigits 10 n := toList_toString n
    rw [text]
    exact Nat.toDigits_ne_nil
  | negSucc n =>
    rw [toList_toString_negSucc]
    exact List.cons_ne_nil _ _

theorem int64?_toString (n : Int64) : int64? (toString n.toInt).toList = some n := by
  have back : Int64.ofInt n.toInt = n := Int64.ofInt_toInt n
  have low := n.minValue_le_toInt
  have high := n.toInt_le
  cases e : n.toInt with
  | ofNat k =>
    have text : (toString (Int.ofNat k)).toList = Nat.toDigits 10 k := toList_toString k
    rw [text, int64?]
    · rw [e] at back low high
      simp only [digits?_toDigits]
      simp_all
    · exact fun rest e => toDigits_ne_cons (by decide) k rest e
    · exact fun rest e => toDigits_ne_cons (by decide) k rest e
  | negSucc k =>
    rw [toList_toString_negSucc, int64?, digits?_toDigits]
    rw [e] at back low high
    have value : -((k + 1 : Nat) : Int) = Int.negSucc k := rfl
    simp_all

end Text

end CheckpointRestart
