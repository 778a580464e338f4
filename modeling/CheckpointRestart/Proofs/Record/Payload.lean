import CheckpointRestart.Record.Payload
import Mathlib.Tactic.IntervalCases

/-! # Payloads bit by bit

Copying a payload into a buffer replaces the bits of the payload and no others, also in a byte that
the payload fills only in part.
-/

namespace CheckpointRestart

/-- Bit `i` of a buffer. The bits of a byte are counted from its low end. -/
def bitAt? (bytes : Bytes) (i : Nat) : Option Bool :=
  bytes[i / 8]?.map (·.toBitVec.getLsbD (i % 8))

theorem getLsbD_mergeBits {bits j : Nat} (hb : bits < 8) (hj : j < 8) (old new : UInt8) :
    (mergeBits bits old new).toBitVec.getLsbD j =
      if j < bits then new.toBitVec.getLsbD j else old.toBitVec.getLsbD j := by
  have mask : ((0xff : UInt8) <<< UInt8.ofNat bits).toBitVec.getLsbD j = decide (bits ≤ j) := by
    interval_cases bits <;> interval_cases j <;> rfl
  simp only [mergeBits, UInt8.toBitVec_or, UInt8.toBitVec_and, UInt8.toBitVec_not,
    BitVec.getLsbD_or, BitVec.getLsbD_and, BitVec.getLsbD_not, mask, hj]
  by_cases h : j < bits
  · simp [h, Nat.not_le.mpr h]
  · simp [h, Nat.not_lt.mp h]

variable {dest payload restored : Bytes} {bits : Nat}

theorem le_length_of_restorePayload (h : restorePayload dest payload bits = some restored) :
    (bits + 7) / 8 ≤ dest.length ∧ (bits + 7) / 8 ≤ payload.length := by
  unfold restorePayload at h
  dsimp only at h
  split at h
  · cases h
  · omega

/-- Whole bytes come from the payload, and a byte that is filled in part from both. -/
theorem getElem?_restorePayload (h : restorePayload dest payload bits = some restored) (k : Nat) :
    restored[k]? =
      if k < bits / 8 then payload[k]?
      else if k = bits / 8 ∧ bits % 8 ≠ 0 then
        dest[k]?.bind fun old => payload[k]?.map (mergeBits (bits % 8) old)
      else dest[k]? := by
  obtain ⟨roomDest, roomPayload⟩ := le_length_of_restorePayload h
  unfold restorePayload at h
  dsimp only at h
  rw [if_neg (by omega)] at h
  cases h
  have full : (payload.take (bits / 8)).length = bits / 8 := by
    rw [List.length_take]
    omega
  by_cases before : k < bits / 8
  · rw [if_pos before, List.getElem?_append_left (by rwa [full]), List.getElem?_take_of_lt before]
  rw [if_neg before, List.getElem?_append_right (by omega), full]
  cases rest : bits % 8 with
  | zero => simp [Nat.add_sub_cancel' (Nat.not_lt.mp before)]
  | succ n =>
    have hd : bits / 8 < dest.length := by omega
    have hp : bits / 8 < payload.length := by omega
    rw [List.drop_eq_getElem_cons hd, List.drop_eq_getElem_cons hp]
    dsimp only
    by_cases last : k = bits / 8
    · subst last
      simp [hd, hp]
    · have behind : k - bits / 8 = k - bits / 8 - 1 + 1 := by omega
      rw [if_neg (by simp [last]), behind, List.getElem?_cons_succ, List.getElem?_drop]
      congr 1
      omega

/-- The bits of the payload are replaced, and no others. -/
theorem bitAt?_restorePayload (h : restorePayload dest payload bits = some restored) (i : Nat) :
    bitAt? restored i = if i < bits then bitAt? payload i else bitAt? dest i := by
  obtain ⟨roomDest, roomPayload⟩ := le_length_of_restorePayload h
  unfold bitAt?
  rw [getElem?_restorePayload h]
  by_cases whole : i / 8 < bits / 8
  · rw [if_pos whole, if_pos (by omega)]
  rw [if_neg whole]
  split
  · have hd : i / 8 < dest.length := by omega
    have hp : i / 8 < payload.length := by omega
    have inside : i % 8 < bits % 8 ↔ i < bits := by omega
    simp only [List.getElem?_eq_getElem hd, List.getElem?_eq_getElem hp, Option.bind_some,
      Option.map_some, getLsbD_mergeBits (Nat.mod_lt bits (by decide)) (Nat.mod_lt i (by decide)),
      inside]
    split <;> rfl
  · rw [if_neg (by omega)]

end CheckpointRestart
