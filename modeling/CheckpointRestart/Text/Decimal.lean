/-! # Decimal integers

Reading accepts any number of leading zeros and refuses everything outside the stated range.
-/

namespace CheckpointRestart.Text

def digitValue? (c : Char) : Option Nat :=
  if '0' ≤ c ∧ c ≤ '9' then some (c.toNat - '0'.toNat) else none

/-- The number written by a nonempty run of ASCII digits. -/
def digits? : List Char → Option Nat
  | [] => none
  | s => s.foldlM (fun n c => (digitValue? c).map (10 * n + ·)) 0

/-- An unsigned number below `bound`, with an optional plus sign. -/
def unsigned? (bound : Nat) (s : List Char) : Option Nat :=
  let body := match s with
    | '+' :: rest => rest
    | _ => s
  (digits? body).filter (· < bound)

def uint64? (s : List Char) : Option UInt64 :=
  (unsigned? UInt64.size s).map UInt64.ofNat

/-- A signed 64-bit number, with an optional sign. -/
def int64? (s : List Char) : Option Int64 :=
  let value : Option Int := match s with
    | '-' :: rest => (digits? rest).map fun n => -(n : Int)
    | '+' :: rest => (digits? rest).map fun n => (n : Int)
    | _ => (digits? s).map fun n => (n : Int)
  (value.filter fun n => Int64.minValue.toInt ≤ n ∧ n ≤ Int64.maxValue.toInt).map Int64.ofInt

/-- A number below `2 ^ 64` written with digits alone, as in the names of run and checkpoint
directories. -/
def plainUInt64? (s : List Char) : Option UInt64 :=
  ((digits? s).filter (· < UInt64.size)).map UInt64.ofNat

end CheckpointRestart.Text
