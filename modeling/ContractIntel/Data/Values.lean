import ContractIntel.Text.Str
import Mathlib.Data.Rat.Init

/-!
# Values the rows hold

Identifiers, timestamps, and the JSON the job results and review payloads are stored as. Python
floats are exact rationals here.
-/

namespace ContractIntel

/-- A `uuid.UUID`, as the 128-bit number Postgres orders it by. -/
abbrev Uuid := Nat

/-- `str(uuid)`: 32 hexadecimal digits in groups of 8, 4, 4, 4 and 12. -/
def Uuid.str (id : Uuid) : Str :=
  let hex := Nat.toDigits 16 id
  let digits := List.replicate (32 - hex.length) '0' ++ hex
  digits.take 8 ++ ['-'] ++ (digits.drop 8).take 4 ++ ['-'] ++ (digits.drop 12).take 4 ++ ['-'] ++
    (digits.drop 16).take 4 ++ ['-'] ++ digits.drop 20

/-- A point in time, or a length of time, in microseconds. -/
abbrev Time := Nat

/-- `timedelta(seconds=n)`. -/
def seconds (n : Nat) : Time := n * 1000000

/-- A JSON value as `JSONB` columns store it. -/
inductive Json where
  | null
  | bool (value : Bool)
  | num (value : Rat)
  | str (value : Str)
  | arr (items : List Json)
  | obj (fields : List (Str × Json))
  deriving Repr, BEq

end ContractIntel
