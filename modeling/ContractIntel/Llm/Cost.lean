import ContractIntel.Data.Exn

/-!
# Token costs (`app/llm/cost.py`)

Prices are USD per million tokens, as exact rationals. A model without a declared price raises
`KeyError`, which is a `LookupError` and neither an `LlmError` nor a `ValueError`. The counts come
from the wire unchecked: the division raises `TypeError` for what is not a number, and
`OverflowError` for an integer whose millionth is beyond the floats.
-/

namespace ContractIntel.Llm

structure ModelPricing where
  inputPerMillion : Rat
  outputPerMillion : Rat

def PRICES : List (Str × ModelPricing) :=
  [("gpt-4o-mini".toList, ⟨15 / 100, 60 / 100⟩), ("gpt-4o".toList, ⟨250 / 100, 1000 / 100⟩),
    ("text-embedding-3-small".toList, ⟨2 / 100, 0⟩)]

def pricingFor (model : Str) : Except Exn ModelPricing :=
  match PRICES.find? (·.1 = model) with
  | some entry => .ok entry.2
  | none => .error (.keyError model)

/-- A model with a declared price. -/
def priced (model : Str) : Bool := PRICES.any (·.1 = model)

/-- The first integer whose millionth is rounded to no float: a million times `2^1024 - 2^970`. -/
def FLOAT_LIMIT : Nat := ((Nat.pow 2 256).pow 4 - (Nat.pow 2 194).pow 5) * 1000000

/-- A count that can be divided. -/
def countable (tokens : Option Nat) : Bool := tokens.any (· < FLOAT_LIMIT)

/-- `tokens / 1_000_000`. -/
def millions : Option Nat → Except Exn Rat
  | none => .error (.otherError "TypeError".toList "unsupported operand type(s) for /".toList)
  | some tokens =>
    if tokens < FLOAT_LIMIT then .ok (tokens / 1000000)
    else
      .error (.otherError "OverflowError".toList
        "integer division result too large for a float".toList)

def costUsd (model : Str) (promptTokens completionTokens : Option Nat) : Except Exn Rat := do
  let pricing ← pricingFor model
  let prompt ← millions promptTokens
  let completion ← millions completionTokens
  return prompt * pricing.inputPerMillion + completion * pricing.outputPerMillion

end ContractIntel.Llm
