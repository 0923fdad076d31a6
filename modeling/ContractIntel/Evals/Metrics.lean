import ContractIntel.Text.Str
import Mathlib.Data.Finset.Card
import Mathlib.Data.Rat.Defs

/-!
# Metric math of the evals (`evals/metrics.py`)

Precision and recall of what was mapped against what a golden record expects, as exact rationals.
-/

namespace ContractIntel.Evals

/-- `recall` is a keyword here. -/
structure Scores where
  precision : Rat
  recalled : Rat
  deriving DecidableEq

/-- `_matched_precision_recall`: duplicates of `actual` stay in the denominator. -/
def matchedPrecisionRecall {κ : Type} [DecidableEq κ] (expected : Finset κ) (actual : List κ) :
    Scores :=
  let matched := (expected ∩ actual.toFinset).card
  { precision := if actual ≠ [] then matched / actual.length else 0
    recalled := if expected ≠ ∅ then matched / expected.card else 0 }

/-- A clause and the owner of an obligation there. -/
abbrev Affected := Str × Option Str

variable [Ucd]

/-- `key` of `impact_precision_recall`: owners match whatever their case. -/
def matchKey (pair : Affected) : Affected := (pair.1, pair.2.map Str.casefold)

def impactPrecisionRecall (expected actual : List Affected) : Scores :=
  if expected = [] ∧ actual = [] then ⟨1, 1⟩
  else matchedPrecisionRecall (expected.map matchKey).toFinset (actual.map matchKey)

end ContractIntel.Evals
