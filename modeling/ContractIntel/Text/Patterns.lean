import ContractIntel.Lib.Pattern
import ContractIntel.Text.Str

/-!
# Shared pieces of the clause patterns

The parser's heading pattern and the diff's clause-number pattern are separate regular expressions
over the same atoms. The atoms stand here once; the two patterns stand in the modules of the two
source files.
-/

namespace ContractIntel.Patterns

open Lib (Pattern)

/-- A lower-case ASCII letter under `re.IGNORECASE`: both cases, and for `i` and `s` the
characters the Unicode case rules fold onto them (U+0130, U+0131, U+017F). -/
def ignoreCase (letter c : Char) : Bool :=
  c = letter || c = letter.toUpper ||
    (letter = 'i' && (c.toNat = 0x130 || c.toNat = 0x131)) || (letter = 's' && c.toNat = 0x17f)

/-- A literal word under `re.IGNORECASE`. -/
def literal {γ : Type} (letters : String) : Pattern γ :=
  Pattern.word (letters.toList.map ignoreCase)

section Pieces

variable {γ : Type}

/-- `\d+`. -/
def digits : Pattern γ := .plus (.cls Str.isDigit)

/-- `\.\d+`. -/
def dottedPart : Pattern γ := .seq (.cls (· = '.')) digits

/-- `[.)]`. -/
def delimiter : Pattern γ := .cls fun c => c = '.' || c = ')'

/-- `\s+`. -/
def spaces : Pattern γ := .plus (.cls Str.isSpace)

/-- `\S`. -/
def nonSpace : Pattern γ := .cls fun c => !Str.isSpace c

/-- `(?:article|section|clause)`. -/
def clauseWord : Pattern γ := .alt (literal "article") (.alt (literal "section") (literal "clause"))

end Pieces

end ContractIntel.Patterns
