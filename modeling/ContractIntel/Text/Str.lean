import Mathlib.Data.List.Basic

/-!
# Python strings

A `str` is a sequence of Unicode code points, and every offset the program stores is an index
into that sequence, so a string here is a list of characters and never a UTF-8 buffer. The
operations are the built-in ones the program calls, under their Python names: half-open slices,
`find` and `rfind`, `strip`, `split`, `join`, and `int` with CPython's digit limit.

The two character classes the regular expressions rest on, `\s` and `\d`, are spelled out:
whitespace is the 29 code points of `str.isspace`, and a decimal digit is a code point of
category Nd (Unicode 15.1, the data of CPython 3.13). What depends on the large case tables
(`isupper`, `isalpha`, `casefold`) is read off a `Ucd`, so that every statement about headings
holds for any version of the tables.
-/

namespace ContractIntel

/-- A Python string: a sequence of code points. -/
abbrev Str := List Char

/-- A `ValueError`, the one exception the pure text functions can raise. -/
structure ValueError where
  message : String
  deriving DecidableEq, Repr

/-- The Unicode character data that `str` methods consult. -/
class Ucd where
  /-- `str.isalpha` of one character. -/
  isAlpha : Char → Bool
  /-- The Uppercase property. -/
  isUpper : Char → Bool
  /-- The Lowercase property. -/
  isLower : Char → Bool
  /-- General category Lt. -/
  isTitle : Char → Bool
  /-- Full case folding of one character. -/
  casefold : Char → Str

/-- The case data of the ASCII range, with every other character caseless. -/
@[reducible] def Ucd.ascii : Ucd where
  isAlpha c := c.isAlpha
  isUpper c := c.isUpper
  isLower c := c.isLower
  isTitle _ := false
  casefold c := [c.toLower]

namespace Str

/-- `\s`, `str.isspace` and the characters `strip` removes. -/
def isSpace (c : Char) : Bool :=
  [0x9, 0xa, 0xb, 0xc, 0xd, 0x1c, 0x1d, 0x1e, 0x1f, 0x20, 0x85, 0xa0, 0x1680, 0x2000, 0x2001,
    0x2002, 0x2003, 0x2004, 0x2005, 0x2006, 0x2007, 0x2008, 0x2009, 0x200a, 0x2028, 0x2029,
    0x202f, 0x205f, 0x3000].contains c.toNat

/-- The digit zero of every decimal script; its nine successors are the other digits. -/
def decimalZeros : List Nat :=
  [0x30, 0x660, 0x6f0, 0x7c0, 0x966, 0x9e6, 0xa66, 0xae6, 0xb66, 0xbe6, 0xc66, 0xce6, 0xd66,
    0xde6, 0xe50, 0xed0, 0xf20, 0x1040, 0x1090, 0x17e0, 0x1810, 0x1946, 0x19d0, 0x1a80, 0x1a90,
    0x1b50, 0x1bb0, 0x1c40, 0x1c50, 0xa620, 0xa8d0, 0xa900, 0xa9d0, 0xa9f0, 0xaa50, 0xabf0,
    0xff10, 0x104a0, 0x10d30, 0x11066, 0x110f0, 0x11136, 0x111d0, 0x112f0, 0x11450, 0x114d0,
    0x11650, 0x116c0, 0x11730, 0x118e0, 0x11950, 0x11c50, 0x11d50, 0x11da0, 0x11f50, 0x16a60,
    0x16ac0, 0x16b50, 0x1d7ce, 0x1d7d8, 0x1d7e2, 0x1d7ec, 0x1d7f6, 0x1e140, 0x1e2f0, 0x1e4f0,
    0x1e950, 0x1fbf0]

/-- The value of a decimal digit of any script. -/
def decimal? (c : Char) : Option Nat :=
  (decimalZeros.find? fun first => decide (first ≤ c.toNat ∧ c.toNat < first + 10)).map
    fun first => c.toNat - first

/-- `\d`. -/
def isDigit (c : Char) : Bool := (decimal? c).isSome

/-- `text[start:stop]` for non-negative bounds: both are clipped to the text. -/
def slice (text : Str) (start stop : Nat) : Str := (text.take stop).drop start

/-- `text.strip()`. -/
def strip (text : Str) : Str :=
  ((text.dropWhile isSpace).reverse.dropWhile isSpace).reverse

/-- The first position at or after `pos` where `needle` starts in `rest`, `rest` being the text
from `pos` on. -/
def findFrom (needle : Str) : Str → Nat → Option Nat
  | [], pos => if needle.isEmpty then some pos else none
  | c :: rest, pos =>
    if needle.isPrefixOf (c :: rest) then some pos else findFrom needle rest (pos + 1)

/-- `text.find(needle, pos)` for `pos` inside the text, with `-1` as `none`. -/
def find (text needle : Str) (pos : Nat) : Option Nat := findFrom needle (text.drop pos) pos

/-- `text.rfind(c, lo, hi)` for a single character: the last position in `[lo, hi)`, or `-1`. -/
def rfind (text : Str) (c : Char) (lo hi : Nat) : Int :=
  match (List.range' lo (hi - lo)).reverse.find? fun i => text[i]? = some c with
  | some i => i
  | none => -1

/-- `text.split("\n", 1)[0]`. -/
def firstLine (text : Str) : Str := text.takeWhile (· ≠ '\n')

/-- The line boundaries of `splitlines`, `"\r\n"` apart. -/
def isLineBreak (c : Char) : Bool :=
  [0xa, 0xb, 0xc, 0xd, 0x1c, 0x1d, 0x1e, 0x85, 0x2028, 0x2029].contains c.toNat

/-- `splitlines` with `line` read so far: a final line without a break counts only when it is not
empty, and `"\r\n"` is one break. -/
def splitlinesFrom : Str → Str → List Str
  | line, [] => if line.isEmpty then [] else [line]
  | line, '\r' :: '\n' :: rest => line :: splitlinesFrom [] rest
  | line, c :: rest =>
    if isLineBreak c then line :: splitlinesFrom [] rest else splitlinesFrom (line ++ [c]) rest

/-- `text.splitlines()`. -/
def splitlines (text : Str) : List Str := splitlinesFrom [] text

/-- `text.startswith(prefix)`. -/
def startswith (text initial : Str) : Bool := initial.isPrefixOf text

/-- `text.split()`: the maximal runs of characters that are not whitespace. -/
def words (text : Str) : List Str := (text.splitOnP isSpace).filter (· ≠ [])

/-- `sep.join(parts)`. -/
def join (sep : Str) (parts : List Str) : Str := (parts.intersperse sep).flatten

/-- `str(n)` of a non-negative integer. -/
def ofNat (n : Nat) : Str := Nat.toDigits 10 n

/-- The longest digit string CPython's `int` accepts. -/
def INT_MAX_STR_DIGITS : Nat := 4300

/-- `int(digits)` of a string of decimal digits. -/
def toInt (digits : Str) : Except ValueError Nat :=
  if INT_MAX_STR_DIGITS < digits.length then
    .error ⟨s!"Exceeds the limit ({INT_MAX_STR_DIGITS} digits) for integer string conversion: " ++
      s!"value has {digits.length} digits; use sys.set_int_max_str_digits() to increase the limit"⟩
  else .ok (digits.foldl (fun n c => 10 * n + (decimal? c).getD 0) 0)

/-- `text.isupper()`: some character is uppercase and none is lowercase or titlecase. -/
def isUpper [Ucd] (text : Str) : Bool :=
  text.any Ucd.isUpper && !text.any fun c => Ucd.isLower c || Ucd.isTitle c

/-- `text.casefold()`. -/
def casefold [Ucd] (text : Str) : Str := text.flatMap Ucd.casefold

end Str

end ContractIntel
