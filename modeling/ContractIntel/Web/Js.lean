import ContractIntel.Lib.Dict
import Mathlib.Data.List.DropRight
import Mathlib.Data.Rat.Init

/-!
# JavaScript values

What the browser's code works on. A string is a sequence of UTF-16 code units, unpaired surrogates
among them, so it is not the server's sequence of code points. Numbers are exact rationals, as on
the server.
-/

namespace ContractIntel.Web

/-- A JavaScript string. -/
abbrev JsString := List UInt16

/-- A string literal of the source; its characters are single code units. -/
def js (text : String) : JsString := text.toList.map fun c => c.toNat.toUInt16

namespace JsString

/-- `"\n"`. -/
def LF : UInt16 := 0xa

/-- `"\r"`. -/
def CR : UInt16 := 0xd

/-- The white space and line terminators that `trim` removes. -/
def isSpace (c : UInt16) : Bool :=
  [0x9, 0xa, 0xb, 0xc, 0xd, 0x20, 0xa0, 0x1680, 0x2000, 0x2001, 0x2002, 0x2003, 0x2004, 0x2005,
    0x2006, 0x2007, 0x2008, 0x2009, 0x200a, 0x2028, 0x2029, 0x202f, 0x205f, 0x3000,
    0xfeff].contains c

/-- `text.trimEnd()`. -/
def trimEnd (text : JsString) : JsString := text.rdropWhile isSpace

/-- `text.trim()`. -/
def trim (text : JsString) : JsString := trimEnd (text.dropWhile isSpace)

@[simp] theorem trimEnd_trimEnd (text : JsString) : trimEnd (trimEnd text) = trimEnd text :=
  List.rdropWhile_idempotent ..

/-- What is left of a text with no space in front has none in front either. -/
theorem dropWhile_trim (text : JsString) : (trim text).dropWhile isSpace = trim text := by
  refine List.dropWhile_eq_self_iff.mpr fun hpos => ?_
  have hinit : trim text <+: text.dropWhile isSpace := List.rdropWhile_prefix ..
  rw [hinit.getElem]
  have hdropped := List.dropWhile_eq_self_iff.mp (List.dropWhile_idempotent (p := isSpace) text)
  exact hdropped (hpos.trans_le hinit.length_le)

@[simp] theorem trim_trim (text : JsString) : trim (trim text) = trim text := by
  rw [trim, dropWhile_trim, trim, trimEnd_trimEnd]

end JsString

/-- A value of a parsed JSON text; the bindings of an object stand in the order of its keys. -/
inductive JsValue where
  | null
  | bool (value : Bool)
  | number (value : Rat)
  | string (value : JsString)
  | array (items : List JsValue)
  | object (fields : List (JsString × JsValue))

namespace JsValue

/-- The own properties of a value that is an object. -/
def fields : JsValue → List (JsString × JsValue)
  | .object fields => fields
  | _ => []

/-- `value[key]`, with `undefined` as `none`. -/
def get? (value : JsValue) (key : JsString) : Option JsValue := Lib.Dict.get? value.fields key

/-- `{ ...value, key: .., .. }`. -/
def spread (value : JsValue) (bindings : List (JsString × JsValue)) : JsValue :=
  .object (bindings.foldl (fun fields binding => Lib.Dict.set binding.1 binding.2 fields)
    value.fields)

end JsValue

end ContractIntel.Web
