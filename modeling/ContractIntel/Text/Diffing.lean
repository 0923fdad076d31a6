import ContractIntel.Text.Patterns
import Mathlib.Logic.Function.Basic

/-!
# Clause alignment and the pure diff (`app/services/diffing.py`)

A version's parsed text is cut into paragraphs at `"\n\n"`, paragraphs are grouped into clause
sections by the key of their first line, and the two versions' sections are aligned by key and
compared as text. Every function below is the source's function of that name, loop by loop: the
paragraph scan is a `find` loop, the grouping extends the last section, and the alignment is the
greedy scan over the base sections with its shared `consumed` set.

`int()` refuses more than 4300 digits with a `ValueError`, which `detect_changes` lets through, so
the functions from `clauseKey` up answer in `Except ValueError`.
-/

namespace ContractIntel.Diffing

open Lib (Pattern)
open Patterns

def MAX_HEADING_CHARS : Nat := 60

/-! ## The clause-number pattern -/

/-- The four capture groups of `_CLAUSE_NUMBER_PATTERN`. -/
inductive NumberGroup | prefixed | dotted | numbered | heading
  deriving DecidableEq, Repr

/-- `_CLAUSE_NUMBER_PATTERN`. The last class is the source's case-sensitive `(?-i:[A-Z])`. -/
def CLAUSE_NUMBER_PATTERN : Pattern NumberGroup :=
  .alt
    (.seq
      (.alt
        (.seq clauseWord <| .seq spaces <|
          .seq (.group .prefixed (.seq digits (.star dottedPart))) (.opt delimiter))
        (.alt
          (.seq (.group .dotted (.seq digits (.plus dottedPart))) (.opt delimiter))
          (.seq (.group .numbered digits) delimiter)))
      (.seq spaces nonSpace))
    (.seq (.group .heading digits) <| .seq spaces (.cls fun c => 'A' ≤ c && c ≤ 'Z'))

/-! ## Data -/

inductive ChangeKind | added | removed | modified
  deriving DecidableEq, Repr

/-- Char offsets into one version's parsed text, end exclusive. -/
structure Span where
  charStart : Nat
  charEnd : Nat
  deriving DecidableEq, Repr

/-- One detected difference between two document versions. -/
structure Change where
  kind : ChangeKind
  clauseRef : Option Str
  baseSpan : Option Span
  amendedSpan : Option Span
  deriving DecidableEq, Repr

/-- `tuple[int, ...] | str`: a clause number, or the casefolded text of an unnumbered heading. -/
inductive SectionKey where
  | clause (number : List Nat)
  | heading (text : Str)
  deriving DecidableEq, Repr

/-- A clause section of one version; the preamble has no key. -/
structure Section where
  key : Option SectionKey
  clauseRef : Option Str
  charStart : Nat
  charEnd : Nat
  deriving DecidableEq, Repr

/-- A paragraph with its span in the text it was cut from. -/
structure Paragraph where
  start : Nat
  stop : Nat
  text : Str
  deriving DecidableEq, Repr

/-! ## Sections of one version -/

/-- The `while pos < len(text)` loop of `_paragraphs`. Each round moves `pos` past a separator, so
the text's length bounds the rounds. -/
def paragraphsFrom (text : Str) : Nat → Nat → List Paragraph
  | 0, _ => []
  | rounds + 1, pos =>
    if pos < text.length then
      let stop := (Str.find text ['\n', '\n'] pos).getD text.length
      let paragraph := Str.slice text pos stop
      (if Str.strip paragraph ≠ [] then [⟨pos, stop, paragraph⟩] else []) ++
        paragraphsFrom text rounds (stop + 2)
    else []

def paragraphs (text : Str) : List Paragraph := paragraphsFrom text text.length 0

/-- `a or b` on optional strings: the empty string is falsy too. -/
def orElse (a b : Option Str) : Option Str :=
  match a with
  | some (c :: cs) => some (c :: cs)
  | _ => b

/-- The number text of a first line: the capture `_clause_key` reads off the match. -/
def clauseNumber (line : Str) : Option Str :=
  (CLAUSE_NUMBER_PATTERN.match? line).bind fun m =>
    match orElse (orElse (m.group? .prefixed) (m.group? .dotted)) (m.group? .numbered) with
    | some raw => some raw
    | none => m.group? .heading

section Keys

variable [Ucd]

/-- The casefolded text of a short ALL-CAPS line, `none` for body prose. -/
def headingText (line : Str) : Option Str :=
  let stripped := Str.strip line
  if 0 < stripped.length ∧ stripped.length ≤ MAX_HEADING_CHARS ∧ Str.isUpper stripped ∧
      stripped.any Ucd.isAlpha then
    some (Str.join [' '] (Str.words (Str.casefold stripped)))
  else none

def clauseKey (line : Str) : Except ValueError (Option SectionKey) :=
  match clauseNumber line with
  | some raw => do
    let number ← (raw.splitOn '.').mapM Str.toInt
    return some (.clause number)
  | none => .ok ((headingText line).map .heading)

def clauseRef : Option SectionKey → Option Str
  | none => none
  | some (.clause number) => some (Str.join ['.'] (number.map Str.ofNat))
  | some (.heading text) => some text

/-- One round of the grouping loop: body prose extends the last section, a keyed paragraph (or
the first one) starts a section. -/
def addParagraph (sections : List Section) (p : Paragraph) : Except ValueError (List Section) := do
  let key ← clauseKey (Str.firstLine p.text)
  match key, sections.getLast? with
  | none, some previous =>
    return sections.dropLast ++
      [⟨previous.key, previous.clauseRef, previous.charStart, p.stop⟩]
  | _, _ => return sections ++ [⟨key, clauseRef key, p.start, p.stop⟩]

def sections (text : Str) : Except ValueError (List Section) :=
  (paragraphs text).foldlM addParagraph []

end Keys

/-! ## Alignment -/

/-- `_slice`: the text of a section. -/
def Section.text (s : Section) (text : Str) : Str := Str.slice text s.charStart s.charEnd

def Section.span (s : Section) : Span := ⟨s.charStart, s.charEnd⟩

def removedChange (base : Section) : Change := ⟨.removed, base.clauseRef, some base.span, none⟩

def addedChange (amended : Section) : Change := ⟨.added, amended.clauseRef, none, some amended.span⟩

def modifiedChange (base amended : Section) : Change :=
  ⟨.modified, base.clauseRef, some base.span, some amended.span⟩

/-- `amended_by_key`, the `defaultdict(list)` of section indices, read with `.get(key, [])`. -/
def indexByKey (amended : List Section) : Option SectionKey → List Nat :=
  amended.zipIdx.foldl
    (fun byKey entry => Function.update byKey entry.1.key (byKey entry.1.key ++ [entry.2]))
    fun _ => []

/-- The changes found so far and the amended indices already matched. -/
structure Alignment where
  changes : List Change
  consumed : List Nat

/-- One round of the loop over the base sections: the first unconsumed amended section of the
same key is this section's counterpart. -/
def matchBase (baseText amendedText : Str) (amended : List Section)
    (byKey : Option SectionKey → List Nat) (state : Alignment) (base : Section) : Alignment :=
  match (byKey base.key).find? fun i => i ∉ state.consumed with
  | none => { state with changes := state.changes ++ [removedChange base] }
  | some i =>
    { changes := state.changes ++
        match amended[i]? with
        | some counterpart =>
          if base.text baseText ≠ counterpart.text amendedText then
            [modifiedChange base counterpart] else []
        | none => []
      consumed := i :: state.consumed }

/-- The body of `detect_changes` once both versions are cut into sections. -/
def alignSections (baseText amendedText : Str) (base amended : List Section) : List Change :=
  let aligned := base.foldl (matchBase baseText amendedText amended (indexByKey amended)) ⟨[], []⟩
  aligned.changes ++ amended.zipIdx.filterMap fun entry =>
    if entry.2 ∈ aligned.consumed then none else some (addedChange entry.1)

def detectChanges [Ucd] (baseText amendedText : Str) : Except ValueError (List Change) := do
  let base ← sections baseText
  let amended ← sections amendedText
  return alignSections baseText amendedText base amended

end ContractIntel.Diffing
