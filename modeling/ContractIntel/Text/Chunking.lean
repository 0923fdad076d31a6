import ContractIntel.Text.Parsing

/-!
# Chunking (`app/services/chunking.py`)

One chunk per clause (a heading and its body), windows of at most `MAX_CHUNK_CHARS` inside a
clause beyond that size, and windows over the whole text of a document without headings. The
window loop is a recursion on the start of the next window, which the loop's last assignment
always moves forward; offsets are natural numbers, the `-1` of `rfind` apart.
-/

namespace ContractIntel.Chunking

open Parsing (ParsedBlock ParsedDocument)

def MAX_CHUNK_CHARS : Nat := 8000

def OVERLAP_CHARS : Nat := 200

structure Chunk where
  text : Str
  charStart : Nat
  charEnd : Nat
  deriving DecidableEq, Repr

/-! ## Clause spans -/

/-- The accumulators of `_clause_spans`: the spans closed so far and the open one. -/
structure Spans where
  spans : List (Nat × Nat)
  start : Option Nat
  stop : Nat

/-- One round of the loop of `_clause_spans`: a heading closes the open span. -/
def addBlock (state : Spans) (block : ParsedBlock) : Spans :=
  match block.kind, state.start with
  | .heading, some start => ⟨state.spans ++ [(start, state.stop)], some block.start, block.stop⟩
  | _, start => ⟨state.spans, some (start.getD block.start), block.stop⟩

def clauseSpans (blocks : List ParsedBlock) : List (Nat × Nat) :=
  let final := blocks.foldl addBlock ⟨[], none, 0⟩
  match final.start with
  | some start => final.spans ++ [(start, final.stop)]
  | none => final.spans

/-! ## Windows -/

/-- The last blank or newline after `floor` and before `limit`, or `limit` itself. -/
def snapBackward (text : Str) (limit floor : Nat) : Nat :=
  let cut := max (Str.rfind text ' ' floor limit) (Str.rfind text '\n' floor limit)
  if (floor : Int) < cut then cut.toNat else limit

/-- The first position from `pos` on that is not whitespace. -/
def snapForward (text : Str) (pos : Nat) : Nat :=
  match (text.drop pos).findIdx? fun c => !Str.isSpace c with
  | some i => pos + i
  | none => text.length

/-- Where the window from `pos` stops when the rest does not fit: the last bound in the upper half
of the budget, else a whitespace cut. -/
def windowStop (text : Str) (bounds : List Nat) (pos : Nat) : Nat :=
  let budget := pos + MAX_CHUNK_CHARS
  let stops := bounds.filter fun bound =>
    pos < bound ∧ bound ≤ budget ∧ MAX_CHUNK_CHARS / 2 ≤ bound - pos
  match stops.max? with
  | some stop => stop
  | none => snapBackward text budget pos

/-- Where the window after `[pos, stop)` starts. -/
def nextPos (text : Str) (pos stop : Nat) : Nat :=
  max (min (snapForward text (max (stop - OVERLAP_CHARS) (pos + 1))) stop) (pos + 1)

theorem lt_nextPos (text : Str) (pos stop : Nat) : pos < nextPos text pos stop :=
  Nat.le_max_right _ _

/-- The loop of `_split_range` from `pos` on, `stop` being the end of the range. -/
def splitRange (text : Str) (stop : Nat) (bounds : List Nat) (pos : Nat) : List (Nat × Nat) :=
  if pos < stop then
    if stop - pos ≤ MAX_CHUNK_CHARS then [(pos, stop)]
    else
      let cut := windowStop text bounds pos
      (pos, cut) :: splitRange text stop bounds (nextPos text pos cut)
  else []
termination_by stop - pos
decreasing_by
  have := lt_nextPos text pos (windowStop text bounds pos)
  omega

/-! ## Chunks -/

def makeChunks (text : Str) (windows : List (Nat × Nat)) : List Chunk :=
  windows.map fun w => ⟨Str.slice text w.1 w.2, w.1, w.2⟩

/-- The ends of the blocks inside a clause span. -/
def spanBounds (blocks : List ParsedBlock) (span : Nat × Nat) : List Nat :=
  (blocks.filter fun block => span.1 ≤ block.start ∧ block.stop ≤ span.2).map ParsedBlock.stop

def chunkByClause (doc : ParsedDocument) : List Chunk :=
  (clauseSpans doc.blocks).flatMap fun span =>
    makeChunks doc.text (splitRange doc.text span.2 (spanBounds doc.blocks span) span.1)

def chunkDocument (doc : ParsedDocument) : List Chunk :=
  if doc.text = [] ∨ doc.blocks = [] then []
  else if doc.blocks.any (·.kind = .heading) then chunkByClause doc
  else makeChunks doc.text (splitRange doc.text doc.text.length [] 0)

end ContractIntel.Chunking
