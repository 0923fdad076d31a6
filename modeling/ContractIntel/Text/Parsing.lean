import ContractIntel.Text.Patterns

/-!
# Document parsing (`app/services/parsing.py`)

Stored bytes become canonical text, its blocks and its page map. Opening a PDF or a DOCX file is
the work of a third-party library, so what the library hands over (the extracted text of every
page, the text and style name of every paragraph) is read off a `Libraries`; everything from there
on, the line splitting, the heading rule and the joining pass `build`, is the source's.

Every offset downstream is an offset into the text `build` joins.
-/

namespace ContractIntel.Parsing

open Lib (Pattern)
open Patterns

/-- Stored bytes. -/
abbrev Bytes := List UInt8

def PDF_MIME : Str := "application/pdf".toList

def TEXT_MIME : Str := "text/plain".toList

def DOCX_MIME : Str :=
  "application/vnd.openxmlformats-officedocument.wordprocessingml.document".toList

inductive BlockKind | heading | paragraph
  deriving DecidableEq, Repr

structure ParsedBlock where
  kind : BlockKind
  text : Str
  start : Nat
  stop : Nat
  page : Option Nat
  deriving DecidableEq, Repr

/-- An entry of the page map. The `end` key is missing while the page is still open. -/
structure PageSpan where
  page : Nat
  start : Nat
  stop : Option Nat
  deriving DecidableEq, Repr

structure ParsedDocument where
  text : Str
  blocks : List ParsedBlock
  pageMap : List PageSpan
  deriving DecidableEq, Repr

/-- What a parser hands to `build`: kind, text and page of one block. -/
structure Entry where
  kind : BlockKind
  text : Str
  page : Option Nat
  deriving DecidableEq, Repr

/-! ## Joining the blocks -/

/-- The accumulators of `_build`: the joined parts, the blocks and page spans laid so far, and the
offset behind the last part. -/
structure Build where
  parts : List Str
  blocks : List ParsedBlock
  pageMap : List PageSpan
  pos : Nat

/-- `page_map[-1]["end"] = stop`, on a page map that may still be empty. -/
def closeLast (pageMap : List PageSpan) (stop : Nat) : List PageSpan :=
  match pageMap.getLast? with
  | none => pageMap
  | some last => pageMap.dropLast ++ [{ last with stop := some stop }]

/-- One round of the loop of `_build`. -/
def addEntry (state : Build) (entry : Entry) : Build :=
  let separator : List Str := if state.parts = [] then [] else [['\n', '\n']]
  let start := if state.parts = [] then state.pos else state.pos + 2
  let stop := start + entry.text.length
  { parts := state.parts ++ separator ++ [entry.text]
    blocks := state.blocks ++ [⟨entry.kind, entry.text, start, stop, entry.page⟩]
    pageMap :=
      match entry.page with
      | none => state.pageMap
      | some page =>
        if (state.pageMap.getLast?.map PageSpan.page) = some page then state.pageMap
        else closeLast state.pageMap start ++ [⟨page, start, none⟩]
    pos := stop }

/-- `_build`: join block texts with `"\n\n"` and compute offsets and page spans in one pass. -/
def build (entries : List Entry) : ParsedDocument :=
  let final := entries.foldl addEntry ⟨[], [], [], 0⟩
  ⟨Str.join [] final.parts, final.blocks, closeLast final.pageMap final.pos⟩

/-! ## The three parsers -/

/-- `_HEADING_PATTERN`. -/
def HEADING_PATTERN : Pattern Empty :=
  .seq
    (.alt
      (.seq clauseWord <| .seq spaces <| .seq digits <| .seq (.star dottedPart) (.opt delimiter))
      (.alt
        (.seq digits <| .seq (.plus dottedPart) (.opt delimiter))
        (.seq digits (.cls (· = '.')))))
    (.seq spaces nonSpace)

/-- The entry of one extracted line, none for a blank one. -/
def pdfEntry (page : Nat) (line : Str) : Option Entry :=
  let line := Str.strip line
  if line = [] then none
  else some ⟨if (HEADING_PATTERN.match? line).isSome then .heading else .paragraph, line, some page⟩

/-- `parse_pdf` on what `extract_text` returns for the pages in order, numbered from one. -/
def parsePdf (pages : List (Option Str)) : ParsedDocument :=
  build <| (pages.zipIdx 1).flatMap fun entry =>
    (Str.splitlines (entry.1.getD [])).filterMap (pdfEntry entry.2)

/-- The entry of one paragraph with its style name, none for a blank one. -/
def docxEntry (paragraph : Str × Option Str) : Option Entry :=
  let text := Str.strip paragraph.1
  if text = [] then none
  else
    let style := paragraph.2.getD []
    some ⟨if Str.startswith style "Heading".toList || Str.startswith style "Title".toList then
      .heading else .paragraph, text, none⟩

/-- `parse_docx` on the document's paragraphs. -/
def parseDocx (paragraphs : List (Str × Option Str)) : ParsedDocument :=
  build (paragraphs.filterMap docxEntry)

/-- `\n\s*\n`. -/
def BLANK_LINE_PATTERN : Pattern Empty :=
  .seq (.cls (· = '\n')) (.seq (.star (.cls Str.isSpace)) (.cls (· = '\n')))

/-- `parse_text` on the decoded text. -/
def parseText (text : Str) : ParsedDocument :=
  build <| (BLANK_LINE_PATTERN.split text).filterMap fun part =>
    if Str.strip part = [] then none else some ⟨.paragraph, Str.strip part, none⟩

/-! ## Dispatch on the media type -/

/-- The third-party readers: what they extract from a file, or the `str()` of the exception they
raise, which may be of any type. -/
class Libraries where
  /-- `extract_text` of every page of a PDF. -/
  pdfPages : Bytes → Except Str (List (Option Str))
  /-- Text and style name of every paragraph of a DOCX file. -/
  docxParagraphs : Bytes → Except Str (List (Str × Option Str))
  /-- `str()` of the `UnicodeDecodeError` for bytes that are not UTF-8. -/
  decodeMessage : Bytes → Str

/-- `content.decode("utf-8")`. -/
def decodeUtf8 (content : Bytes) : Option Str :=
  (String.fromUTF8? ⟨content.toArray⟩).map String.toList

/-- `str(UnsupportedParseError(mime_type))`. The stored media types hold no quote or backslash, so
their `repr` is the quoted text. -/
def unsupportedMessage (mimeType : Str) : Str :=
  "no parser for media type '".toList ++ mimeType ++ "'".toList

/-- `parse`, with a raised exception as its `str()`. -/
def parse [Libraries] (mimeType : Str) (content : Bytes) : Except Str ParsedDocument :=
  if mimeType = PDF_MIME then (Libraries.pdfPages content).map parsePdf
  else if mimeType = DOCX_MIME then (Libraries.docxParagraphs content).map parseDocx
  else if mimeType = TEXT_MIME then
    match decodeUtf8 content with
    | some text => .ok (parseText text)
    | none => .error (Libraries.decodeMessage content)
  else .error (unsupportedMessage mimeType)

end ContractIntel.Parsing
