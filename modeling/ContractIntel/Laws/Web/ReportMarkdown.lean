import ContractIntel.Lib.Lines
import ContractIntel.Lib.Splits
import ContractIntel.Web.ReportMarkdown
import Mathlib.Algebra.GroupWithZero.Nat

/-!
# What quoting contains

The quoted excerpts of a memo against the lines of Markdown, for which a carriage return ends a line
as well as a line feed does. `quote` puts its mark behind line feeds only. So an excerpt is contained
exactly when its carriage returns end lines that a line feed ends too; white space at the end of the
memo is trimmed, and with it the carriage returns in it.
-/

namespace ContractIntel.Web

open JsString
open Lib.Lines (body closed lines touched)

def isLf (c : UInt16) : Bool := c == LF

def isCr (c : UInt16) : Bool := c == CR

/-- A line without one `"> "` or `">"` in front, if it starts with `">"`. -/
def unquote (line : JsString) : Option JsString :=
  if (js "> ").isPrefixOf line then some (line.drop 2)
  else if (js ">").isPrefixOf line then some (line.drop 1)
  else none

/-- A text with a line feed for each of its line endings. -/
def lfEndings : JsString → JsString
  | [] => []
  | c :: rest =>
    if c = CR then if rest.head? = some LF then lfEndings rest else LF :: lfEndings rest
    else c :: lfEndings rest

/-- A piece of the memo that trimming does not stop at. -/
def Piece.blank (piece : Piece) : Bool := piece.text.all isSpace

/-- Where the piece after `before` starts: each piece has a line feed after it. -/
def position (before : List Piece) : Nat := (closed LF (before.map Piece.text)).length

/-- The excerpt is contained: every line of the memo on which it stands begins with `">"`, and
without the quote marks the lines are the excerpt up to line endings, and up to the trailing white
space of the memo if nothing but white space follows. -/
def Contained (before : List Piece) (excerpt : JsString) (after : List Piece)
    (markdown : JsString) : Prop :=
  ∃ texts : List JsString,
    (touched isLf isCr (position before) (position before + (quote excerpt).length) markdown).map
      (fun line => unquote (body isLf isCr line)) = texts.map some ∧
    if after.all Piece.blank then
      trimEnd (closed LF texts) = trimEnd (lfEndings (excerpt ++ [LF]))
    else closed LF texts = lfEndings (excerpt ++ [LF])

/-- Every carriage return stands before a line feed or at the end of the text. -/
def Quotable (excerpt : JsString) : Prop := ∀ line ∈ excerpt.splitOn LF, CR ∉ line.dropLast

/-- A text without the white space at the end of its last line. -/
def trimLine (text : JsString) : JsString := text.rdropWhile fun c => isSpace c && !isLf c

/-- The changes in the order of the memo. -/
def ChangeReportJobRead.rendered (job : ChangeReportJobRead) : List Change :=
  SEVERITIES.flatMap fun severity => (job.changes.getD []).filter (·.severity = severity)

/-- The excerpts of a change, each with whether it comes last in what is rendered of the change. -/
def Change.excerpts (change : Change) : List (JsString × Bool) :=
  (truthy change.baseExcerpt).toList.map
      (·, (truthy change.amendedExcerpt).isNone && change.impacts.isEmpty) ++
    (truthy change.amendedExcerpt).toList.map (·, change.impacts.isEmpty)

/-- Every excerpt that is rendered is quotable; of the one that ends the memo, if one does, without
the white space at the end of its last line. -/
def QuotableReport (job : ChangeReportJobRead) : Prop :=
  ∀ before change after, job.rendered = before ++ change :: after → ∀ e ∈ change.excerpts,
    Quotable (if e.2 && after.isEmpty then trimLine e.1 else e.1)

/-! ## Solid characters -/

/-- The number of characters that are not white space. -/
def solid (text : JsString) : Nat := text.countP fun c => !isSpace c

@[simp] theorem solid_nil : solid [] = 0 := rfl

@[simp] theorem solid_append (text more : JsString) :
    solid (text ++ more) = solid text + solid more := List.countP_append

theorem solid_eq_zero {text : JsString} (h : ∀ c ∈ text, isSpace c) : solid text = 0 :=
  List.countP_eq_zero.mpr fun c hc => by simp [h c hc]

theorem solid_cons (c : UInt16) (text : JsString) :
    solid (c :: text) = solid text + if isSpace c then 0 else 1 := by
  rw [solid, List.countP_cons, ← solid]
  cases isSpace c <;> rfl

/-- Trimming removes no solid character. -/
theorem solid_rdropWhile {p : UInt16 → Bool} (hp : ∀ c, p c → isSpace c) (text : JsString) :
    solid (text.rdropWhile p) = solid text := by
  have hsplit := congrArg solid (List.rdropWhile_append_rtakeWhile (p := p) (l := text))
  rw [solid_append, solid_eq_zero fun c hc => hp c (List.mem_rtakeWhile_imp hc)] at hsplit
  exact hsplit

theorem solid_trimEnd (text : JsString) : solid (trimEnd text) = solid text :=
  solid_rdropWhile (fun _ h => h) text

theorem solid_trimLine (text : JsString) : solid (trimLine text) = solid text :=
  solid_rdropWhile (fun _ h => (Bool.and_eq_true_iff.mp h).1) text

theorem solid_lfEndings (text : JsString) : solid (lfEndings text) = solid text := by
  induction text with
  | nil => rfl
  | cons c rest ih =>
    rw [lfEndings]
    split
    next hc =>
      rw [hc, solid_cons CR]
      split
      · exact ih
      · rw [solid_cons LF, ih]
        rfl
    next => rw [solid_cons, solid_cons, ih]

theorem solid_closed (texts : List JsString) :
    solid (closed LF texts) = (texts.map solid).sum := by
  induction texts with
  | nil => rfl
  | cons text texts ih =>
    rw [Lib.Lines.closed_cons, solid_append, solid_append, ih, solid_cons LF, List.map_cons,
      List.sum_cons]
    rfl

/-! ## Trimming -/

theorem forall_isSpace_LF : ∀ c ∈ [LF], isSpace c := List.all_eq_true.mp rfl

theorem trimEnd_append_of_all {text more : JsString} (h : ∀ c ∈ more, isSpace c) :
    trimEnd (text ++ more) = trimEnd text := Lib.rdropWhile_append_of_all h

theorem trimEnd_append_of_exists {text more : JsString} (h : ∃ c ∈ more, ¬ isSpace c) :
    trimEnd (text ++ more) = text ++ trimEnd more := Lib.rdropWhile_append_of_exists h

theorem trimEnd_eq_nil_iff {text : JsString} : trimEnd text = [] ↔ ∀ c ∈ text, isSpace c :=
  List.rdropWhile_eq_nil_iff

theorem forall_isSpace_lfEndings {text : JsString} (h : ∀ c ∈ text, isSpace c) :
    ∀ c ∈ lfEndings text, isSpace c := by
  have hsolid := (solid_lfEndings text).trans (solid_eq_zero h)
  intro c hc
  simpa using List.countP_eq_zero.mp hsolid c hc

theorem trimEnd_cons_congr (c : UInt16) {text text' : JsString} (h : trimEnd text = trimEnd text') :
    trimEnd (c :: text) = trimEnd (c :: text') := by
  by_cases hspace : ∀ d ∈ text, isSpace d
  · have hspace' := trimEnd_eq_nil_iff.mp (h.symm.trans (trimEnd_eq_nil_iff.mpr hspace))
    exact (show trimEnd ([c] ++ text) = _ from trimEnd_append_of_all hspace).trans
      (show trimEnd ([c] ++ text') = _ from trimEnd_append_of_all hspace').symm
  · have hspace' : ¬ ∀ d ∈ text', isSpace d := fun hall =>
      hspace (trimEnd_eq_nil_iff.mp (h.trans (trimEnd_eq_nil_iff.mpr hall)))
    have hcons {t : JsString} (ht : ¬ ∀ d ∈ t, isSpace d) : trimEnd (c :: t) = c :: trimEnd t :=
      show trimEnd ([c] ++ t) = [c] ++ trimEnd t from trimEnd_append_of_exists (by simpa using ht)
    rw [hcons hspace, hcons hspace', h]

/-- White space after a text does not show once the line endings are read. -/
theorem trimEnd_lfEndings_append {text more : JsString} (h : ∀ c ∈ more, isSpace c) :
    trimEnd (lfEndings (text ++ more)) = trimEnd (lfEndings text) := by
  induction text with
  | nil => exact trimEnd_eq_nil_iff.mpr (forall_isSpace_lfEndings h)
  | cons c rest ih =>
    rw [List.cons_append, lfEndings, lfEndings]
    split
    next hc =>
      cases rest with
      | nil =>
        -- a carriage return that ended the text: a line feed may follow it now
        refine (trimEnd_eq_nil_iff.mpr ?_).trans (trimEnd_eq_nil_iff.mpr forall_isSpace_LF).symm
        have hmore := forall_isSpace_lfEndings h
        split
        · exact hmore
        · exact List.forall_mem_cons.mpr ⟨rfl, hmore⟩
      | cons d rest =>
        rw [List.cons_append, List.head?_cons, List.head?_cons, ← List.cons_append]
        split
        · exact ih
        · exact trimEnd_cons_congr LF ih
    next => exact trimEnd_cons_congr c ih

/-! ## Quoting -/

section Quote

variable {excerpt line : JsString} {lines : List JsString}

/-- A line that is quoted holds its quote mark. -/
theorem exists_mem_quoteLine (line : JsString) : ∃ c ∈ quoteLine line, ¬ isSpace c := by
  rw [quoteLine]
  split
  · exact ⟨0x3e, by decide, by decide⟩
  · exact ⟨0x3e, List.mem_append_left _ (by decide), by decide⟩

theorem solid_quoteLine (line : JsString) : solid (quoteLine line) = 1 + solid line := by
  rw [quoteLine]
  split
  next h =>
    rw [List.isEmpty_iff.mp h]
    rfl
  next =>
    rw [solid_append]
    rfl

/-- Trimming a quoted line trims what it quotes. -/
theorem trimEnd_quoteLine (line : JsString) : trimEnd (quoteLine line) = quoteLine (trimEnd line) := by
  by_cases h : ∀ c ∈ line, isSpace c
  · have htrim : trimEnd line = [] := List.rdropWhile_eq_nil_iff.mpr h
    rw [htrim, quoteLine]
    split
    · rfl
    · rw [trimEnd_append_of_all h]
      rfl
  · have hne : line ≠ [] := fun hnil => h (hnil ▸ List.forall_mem_nil _)
    rw [quoteLine, if_neg (mt List.isEmpty_iff.mp hne),
      trimEnd_append_of_exists (by simpa using h), quoteLine,
      if_neg (mt List.isEmpty_iff.mp (mt trimEnd_eq_nil_iff.mp h))]

/-- The quoted lines, each closed by its line feed. -/
theorem quote_concat (excerpt : JsString) :
    quote excerpt ++ [LF] = closed LF ((excerpt.splitOn LF).map quoteLine) :=
  Lib.Lines.intercalate_concat (by simp)

theorem concat_eq_closed (excerpt : JsString) : excerpt ++ [LF] = closed LF (excerpt.splitOn LF) := by
  rw [← Lib.Lines.intercalate_concat (List.splitOn_ne_nil LF excerpt), List.intercalate_splitOn]

theorem not_isLf_of_mem_splitOn {line : JsString} (h : line ∈ excerpt.splitOn LF) :
    ∀ c ∈ line, ¬ isLf c := fun _ hc hlf =>
  Lib.Lines.not_mem_of_mem_splitOn h (beq_iff_eq.mp hlf ▸ hc)

/-- A text is its last line after its other lines. -/
theorem eq_of_splitOn {init : List JsString} {last : JsString}
    (h : excerpt.splitOn LF = init ++ [last]) : excerpt = closed LF init ++ last := by
  rw [← Lib.Lines.intercalate_append_singleton, ← h, List.intercalate_splitOn]

theorem quote_of_splitOn {init : List JsString} {last : JsString}
    (h : excerpt.splitOn LF = init ++ [last]) :
    quote excerpt = closed LF (init.map quoteLine) ++ quoteLine last := by
  rw [quote, h, List.map_append, List.map_singleton, Lib.Lines.intercalate_append_singleton]

/-- Only the last line of a text is trimmed. -/
theorem splitOn_trimLine {init : List JsString} {last : JsString}
    (h : excerpt.splitOn LF = init ++ [last]) :
    (trimLine excerpt).splitOn LF = init ++ [trimEnd last] := by
  have hlines : ∀ line ∈ init ++ [last], LF ∉ line := fun line hline =>
    Lib.Lines.not_mem_of_mem_splitOn (h ▸ hline)
  obtain ⟨hinit, hlast⟩ := List.forall_mem_append.mp hlines
  replace hlast : LF ∉ last := hlast last (List.mem_singleton_self _)
  have hp : ∀ c ∈ last, (isSpace c && !isLf c) = isSpace c := by
    intro c hc
    have hne : c ≠ LF := fun heq => hlast (heq ▸ hc)
    simp [isLf, hne]
  have htrim : trimLine excerpt = closed LF init ++ trimEnd last := by
    rw [eq_of_splitOn h, trimLine, trimEnd]
    by_cases hall : ∀ c ∈ last, isSpace c
    · rw [Lib.rdropWhile_append_of_all fun c hc => (hp c hc).trans (hall c hc),
        List.rdropWhile_eq_nil_iff.mpr hall, List.append_nil, List.rdropWhile_eq_self_iff]
      intro hne hspace
      have hend : ∀ c ∈ (closed LF init).getLast?, isLf c := Lib.Lines.isLf_of_getLast?_closed rfl
      simp [hend _ (List.getLast?_eq_some_getLast hne)] at hspace
    · have hsolid : ∃ c ∈ last, ¬ (isSpace c && !isLf c) := by
        obtain ⟨c, hc, hspace⟩ := not_forall₂.mp hall
        exact ⟨c, hc, by rwa [hp c hc]⟩
      rw [Lib.rdropWhile_append_of_exists hsolid, Lib.rdropWhile_congr hp]
  have htrimmed : LF ∉ trimEnd last := fun hmem => hlast ((List.rdropWhile_prefix _ _).subset hmem)
  rw [htrim, ← Lib.Lines.intercalate_append_singleton, List.splitOn_intercalate _ ?_ (by simp)]
  exact List.forall_mem_append.mpr ⟨hinit, fun line hline => by
    rwa [List.mem_singleton.mp hline]⟩

/-- Trimming a quoted text trims the text that is quoted. -/
theorem trimEnd_quote (excerpt : JsString) : trimEnd (quote excerpt) = quote (trimLine excerpt) := by
  obtain ⟨init, last, h⟩ :=
    (List.eq_nil_or_concat' _).resolve_left (List.splitOn_ne_nil LF excerpt)
  rw [quote_of_splitOn h, quote_of_splitOn (splitOn_trimLine h),
    trimEnd_append_of_exists (exists_mem_quoteLine last), trimEnd_quoteLine]

/-- What quoting puts in front of a line. -/
theorem quoteLine_of_ne_nil (h : line ≠ []) : quoteLine line = js "> " ++ line := by
  rw [quoteLine, if_neg (mt List.isEmpty_iff.mp h)]

theorem not_isLf_quoteLine (h : ∀ c ∈ line, ¬ isLf c) : ∀ c ∈ quoteLine line, ¬ isLf c := by
  rw [quoteLine]
  split
  · exact List.any_eq_false.mp rfl
  · exact List.forall_mem_append.mpr ⟨List.any_eq_false.mp rfl, h⟩

/-- The quote mark moves no carriage return to the end of a line, and none away from it. -/
theorem not_isCr_dropLast_quoteLine :
    (∀ c ∈ (quoteLine line).dropLast, ¬ isCr c) ↔ CR ∉ line.dropLast := by
  have hcr {text : JsString} : (∀ c ∈ text, ¬ isCr c) ↔ CR ∉ text := by
    refine ⟨fun h hmem => h CR hmem rfl, fun h c hc hcr => h ?_⟩
    exact beq_iff_eq.mp hcr ▸ hc
  rw [hcr]
  cases line with
  | nil => decide
  | cons c rest =>
    rw [quoteLine_of_ne_nil (List.cons_ne_nil c rest),
      List.dropLast_append_of_ne_nil (List.cons_ne_nil c rest), List.mem_append]
    exact not_congr (or_iff_right (by decide))

/-! ## Reading what was quoted -/

theorem unquote_append (rest : JsString) : unquote (js "> " ++ rest) = some rest := by
  rw [unquote, if_pos (List.isPrefixOf_iff_prefix.mpr (List.prefix_append _ _))]
  rfl

theorem unquote_body_quoteLine (line : JsString) :
    unquote (body isLf isCr (quoteLine line ++ [LF])) = some (body isLf isCr line) := by
  rw [Lib.Lines.body_concat rfl]
  cases line with
  | nil => rfl
  | cons c rest =>
    rw [quoteLine_of_ne_nil (List.cons_ne_nil c rest)]
    exact unquote_append _

/-- The line endings of a line that has no carriage return before its end. -/
theorem lfEndings_line (hlf : ∀ c ∈ line, ¬ isLf c) (hcr : CR ∉ line.dropLast) (rest : JsString) :
    lfEndings (line ++ LF :: rest) = body isLf isCr line ++ LF :: lfEndings rest := by
  induction line with
  | nil => rfl
  | cons c line ih =>
    obtain ⟨hc, hlf⟩ := List.forall_mem_cons.mp hlf
    rw [List.cons_append, lfEndings]
    split
    next heq =>
      cases line with
      | nil =>
        rw [heq]
        rfl
      | cons d line => exact absurd (heq ▸ List.mem_cons_self) hcr
    next hne =>
      have hbody : body isLf isCr (c :: line) = c :: body isLf isCr line := by
        rw [body, List.takeWhile_cons_of_pos, body]
        simp [hc, isCr, hne]
      rw [hbody, ih hlf, List.cons_append]
      intro hmem
      cases line with
      | nil => cases hmem
      | cons d line => exact hcr (List.mem_cons_of_mem _ hmem)

theorem lfEndings_closed {texts : List JsString} (hlf : ∀ text ∈ texts, ∀ c ∈ text, ¬ isLf c)
    (hcr : ∀ text ∈ texts, CR ∉ text.dropLast) :
    lfEndings (closed LF texts) = closed LF (texts.map (body isLf isCr)) := by
  induction texts with
  | nil => rfl
  | cons text texts ih =>
    obtain ⟨htext, hlf⟩ := List.forall_mem_cons.mp hlf
    obtain ⟨hend, hcr⟩ := List.forall_mem_cons.mp hcr
    rw [Lib.Lines.closed_cons, List.append_assoc, List.singleton_append, lfEndings_line htext hend,
      ih hlf hcr]
    simp

/-- The lines on which a quotable text is quoted give the text back. -/
theorem exists_of_quotable (h : Quotable excerpt) : ∃ texts : List JsString,
    (Lib.Lines.lines isLf isCr (quote excerpt ++ [LF])).map
      (fun line => unquote (body isLf isCr line)) = texts.map some ∧
    closed LF texts = lfEndings (excerpt ++ [LF]) := by
  have hlf : ∀ line ∈ excerpt.splitOn LF, ∀ c ∈ line, ¬ isLf c := fun _ => not_isLf_of_mem_splitOn
  refine ⟨(excerpt.splitOn LF).map (body isLf isCr), ?_, ?_⟩
  · rw [quote_concat, Lib.Lines.lines_closed_eq_map rfl, List.map_map, List.map_map, List.map_map]
    · exact List.map_congr_left fun line _ => unquote_body_quoteLine line
    · exact List.forall_mem_map.mpr fun line hline => not_isLf_quoteLine (hlf line hline)
    · exact List.forall_mem_map.mpr fun line hline => not_isCr_dropLast_quoteLine.mpr (h line hline)
  · rw [concat_eq_closed, lfEndings_closed hlf h]

/-- A line without its quote mark has one solid character less. -/
theorem solid_unquote {text : JsString} (h : unquote line = some text) :
    solid line = 1 + solid text := by
  unfold unquote at h
  split at h
  next hprefix =>
    obtain ⟨rest, rfl⟩ := List.isPrefixOf_iff_prefix.mp hprefix
    cases h
    exact solid_append (js "> ") rest
  next =>
    split at h
    next hprefix =>
      obtain ⟨rest, rfl⟩ := List.isPrefixOf_iff_prefix.mp hprefix
      cases h
      exact solid_append (js ">") rest
    next => cases h

/-- Each line that is unquoted adds its quote mark. -/
theorem length_add_solid_le {lines texts : List JsString}
    (h : lines.map (fun line => unquote (body isLf isCr line)) = texts.map some) :
    lines.length + (texts.map solid).sum ≤ solid lines.flatten := by
  induction lines generalizing texts with
  | nil =>
    rw [List.map_eq_nil_iff.mp h.symm]
    exact Nat.zero_le _
  | cons line lines ih =>
    obtain ⟨text, texts, rfl, htext, hrest⟩ := List.map_eq_cons_iff.mp h.symm
    have hline : solid (body isLf isCr line) ≤ solid line :=
      (List.takeWhile_sublist _).countP_le
    have hsolid := solid_unquote htext.symm
    have hle := ih hrest.symm
    rw [List.flatten_cons, solid_append, List.length_cons, List.map_cons, List.sum_cons]
    omega

/-- Quoting adds one quote mark for each line of the text. -/
theorem solid_quote_concat (excerpt : JsString) :
    solid (quote excerpt ++ [LF]) = (excerpt.splitOn LF).length + solid excerpt := by
  have hmarks (texts : List JsString) : ((texts.map quoteLine).map solid).sum =
      texts.length + (texts.map solid).sum := by
    induction texts with
    | nil => rfl
    | cons text texts ih =>
      rw [List.map_cons, List.map_cons, List.sum_cons, ih, solid_quoteLine, List.length_cons,
        List.map_cons, List.sum_cons]
      omega
  have hexcerpt : solid (excerpt ++ [LF]) = solid excerpt := solid_append excerpt [LF]
  rw [quote_concat, solid_closed, hmarks, ← solid_closed, ← concat_eq_closed, hexcerpt]

/-- If the lines on which a text is quoted give back as much as it holds, it is quotable. -/
theorem quotable_of_unquoted {texts : List JsString}
    (h : (Lib.Lines.lines isLf isCr (quote excerpt ++ [LF])).map
      (fun line => unquote (body isLf isCr line)) = texts.map some)
    (hsolid : (texts.map solid).sum = solid excerpt) : Quotable excerpt := by
  have hle := length_add_solid_le h
  rw [Lib.Lines.flatten_lines, solid_quote_concat, hsolid, Nat.add_le_add_iff_right, quote_concat] at hle
  have hends := Lib.Lines.forall_of_length_lines_le rfl
    (List.forall_mem_map.mpr fun line hline => not_isLf_quoteLine (not_isLf_of_mem_splitOn hline))
    (hle.trans_eq (List.length_map _).symm)
  exact fun line hline => not_isCr_dropLast_quoteLine.mp (List.forall_mem_map.mp hends line hline)

end Quote

/-! ## One excerpt of a memo -/

section Memo

variable {job : ChangeReportJobRead} {documents : Documents} {before after : List Piece}
  {excerpt : JsString}

/-- A quoted excerpt does not end with a line feed. -/
theorem not_isLf_getLast?_quote (excerpt : JsString) : ∀ c ∈ (quote excerpt).getLast?, ¬ isLf c := by
  obtain ⟨init, last, h⟩ :=
    (List.eq_nil_or_concat' _).resolve_left (List.splitOn_ne_nil LF excerpt)
  have hlast : ∀ c ∈ last, ¬ isLf c :=
    not_isLf_of_mem_splitOn (h ▸ List.mem_append_right _ (List.mem_singleton_self _))
  obtain ⟨d, hd, -⟩ := exists_mem_quoteLine last
  intro c hc
  rw [quote_of_splitOn h, List.getLast?_append_of_ne_nil _ (List.ne_nil_of_mem hd)] at hc
  exact not_isLf_quoteLine hlast c (List.mem_of_getLast? hc)

theorem exists_mem_quote (excerpt : JsString) : ∃ c ∈ quote excerpt, ¬ isSpace c := by
  obtain ⟨init, last, h⟩ :=
    (List.eq_nil_or_concat' _).resolve_left (List.splitOn_ne_nil LF excerpt)
  obtain ⟨c, hc, hspace⟩ := exists_mem_quoteLine last
  exact ⟨c, quote_of_splitOn h ▸ List.mem_append_right _ hc, hspace⟩

/-- Pieces are blank when their text is white space. -/
theorem all_blank_iff : after.all Piece.blank ↔
    ∀ c ∈ closed LF (after.map Piece.text), isSpace c := by
  induction after with
  | nil => simp [closed]
  | cons piece after ih =>
    rw [List.all_cons, Bool.and_eq_true, ih, Piece.blank, List.all_eq_true, List.map_cons,
      Lib.Lines.closed_cons, List.forall_mem_append, List.forall_mem_append,
      and_iff_left forall_isSpace_LF]

variable [Doubles]

/-- Where an excerpt stands in the memo: as it is quoted, unless trimming reaches it. -/
theorem reportToMarkdown_eq (hmemo : memo job documents = before ++ .quoted excerpt :: after) :
    ∃ rest, reportToMarkdown job documents =
      closed LF (before.map Piece.text) ++
        (quote (if after.all Piece.blank then trimLine excerpt else excerpt) ++ [LF]) ++ rest ∧
      (after.all Piece.blank → rest = []) := by
  have hpieces : closed LF ((memo job documents).map Piece.text) =
      closed LF (before.map Piece.text) ++ (quote excerpt ++ [LF]) ++
        closed LF (after.map Piece.text) := by
    rw [hmemo]
    simp [Piece.text]
  have htrim : trimEnd ([LF].intercalate ((memo job documents).map Piece.text)) =
      trimEnd (closed LF ((memo job documents).map Piece.text)) := by
    rw [← Lib.Lines.intercalate_concat (by simp [hmemo]), trimEnd_append_of_all forall_isSpace_LF]
  rw [reportToMarkdown, htrim, hpieces]
  split
  next hblank =>
    refine ⟨[], ?_, fun _ => rfl⟩
    have hspace : ∀ c ∈ [LF] ++ closed LF (after.map Piece.text), isSpace c :=
      List.forall_mem_append.mpr ⟨forall_isSpace_LF, all_blank_iff.mp hblank⟩
    rw [List.append_assoc, List.append_assoc, ← List.append_assoc, trimEnd_append_of_all hspace,
      trimEnd_append_of_exists (exists_mem_quote excerpt), trimEnd_quote]
    simp
  next hblank =>
    refine ⟨trimEnd (closed LF (after.map Piece.text)) ++ [LF], ?_, fun h => absurd h hblank⟩
    have hsolid : ∃ c ∈ closed LF (after.map Piece.text), ¬ isSpace c := by
      simpa using mt all_blank_iff.mpr hblank
    rw [trimEnd_append_of_exists hsolid, List.append_assoc]

/-- The lines of the memo on which an excerpt stands are the lines of its quotation. -/
theorem touched_quote (hmemo : memo job documents = before ++ .quoted excerpt :: after) :
    touched isLf isCr (position before) (position before + (quote excerpt).length)
      (reportToMarkdown job documents) =
    Lib.Lines.lines isLf isCr
      (quote (if after.all Piece.blank then trimLine excerpt else excerpt) ++ [LF]) := by
  obtain ⟨rest, heq, hrest⟩ := reportToMarkdown_eq hmemo
  have hlength : (quote (if after.all Piece.blank then trimLine excerpt else excerpt)).length ≤
      (quote excerpt).length := by
    split
    · exact trimEnd_quote excerpt ▸ (List.rdropWhile_prefix _ _).length_le
    · exact le_rfl
  obtain ⟨c, hc, -⟩ :=
    exists_mem_quote (if after.all Piece.blank then trimLine excerpt else excerpt)
  rw [heq]
  refine Lib.Lines.touched_eq rfl (Lib.Lines.isLf_of_getLast?_closed rfl) (List.ne_nil_of_mem hc)
    (not_isLf_getLast?_quote _) rfl (Nat.add_le_add_left hlength _) ?_
  by_cases hblank : after.all Piece.blank
  · exact .inl (hrest hblank)
  · rw [if_neg hblank]
    exact .inr (Nat.le_succ _)

/-- An excerpt is contained exactly when it is quotable; of the excerpt that ends the memo, what
trimming leaves of its last line counts. -/
theorem contained_iff (hmemo : memo job documents = before ++ .quoted excerpt :: after) :
    Contained before excerpt after (reportToMarkdown job documents) ↔
      Quotable (if after.all Piece.blank then trimLine excerpt else excerpt) := by
  have hexcerpt : solid (lfEndings (excerpt ++ [LF])) = solid excerpt :=
    (solid_lfEndings _).trans (solid_append excerpt [LF])
  rw [Contained, touched_quote hmemo]
  constructor
  · rintro ⟨texts, htexts, hback⟩
    refine quotable_of_unquoted htexts ?_
    rw [← solid_closed]
    split at hback
    next hblank =>
      rw [← solid_trimEnd, hback, solid_trimEnd, hexcerpt, if_pos hblank, solid_trimLine]
    next hblank => rw [hback, hexcerpt, if_neg hblank]
  · intro hquotable
    obtain ⟨texts, htexts, hback⟩ := exists_of_quotable hquotable
    refine ⟨texts, htexts, ?_⟩
    rw [hback]
    split
    next hblank =>
      have hspace : ∀ c ∈ excerpt.rtakeWhile (fun c => isSpace c && !isLf c) ++ [LF], isSpace c := by
        refine List.forall_mem_append.mpr ⟨fun c hc => ?_, forall_isSpace_LF⟩
        have hp := List.mem_rtakeWhile_imp hc
        exact (Bool.and_eq_true_iff.mp hp).1
      rw [trimEnd_lfEndings_append forall_isSpace_LF, ← trimEnd_lfEndings_append hspace,
        ← List.append_assoc, trimLine, List.rdropWhile_append_rtakeWhile]
    next => rfl

end Memo

/-! ## The excerpts of a report -/

section Report

open Lib (EachSplit eachSplit_append eachSplit_congr eachSplit_flatMap eachSplit_iff)

/-- A piece that does not reach out of its quotation, whatever comes after it. -/
def Fits (piece : Piece) (after : List Piece) : Prop :=
  match piece with
  | .own _ => True
  | .quoted excerpt => Quotable (if after.all Piece.blank then trimLine excerpt else excerpt)

theorem isEmpty_append {α : Type} (l m : List α) : (l ++ m).isEmpty = (l.isEmpty && m.isEmpty) := by
  cases l <;> rfl

/-- Pieces of the memo's own fit. -/
theorem eachSplit_own {pieces : List Piece} (tail : List Piece)
    (h : ∀ piece ∈ pieces, ∃ text, piece = .own text) :
    EachSplit (fun piece rest => Fits piece (rest ++ tail)) pieces := by
  refine eachSplit_iff.mpr fun before piece after heq => ?_
  obtain ⟨text, rfl⟩ := h piece (heq ▸ List.mem_append_right _ List.mem_cons_self)
  trivial

theorem blank_excerptPieces {title : JsString} (htitle : title.all isSpace = false)
    (excerpt : Option JsString) :
    (excerptPieces title excerpt).all Piece.blank = (truthy excerpt).isNone := by
  rw [excerptPieces]
  cases truthy excerpt with
  | none => rfl
  | some excerpt => simp [Piece.blank, Piece.text, htitle]

theorem eachSplit_excerptPieces (title : JsString) (excerpt : Option JsString) (tail : List Piece) :
    EachSplit (fun piece rest => Fits piece (rest ++ tail)) (excerptPieces title excerpt) ↔
      ∀ e ∈ truthy excerpt, Quotable (if tail.all Piece.blank then trimLine e else e) := by
  rw [excerptPieces]
  cases truthy excerpt with
  | none => simp
  | some excerpt => simp [Fits, Piece.blank, Piece.text]

variable [Doubles]

theorem blank_impactPieces (impacts : List ChangeImpact) :
    (impactPieces impacts).all Piece.blank = impacts.isEmpty := by
  cases impacts <;> rfl

theorem eachSplit_impactPieces (impacts : List ChangeImpact) (tail : List Piece) :
    EachSplit (fun piece rest => Fits piece (rest ++ tail)) (impactPieces impacts) := by
  refine eachSplit_own tail fun piece hpiece => ?_
  rw [impactPieces] at hpiece
  split at hpiece
  · cases hpiece
  · simp only [List.mem_append, List.mem_cons, List.mem_map, List.not_mem_nil, or_false] at hpiece
    rcases hpiece with ((rfl | rfl) | ⟨impact, -, rfl⟩) | rfl <;> exact ⟨_, rfl⟩

theorem blank_changePieces (change : Change) : (changePieces change).all Piece.blank = false := rfl

/-- The excerpts of a change in the memo. -/
theorem eachSplit_changePieces (change : Change) (tail : List Piece) :
    EachSplit (fun piece rest => Fits piece (rest ++ tail)) (changePieces change) ↔
      ∀ e ∈ change.excerpts,
        Quotable (if e.2 && tail.all Piece.blank then trimLine e.1 else e.1) := by
  have hafter : (js "**After**").all isSpace = false := by decide
  simp only [changePieces, eachSplit_append, List.append_assoc, eachSplit_excerptPieces,
    List.all_append, blank_excerptPieces hafter, blank_impactPieces, eachSplit_impactPieces,
    Change.excerpts, List.forall_mem_append, List.forall_mem_map, Option.mem_toList, Bool.and_assoc,
    and_true]
  exact and_iff_right ⟨trivial, trivial, trivial, trivial, trivial⟩

theorem blank_flatMap_changePieces (changes : List Change) :
    (changes.flatMap changePieces).all Piece.blank = changes.isEmpty := by
  cases changes with
  | nil => rfl
  | cons change changes =>
    rw [List.flatMap_cons, List.all_append, blank_changePieces]
    rfl

theorem blank_flatMap_severityPieces (changes : List Change) (severities : List Severity) :
    (severities.flatMap (severityPieces changes)).all Piece.blank =
      (severities.flatMap fun severity => changes.filter (·.severity = severity)).isEmpty := by
  induction severities with
  | nil => rfl
  | cons severity severities ih =>
    rw [List.flatMap_cons, List.flatMap_cons, List.all_append, ih, isEmpty_append,
      severityPieces]
    cases changes.filter (·.severity = severity) with
    | nil => rfl
    | cons change group => rfl

/-- The excerpts of the changes of one severity. -/
theorem eachSplit_severityPieces (changes : List Change) (severity : Severity) {tail : List Piece}
    {after : List Change} (htail : tail.all Piece.blank = after.isEmpty) :
    EachSplit (fun piece rest => Fits piece (rest ++ tail)) (severityPieces changes severity) ↔
      EachSplit (fun change rest => ∀ e ∈ change.excerpts,
          Quotable (if e.2 && (rest ++ after).isEmpty then trimLine e.1 else e.1))
        (changes.filter (·.severity = severity)) := by
  rw [severityPieces]
  split
  next hempty =>
    rw [List.isEmpty_iff.mp hempty]
    exact Iff.rfl
  next =>
    rw [eachSplit_append, eachSplit_flatMap]
    refine (and_iff_right ⟨trivial, trivial, trivial, trivial⟩).trans
      (eachSplit_congr fun change rest => ?_)
    simp only [List.append_assoc, eachSplit_changePieces, List.all_append,
      blank_flatMap_changePieces, htail, isEmpty_append]

/-- The excerpts of the memo are those of the report, in the order they are rendered. -/
theorem eachSplit_memo (job : ChangeReportJobRead) (documents : Documents) :
    EachSplit Fits (memo job documents) ↔ QuotableReport job := by
  rw [memo, eachSplit_append, QuotableReport, ← eachSplit_iff, ChangeReportJobRead.rendered,
    eachSplit_flatMap, eachSplit_flatMap]
  refine (and_iff_right (eachSplit_own _ fun piece hpiece => ?_)).trans
    (eachSplit_congr fun severity rest => ?_)
  · simp only [List.mem_append, List.mem_cons, List.mem_map, List.not_mem_nil, or_false] at hpiece
    rcases hpiece with (((rfl | rfl) | ⟨name, -, rfl⟩) | ⟨name, -, rfl⟩) | rfl | rfl
    all_goals exact ⟨_, rfl⟩
  · exact eachSplit_severityPieces _ _ (blank_flatMap_severityPieces _ _)

/-- In the memo of a change report every excerpt is contained in its quotation, every line of Markdown
it stands on marked and nothing of it lost, if and only if every excerpt is quotable: its carriage
returns stand before line feeds or at its end. -/
theorem memo_contains_iff (job : ChangeReportJobRead) (documents : Documents) :
    (∀ before excerpt after, memo job documents = before ++ .quoted excerpt :: after →
      Contained before excerpt after (reportToMarkdown job documents)) ↔ QuotableReport job := by
  rw [← eachSplit_memo job documents, eachSplit_iff]
  constructor
  · intro h before piece after hmemo
    cases piece with
    | own text => trivial
    | quoted excerpt => exact (contained_iff hmemo).mp (h before excerpt after hmemo)
  · exact fun h before excerpt after hmemo => (contained_iff hmemo).mpr (h _ _ _ hmemo)

end Report

/-- A report with one change, whose excerpt has a carriage return inside a line. -/
def waiverReport : ChangeReportJobRead where
  changes := some [{
    kind := .modified
    clauseRef := some (js "3")
    baseExcerpt := none
    amendedExcerpt := some (js "Pay on time.\r# Waiver")
    description := js "Wording changed."
    severity := .medium
    impacts := [] }]
  updatedAt := js "2026-09-22T09:01:00+00:00"

/-- What stands behind the carriage return is a heading of the memo. -/
theorem carriage_return_adds_heading :
    letI := Doubles.exact
    js "# Waiver\n" ∈ Lib.Lines.lines isLf isCr (reportToMarkdown waiverReport ⟨none, none⟩) ∧
      ¬ ∀ before excerpt after, memo waiverReport ⟨none, none⟩ = before ++ .quoted excerpt :: after →
        Contained before excerpt after (reportToMarkdown waiverReport ⟨none, none⟩) := by
  let _ := Doubles.exact
  refine ⟨by decide +kernel, fun h => ?_⟩
  let before := (memo waiverReport ⟨none, none⟩).take 13
  let excerpt := js "Pay on time.\r# Waiver"
  obtain ⟨texts, htexts, -⟩ := h before excerpt _ rfl
  have hnone : none ∈ (touched isLf isCr (position before)
      (position before + (quote excerpt).length) (reportToMarkdown waiverReport ⟨none, none⟩)).map
        (fun line => unquote (body isLf isCr line)) := by decide +kernel
  rw [htexts] at hnone
  simp at hnone

end ContractIntel.Web
