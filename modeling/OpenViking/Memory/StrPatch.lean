import OpenViking.Common.EditDistance
import OpenViking.Memory.FieldsComment
import Mathlib.Data.Rat.Defs
import Mathlib.Data.Rat.Init
import Mathlib.Algebra.Order.Ring.Rat

/-!
# Patches of a text

`apply_str_patch` (`session/memory/merge_op/patch_handler.py`) with what it uses of
`session/memory/utils/line_numbers.py`.  The blocks of a patch are first replaced as they stand; when
one of them is not found, all are tried again by lines, with line numbers stripped and with the most
similar lines taken.

A similarity is a quotient of lengths, here exact.

The search for the most similar lines is in `FuzzySearch`, the fate of a block in `PatchPlaces`, and
what holds of a patch in `PatchCrashes` and `PatchWhole`.
-/

namespace OpenViking.Memory.StrPatch

open EditDistance

/-- A text. -/
abbrev Str := List Char

/-! ## Texts -/

/-- `str.replace(old, new)` for an `old` that is not empty; `skip` characters belong to the occurrence
before. -/
def replaceFrom (old new : Str) : ℕ → Str → Str
  | _, [] => []
  | skip + 1, _ :: t => replaceFrom old new skip t
  | 0, c :: t =>
    if old <+: c :: t then new ++ replaceFrom old new (old.length - 1) t
    else c :: replaceFrom old new 0 t

/-- `str.count(old)` for an `old` that is not empty. -/
def countFrom (old : Str) : ℕ → Str → ℕ
  | _, [] => 0
  | skip + 1, _ :: t => countFrom old skip t
  | 0, c :: t =>
    if old <+: c :: t then countFrom old (old.length - 1) t + 1 else countFrom old 0 t

/-- `str.replace(old, new, 1)` -/
def replaceFirst (old new : Str) : Str → Str
  | [] => []
  | c :: t => if old <+: c :: t then new ++ (c :: t).drop old.length else c :: replaceFirst old new t

/-- The markers that may be escaped (`unescape_markers`, 235-244). -/
def markers : List Str :=
  ["<<<<<<<", "=======", ">>>>>>>", "-------", ":end_line:", ":start_line:"].map String.toList

/-- `unescape_markers(content)` (235-244) -/
def unescapeMarkers (content : Str) : Str :=
  markers.foldl (fun content marker => replaceFrom (Char.ofNat 92 :: marker) marker 0 content) content

/-- A line without the carriage return before its end. -/
def dropCarriage (line : Str) : Str := if line.getLast? = some '\r' then line.dropLast else line

/-- `re.split(r"\r?\n", content)` -/
def splitLines (content : Str) : List Str :=
  let parts := content.splitOn '\n'
  parts.dropLast.map dropCarriage ++ parts.getLast?.toList

/-- `split_content_lines(content)` (`line_numbers.py`, 12-15) -/
def splitContentLines (content : Str) : List Str := if content = [] then [] else splitLines content

/-- `"\n".join(lines)` -/
def joinLines (lines : List Str) : Str := ['\n'].intercalate lines

/-- `content.split("\n")`, and no lines for an empty text. -/
def linesOf (content : Str) : List Str := if content = [] then [] else content.splitOn '\n'

/-- The indentation of a line. -/
def indentOf (line : Str) : Str := line.takeWhile fun c => c = '\t' ∨ c = ' '

/-! ## Line numbers -/

/-- What the code takes from Python: the value of a decimal digit, and how a patch is printed. -/
structure Env where
  decimal : Char → Option ℕ
  showPatch : List (Str × Str) → Str

/-- What is raised. -/
inductive PatchError where
  | parseError (text : Str)
  | indexError
  | valueError
  deriving DecidableEq

/-- The match of `^(\d+)\t`: the digits and the rest of the line. -/
def numberPrefix (E : Env) (line : Str) : Option (Str × Str) :=
  match line.span fun c => (E.decimal c).isSome with
  | ([], _) => none
  | (digits, '\t' :: rest) => some (digits, rest)
  | _ => none

/-- `sys.int_info.default_max_str_digits` -/
def maxStrDigits : ℕ := 4300

/-- `int(digits)` -/
def intOf (E : Env) (digits : Str) : Except PatchError ℕ :=
  if digits.length > maxStrDigits then .error .valueError
  else .ok (digits.foldl (fun n c => 10 * n + (E.decimal c).getD 0) 0)

/-- `extract_start_line_number(content)` (38-43): the first line, after any white space. -/
def extractStartLineNumber (E : Env) (content : Str) : Except PatchError (Option ℕ) :=
  let firstLine := content.takeWhile (· ≠ '\n')
  match numberPrefix E (firstLine.dropWhile isSpace) with
  | none => .ok none
  | some (digits, _) => (intOf E digits).map some

/-- `strip_line_numbers(content, aggressive)` (46-48) -/
def stripLineNumbers (E : Env) (aggressive : Bool) (content : Str) : Str :=
  joinLines ((splitContentLines content).map fun line =>
    match numberPrefix E (if aggressive then line.dropWhile isSpace else line) with
    | some (_, rest) => rest
    | none => line)

/-- `every_line_has_line_numbers(content)` (51-55) -/
def everyLineHasLineNumbers (E : Env) (content : Str) : Bool :=
  splitContentLines content ≠ [] ∧
    (splitContentLines content).all fun line => (numberPrefix E line).isSome

/-! ## Similarity -/

/-- `normalize_string` (77-93) on a character. -/
def normalizeChar (c : Char) : Str :=
  if c.toNat ∈ [0x2018, 0x2019] then [Char.ofNat 39]
  else if c.toNat ∈ [0x201c, 0x201d] then [Char.ofNat 34]
  else if c.toNat = 0xa0 then [' ']
  else if c.toNat ∈ [0x200b, 0x200c, 0x200d, 0x200e, 0x200f, 0xfeff] then []
  else [c]

/-- `normalize_string(text)` (77-93) -/
def normalizeString (text : Str) : Str := text.flatMap normalizeChar

/-- `get_similarity(original, search)` (96-110) -/
def getSimilarity (original search : Str) : ℚ :=
  if search = [] then 0
  else
    let normalizedOriginal := normalizeString original
    let normalizedSearch := normalizeString search
    if normalizedOriginal = normalizedSearch then 1
    else
      let maxLength := max normalizedOriginal.length normalizedSearch.length
      if maxLength > 0 then
        1 - (levenshteinDistance normalizedOriginal normalizedSearch : ℚ) / (maxLength : ℚ)
      else 1

/-- The better of a score and another. -/
def better (best score : ℚ) : ℚ := if score > best then score else best

/-- The score of `_find_best_substring_match(line, search_str)` (196-227). -/
def findBestSubstringMatch (line search : Str) : ℚ :=
  if search.length ≥ line.length then getSimilarity line search
  else
    let positionsToCheck := [0, line.length - search.length] ++
      (if line.length > search.length * 3 then [line.length / 2 - search.length / 2] else [])
    let best := (positionsToCheck.filter (· ≤ line.length - search.length)).foldl
      (fun best i => better best (getSimilarity ((line.drop i).take search.length) search)) 0
    better best (getSimilarity line search)

/-! ## Searching -/

/-- `bestScore` and `bestMatchIndex`, which is `none` for -1. -/
structure Best where
  score : ℚ
  index : Option ℕ
  deriving DecidableEq

/-- The run of `len` lines from a line on. -/
def runOf (lines : List Str) (i len : ℕ) : Str := joinLines ((lines.drop i).take len)

/-- A look at a line, or at the lines from there, and whether the search text is part of the line. -/
def look (lines : List Str) (search : Str) (len i : ℕ) (best : Best) :
    Except PatchError (Best × Bool) :=
  if len = 1 then
    match lines[i]? with
    | none => .error .indexError
    | some line =>
      if search <:+: line then .ok (⟨1, some i⟩, true)
      else
        let score := findBestSubstringMatch line search
        .ok (if score > best.score then ⟨score, some i⟩ else best, false)
  else
    let score := getSimilarity (runOf lines i len) search
    .ok (if score > best.score then ⟨score, some i⟩ else best, false)

/-- The loop of `fuzzy_search` (136-191).  `left` is `left_index + 1`; the first argument bounds the
number of rounds. -/
def searchLoop (lines : List Str) (search : Str) (len start stop : ℕ) :
    ℕ → ℕ → ℕ → Best → Except PatchError Best
  | 0, _, _, best => .ok best
  | rounds + 1, left, right, best =>
    if start < left then
      match look lines search len (left - 1) best with
      | .error e => .error e
      | .ok (best, true) => searchLoop lines search len start stop rounds (left - 1) right best
      | .ok (best, false) =>
        if right + len ≤ stop then
          match look lines search len right best with
          | .error e => .error e
          | .ok (best, _) =>
            searchLoop lines search len start stop rounds (left - 1) (right + 1) best
        else searchLoop lines search len start stop rounds (left - 1) right best
    else if right + len ≤ stop then
      match look lines search len right best with
      | .error e => .error e
      | .ok (best, _) => searchLoop lines search len start stop rounds left (right + 1) best
    else .ok best

/-- `fuzzy_search(lines, search_chunk, start_index, end_index)` (113-193) -/
def fuzzySearch (lines : List Str) (search : Str) (start stop : ℕ) : Except PatchError Best :=
  let middle := (start + stop) / 2
  searchLoop lines search (search.splitOn '\n').length start stop (middle + 1 + stop) (middle + 1)
    (middle + 1) ⟨0, none⟩

/-! ## Patches -/

/-- `SearchReplaceBlock` -/
structure Block where
  search : Str
  replace : Str
  deriving DecidableEq

/-- The text of the error for a text that is found more than once (886-889). -/
def ambiguousText (matchCount : ℕ) : Str :=
  ("SEARCH content matched " ++ toString matchCount ++ " locations; " ++
    "The re-generated SEARCH string may contain additional lines " ++
    "to make sure it is unique.").toList

/-- The first strategy (864-895): the text after all blocks, or `none` when one of them is not
found. -/
def exactPass : List Block → Str → Except PatchError (Option Str)
  | [], result => .ok (some result)
  | block :: blocks, result =>
    let search := unescapeMarkers block.search
    let replace := unescapeMarkers block.replace
    if search = replace then exactPass blocks result
    else if search = [] then .ok none
    else if ¬ search <:+: result then .ok none
    else if countFrom search 0 result > 1 then
      .error (.parseError (ambiguousText (countFrom search 0 result)))
    else exactPass blocks (replaceFirst search replace result)

/-- A block of the second strategy, with its line number, or 0. -/
structure Prepared where
  search : Str
  replace : Str
  startLine : ℕ
  deriving DecidableEq

/-- The texts of a block without their line numbers, if they all have one (940-962).  A
`SearchReplaceBlock` has no `start_line`. -/
def prepare (E : Env) (block : Block) : Except PatchError Prepared :=
  let search := unescapeMarkers block.search
  let replace := unescapeMarkers block.replace
  if everyLineHasLineNumbers E search ∧
      (everyLineHasLineNumbers E replace ∨ strip replace = []) then
    (extractStartLineNumber E search).map fun startLine =>
      ⟨stripLineNumbers E false search, stripLineNumbers E false replace, startLine.getD 0⟩
  else .ok ⟨search, replace, 0⟩

/-- `strategy.fuzzy_threshold` -/
def fuzzyThreshold : ℚ := 4 / 5

/-- `strategy.buffer_lines` -/
def bufferLines : ℕ := 40

/-- The lines that are replaced, by their number and the lines searched for, and what replaces them. -/
structure Cut where
  index : ℕ
  searchLines : List Str
  replaceLines : List Str
  deriving DecidableEq

/-- The bounds of the search (996-1021). -/
def searchBounds (lines : List Str) (p : Prepared) : ℕ × ℕ :=
  if p.startLine = 0 then (0, lines.length)
  else (p.startLine - (bufferLines + 1),
    min lines.length (p.startLine + (linesOf p.search).length + bufferLines))

/-- The match at the line number (1000-1014). -/
def matchAtLine (lines : List Str) (p : Prepared) : Bool :=
  p.startLine ≠ 0 ∧
    getSimilarity (runOf lines (p.startLine - 1) (linesOf p.search).length) p.search ≥ fuzzyThreshold

/-- A place that is similar enough. -/
def Best.accepted (best : Best) : Option ℕ :=
  if best.score ≥ fuzzyThreshold then best.index else none

/-- Where a block applies (988-1050), or `none`. -/
def locate (E : Env) (lines : List Str) (p : Prepared) : Except PatchError (Option Cut) :=
  if matchAtLine lines p then
    .ok (some ⟨p.startLine - 1, linesOf p.search, linesOf p.replace⟩)
  else
    let (start, stop) := searchBounds lines p
    match fuzzySearch lines p.search start stop with
    | .error e => .error e
    | .ok best =>
      match best.accepted with
      | some i => .ok (some ⟨i, linesOf p.search, linesOf p.replace⟩)
      | none =>
        let search := stripLineNumbers E true p.search
        let replace := stripLineNumbers E true p.replace
        match fuzzySearch lines search start stop with
        | .error e => .error e
        | .ok best => .ok (best.accepted.map fun i => ⟨i, linesOf search, linesOf replace⟩)

/-- The line of the replacement with number `i` (1113-1151). -/
def indentLine (matchedLines searchLines : List Str) (i : ℕ) (line : Str) : Str :=
  let indentAt : List Str → Str := fun lines =>
    indentOf (match lines[i]? with
      | some line => line
      | none => lines.headD [])
  let matchedIndent := indentAt matchedLines
  let searchIndent := indentAt searchLines
  let currentIndent := indentOf line
  let finalIndent :=
    if searchIndent.length ≤ currentIndent.length then
      matchedIndent ++ currentIndent.drop searchIndent.length
    else
      matchedIndent.take (matchedIndent.length - (searchIndent.length - currentIndent.length))
  if strip line = [] then matchedIndent
  else finalIndent ++ line.dropWhile fun c => c = ' ' ∨ c = '\t'

/-- The lines that are inserted (1098-1151). -/
def Cut.inserted (cut : Cut) (lines : List Str) : List Str :=
  let matchedLines := (lines.drop cut.index).take cut.searchLines.length
  cut.replaceLines.mapIdx (indentLine matchedLines cut.searchLines)

/-- The lines after a replacement (1098-1157). -/
def Cut.apply (cut : Cut) (lines : List Str) : List Str :=
  lines.take cut.index ++ cut.inserted lines ++ lines.drop (cut.index + cut.searchLines.length)

/-- What the second strategy does with a block: nothing is to change, it is not found, or it is
applied. -/
inductive Fate where
  | same
  | unmatched
  | applied (cut : Cut)
  deriving DecidableEq

/-- The fate of a block that is searched for. -/
def Fate.ofPlace : Option Cut → Fate
  | some cut => .applied cut
  | none => .unmatched

/-- The body of the loop of the second strategy (932-1158), up to the replacement. -/
def fateOf (E : Env) (lines : List Str) (block : Block) : Except PatchError Fate :=
  match prepare E block with
  | .error e => .error e
  | .ok p =>
    if p.search = p.replace then .ok .same
    else if p.search = [] then .ok .unmatched
    else (locate E lines p).map Fate.ofPlace

/-- The lines after a block. -/
def Fate.apply : Fate → List Str → List Str
  | .applied cut, lines => cut.apply lines
  | _, lines => lines

/-- The loop of the second strategy: what becomes of the blocks, and the lines. -/
def linePass (E : Env) : List Block → List Str → Except PatchError (List Fate × List Str)
  | [], lines => .ok ([], lines)
  | block :: blocks, lines =>
    match fateOf E lines block with
    | .error e => .error e
    | .ok fate => (linePass E blocks (fate.apply lines)).map fun r => (fate :: r.1, r.2)

def Fate.isApplied : Fate → Bool
  | .applied _ => true
  | _ => false

/-- The text of the error when nothing could be applied (1164-1166). -/
def notFoundText (E : Env) (original : Str) (blocks : List Block) : Str :=
  ("Patch application failed: search content not found in original, original_content=").toList ++
    original ++ (", patch=").toList ++ E.showPatch (blocks.map fun b => (b.search, b.replace))

/-- `apply_str_patch(original_content, patch)` (851-1168) -/
def applyStrPatch (E : Env) (original : Str) (blocks : List Block) : Except PatchError Str :=
  if blocks = [] then .ok original
  else match exactPass blocks original with
    | .error e => .error e
    | .ok (some result) => .ok result
    | .ok none =>
      let lineEnding : Str := if ['\r', '\n'] <:+: original then ['\r', '\n'] else ['\n']
      match linePass E blocks (splitLines original) with
      | .error e => .error e
      | .ok (fates, lines) =>
        if fates.any Fate.isApplied = false ∧ Fate.unmatched ∈ fates then
          .error (.parseError (notFoundText E original blocks))
        else .ok (lineEnding.intercalate lines)

end OpenViking.Memory.StrPatch
