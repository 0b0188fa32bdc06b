import OpenViking.Session.Message

/-!
# The message log of a session

The file `messages.jsonl` of a session and of its archives (`session/session.py`): messages are
appended to it line by line, or the whole file is written again, and it is read in four places.
Three of them cut the text at `\n`; `_read_live_messages_strict` uses `str.splitlines`, which also
cuts at three characters that `json.dumps` leaves as they are in a string.

What `json.loads` does is a parameter: it is only assumed to read the lines that were written, and to
refuse a text that ends inside of a string.

* `strict_eq_some_iff`, `load_eq_some_iff`: when each reader returns the messages that were written;
* `readers_agree_iff`: when all of them do.
-/

namespace OpenViking.Session

open Memory (isSpace strip)

/-! ## Writing -/

/-- A message, and the time at which it is written. -/
abbrev Row := Timestamp × Message

/-- The line of a message. -/
def Row.line (row : Row) : List Char := row.2.toJsonl row.1

/-- A change of the live log: `_append_messages_authoritatively` (1149-1154) and
`_write_to_agfs_async` (4823-4830). -/
inductive LogWrite where
  | append (messages : List Row)
  | rewrite (messages : List Row)

/-- `"\n".join(lines)`. -/
def joinLines (rows : List Row) : List Char := ['\n'].intercalate (rows.map Row.line)

/-- The text of the file after a change. -/
def LogWrite.write (content : List Char) : LogWrite → List Char
  | .append messages => content ++ (messages.map fun row => row.line ++ ['\n']).flatten
  | .rewrite messages => if messages = [] then [] else joinLines messages ++ ['\n']

/-- The messages that the file holds after a change. -/
def LogWrite.rows (rows : List Row) : LogWrite → List Row
  | .append messages => rows ++ messages
  | .rewrite messages => messages

/-- The text after a history of changes; `ensure_exists` (696) makes an empty file. -/
def liveText (writes : List LogWrite) : List Char := writes.foldl LogWrite.write []

/-- The messages after a history of changes. -/
def liveRows (writes : List LogWrite) : List Row := writes.foldl LogWrite.rows []

/-- The file of an archive (1899-1904). -/
def archiveText (rows : List Row) : List Char := joinLines rows ++ ['\n']

/-! ## Reading -/

/-- `line.strip()` as a condition. -/
def notBlank (line : List Char) : Bool := decide (strip line ≠ [])

/-- The lines of `content.strip().split("\n")` that are not blank. -/
def jsonLines (content : List Char) : List (List Char) :=
  ((strip content).splitOn '\n').filter notBlank

section Readers

variable (loads : List Char → Option Json)

/-- `Message.from_dict(json.loads(line))`. -/
def readMessage (line : List Char) : Option Message := (loads line).bind Message.fromDict

/-- `Session.load` (588-596); none when it raises. -/
def load (content : List Char) : Option (List Message) :=
  (jsonLines content).mapM (readMessage loads)

/-- `_read_live_messages_strict` (3640-3658). -/
def readLiveMessagesStrict (content : List Char) : Option (List Message) :=
  ((splitlines content).filter notBlank).mapM (readMessage loads)

/-- `_read_archive_messages` (3133-3146). -/
def readArchiveMessages (content : List Char) : Option (List Message) :=
  (jsonLines content).mapM (readMessage loads)

end Readers

/-- `_read_live_message_count` (3627-3638) of a file that is there. -/
def readLiveMessageCount (content : List Char) : ℕ := (jsonLines content).length

/-! ## The text of the log -/

/-- One line for each message. -/
def rowsText (rows : List Row) : List Char := (rows.map fun row => row.line ++ ['\n']).flatten

theorem rowsText_cons (row : Row) (rows : List Row) :
    rowsText (row :: rows) = row.line ++ '\n' :: rowsText rows := by
  rw [rowsText, List.map_cons, List.flatten_cons, List.append_assoc]
  rfl

theorem joinLines_append {rows : List Row} (h : rows ≠ []) : joinLines rows ++ ['\n'] = rowsText rows := by
  induction rows with
  | nil => exact absurd rfl h
  | cons row rows ih =>
    rw [rowsText_cons]
    cases rows with
    | nil =>
      rw [joinLines, List.map_singleton, List.intercalate_singleton]
      rfl
    | cons row' rows =>
      rw [← ih (List.cons_ne_nil _ _), joinLines, joinLines, List.map_cons, List.map_cons,
        List.intercalate_cons_cons]
      simp

theorem write_rowsText (rows : List Row) (w : LogWrite) :
    w.write (rowsText rows) = rowsText (w.rows rows) := by
  cases w with
  | append messages =>
    show rowsText rows ++ rowsText messages = rowsText (rows ++ messages)
    rw [rowsText, rowsText, rowsText, List.map_append, List.flatten_append]
  | rewrite messages =>
    show (if messages = [] then [] else joinLines messages ++ ['\n']) = rowsText messages
    split_ifs with h
    · rw [h]
      rfl
    · exact joinLines_append h

/-- The file after any history. -/
theorem liveText_eq (writes : List LogWrite) : liveText writes = rowsText (liveRows writes) := by
  suffices h : ∀ rows, writes.foldl LogWrite.write (rowsText rows) =
      rowsText (writes.foldl LogWrite.rows rows) from h []
  induction writes with
  | nil => exact fun _ => rfl
  | cons w writes ih =>
    intro rows
    rw [List.foldl_cons, List.foldl_cons, write_rowsText, ih]

/-! ## Lines -/

theorem gap_plain : [' '].all isPlain = true := by decide

/-- A line is an object in braces. -/
theorem Row.line_eq (row : Row) : ∃ t, row.line = '{' :: (t ++ ['}']) := by
  obtain ⟨now, m⟩ := row
  obtain ⟨e, es, he⟩ : ∃ e es, present (m.fields now) = e :: es := ⟨_, _, rfl⟩
  rw [Row.line, Message.toJsonl, Message.toDict, he, Json.line]
  refine ⟨Json.quote e.1 ++ (':' :: ([' '] ++ (e.2.line [' '] ++ Json.lineMorePairs [' '] es))), ?_⟩
  simp only [List.append_assoc, List.cons_append]

theorem notBlank_brace (t : List Char) : notBlank ('{' :: t) = true := by
  rw [notBlank, decide_eq_true_iff, strip, List.dropWhile_cons_of_neg (by decide)]
  intro h
  exact absurd (List.rdropWhile_eq_nil_iff.1 h '{' List.mem_cons_self) (by decide)

theorem Row.notBlank_line (row : Row) : notBlank row.line = true := by
  obtain ⟨t, ht⟩ := row.line_eq
  rw [ht, notBlank_brace]

theorem Row.newline_not_mem (row : Row) : '\n' ∉ row.line :=
  Json.newline_not_mem_line gap_plain _

theorem joinLines_concat (rows : List Row) (row : Row) :
    joinLines (rows ++ [row]) = rowsText rows ++ row.line := by
  have h : joinLines (rows ++ [row]) ++ ['\n'] = rowsText rows ++ row.line ++ ['\n'] := by
    rw [joinLines_append (by simp), rowsText, rowsText, List.map_append, List.flatten_append,
      List.append_assoc]
    simp
  exact List.append_cancel_right h

theorem strip_rowsText {rows : List Row} (h : rows ≠ []) : strip (rowsText rows) = joinLines rows := by
  rw [← joinLines_append h, Memory.strip_append_spaces _ (List.all_eq_true.1 rfl)]
  have hlast : ∀ d ∈ (joinLines rows).getLast?, isSpace d = false := by
    obtain ⟨init, last, rfl⟩ := (List.eq_nil_or_concat' rows).resolve_left h
    obtain ⟨t, ht⟩ := last.line_eq
    rw [joinLines_concat, ht, ← List.cons_append, ← List.append_assoc, List.getLast?_concat]
    intro d hd
    obtain rfl := Option.some_inj.1 hd
    decide
  obtain ⟨row, rows, rfl⟩ := List.exists_cons_of_ne_nil h
  obtain ⟨t, ht⟩ : ∃ t, joinLines (row :: rows) = '{' :: t := by
    obtain ⟨t, ht⟩ := row.line_eq
    rw [joinLines, List.map_cons, ht]
    cases rows with
    | nil => exact ⟨_, List.intercalate_singleton⟩
    | cons row' rows =>
      rw [List.map_cons, List.intercalate_cons_cons]
      exact ⟨_, rfl⟩
  rw [ht] at hlast ⊢
  exact Memory.strip_of_ends (by decide) hlast

theorem filter_notBlank (rows : List Row) : (rows.map Row.line).filter notBlank = rows.map Row.line := by
  rw [List.filter_eq_self]
  intro line hline
  obtain ⟨row, -, rfl⟩ := List.mem_map.1 hline
  exact row.notBlank_line

theorem jsonLines_of_strip {rows : List Row} {text : List Char} (h : strip text = joinLines rows) :
    jsonLines text = rows.map Row.line := by
  rw [jsonLines, h]
  by_cases hrows : rows = []
  · rw [hrows]
    decide
  · rw [joinLines, List.splitOn_intercalate, filter_notBlank]
    · intro line hline
      obtain ⟨row, -, rfl⟩ := List.mem_map.1 hline
      exact row.newline_not_mem
    · rwa [ne_eq, List.map_eq_nil_iff]

/-- The lines that are cut at `\n` are those of the messages. -/
theorem jsonLines_rowsText (rows : List Row) : jsonLines (rowsText rows) = rows.map Row.line := by
  apply jsonLines_of_strip
  by_cases h : rows = []
  · rw [h]
    decide
  · exact strip_rowsText h

theorem jsonLines_archiveText (rows : List Row) : jsonLines (archiveText rows) = rows.map Row.line := by
  by_cases h : rows = []
  · rw [h]
    decide
  · rw [archiveText, joinLines_append h, jsonLines_rowsText]

/-! ## What the readers return -/

section Readers

variable {loads : List Char → Option Json} {rows : List Row}

section

variable (hloads : ∀ row ∈ rows, loads row.line = some (row.2.toDict row.1))

include hloads

theorem mapM_eq_some_iff :
    (rows.map Row.line).mapM (readMessage loads) = some (rows.map Prod.snd) ↔
      ∀ row ∈ rows, row.2.Kept := by
  rw [mapM_eq_some, List.forall₂_map_left_iff, List.forall₂_map_right_iff, List.forall₂_same]
  refine forall₂_congr fun row hrow => ?_
  rw [readMessage, hloads row hrow, Option.bind_some, Message.fromDict_toDict, Message.reread_eq_some_iff]

/-- **`Session.load`** returns the messages that were written when each of them is kept. -/
theorem load_eq_some_iff :
    load loads (rowsText rows) = some (rows.map Prod.snd) ↔ ∀ row ∈ rows, row.2.Kept := by
  rw [load, jsonLines_rowsText, mapM_eq_some_iff hloads]

theorem readArchiveMessages_eq_some_iff :
    readArchiveMessages loads (archiveText rows) = some (rows.map Prod.snd) ↔
      ∀ row ∈ rows, row.2.Kept := by
  rw [readArchiveMessages, jsonLines_archiveText, mapM_eq_some_iff hloads]

end

theorem readLiveMessageCount_rowsText (rows : List Row) :
    readLiveMessageCount (rowsText rows) = rows.length := by
  rw [readLiveMessageCount, jsonLines_rowsText, List.length_map]

/-- The text of a message has no line boundary of `str.splitlines`. -/
def Row.OnOneLine (row : Row) : Prop := (row.2.toDict row.1).OnOneLine

theorem Row.OnOneLine.not_isLineEnd {row : Row} (h : row.OnOneLine) :
    ∀ c ∈ row.line, isLineEnd c = false :=
  Json.not_isLineEnd_of_onOneLine gap_plain h

theorem splitlines_rowsText (h : ∀ row ∈ rows, row.OnOneLine) :
    splitlines (rowsText rows) = rows.map Row.line := by
  induction rows with
  | nil => exact splitlines.eq_1
  | cons row rows ih =>
    rw [rowsText_cons, splitlines_line (h row List.mem_cons_self).not_isLineEnd, ih fun r hr => h r (List.mem_cons_of_mem _ hr), List.map_cons]

/-- What `json.loads` does with a text that ends inside of a string. -/
def RefusesOpen (loads : List Char → Option Json) : Prop :=
  ∀ t, Lex.outside.read t = some .inside ∨ Lex.outside.read t = some .escaped → loads t = none

/-- A message with a line boundary in it is cut inside of a string. -/
theorem strict_cut (hopen : RefusesOpen loads)
    (hloads : ∀ row ∈ rows, loads row.line = some (row.2.toDict row.1)) (h : ¬ ∀ row ∈ rows, row.OnOneLine) :
    readLiveMessagesStrict loads (rowsText rows) = none := by
  induction rows with
  | nil => exact absurd (by simp) h
  | cons row rows ih =>
    rw [rowsText_cons, readLiveMessagesStrict]
    by_cases hrow : row.OnOneLine
    · rw [splitlines_line hrow.not_isLineEnd,
        List.filter_cons_of_pos row.notBlank_line, List.mapM_cons]
      have ih : ((splitlines (rowsText rows)).filter notBlank).mapM (readMessage loads) = none :=
        ih (fun r hr => hloads r (List.mem_cons_of_mem _ hr)) fun hall =>
          h (List.forall_mem_cons.2 ⟨hrow, hall⟩)
      rw [ih]
      cases readMessage loads row.line <;> rfl
    · obtain ⟨a, c, b, hline, hc, ha, hread⟩ := Json.exists_cut gap_plain hrow
      rw [show row.line = a ++ c :: b from hline, List.append_assoc, List.cons_append]
      obtain ⟨ls, hls⟩ := splitlines_cut ha hc (b ++ '\n' :: rowsText rows)
      -- the part of the line before the boundary begins with its brace
      obtain ⟨t, ht⟩ : ∃ t, a = '{' :: t := by
        obtain ⟨t, ht⟩ := row.line_eq
        rw [show row.line = a ++ c :: b from hline] at ht
        cases a with
        | nil =>
          rw [(List.cons.inj ht).1] at hc
          exact absurd hc (by decide)
        | cons x a =>
          rw [(List.cons.inj ht).1]
          exact ⟨a, rfl⟩
      rw [hls, ht, List.filter_cons_of_pos (notBlank_brace t), List.mapM_cons, ← ht, readMessage,
        hopen a hread]
      rfl

/-- **`_read_live_messages_strict`** also needs messages without a line boundary. -/
theorem strict_eq_some_iff (hopen : RefusesOpen loads)
    (hloads : ∀ row ∈ rows, loads row.line = some (row.2.toDict row.1)) :
    readLiveMessagesStrict loads (rowsText rows) = some (rows.map Prod.snd) ↔
      ∀ row ∈ rows, row.2.Kept ∧ row.OnOneLine := by
  by_cases h : ∀ row ∈ rows, row.OnOneLine
  · rw [readLiveMessagesStrict, splitlines_rowsText h, filter_notBlank, mapM_eq_some_iff hloads]
    exact forall₂_congr fun row hrow => (and_iff_left (h row hrow)).symm
  · rw [strict_cut hopen hloads h]
    exact iff_of_false (by simp) fun hall => h fun row hrow => (hall row hrow).2

end Readers

/-- **The readers of the log agree** when the live messages are kept and have no line boundary of
`str.splitlines` in a string, and the archived ones are kept. -/
theorem readers_agree_iff {loads : List Char → Option Json} (hopen : RefusesOpen loads)
    (writes : List LogWrite) (old : List Row)
    (hlive : ∀ row ∈ liveRows writes, loads row.line = some (row.2.toDict row.1))
    (hold : ∀ row ∈ old, loads row.line = some (row.2.toDict row.1)) :
    (load loads (liveText writes) = some ((liveRows writes).map Prod.snd) ∧
      readLiveMessagesStrict loads (liveText writes) = some ((liveRows writes).map Prod.snd) ∧
      readLiveMessageCount (liveText writes) = (liveRows writes).length ∧
      readArchiveMessages loads (archiveText old) = some (old.map Prod.snd)) ↔
    (∀ row ∈ liveRows writes, row.2.Kept ∧ row.OnOneLine) ∧ ∀ row ∈ old, row.2.Kept := by
  rw [liveText_eq, load_eq_some_iff hlive, strict_eq_some_iff hopen hlive,
    readLiveMessageCount_rowsText, readArchiveMessages_eq_some_iff hold]
  constructor
  · rintro ⟨-, hstrict, -, harchive⟩
    exact ⟨hstrict, harchive⟩
  · rintro ⟨hstrict, harchive⟩
    exact ⟨fun row hrow => (hstrict row hrow).1, hstrict, rfl, harchive⟩

/-- A reader of the lines of some messages. -/
def loadsOf (rows : List Row) (text : List Char) : Option Json :=
  (rows.find? fun row => decide (row.line = text)).map fun row => row.2.toDict row.1

theorem refusesOpen_loadsOf (rows : List Row) : RefusesOpen (loadsOf rows) := by
  intro t ht
  rw [loadsOf, Option.map_eq_none_iff, List.find?_eq_none]
  intro row _ heq
  have hline : row.line = t := of_decide_eq_true heq
  have hread : Lex.outside.read t = some .outside := hline ▸ Json.read_line gap_plain _
  rw [hread] at ht
  rcases ht with ht | ht <;> cases ht

/-- A message of one text. -/
def textMessage (content : String) : Row :=
  (⟨"2026-01-01T00:00:00.000Z", by decide⟩,
    { id := "m", role := "user", parts := [.text content], peerId := none,
      createdAt := some "2026-01-01T00:00:00.000Z", turnId := none, messageKind := none,
      sourceMessageIds := none })

variable (content : String)

theorem loadsOf_textMessage : ∀ row ∈ [textMessage content],
    loadsOf [textMessage content] row.line = some (row.2.toDict row.1) := by
  refine List.forall_mem_singleton.2 ?_
  rw [loadsOf, List.find?_cons_of_pos (by simp)]
  rfl

theorem kept_textMessage : (textMessage content).2.Kept where
  parts := List.forall_mem_singleton.2 trivial
  peerId := fun _ h => by cases h
  createdAt := ⟨"2026-01-01T00:00:00.000Z", rfl, by decide⟩

/-- The other strings of the message are plain. -/
theorem onOneLine_textMessage_iff : (textMessage content).OnOneLine ↔
    ∀ c ∈ content.toList, isSeparator c = false := by
  have hstrings : ((textMessage content).2.toDict (textMessage content).1).strings =
      ["id", "m", "role", "user", "parts", "type", "text", "text"] ++ content ::
        ["created_at", "2026-01-01T00:00:00.000Z"] := by rfl
  have hbefore : (["id", "m", "role", "user", "parts", "type", "text", "text"].all fun s =>
      s.toList.all (!isSeparator ·)) = true := by decide +kernel
  have hafter : (["created_at", "2026-01-01T00:00:00.000Z"].all fun s =>
      s.toList.all (!isSeparator ·)) = true := by decide +kernel
  simp only [List.all_eq_true, Bool.not_eq_true'] at hbefore hafter
  rw [Row.OnOneLine, Json.OnOneLine, hstrings]
  constructor
  · intro h
    exact h content (List.mem_append_right _ List.mem_cons_self)
  · intro h s hs
    rcases List.mem_append.1 hs with hs | hs
    · exact hbefore s hs
    · rcases List.mem_cons.1 hs with rfl | hs
      · exact h
      · exact hafter s hs

theorem readers_agree_iff_text :
    readLiveMessagesStrict (loadsOf [textMessage "hi"]) (liveText [.append [textMessage "hi"]]) =
      some [(textMessage "hi").2] := by
  refine ((readers_agree_iff (refusesOpen_loadsOf [textMessage "hi"])
    [.append [textMessage "hi"]] [textMessage "hi"]
    (loadsOf_textMessage "hi")
    (loadsOf_textMessage "hi")).2 ⟨?_, ?_⟩).2.1
  · refine List.forall_mem_singleton.2 ⟨kept_textMessage "hi", ?_⟩
    have hplain : ("hi".toList.all (!isSeparator ·)) = true := by decide +kernel
    simpa [onOneLine_textMessage_iff] using hplain
  · exact List.forall_mem_singleton.2 (kept_textMessage "hi")

/-- A line separator in a text: the message is in the file, and the live log cannot be read. -/
theorem strict_refuses_separator :
    load (loadsOf [textMessage "a\u2028b"]) (liveText [.append [textMessage "a\u2028b"]]) =
      some [(textMessage "a\u2028b").2] ∧
    readLiveMessagesStrict (loadsOf [textMessage "a\u2028b"])
      (liveText [.append [textMessage "a\u2028b"]]) = none := by
  have hloads := loadsOf_textMessage "a\u2028b"
  rw [liveText_eq]
  constructor
  · exact (load_eq_some_iff hloads).2 (List.forall_mem_singleton.2 (kept_textMessage _))
  · refine strict_cut (refusesOpen_loadsOf _) hloads fun h => ?_
    have hsep := (onOneLine_textMessage_iff _).1 (List.forall_mem_singleton.1 h)
    exact absurd (hsep '\u2028' (by decide +kernel)) (by decide)

end OpenViking.Session
