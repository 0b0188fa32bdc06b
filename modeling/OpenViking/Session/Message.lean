import OpenViking.Common.JsonLines
import OpenViking.Common.MapM
import OpenViking.Fs.Uri

/-!
# Messages

The messages of a session and their dictionaries (`message/message.py`, `message/part.py`):
`Message.to_dict`, `from_dict` and `to_jsonl`.

A field that `from_dict` finds with a value of another type than `to_dict` writes is refused here;
Python keeps such a value as it is.  No text that `to_jsonl` wrote has one.

* `reread_eq_some_iff`: the messages that are read back as they were written.
-/

namespace OpenViking.Session

open Memory (isSpace strip)
open Fs (normalizeIdentifierPart normalizePeerId validateIdentifierPart)

/-! ## Parts -/

/-- `ContextPart`. -/
structure ContextPart where
  uri : String
  contextType : String
  abstract : String

/-- `ImagePart`. -/
structure ImagePart where
  url : String
  detail : Option String

/-- `ToolPart`; `toolInput` has the entries of a dictionary. -/
structure ToolPart where
  toolId : String
  toolName : String
  toolUri : String
  skillUri : String
  toolInput : Option (List (String × Json))
  toolOutput : String
  toolStatus : String
  durationMs : Option JsonNumber
  promptTokens : Option JsonNumber
  completionTokens : Option JsonNumber
  toolOutputRef : String
  toolOutputTruncated : Bool
  toolOutputOriginalChars : Option JsonNumber
  toolOutputPreviewChars : Option JsonNumber
  toolOutputSha256 : String
  toolOutputStorageUri : String
  toolOutputMimeType : String
  toolOutputSourceRef : String
  toolOutputSourceOffset : Option JsonNumber
  toolOutputSourceLimit : Option JsonNumber
  toolOutputExternalizationError : String
  toolOutputGroupId : String
  toolOutputExternalizedReason : String
  toolOutputGroupOriginalChars : Option JsonNumber
  toolOutputGroupBudgetChars : Option JsonNumber

/-- `Part`. -/
inductive Part where
  | text (text : String)
  | context (part : ContextPart)
  | image (part : ImagePart)
  | tool (part : ToolPart)

/-- `Message`. -/
structure Message where
  id : String
  role : String
  parts : List Part
  peerId : Option String
  createdAt : Option String
  turnId : Option String
  messageKind : Option String
  sourceMessageIds : Option (List String)

/-! ## Dictionaries -/

/-- The entries of a dictionary. -/
abbrev Entries := List (String × Json)

/-- `data.get(key, default)` for a string. -/
def getStr (data : Entries) (key default : String) : Option String :=
  match data.lookup key with
  | none => some default
  | some (.str s) => some s
  | some _ => none

/-- `data.get(key)` for a string or `None`. -/
def getOptStr (data : Entries) (key : String) : Option (Option String) :=
  match data.lookup key with
  | none => some none
  | some .null => some none
  | some (.str s) => some (some s)
  | some _ => none

/-- `data.get(key)` for a number or `None`. -/
def getNum (data : Entries) (key : String) : Option (Option JsonNumber) :=
  match data.lookup key with
  | none => some none
  | some .null => some none
  | some (.number n) => some (some n)
  | some _ => none

/-- `data[key]` for a string; `KeyError` when it is not there. -/
def atStr (data : Entries) (key : String) : Option String :=
  match data.lookup key with
  | some (.str s) => some s
  | _ => none

/-- `data.get(key)` for a dictionary or `None`. -/
def getDict (data : Entries) (key : String) : Option (Option Entries) :=
  match data.lookup key with
  | none => some none
  | some .null => some none
  | some (.obj kvs) => some (some kvs)
  | some _ => none

/-- `bool(data.get(key, False))` for a truth value. -/
def getBool (data : Entries) (key : String) : Option Bool :=
  match data.lookup key with
  | none => some false
  | some (.bool b) => some b
  | some _ => none

/-! ## Writing -/

/-- The entries of a dictionary that is filled in key by key, without those left out. -/
def present (fields : List (String × Option Json)) : Entries :=
  fields.filterMap fun field => field.2.map fun value => (field.1, value)

/-- A string that is not empty. -/
def truthyStr (s : String) : Option Json := if s = "" then none else some (.str s)

/-- A number that is not `None`. -/
def optNum (n : Option JsonNumber) : Option Json := n.map .number

/-- The fields of a tool part, as `_part_to_dict` (127-171) sets them. -/
def ToolPart.fields (part : ToolPart) : List (String × Option Json) :=
  [("type", some (.str "tool")),
    ("tool_id", some (.str part.toolId)),
    ("tool_name", some (.str part.toolName)),
    ("tool_uri", some (.str part.toolUri)),
    ("skill_uri", some (.str part.skillUri)),
    ("tool_status", some (.str part.toolStatus)),
    ("tool_input", (part.toolInput.filter (!·.isEmpty)).map .obj),
    ("tool_output", truthyStr part.toolOutput),
    ("duration_ms", optNum part.durationMs),
    ("prompt_tokens", optNum part.promptTokens),
    ("completion_tokens", optNum part.completionTokens),
    ("tool_output_ref", truthyStr part.toolOutputRef),
    ("tool_output_truncated", if part.toolOutputTruncated then some (.bool true) else none),
    ("tool_output_original_chars", optNum part.toolOutputOriginalChars),
    ("tool_output_preview_chars", optNum part.toolOutputPreviewChars),
    ("tool_output_sha256", truthyStr part.toolOutputSha256),
    ("tool_output_storage_uri", truthyStr part.toolOutputStorageUri),
    ("tool_output_mime_type",
      if part.toolOutputMimeType = "text/plain" then none else truthyStr part.toolOutputMimeType),
    ("tool_output_source_ref", truthyStr part.toolOutputSourceRef),
    ("tool_output_source_offset", optNum part.toolOutputSourceOffset),
    ("tool_output_source_limit", optNum part.toolOutputSourceLimit),
    ("tool_output_externalization_error", truthyStr part.toolOutputExternalizationError),
    ("tool_output_group_id", truthyStr part.toolOutputGroupId),
    ("tool_output_externalized_reason", truthyStr part.toolOutputExternalizedReason),
    ("tool_output_group_original_chars", optNum part.toolOutputGroupOriginalChars),
    ("tool_output_group_budget_chars", optNum part.toolOutputGroupBudgetChars)]

/-- `_part_to_dict` (108-172). -/
def Part.toDict : Part → Json
  | .text content => .obj [("type", .str "text"), ("text", .str content)]
  | .context part =>
    .obj [("type", .str "context"), ("uri", .str part.uri),
      ("context_type", .str part.contextType), ("abstract", .str part.abstract)]
  | .image part =>
    .obj [("type", .str "image_url"),
      ("image_url", .obj (present [("url", some (.str part.url)), ("detail", part.detail.map .str)]))]
  | .tool part => .obj (present part.fields)

/-- The current time, as `isoformat` prints it. -/
structure Timestamp where
  text : String
  ne_empty : text ≠ ""

namespace Message

/-- The fields of `to_dict` (85-106); a message without a time of creation is given the current one. -/
def fields (now : Timestamp) (m : Message) : List (String × Option Json) :=
  [("id", some (.str m.id)),
    ("role", some (.str m.role)),
    ("parts", some (.arr (m.parts.map Part.toDict))),
    ("created_at", some (.str ((m.createdAt.filter (· ≠ "")).getD now.text))),
    ("peer_id", m.peerId.map .str),
    ("turn_id", m.turnId.map .str),
    ("message_kind", m.messageKind.map .str),
    ("source_message_ids", m.sourceMessageIds.map fun ids => .arr (ids.map .str))]

/-- `to_dict`. -/
def toDict (now : Timestamp) (m : Message) : Json := .obj (present (m.fields now))

/-- `to_jsonl` (203-205). -/
def toJsonl (now : Timestamp) (m : Message) : List Char := (m.toDict now).line [' ']

end Message

/-! ## Reading -/

/-- `_parse_image_url_payload`. -/
def parseImageUrlPayload (data : Entries) : Option (String × Option String) :=
  match data.lookup "image_url" with
  | some (.obj payload) => do
    let url ← getStr payload "url" ""
    let detail ← getOptStr payload "detail"
    some (url, detail)
  | some (.str url) => some (url, none)
  | _ => some ("", none)

/-- The fields of a tool part in `part_from_dict`. -/
def toolFromDict (data : Entries) : Option ToolPart := do
  some {
    toolId := ← getStr data "tool_id" ""
    toolName := ← getStr data "tool_name" ""
    toolUri := ← getStr data "tool_uri" ""
    skillUri := ← getStr data "skill_uri" ""
    toolInput := ← getDict data "tool_input"
    toolOutput := ← getStr data "tool_output" ""
    toolStatus := ← getStr data "tool_status" "pending"
    durationMs := ← getNum data "duration_ms"
    promptTokens := ← getNum data "prompt_tokens"
    completionTokens := ← getNum data "completion_tokens"
    toolOutputRef := ← getStr data "tool_output_ref" ""
    toolOutputTruncated := ← getBool data "tool_output_truncated"
    toolOutputOriginalChars := ← getNum data "tool_output_original_chars"
    toolOutputPreviewChars := ← getNum data "tool_output_preview_chars"
    toolOutputSha256 := ← getStr data "tool_output_sha256" ""
    toolOutputStorageUri := ← getStr data "tool_output_storage_uri" ""
    toolOutputMimeType := ← getStr data "tool_output_mime_type" "text/plain"
    toolOutputSourceRef := ← getStr data "tool_output_source_ref" ""
    toolOutputSourceOffset := ← getNum data "tool_output_source_offset"
    toolOutputSourceLimit := ← getNum data "tool_output_source_limit"
    toolOutputExternalizationError := ← getStr data "tool_output_externalization_error" ""
    toolOutputGroupId := ← getStr data "tool_output_group_id" ""
    toolOutputExternalizedReason := ← getStr data "tool_output_externalized_reason" ""
    toolOutputGroupOriginalChars := ← getNum data "tool_output_group_original_chars"
    toolOutputGroupBudgetChars := ← getNum data "tool_output_group_budget_chars" }

/-- `part_from_dict`; none when it raises. -/
def partFromDict : Json → Option Part
  | .obj data => do
    let type ← getStr data "type" "text"
    if type = "text" then
      some (.text (← getStr data "text" ""))
    else if type = "context" then
      some (.context ⟨← getStr data "uri" "", ← getStr data "context_type" "memory",
        ← getStr data "abstract" ""⟩)
    else if type = "image_url" then
      let (url, detail) ← parseImageUrlPayload data
      if strip url.toList = [] then none else some (.image ⟨url, detail⟩)
    else if type = "tool" then
      some (.tool (← toolFromDict data))
    else
      some (.text (← atStr data "text"))
  | _ => none

/-- The peer of a message that is read: as it is when it is no valid identifier. -/
def readPeerId (peerId : Option String) : Option String :=
  match normalizePeerId peerId with
  | .ok peerId => peerId
  | .error _ => peerId

/-- The strings of a list. -/
def strings? : Json → Option String
  | .str s => some s
  | _ => none

namespace Message

/-- The parts of a message that is read, or its content of old. -/
def rawParts (data : Entries) : Option (List Json) :=
  match data.lookup "parts" with
  | some (.arr parts) => some parts
  | some .null | none =>
    match data.lookup "content" with
    | some .null | none => some []
    | some content => some [.obj [("type", .str "text"), ("text", content)]]
  | some _ => none

/-- `list(data.get("source_message_ids"))` for a list. -/
def readSources (data : Entries) : Option (Option (List String)) :=
  match data.lookup "source_message_ids" with
  | some (.arr ids) => (ids.mapM strings?).map some
  | _ => some none

/-- `from_dict` (174-201); none when it raises. -/
def fromDict : Json → Option Message
  | .obj data => do
    let parts ← (← rawParts data).mapM partFromDict
    let peerId ← getOptStr data "peer_id"
    some {
      id := ← atStr data "id"
      role := ← atStr data "role"
      parts := parts
      peerId := readPeerId peerId
      createdAt := ← getOptStr data "created_at"
      turnId := ← getOptStr data "turn_id"
      messageKind := ← getOptStr data "message_kind"
      sourceMessageIds := ← readSources data }
  | _ => none

end Message

/-! ## What is read back -/

variable {fields : List (String × Option Json)}

theorem lookup_present (h : (fields.map Prod.fst).Nodup)
    (key : String) : (present fields).lookup key = (fields.lookup key).join := by
  induction fields with
  | nil => rfl
  | cons field fields ih =>
    obtain ⟨k, v⟩ := field
    rw [List.map_cons, List.nodup_cons] at h
    have ih := ih h.2
    rw [List.lookup_cons]
    by_cases hk : key = k
    · subst hk
      rw [beq_self_eq_true]
      cases v with
      | some v =>
        show List.lookup key ((key, v) :: present fields) = _
        rw [List.lookup_cons_self]
        rfl
      | none =>
        show List.lookup key (present fields) = none
        rw [ih, List.lookup_eq_none_iff.2 ?_]
        · rfl
        · intro p hp
          rw [bne_iff_ne]
          rintro rfl
          exact h.1 (List.mem_map.2 ⟨p, hp, rfl⟩)
    · rw [beq_eq_false_iff_ne.2 hk]
      cases v with
      | some v =>
        show List.lookup key ((k, v) :: present fields) = _
        rw [List.lookup_cons, beq_eq_false_iff_ne.2 hk]
        exact ih
      | none => exact ih

/-- The part that is read where a part was written. -/
def Part.reread : Part → Option Part
  | .image part => if strip part.url.toList = [] then none else some (.image part)
  | .tool part =>
    some (.tool { part with
      toolInput := part.toolInput.filter (!·.isEmpty)
      toolOutputMimeType :=
        if part.toolOutputMimeType = "" then "text/plain" else part.toolOutputMimeType })
  | part => some part

variable {data : Entries}

theorem getStr_truthyStr {key s : String} (h : data.lookup key = truthyStr s) :
    getStr data key "" = some s := by
  unfold truthyStr at h
  rw [getStr, h]
  split_ifs with hs
  · rw [hs]
  · rfl

theorem getStr_some {key s d : String} (h : data.lookup key = some (.str s)) :
    getStr data key d = some s := by
  rw [getStr, h]

variable {key : String}

theorem getNum_optNum {n : Option JsonNumber}
    (h : data.lookup key = optNum n) : getNum data key = some n := by
  rw [getNum, h]
  cases n <;> rfl

theorem getOptStr_map {s : Option String}
    (h : data.lookup key = s.map .str) : getOptStr data key = some s := by
  rw [getOptStr, h]
  cases s <;> rfl

theorem present_lookup {v : Option Json}
    (hnodup : (fields.map Prod.fst).Nodup) (h : fields.lookup key = some v) :
    (present fields).lookup key = v := by
  rw [lookup_present hnodup, h]
  rfl

theorem getBool_flag {b : Bool}
    (h : data.lookup key = if b then some (.bool true) else none) : getBool data key = some b := by
  rw [getBool, h]
  cases b <;> rfl

theorem getDict_map {d : Option Entries} (h : data.lookup key = d.map .obj) : getDict data key = some d := by
  rw [getDict, h]
  cases d <;> rfl

theorem getStr_mime {key s d : String} (h : data.lookup key = if s = d then none else truthyStr s) :
    getStr data key d = some (if s = "" then d else s) := by
  unfold truthyStr at h
  rw [getStr, h]
  by_cases hd : s = d
  · rw [if_pos hd, hd]
    split_ifs <;> rfl
  · rw [if_neg hd]
    split_ifs <;> rfl

theorem bind_of_eq {α β : Type*} {x : Option α} {f : α → Option β} {a : α} {y : Option β}
    (hx : x = some a) (hf : f a = y) : x.bind f = y := by
  rw [hx]
  exact hf

theorem toolFromDict_fields (part : ToolPart) :
    toolFromDict (present part.fields) = some { part with
      toolInput := part.toolInput.filter (!·.isEmpty)
      toolOutputMimeType :=
        if part.toolOutputMimeType = "" then "text/plain" else part.toolOutputMimeType } := by
  have hnodup : (part.fields.map Prod.fst).Nodup := by
    simp only [ToolPart.fields, List.map]
    decide
  have hlook : ∀ {key : String} {v : Option Json}, part.fields.lookup key = some v →
      (present part.fields).lookup key = v := fun h => present_lookup hnodup h
  unfold toolFromDict
  refine bind_of_eq (getStr_some (hlook rfl)) ?_
  refine bind_of_eq (getStr_some (hlook rfl)) ?_
  refine bind_of_eq (getStr_some (hlook rfl)) ?_
  refine bind_of_eq (getStr_some (hlook rfl)) ?_
  refine bind_of_eq (getDict_map (hlook rfl)) ?_
  refine bind_of_eq (getStr_truthyStr (hlook rfl)) ?_
  refine bind_of_eq (getStr_some (hlook rfl)) ?_
  refine bind_of_eq (getNum_optNum (hlook rfl)) ?_
  refine bind_of_eq (getNum_optNum (hlook rfl)) ?_
  refine bind_of_eq (getNum_optNum (hlook rfl)) ?_
  refine bind_of_eq (getStr_truthyStr (hlook rfl)) ?_
  refine bind_of_eq (getBool_flag (hlook rfl)) ?_
  refine bind_of_eq (getNum_optNum (hlook rfl)) ?_
  refine bind_of_eq (getNum_optNum (hlook rfl)) ?_
  refine bind_of_eq (getStr_truthyStr (hlook rfl)) ?_
  refine bind_of_eq (getStr_truthyStr (hlook rfl)) ?_
  refine bind_of_eq (getStr_mime (hlook rfl)) ?_
  refine bind_of_eq (getStr_truthyStr (hlook rfl)) ?_
  refine bind_of_eq (getNum_optNum (hlook rfl)) ?_
  refine bind_of_eq (getNum_optNum (hlook rfl)) ?_
  refine bind_of_eq (getStr_truthyStr (hlook rfl)) ?_
  refine bind_of_eq (getStr_truthyStr (hlook rfl)) ?_
  refine bind_of_eq (getStr_truthyStr (hlook rfl)) ?_
  refine bind_of_eq (getNum_optNum (hlook rfl)) ?_
  exact bind_of_eq (getNum_optNum (hlook rfl)) rfl

theorem parseImageUrlPayload_toDict (part : ImagePart) :
    parseImageUrlPayload [("type", .str "image_url"), ("image_url",
      .obj (present [("url", some (.str part.url)), ("detail", part.detail.map .str)]))] =
      some (part.url, part.detail) := by
  obtain ⟨url, detail⟩ := part
  cases detail <;> rfl

theorem partFromDict_toDict (part : Part) : partFromDict part.toDict = part.reread := by
  cases part with
  | text content => rfl
  | context part => rfl
  | image part =>
    show (parseImageUrlPayload _).bind _ = _
    rw [parseImageUrlPayload_toDict]
    rfl
  | tool part =>
    have htype : getStr (present part.fields) "type" "text" = some "tool" := by rfl
    rw [Part.toDict, partFromDict, htype]
    show Option.bind (toolFromDict (present part.fields)) _ = _
    rw [toolFromDict_fields]
    rfl

/-- The part is read as it was written. -/
def Part.Kept : Part → Prop
  | .image part => strip part.url.toList ≠ []
  | .tool part => part.toolInput ≠ some [] ∧ part.toolOutputMimeType ≠ ""
  | _ => True

theorem Part.reread_eq_some_iff (part : Part) : part.reread = some part ↔ part.Kept := by
  cases part with
  | text content => simp [Part.reread, Part.Kept]
  | context part => simp [Part.reread, Part.Kept]
  | image part =>
    rw [Part.reread, Part.Kept]
    split_ifs with h
    · simp [h]
    · simp [h]
  | tool part =>
    obtain ⟨_, _, _, _, toolInput, _, _, _, _, _, _, _, _, _, _, _, mime, _⟩ := part
    rw [Part.reread, Part.Kept, Option.some_inj, Part.tool.injEq]
    simp only [ToolPart.mk.injEq, true_and, and_true]
    refine and_congr ?_ ?_
    · cases toolInput with
      | none => simp
      | some kvs => cases kvs <;> simp
    · split_ifs with h
      · simp [h]
      · simp [h]

namespace Message

/-- The message that is read where a message was written. -/
def reread (now : Timestamp) (m : Message) : Option Message :=
  (m.parts.mapM Part.reread).map fun parts =>
    { m with
      parts := parts
      peerId := readPeerId m.peerId
      createdAt := some ((m.createdAt.filter (· ≠ "")).getD now.text) }

theorem mapM_partFromDict (parts : List Part) :
    (parts.map Part.toDict).mapM partFromDict = parts.mapM Part.reread := by
  rw [List.mapM_map, show partFromDict ∘ Part.toDict = Part.reread from funext partFromDict_toDict]

theorem fromDict_toDict (now : Timestamp) (m : Message) : fromDict (m.toDict now) = m.reread now := by
  have hnodup : ((m.fields now).map Prod.fst).Nodup := by
    simp only [fields, List.map]
    decide
  have hlook : ∀ {key : String} {v : Option Json}, (m.fields now).lookup key = some v →
      (present (m.fields now)).lookup key = v := fun h => present_lookup hnodup h
  have hparts : rawParts (present (m.fields now)) = some (m.parts.map Part.toDict) := by
    rw [rawParts, hlook rfl]
  have hid : atStr (present (m.fields now)) "id" = some m.id := by rw [atStr, hlook rfl]
  have hrole : atStr (present (m.fields now)) "role" = some m.role := by rw [atStr, hlook rfl]
  have hcreated : getOptStr (present (m.fields now)) "created_at" =
      some (some ((m.createdAt.filter (· ≠ "")).getD now.text)) := by rw [getOptStr, hlook rfl]
  have hsources : readSources (present (m.fields now)) = some m.sourceMessageIds := by
    rw [readSources, hlook rfl]
    cases m.sourceMessageIds with
    | none => rfl
    | some ids =>
      show ((ids.map Json.str).mapM strings?).map some = _
      rw [mapM_map_eq_some (f := strings?) fun _ _ => rfl]
      rfl
  have hpeer : getOptStr (present (m.fields now)) "peer_id" = some m.peerId :=
    getOptStr_map (hlook rfl)
  have hturn : getOptStr (present (m.fields now)) "turn_id" = some m.turnId :=
    getOptStr_map (hlook rfl)
  have hkind : getOptStr (present (m.fields now)) "message_kind" = some m.messageKind :=
    getOptStr_map (hlook rfl)
  rw [toDict, fromDict, hparts]
  show ((m.parts.map Part.toDict).mapM partFromDict).bind _ = _
  rw [mapM_partFromDict, reread]
  cases m.parts.mapM Part.reread with
  | none => rfl
  | some parts =>
    simp only [Option.bind_some, hpeer, hid, hrole, hcreated, hturn, hkind, hsources,
      Option.bind_eq_bind, Option.map_some]

/-! ### The messages that are kept -/

/-- A peer that is read as it was written: it has no blanks around it, or is no valid identifier. -/
def PeerKept (peerId : String) : Prop :=
  strip peerId.toList ≠ [] ∧ (strip peerId.toList = peerId.toList ∨
    validateIdentifierPart (strip peerId.toList) "peer_id" ≠ none)

/-- The message is read as it was written. -/
structure Kept (m : Message) : Prop where
  parts : ∀ part ∈ m.parts, part.Kept
  peerId : ∀ peerId ∈ m.peerId, PeerKept peerId
  createdAt : ∃ t ∈ m.createdAt, t ≠ ""

theorem mapM_reread_eq_some_iff (parts : List Part) :
    parts.mapM Part.reread = some parts ↔ ∀ part ∈ parts, part.Kept := by
  rw [mapM_eq_some, List.forall₂_same]
  exact forall₂_congr fun part _ => part.reread_eq_some_iff

theorem readPeerId_eq_iff (peerId : String) : readPeerId (some peerId) = some peerId ↔ PeerKept peerId := by
  rw [readPeerId, normalizePeerId, normalizeIdentifierPart, PeerKept]
  by_cases hnil : strip peerId.toList = []
  · rw [if_pos hnil]
    simp [hnil]
  · rw [if_neg hnil]
    cases validateIdentifierPart (strip peerId.toList) "peer_id" with
    | some error => simp [hnil]
    | none =>
      simp only [hnil, ne_eq, not_false_iff, not_true, or_false, true_and, Option.some_inj]
      constructor
      · intro h
        calc strip peerId.toList = (String.ofList (strip peerId.toList)).toList :=
              String.toList_ofList.symm
          _ = peerId.toList := by rw [h]
      · intro h
        rw [h, String.ofList_toList]

/-- **A message that is read again** is the message that was written if it is one of the kept. -/
theorem reread_eq_some_iff (now : Timestamp) (m : Message) : m.reread now = some m ↔ m.Kept := by
  have hparts := mapM_reread_eq_some_iff m.parts
  have hpeer : readPeerId m.peerId = m.peerId ↔ ∀ p ∈ m.peerId, PeerKept p := by
    cases h : m.peerId with
    | none => exact iff_of_true rfl (fun _ hp => by cases hp)
    | some p =>
      rw [readPeerId_eq_iff]
      simp
  have hcreated : some ((m.createdAt.filter (· ≠ "")).getD now.text) = m.createdAt ↔
      ∃ t ∈ m.createdAt, t ≠ "" := by
    cases h : m.createdAt with
    | none => simp
    | some t =>
      by_cases ht : t = ""
      · have := now.ne_empty
        simpa [Option.filter, ht] using this
      · simp [Option.filter, ht]
  have hkept : m.Kept ↔ m.parts.mapM Part.reread = some m.parts ∧ readPeerId m.peerId = m.peerId ∧
      some ((m.createdAt.filter (· ≠ "")).getD now.text) = m.createdAt := by
    rw [hparts, hpeer, hcreated]
    exact ⟨fun h => ⟨h.parts, h.peerId, h.createdAt⟩, fun h => ⟨h.1, h.2.1, h.2.2⟩⟩
  rw [hkept, reread]
  cases hm : m.parts.mapM Part.reread with
  | none => simp
  | some parts =>
    rw [Option.map_some, Option.some_inj, Option.some_inj]
    obtain ⟨id, role, mparts, peer, created, turn, kind, sources⟩ := m
    simp only [Message.mk.injEq, true_and, and_true]

end Message

end OpenViking.Session
