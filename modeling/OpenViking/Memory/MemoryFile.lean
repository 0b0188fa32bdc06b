import OpenViking.Common.Dict
import OpenViking.Memory.FieldsComment

/-!
# Memory files

Writing and reading memory files (`session/memory/utils/memory_file_utils.py`,
`session/memory/dataclass.py`): the content, and after it a comment with the fields as JSON.

The printing of JSON is `Json.dumps`; `loads` is the repairing parser that reads it, `parseIso` and
`isoformat` read and print date and time, and `renderLinks` puts the links into the content.
-/

namespace OpenViking.Memory

/-! ## Model -/

/-- The value of a field: JSON, or a `datetime` that was read from a string. -/
inductive FieldValue (D : Type) where
  | json (v : Json)
  | datetime (d : D)

/-- `MemoryFile`; the links and backlinks are dictionaries. -/
structure MemoryFile (D : Type) where
  uri : Option String
  content : String
  links : List (List (String × Json))
  backlinks : List (List (String × Json))
  memoryType : Option String
  extraFields : Dict String (FieldValue D)

/-- The code around the memory files: `json_repair.loads`, `parse_iso_datetime`, `datetime.isoformat`
and `LinkRenderer.render_links`. -/
structure Env (D : Type) where
  loads : List Char → Option Json
  parseIso : String → Option D
  isoformat : D → String
  renderLinks : String → String → List (List (String × Json)) → String

section Model

variable {D : Type} (env : Env D)

/-- A list of dictionaries as JSON. -/
def linksJson (links : List (List (String × Json))) : FieldValue D := .json (.arr (links.map .obj))

/-- `MemoryFile.to_metadata` (276-291). -/
def MemoryFile.toMetadata (f : MemoryFile D) : Dict String (FieldValue D) :=
  let metadata := f.extraFields.filter fun key _ => key ∉ ["user_id", "user_ids", "_uri"]
  let metadata := metadata.setDefault "version" (.json (.number .one))
  let metadata := metadata.set "content" (.json (.str f.content))
  let metadata := if f.links = [] then metadata else metadata.set "links" (linksJson f.links)
  let metadata :=
    if f.backlinks = [] then metadata else metadata.set "backlinks" (linksJson f.backlinks)
  match f.memoryType with
  | none => metadata
  | some "" => metadata
  | some memoryType => metadata.set "memory_type" (.json (.str memoryType))

/-- A value is not `None`. -/
def FieldValue.notNone : FieldValue D → Bool
  | .json .null => false
  | _ => true

/-- `_serialize_datetime`, for what JSON cannot print. -/
def FieldValue.toJson : FieldValue D → Json
  | .json v => v
  | .datetime d => .str (env.isoformat d)

/-- The metadata that is printed: without the content, what is `None`, and `_uri`. -/
def cleanMetadata (metadata : Dict String (FieldValue D)) : Dict String (FieldValue D) :=
  ((metadata.erase "content").filter fun _ v => v.notNone).erase "_uri"

/-- The fields of a file as JSON. -/
def fieldsJson (metadata : Dict String (FieldValue D)) : Json :=
  .obj ((cleanMetadata metadata).entries.map fun e => (e.1, e.2.toJson env))

/-- `MemoryFileUtils.write` (126-140) without a template: `_serialize_with_metadata` (74-104). -/
def MemoryFile.write (f : MemoryFile D) : String :=
  let metadata := f.toMetadata
  if ((metadata.erase "content").filter fun _ v => v.notNone).entries = [] then f.content
  else
    let content :=
      match f.uri with
      | none => f.content
      | some "" => f.content
      | some uri => if f.links = [] then f.content else env.renderLinks f.content uri f.links
    let comment := comment (fieldsJson env metadata).dumps
    if strip content.toList = [] then String.ofList comment
    else String.ofList (content.toList ++ '\n' :: '\n' :: comment)

/-- The fields that a text of JSON holds; of a list, those of the first item. -/
def fieldsOf (text : List Char) : List (String × Json) :=
  if text = [] then []
  else
    match env.loads text with
    | some (.arr (.obj kvs :: _)) => kvs
    | some (.obj kvs) => kvs
    | _ => []

/-- `parse_memory_file_with_fields` (79-120). -/
def parseMemoryFileWithFields (content : String) : Dict String (FieldValue D) :=
  if content = "" then Dict.empty.set "content" (.json (.str ""))
  else
    let fields :=
      match search content.toList with
      | some (_, group, _) => fieldsOf env (strip group)
      | none => []
    let result := Dict.empty.update (fields.map fun e => (e.1, .json e.2))
    result.set "content" (.json (.str (String.ofList (strip (sub content.toList)))))

/-- One key of `_deserialize_datetime`. -/
def deserializeKey (metadata : Dict String (FieldValue D)) (key : String) :
    Dict String (FieldValue D) :=
  match metadata.get key with
  | some (.json (.str s)) =>
    match env.parseIso s with
    | some d => metadata.set key (.datetime d)
    | none => metadata
  | _ => metadata

/-- `_deserialize_datetime`. -/
def deserializeDatetime (metadata : Dict String (FieldValue D)) : Dict String (FieldValue D) :=
  ["created_at", "updated_at"].foldl (deserializeKey env) metadata

/-- A list of dictionaries, as the class checks it; what counts as false is no link. -/
def linksOf : Option (FieldValue D) → Option (List (List (String × Json)))
  | none => some []
  | some (.json (.arr vs)) => vs.mapM fun
    | .obj kvs => some kvs
    | _ => none
  | some (.json .null) => some []
  | some (.json (.bool false)) => some []
  | some (.json (.str "")) => some []
  | some (.json (.obj [])) => some []
  | some (.json (.number n)) =>
    if (n.text.takeWhile fun c => c ≠ 'e').all (· ∈ ['0', '.', '-']) then some [] else none
  | some _ => none

/-- The content, as the class checks it. -/
def contentOf : Option (FieldValue D) → Option String
  | none => some ""
  | some (.json (.str content)) => some content
  | some _ => none

/-- The type of the memory, as the class checks it. -/
def memoryTypeOf : Option (FieldValue D) → Option (Option String)
  | none => some none
  | some (.json .null) => some none
  | some (.json (.str memoryType)) => some (some memoryType)
  | some _ => none

/-- `MemoryFile.from_parsed` (257-274); `none` when the class refuses the values. -/
def MemoryFile.fromParsed (uri : Option String) (parsed : Dict String (FieldValue D)) :
    Option (MemoryFile D) := do
  let content ← contentOf (parsed.get "content")
  let links ← linksOf (parsed.get "links")
  let backlinks ← linksOf (parsed.get "backlinks")
  let memoryType ← memoryTypeOf (parsed.get "memory_type")
  some {
    uri := uri
    content := content
    links := links
    backlinks := backlinks
    memoryType := memoryType
    extraFields := (((parsed.erase "content").erase "links").erase "backlinks").erase "memory_type" }

/-- `MemoryFileUtils.read` (119-124). -/
def MemoryFile.read (raw : String) (uri : Option String) : Option (MemoryFile D) :=
  MemoryFile.fromParsed uri (deserializeDatetime env (parseMemoryFileWithFields env raw))

end Model

end OpenViking.Memory
