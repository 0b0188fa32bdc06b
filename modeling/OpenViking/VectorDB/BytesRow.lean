import OpenViking.Common.Buffer

/-!
# The row codecs

Models of the two row codecs: `BytesRow` in C++ (`src/store/bytes_row.cpp`) and its fallback
`_PyBytesRow` in Python (`vectordb/store/bytes_row.py`).  A row is a byte with the number of fields, a
fixed region with a slot for every field, and a variable region.  The slot of a field of variable length
is the offset of its value in the variable region.

Texts are byte strings, which in Python have to be valid UTF-8; integers are 64-bit patterns and floats
32-bit patterns.  The byte order is that of the machines the engine is built for, least significant byte
first.
-/

namespace OpenViking.VectorDB

open Buffer

abbrev Bytes := List UInt8

/-! ## Values and schemas -/

/-- `FieldType` (`bytes_row.h`, 16-26) and `_PyFieldType`. -/
inductive FieldType where
  | int64
  | uint64
  | float32
  | string
  | binary
  | boolean
  | listInt64
  | listString
  | listFloat32
  deriving DecidableEq, Repr

/-- `Value` (`bytes_row.h`, 29-31); `monostate` is Python's `None`. -/
inductive Value where
  | monostate
  | int64 (v : BitVec 64)
  | uint64 (v : BitVec 64)
  | float (v : BitVec 32)
  | string (s : Bytes)
  | bool (v : Bool)
  | listInt64 (vec : List (BitVec 64))
  | listString (vec : List Bytes)
  | listFloat (vec : List (BitVec 32))
  deriving DecidableEq, Repr

/-- The value is of the type. -/
def WellTyped : FieldType → Value → Prop
  | .int64, .int64 _ => True
  | .uint64, .uint64 _ => True
  | .float32, .float _ => True
  | .string, .string _ => True
  | .binary, .string _ => True
  | .boolean, .bool _ => True
  | .listInt64, .listInt64 _ => True
  | .listString, .listString _ => True
  | .listFloat32, .listFloat _ => True
  | _, _ => False

/-- `FieldDef` -/
structure FieldDef where
  name : String
  dataType : FieldType
  id : ℤ
  defaultValue : Value
  deriving DecidableEq, Repr

/-- `FieldMeta` -/
structure FieldMeta where
  name : String
  dataType : FieldType
  offset : ℕ
  id : ℕ
  defaultValue : Value
  deriving DecidableEq, Repr

/-- The size of a field's slot in the fixed region. -/
def FieldType.byteLen : FieldType → ℕ
  | .int64 => 8
  | .uint64 => 8
  | .float32 => 4
  | .boolean => 1
  | _ => 4

/-- The value stands in the variable region. -/
def FieldType.isVariable : FieldType → Bool
  | .string | .binary | .listInt64 | .listString | .listFloat32 => true
  | _ => false

/-- `Schema`: the fields in the order of their declaration, with their offsets. -/
structure Schema where
  metas : List FieldMeta
  totalByteLength : ℕ
  deriving DecidableEq, Repr

/-- The metas of the fields, the first one at `currentOffset` (48-84). -/
def metasFrom : ℕ → List FieldDef → List FieldMeta
  | _, [] => []
  | currentOffset, field :: fields =>
    { name := field.name, dataType := field.dataType, offset := currentOffset, id := field.id.toNat,
      defaultValue := field.defaultValue } :: metasFrom (currentOffset + field.dataType.byteLen) fields

/-- The fields laid out after the header byte. -/
def layOut (fields : List FieldDef) : Schema :=
  { metas := metasFrom 1 fields
    totalByteLength := 1 + (fields.map fun field => field.dataType.byteLen).sum }

/-- `max_id` (24-31) -/
def maxId (fields : List FieldDef) : ℤ := (fields.map FieldDef.id).foldl max (-1)

/-- `Schema::Schema` (16-87): `none` when it throws. -/
def Schema.ofFields (fields : List FieldDef) : Option Schema :=
  if fields = [] then some (layOut [])
  else if fields.any fun field => field.id < 0 then none
  else if maxId fields ≠ fields.length - 1 then none
  else if ¬ (fields.map FieldDef.id).Nodup then none
  else some (layOut fields)

namespace Schema

/-- `field_metas_[name]`: of two fields with one name the later one. -/
def getFieldMeta (S : Schema) (name : String) : Option FieldMeta :=
  S.metas.reverse.find? fun m => m.name = name

/-- `field_orders_`: the field with id 0, with id 1, and so on. -/
def fieldOrder (S : Schema) : List FieldMeta :=
  (List.range S.metas.length).filterMap fun i => S.metas.reverse.find? fun m => m.id = i

end Schema

/-- The fields in the order of their ids, each with its value: a missing one has its default. -/
def Schema.withDefaults (S : Schema) (defaultOf : FieldMeta → Value) (rowData : List Value) :
    List (FieldMeta × Value) :=
  S.fieldOrder.mapIdx fun i m => (m, match rowData[i]? with
    | none => defaultOf m
    | some .monostate => defaultOf m
    | some v => v)

/-! ## `BytesRow` -/

/-- Why there is no result: an exception, or in C++ a size that is out of the range of an `int`. -/
inductive CodecError where
  | invalidArgument (what : String)
  | overflow
  | valueError (what : String)
  | unicodeDecodeError
  | indexError
  | keyError
  | typeError
  | structError
  deriving DecidableEq, Repr

/-- `STRING_MAX_UINT16_LENGTH` -/
def stringMaxUint16Length : ℕ := 65535

def stringOf : Value → Bytes
  | .string s => s
  | _ => []

def listInt64Of : Value → List (BitVec 64)
  | .listInt64 vec => vec
  | _ => []

def listFloatOf : Value → List (BitVec 32)
  | .listFloat vec => vec
  | _ => []

def listStringOf : Value → List Bytes
  | .listString vec => vec
  | _ => []

/-- The size of a field's value in the variable region (122-195). -/
def varSize : FieldType → Value → ℕ
  | .string, v => 2 + (stringOf v).length
  | .binary, v => 4 + (stringOf v).length
  | .listInt64, v => 2 + (listInt64Of v).length * 8
  | .listFloat32, v => 2 + (listFloatOf v).length * 4
  | .listString, v => 2 + ((listStringOf v).map fun s => 2 + s.length).sum
  | _, _ => 0

/-- The message about a text that is too long. -/
def exceedsMessage (name : String) : String := "string field '" ++ name ++ "' exceeds 65535 bytes"

/-- The first pass (103-195): the offset of each field's value in the variable region, and the total
size. -/
def varInfos : List (FieldMeta × Value) → ℕ → Except CodecError (List ℕ × ℕ)
  | [], offset => if offset < 2 ^ 31 then .ok ([], offset) else .error .overflow
  | (m, v) :: fields, offset =>
    if offset < 2 ^ 31 then
      if m.dataType = .string ∧ (stringOf v).length > stringMaxUint16Length then
        .error (.invalidArgument (exceedsMessage m.name))
      else do
        let (offsets, total) ← varInfos fields (offset + varSize m.dataType v)
        .ok (offset :: offsets, total)
    else .error .overflow

/-- What is written to a field's slot (221-262): its value, or the offset of its value. -/
def slotBytes : FieldType → Value → ℕ → Bytes
  | .int64, v, _ =>
    toLE 8 (match v with
      | .int64 n => n.toNat
      | .uint64 n => n.toNat
      | _ => 0)
  | .uint64, v, _ =>
    toLE 8 (match v with
      | .uint64 n => n.toNat
      | .int64 n => n.toNat
      | _ => 0)
  | .float32, v, _ =>
    toLE 4 (match v with
      | .float x => x.toNat
      | _ => 0)
  | .boolean, v, _ =>
    toLE 1 (match v with
      | .bool b => b.toNat
      | _ => 0)
  | _, _, offset => toLE 4 offset

/-- A text with its length in 16 bits: the length is cut off, and so much of the text is copied. -/
def shortText (s : Bytes) : Bytes := toLE 2 s.length ++ s.take (s.length % 2 ^ 16)

/-- What is written to the variable region (264-315). -/
def varBytes : FieldType → Value → Bytes
  | .string, v => shortText (stringOf v)
  | .binary, v => toLE 4 (stringOf v).length ++ (stringOf v).take ((stringOf v).length % 2 ^ 32)
  | .listInt64, v =>
    let vec := listInt64Of v
    toLE 2 vec.length ++ (vec.take (vec.length % 2 ^ 16)).flatMap fun n => toLE 8 n.toNat
  | .listFloat32, v =>
    let vec := listFloatOf v
    toLE 2 vec.length ++ (vec.take (vec.length % 2 ^ 16)).flatMap fun x => toLE 4 x.toNat
  | .listString, v => toLE 2 (listStringOf v).length ++ (listStringOf v).flatMap shortText
  | _, _ => []

/-- The writes of the second pass for one field. -/
def fieldWrites (field : (FieldMeta × Value) × ℕ) : List (ℕ × Bytes) :=
  let m := field.1.1
  let v := field.1.2
  (m.offset, slotBytes m.dataType v field.2) ::
    (if m.dataType.isVariable then [(field.2, varBytes m.dataType v)] else [])

namespace Schema

/-- `BytesRow::serialize` (100-320) -/
def serialize (S : Schema) (rowData : List Value) : Except CodecError Bytes := do
  let fields := S.withDefaults FieldMeta.defaultValue rowData
  let (offsets, total) ← varInfos fields S.totalByteLength
  let buffer := patch (List.replicate total 0) 0 (toLE 1 S.fieldOrder.length)
  .ok (writeAll buffer ((fields.zip offsets).flatMap fieldWrites))

end Schema

/-- The texts of a list (477-494): as many as there are, up to `n`. -/
def readTexts (b : Bytes) : ℕ → ℕ → List Bytes
  | 0, _ => []
  | n + 1, pos =>
    match readLE b pos 2 with
    | none => []
    | some len =>
      if pos + 2 + len > b.length then []
      else (b.drop (pos + 2)).take len :: readTexts b n (pos + 2 + len)

/-- `count` numbers of `width` bytes. -/
def readNumbers (b : Bytes) (width : ℕ) : ℕ → ℕ → List ℕ
  | 0, _ => []
  | count + 1, pos => ofLE ((b.drop pos).take width) :: readNumbers b width count (pos + width)

/-- A value in the variable region: its offset is read from the slot, then its length, and `read` is what
is read behind it.  Where something is out of range, the value is `empty` (358-500). -/
def readVariable (b : Bytes) (slot width : ℕ) (read : ℕ → ℕ → Option Value) (empty : Value) : Value :=
  match readLE b slot 4 with
  | none => empty
  | some offset =>
    match readLE b offset width with
    | none => empty
    | some len => (read (offset + width) len).getD empty

/-- The text, if it is all there. -/
def readText (b : Bytes) (pos len : ℕ) : Option Value :=
  if pos + len > b.length then none else some (.string ((b.drop pos).take len))

/-- What `deserialize_field` makes of a field's slot (338-501), `none` where it reads beyond the end. -/
def decodeSlot (b : Bytes) (slot : ℕ) : FieldType → Option Value
  | .int64 => (readLE b slot 8).map fun n => .int64 (BitVec.ofNat 64 n)
  | .uint64 => (readLE b slot 8).map fun n => .uint64 (BitVec.ofNat 64 n)
  | .float32 => (readLE b slot 4).map fun n => .float (BitVec.ofNat 32 n)
  | .boolean => (readLE b slot 1).map fun n => .bool (n ≠ 0)
  | .string => some (readVariable b slot 2 (readText b) (.string []))
  | .binary => some (readVariable b slot 4 (readText b) (.string []))
  | .listInt64 => some (readVariable b slot 2 (fun pos len =>
      if pos + len * 8 > b.length then none
      else some (.listInt64 ((readNumbers b 8 len pos).map (BitVec.ofNat 64)))) (.listInt64 []))
  | .listFloat32 => some (readVariable b slot 2 (fun pos len =>
      if pos + len * 4 > b.length then none
      else some (.listFloat ((readNumbers b 4 len pos).map (BitVec.ofNat 32)))) (.listFloat []))
  | .listString => some (readVariable b slot 2 (fun pos len =>
      some (.listString (readTexts b len pos))) (.listString []))

namespace Schema

/-- `BytesRow::deserialize_field` (322-502) -/
def deserializeField (S : Schema) (b : Bytes) (name : String) : Option Value :=
  match S.getFieldMeta name with
  | none => some .monostate
  | some m =>
    if b.length ≤ m.offset then some m.defaultValue
    else if m.id ≥ (b.headD 0).toNat then some m.defaultValue
    else decodeSlot b m.offset m.dataType

/-- `BytesRow::deserialize` (504-512): the value of each field under its name. -/
def deserialize (S : Schema) (b : Bytes) : List (String × Option Value) :=
  S.fieldOrder.map fun m => (m.name, S.deserializeField b m.name)

end Schema

/-! ## `_PyBytesRow` -/

/-- A text of Python: the bytes are valid UTF-8. -/
def Utf8 (s : Bytes) : Prop := s.toByteArray.IsValidUTF8

instance (s : Bytes) : Decidable (Utf8 s) := inferInstanceAs (Decidable (ByteArray.IsValidUTF8 _))

/-- The default value of a type (`TYPE_INFO`, 60-70). -/
def FieldType.pyDefault : FieldType → Value
  | .int64 => .int64 0
  | .uint64 => .uint64 0
  | .float32 => .float 0
  | .string => .string "default".toUTF8.toList
  | .binary => .string []
  | .boolean => .bool false
  | .listInt64 => .listInt64 [0]
  | .listString => .listString ["default".toUTF8.toList]
  | .listFloat32 => .listFloat [0]

/-- The default value of a field in `_PySchema` (78-82), which lays the fields out like `Schema` does: its
own, or that of its type. -/
def FieldMeta.pyDefaultValue (m : FieldMeta) : Value :=
  if m.defaultValue = .monostate then m.dataType.pyDefault else m.defaultValue

/-- A format character of `struct` with its value; `s` has the length of its bytes. -/
inductive PackItem where
  | q (v : BitVec 64)
  | Q (v : BitVec 64)
  | f (v : BitVec 32)
  | B (n : ℕ)
  | H (n : ℕ)
  | I (n : ℕ)
  | s (bytes : Bytes)
  deriving DecidableEq, Repr

/-- `struct.pack` of one item, little-endian; it raises when a number does not fit. -/
def PackItem.pack : PackItem → Except CodecError Bytes
  | .q v => .ok (toLE 8 v.toNat)
  | .Q v => .ok (toLE 8 v.toNat)
  | .f v => .ok (toLE 4 v.toNat)
  | .B n => if n < 2 ^ 8 then .ok (toLE 1 n) else .error .structError
  | .H n => if n < 2 ^ 16 then .ok (toLE 2 n) else .error .structError
  | .I n => if n < 2 ^ 32 then .ok (toLE 4 n) else .error .structError
  | .s bytes => .ok bytes

/-- The items of one field (122-205): that of its slot, and those of the variable region. -/
def pyFieldItems (m : FieldMeta) (value : Value) (variableRegionOffset : ℕ) :
    Except CodecError (PackItem × List PackItem) :=
  match m.dataType, value with
  | .int64, .int64 v => .ok (.q v, [])
  | .uint64, .uint64 v => .ok (.Q v, [])
  | .float32, .float v => .ok (.f v, [])
  | .boolean, .bool v => .ok (.B v.toNat, [])
  | .string, .string s =>
    if s.length > stringMaxUint16Length then .error (.valueError (exceedsMessage m.name))
    else .ok (.I variableRegionOffset, [.H s.length, .s s])
  | .binary, .string s => .ok (.I variableRegionOffset, [.I s.length, .s s])
  | .listInt64, .listInt64 vec => .ok (.I variableRegionOffset, .H vec.length :: vec.map .q)
  | .listFloat32, .listFloat vec => .ok (.I variableRegionOffset, .H vec.length :: vec.map .f)
  | .listString, .listString vec =>
    .ok (.I variableRegionOffset, .H vec.length :: vec.flatMap fun s => [.H s.length, .s s])
  | _, _ => .error .typeError

/-- The items of all fields (119-205). -/
def pyItems : List (FieldMeta × Value) → ℕ → Except CodecError (List PackItem × List PackItem)
  | [], _ => .ok ([], [])
  | (m, v) :: fields, variableRegionOffset => do
    let (slot, var) ← pyFieldItems m v variableRegionOffset
    let (slots, vars) ← pyItems fields (variableRegionOffset + varSize m.dataType v)
    .ok (slot :: slots, var ++ vars)

/-- `struct.pack_into`: the items one after the other. -/
def packAll : List PackItem → Except CodecError Bytes
  | [] => .ok []
  | item :: items => do
    let bytes ← item.pack
    let rest ← packAll items
    .ok (bytes ++ rest)

namespace Schema

/-- `_PyBytesRow.serialize` (116-213).  The values are given in the order of the ids. -/
def pySerialize (S : Schema) (rowData : List Value) : Except CodecError Bytes := do
  let (slots, vars) ← pyItems (S.withDefaults FieldMeta.pyDefaultValue rowData) S.totalByteLength
  if S.fieldOrder.length < 2 ^ 8 then
    let body ← packAll (slots ++ vars)
    .ok (toLE 1 S.fieldOrder.length ++ body)
  else .error (.valueError "byte must be in range(0, 256)")

end Schema

/-- `struct.unpack_from` of one number. -/
def unpackFrom (b : Bytes) (pos width : ℕ) : Except CodecError ℕ :=
  match readLE b pos width with
  | none => .error .structError
  | some n => .ok n

/-- `.decode("utf-8")` of a slice, which ends where the data ends. -/
def pyText (b : Bytes) (pos len : ℕ) : Except CodecError Bytes :=
  let s := (b.drop pos).take len
  if Utf8 s then .ok s else .error .unicodeDecodeError

/-- The texts of a list (252-259). -/
def pyTexts (b : Bytes) : ℕ → ℕ → Except CodecError (List Bytes)
  | 0, _ => .ok []
  | n + 1, pos => do
    let len ← unpackFrom b pos 2
    let s ← pyText b (pos + 2) len
    let rest ← pyTexts b n (pos + 2 + len)
    .ok (s :: rest)

/-- `struct.unpack_from` of `count` numbers. -/
def pyNumbers (b : Bytes) (width count pos : ℕ) : Except CodecError (List ℕ) :=
  if pos + count * width ≤ b.length then .ok (readNumbers b width count pos)
  else .error .structError

/-- What `deserialize_field` makes of a field's slot (224-274). -/
def pyDecodeSlot (b : Bytes) (slot : ℕ) : FieldType → Except CodecError Value
  | .int64 => do
    let n ← unpackFrom b slot 8
    .ok (.int64 (BitVec.ofNat 64 n))
  | .uint64 => do
    let n ← unpackFrom b slot 8
    .ok (.uint64 (BitVec.ofNat 64 n))
  | .float32 => do
    let n ← unpackFrom b slot 4
    .ok (.float (BitVec.ofNat 32 n))
  | .boolean =>
    match b[slot]? with
    | none => .error .indexError
    | some d => .ok (.bool (d ≠ 0))
  | .string => do
    let offset ← unpackFrom b slot 4
    let len ← unpackFrom b offset 2
    let s ← pyText b (offset + 2) len
    .ok (.string s)
  | .binary => do
    let offset ← unpackFrom b slot 4
    let len ← unpackFrom b offset 4
    .ok (.string ((b.drop (offset + 4)).take len))
  | .listString => do
    let offset ← unpackFrom b slot 4
    let len ← unpackFrom b offset 2
    let vec ← pyTexts b len (offset + 2)
    .ok (.listString vec)
  | .listInt64 => do
    let offset ← unpackFrom b slot 4
    let len ← unpackFrom b offset 2
    let vec ← pyNumbers b 8 len (offset + 2)
    .ok (.listInt64 (vec.map (BitVec.ofNat 64)))
  | .listFloat32 => do
    let offset ← unpackFrom b slot 4
    let len ← unpackFrom b offset 2
    let vec ← pyNumbers b 4 len (offset + 2)
    .ok (.listFloat (vec.map (BitVec.ofNat 32)))

namespace Schema

/-- `_PyBytesRow.deserialize_field` (218-276) -/
def pyDeserializeField (S : Schema) (b : Bytes) (name : String) : Except CodecError Value :=
  match S.getFieldMeta name with
  | none => .error .keyError
  | some m =>
    match b with
    | [] => .error .indexError
    | count :: _ =>
      if m.id ≥ count.toNat then .ok m.pyDefaultValue else pyDecodeSlot b m.offset m.dataType

/-- `_PyBytesRow.deserialize` (278-286): the value of each field under its name. -/
def pyDeserialize (S : Schema) (b : Bytes) : Except CodecError (List (String × Value)) :=
  S.fieldOrder.mapM fun m => do
    let value ← S.pyDeserializeField b m.name
    .ok (m.name, value)

end Schema

end OpenViking.VectorDB
