import Mathlib.Data.Bool.AllAny
import Mathlib.Data.List.Infix
import Mathlib.Data.String.Basic
import Mathlib.Tactic.Common

/-!
# JSON values and their text

The values of Python's `json`, and the text that `json.dumps` prints with an indentation and without
escapes for what is not ASCII.
-/

namespace OpenViking

/-! ## Values -/

/-- The characters that Python prints numbers with. -/
def numberChars : List Char := "+-.0123456789eEInfityNa".toList

/-- A number, as it is printed. -/
structure JsonNumber where
  text : List Char
  plain : text.all (· ∈ numberChars) = true

/-- The number 1. -/
def JsonNumber.one : JsonNumber := ⟨['1'], by decide⟩

/-- A JSON value; an object with its keys in order. -/
inductive Json where
  | null
  | bool (b : Bool)
  | number (n : JsonNumber)
  | str (s : String)
  | arr (vs : List Json)
  | obj (kvs : List (String × Json))

namespace Json

mutual

/-- The strings of a value: its own, and the keys of its objects. -/
def strings : Json → List String
  | .str s => [s]
  | .arr vs => stringsOf vs
  | .obj kvs => stringsOfPairs kvs
  | _ => []

def stringsOf : List Json → List String
  | [] => []
  | v :: vs => v.strings ++ stringsOf vs

def stringsOfPairs : List (String × Json) → List String
  | [] => []
  | (k, v) :: kvs => k :: (v.strings ++ stringsOfPairs kvs)

end

/-! ## Text -/

/-- A character inside a string: `ESCAPE_DCT`, with `\u` and four hexadecimal digits for the other
control characters. -/
def escapeChar (c : Char) : List Char :=
  if c = '"' then ['\\', '"']
  else if c = '\\' then ['\\', '\\']
  else if c = '\n' then ['\\', 'n']
  else if c = '\r' then ['\\', 'r']
  else if c = '\t' then ['\\', 't']
  else if c = '\x08' then ['\\', 'b']
  else if c = '\x0c' then ['\\', 'f']
  else if c.toNat < 32 then
    ['\\', 'u', '0', '0', Nat.digitChar (c.toNat / 16), Nat.digitChar (c.toNat % 16)]
  else [c]

/-- A string in quotes. -/
def quote (s : String) : List Char := '"' :: (s.toList.flatMap escapeChar ++ ['"'])

/-- A new line with its indentation. -/
def newline (level : ℕ) : List Char := '\n' :: List.replicate (2 * level) ' '

mutual

/-- The text of a value at a level of indentation. -/
def render (level : ℕ) : Json → List Char
  | .null => "null".toList
  | .bool true => "true".toList
  | .bool false => "false".toList
  | .number n => n.text
  | .str s => quote s
  | .arr [] => "[]".toList
  | .arr (v :: vs) =>
    '[' :: (newline (level + 1) ++ (render (level + 1) v ++ (renderMore (level + 1) vs ++
      (newline level ++ [']']))))
  | .obj [] => "{}".toList
  | .obj ((k, v) :: kvs) =>
    '{' :: (newline (level + 1) ++ (quote k ++ (':' :: ' ' :: (render (level + 1) v ++
      (renderMorePairs (level + 1) kvs ++ (newline level ++ ['}']))))))

/-- The further items of an array. -/
def renderMore (level : ℕ) : List Json → List Char
  | [] => []
  | v :: vs => ',' :: (newline level ++ (render level v ++ renderMore level vs))

/-- The further members of an object. -/
def renderMorePairs (level : ℕ) : List (String × Json) → List Char
  | [] => []
  | (k, v) :: kvs =>
    ',' :: (newline level ++ (quote k ++ (':' :: ' ' :: (render level v ++
      renderMorePairs level kvs))))

end

/-- `json.dumps(v, indent=2, ensure_ascii=False)`. -/
def dumps (v : Json) : List Char := v.render 0

end Json

end OpenViking
