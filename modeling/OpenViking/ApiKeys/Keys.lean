import OpenViking.Common.Base64
import OpenViking.Fs.Uri

/-!
# API keys

The new key format (`server/api_keys/new.py`) and the helpers of the legacy manager
(`server/api_keys/legacy.py`) that hash, verify and compare keys.  Base64 and Argon2 are parameters;
a function that raises returns an error.

* `generateApiKey_isAscii`, `not_isHash_generateApiKey`: keys are ASCII and never look like a hash;
* `sound_textbook`: parameters that do what is asked of them.
-/

namespace OpenViking.ApiKeys

open Fs (Str)

/-- What the managers raise. -/
inductive ApiError where
  | invalidArgument (message : String)
  | notFound (resource : Str) (type : String)
  | alreadyExists (resource : Str) (type : String)
  | unauthenticated (message : String)
  | typeError
  | invalidHash
  | saveFailed
  deriving DecidableEq

/-- URL-safe base64 without padding, and Argon2id with a salt.  `decodeSegment` and `verify` may
raise. -/
structure Primitives where
  encodeSegment : Str → Str
  decodeSegment : Str → Option Str
  hash : ℕ → Str → Str
  verify : Str → Str → Option Bool

/-- `"$argon2"`. -/
def hashMark : Str := "$argon2".toList

/-- Base64 round-trips in its alphabet; a hash has its mark and verifies its own key only. -/
structure Primitives.Sound (P : Primitives) : Prop where
  decode_encode : ∀ text, P.decodeSegment (P.encodeSegment text) = some text
  encode_alphabet : ∀ text, ∀ c ∈ P.encodeSegment text, c ∈ Base64.alphabet
  hashMark_hash : ∀ salt key, hashMark <+: P.hash salt key
  verify_hash : ∀ salt key key', P.verify (P.hash salt key) key' = some (decide (key' = key))

/-- `s.startswith("$argon2")`. -/
def isHash (stored : Str) : Bool := hashMark.isPrefixOf stored

def isAscii (text : Str) : Bool := text.all fun c => decide (c.toNat < 128)

/-- `hmac.compare_digest` of two strings; it raises on characters outside ASCII. -/
def compareDigest (a b : Str) : Except ApiError Bool :=
  if isAscii a && isAscii b then .ok (decide (a = b)) else .error .typeError

/-- `_get_key_prefix` (`legacy.py` 598-603). -/
def getKeyPrefix (apiKey : Str) : Str := apiKey.take 8

/-- `is_new_format_key` (43-48). -/
def isNewFormatKey (apiKey : Str) : Bool := (apiKey.splitOn '.').length = 3

/-- `parse_api_key` (51-59). -/
def parseApiKey (P : Primitives) (apiKey : Str) : Option (Str × Str × Str) :=
  match apiKey.splitOn '.' with
  | [account, user, secret] => do
    let accountId ← P.decodeSegment account
    let userId ← P.decodeSegment user
    let secret ← P.decodeSegment secret
    return (accountId, userId, secret)
  | _ => none

/-- `generate_api_key` (62-72) with a secret that was drawn. -/
def generateApiKey (P : Primitives) (accountId userId secret : Str) : Str :=
  P.encodeSegment accountId ++ '.' :: (P.encodeSegment userId ++ '.' :: P.encodeSegment secret)

/-! ## Generated keys -/

section Sound

variable {P : Primitives} (hP : P.Sound)
include hP

theorem not_mem_encodeSegment {c : Char} (hc : c ∉ Base64.alphabet) (text : Str) :
    c ∉ P.encodeSegment text :=
  fun hmem => hc (hP.encode_alphabet text c hmem)

variable (accountId userId secret : Str)

theorem splitOn_generateApiKey :
    (generateApiKey P accountId userId secret).splitOn '.' =
      [P.encodeSegment accountId, P.encodeSegment userId, P.encodeSegment secret] := by
  have hjoin : generateApiKey P accountId userId secret = ['.'].intercalate
      [P.encodeSegment accountId, P.encodeSegment userId, P.encodeSegment secret] := by
    simp [generateApiKey, List.intercalate]
  have hdot : '.' ∉ Base64.alphabet := by decide +kernel
  rw [hjoin, List.splitOn_intercalate]
  · intro segment hsegment
    simp only [List.mem_cons, List.not_mem_nil, or_false] at hsegment
    obtain rfl | rfl | rfl := hsegment <;> exact not_mem_encodeSegment hP hdot _
  · exact List.cons_ne_nil _ _

theorem isNewFormatKey_generateApiKey :
    isNewFormatKey (generateApiKey P accountId userId secret) = true := by
  simp [isNewFormatKey, splitOn_generateApiKey hP]

/-- **The identity in a generated key reads back.** -/
theorem parseApiKey_generateApiKey :
    parseApiKey P (generateApiKey P accountId userId secret) =
      some (accountId, userId, secret) := by
  simp [parseApiKey, splitOn_generateApiKey hP, hP.decode_encode]

theorem mem_generateApiKey {c : Char} {accountId userId secret : Str}
    (h : c ∈ generateApiKey P accountId userId secret) : c = '.' ∨ c ∈ Base64.alphabet := by
  simp only [generateApiKey, List.mem_append, List.mem_cons] at h
  obtain h | h | h | h | h := h
  · exact .inr (hP.encode_alphabet _ c h)
  · exact .inl h
  · exact .inr (hP.encode_alphabet _ c h)
  · exact .inl h
  · exact .inr (hP.encode_alphabet _ c h)

theorem generateApiKey_isAscii : isAscii (generateApiKey P accountId userId secret) = true := by
  have halphabet : isAscii Base64.alphabet = true := by decide +kernel
  rw [isAscii, List.all_eq_true] at halphabet
  rw [isAscii, List.all_eq_true]
  intro c hc
  obtain rfl | hc := mem_generateApiKey hP hc
  · decide
  · exact halphabet c hc

theorem not_isHash_generateApiKey : isHash (generateApiKey P accountId userId secret) = false := by
  rw [isHash, Bool.eq_false_iff, Ne, List.isPrefixOf_iff_prefix]
  intro hmark
  have hdollar : '$' ∈ generateApiKey P accountId userId secret :=
    hmark.subset (by decide +kernel)
  obtain h | h := mem_generateApiKey hP hdollar
  · exact absurd h (by decide)
  · exact absurd h (by decide +kernel)

theorem isHash_hash (salt : ℕ) (key : Str) : isHash (P.hash salt key) = true :=
  List.isPrefixOf_iff_prefix.2 (hP.hashMark_hash salt key)

end Sound

theorem generateApiKey_ne_nil (P : Primitives) (accountId userId secret : Str) :
    generateApiKey P accountId userId secret ≠ [] := by
  simp [generateApiKey]

theorem getKeyPrefix_ne_nil {apiKey : Str} (h : apiKey ≠ []) : getKeyPrefix apiKey ≠ [] := by
  simpa [getKeyPrefix] using h

theorem compareDigest_of_isAscii {a b : Str} (ha : isAscii a = true) (hb : isAscii b = true) :
    compareDigest a b = .ok (decide (a = b)) := by
  simp [compareDigest, ha, hb]

/-! ## Parameters that are as they should be -/

/-- Base64 of UTF-8, and a "hash" that is the mark, the salt in dashes and the key. -/
def textbook : Primitives where
  encodeSegment := Base64.encode
  decodeSegment := Base64.decode
  hash salt key := hashMark ++ List.replicate salt '-' ++ '$' :: key
  verify stored key := some (decide ((stored.drop 7).dropWhile (· == '-') = '$' :: key))

theorem sound_textbook : textbook.Sound where
  decode_encode := Base64.decode_encode
  encode_alphabet := Base64.encode_alphabet
  hashMark_hash salt key := by
    show hashMark <+: hashMark ++ List.replicate salt '-' ++ '$' :: key
    rw [List.append_assoc]
    exact List.prefix_append _ _
  verify_hash salt key key' := by
    have hdrop : (List.replicate salt '-' ++ '$' :: key).dropWhile (· == '-') = '$' :: key := by
      induction salt with
      | zero => simp
      | succ salt ih => exact ih
    have hmark : (hashMark ++ List.replicate salt '-' ++ '$' :: key).drop 7 =
        List.replicate salt '-' ++ '$' :: key := by
      rw [List.append_assoc]
      exact @List.drop_left _ hashMark _
    show some (decide ((List.drop 7 (hashMark ++ List.replicate salt '-' ++ '$' :: key)).dropWhile
      (· == '-') = '$' :: key')) = _
    rw [hmark, hdrop]
    simp [eq_comm]

end OpenViking.ApiKeys
