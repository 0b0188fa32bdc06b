import Mathlib.Data.List.Nodup
import Mathlib.Tactic.Common

/-!
# Base64 with the URL-safe alphabet

Bytes in groups of three are digits in groups of four; the text is not padded.

* `decode_encode`: the round trip for texts;
* `encode_alphabet`: the characters of an encoded text.
-/

namespace OpenViking.Base64

/-! ## Digits -/

/-- Three bytes are four digits; one or two left over are two or three. -/
def toDigits : List ℕ → List ℕ
  | a :: b :: c :: bytes =>
    a / 4 :: (a % 4 * 16 + b / 16) :: (b % 16 * 4 + c / 64) :: c % 64 :: toDigits bytes
  | [a, b] => [a / 4, a % 4 * 16 + b / 16, b % 16 * 4]
  | [a] => [a / 4, a % 4 * 16]
  | [] => []

def toBytes : List ℕ → List ℕ
  | w :: x :: y :: z :: digits =>
    (w * 4 + x / 16) :: (x % 16 * 16 + y / 4) :: (y % 4 * 64 + z) :: toBytes digits
  | [w, x, y] => [w * 4 + x / 16, x % 16 * 16 + y / 4]
  | [w, x] => [w * 4 + x / 16]
  | _ => []

theorem toDigits_lt {bytes : List ℕ} (h : ∀ b ∈ bytes, b < 256) : ∀ d ∈ toDigits bytes, d < 64 := by
  induction bytes using toDigits.induct with
  | case1 a b c bytes ih =>
    simp only [List.forall_mem_cons] at h
    obtain ⟨ha, hb, hc, hbytes⟩ := h
    simp only [toDigits, List.forall_mem_cons]
    exact ⟨by omega, by omega, by omega, by omega, ih hbytes⟩
  | case2 a b =>
    simp only [List.forall_mem_cons] at h
    obtain ⟨ha, hb, -⟩ := h
    simp [toDigits]
    omega
  | case3 a =>
    simp only [List.forall_mem_cons] at h
    obtain ⟨ha, -⟩ := h
    simp [toDigits]
    omega
  | case4 => simp [toDigits]

theorem toBytes_toDigits {bytes : List ℕ} (h : ∀ b ∈ bytes, b < 256) :
    toBytes (toDigits bytes) = bytes := by
  induction bytes using toDigits.induct with
  | case1 a b c bytes ih =>
    simp only [List.forall_mem_cons] at h
    obtain ⟨ha, hb, hc, hbytes⟩ := h
    have h1 : a / 4 * 4 + (a % 4 * 16 + b / 16) / 16 = a := by omega
    have h2 : (a % 4 * 16 + b / 16) % 16 * 16 + (b % 16 * 4 + c / 64) / 4 = b := by omega
    have h3 : (b % 16 * 4 + c / 64) % 4 * 64 + c % 64 = c := by omega
    rw [toDigits, toBytes, ih hbytes, h1, h2, h3]
  | case2 a b =>
    simp only [List.forall_mem_cons] at h
    have h1 : a / 4 * 4 + (a % 4 * 16 + b / 16) / 16 = a := by omega
    have h2 : (a % 4 * 16 + b / 16) % 16 * 16 + b % 16 * 4 / 4 = b := by omega
    rw [toDigits, toBytes, h1, h2]
  | case3 a =>
    simp only [List.forall_mem_cons] at h
    have h1 : a / 4 * 4 + a % 4 * 16 / 16 = a := by omega
    rw [toDigits, toBytes, h1]
  | case4 => rfl

/-! ## Characters -/

def alphabet : List Char :=
  "ABCDEFGHIJKLMNOPQRSTUVWXYZabcdefghijklmnopqrstuvwxyz0123456789-_".toList

theorem alphabet_nodup : alphabet.Nodup := by decide +kernel

def toChar (digit : ℕ) : Char := alphabet.getD digit '='

theorem toChar_mem {digit : ℕ} (h : digit < 64) : toChar digit ∈ alphabet := by
  have hlen : digit < alphabet.length := h
  rw [toChar, List.getD_eq_getElem?_getD, List.getElem?_eq_getElem hlen, Option.getD_some]
  exact List.getElem_mem hlen

theorem idxOf_toChar {digit : ℕ} (h : digit < 64) : alphabet.idxOf (toChar digit) = digit := by
  have hlen : digit < alphabet.length := h
  rw [toChar, List.getD_eq_getElem?_getD, List.getElem?_eq_getElem hlen, Option.getD_some]
  exact alphabet_nodup.idxOf_getElem digit hlen

/-! ## Texts -/

/-- The bytes of a text in UTF-8. -/
def utf8 (text : List Char) : List ℕ := (text.flatMap String.utf8EncodeChar).map UInt8.toNat

/-- The text that has these bytes, if there is one. -/
def ofUtf8 (bytes : List ℕ) : Option (List Char) :=
  (String.fromUTF8? (bytes.map UInt8.ofNat).toByteArray).map String.toList

theorem utf8_lt {text : List Char} : ∀ b ∈ utf8 text, b < 256 := by
  intro b hb
  obtain ⟨byte, -, rfl⟩ := List.mem_map.1 hb
  exact byte.toNat_lt

theorem ofUtf8_utf8 (text : List Char) : ofUtf8 (utf8 text) = some text := by
  have hbytes : (utf8 text).map UInt8.ofNat = text.flatMap String.utf8EncodeChar := by
    simp [utf8, Function.comp_def]
  have hstring : (text.flatMap String.utf8EncodeChar).toByteArray =
      (String.ofList text).toByteArray := by
    simp [List.utf8Encode]
  have hvalid : String.fromUTF8? (String.ofList text).toByteArray = some (String.ofList text) :=
    dif_pos (String.ofList text).isValidUTF8
  rw [ofUtf8, hbytes, hstring, hvalid, Option.map_some, String.toList_ofList]

def encode (text : List Char) : List Char := (toDigits (utf8 text)).map toChar

def decode (encoded : List Char) : Option (List Char) :=
  ofUtf8 (toBytes (encoded.map alphabet.idxOf))

theorem encode_alphabet (text : List Char) : ∀ c ∈ encode text, c ∈ alphabet := by
  intro c hc
  obtain ⟨digit, hdigit, rfl⟩ := List.mem_map.1 hc
  exact toChar_mem (toDigits_lt utf8_lt digit hdigit)

theorem decode_encode (text : List Char) : decode (encode text) = some text := by
  have hdigits : (encode text).map alphabet.idxOf = toDigits (utf8 text) := by
    rw [encode, List.map_map]
    conv_rhs => rw [← List.map_id (toDigits (utf8 text))]
    exact List.map_congr_left fun d hd => idxOf_toChar (toDigits_lt utf8_lt d hd)
  rw [decode, hdigits, toBytes_toDigits utf8_lt, ofUtf8_utf8]

end OpenViking.Base64
