import Custodly.Library.Strings

/-! `application/x-www-form-urlencoded`: names and values as a query string holds them.  A
name or a value may be any text: what is written is read back as the same pairs in the same
order. -/
namespace Custodly.Library.FormUrlencoded
open Strings

/-- Reading UTF-8 where bytes that are none are replaced. -/
structure Utf8Lossy where
  decode : List UInt8 → Text
  decode_encode : ∀ text : Text, decode (text.flatMap String.utf8EncodeChar) = text

def digitValue (c : Char) : Option Nat :=
  if '0' ≤ c ∧ c ≤ '9' then some (c.toNat - 48)
  else if 'A' ≤ c ∧ c ≤ 'F' then some (c.toNat - 55)
  else if 'a' ≤ c ∧ c ≤ 'f' then some (c.toNat - 87)
  else none

def hexPair (high low : Char) : Option UInt8 :=
  (digitValue high).bind fun h => (digitValue low).map fun l => UInt8.ofNat (h * 16 + l)

def charBytes (c : Char) : List UInt8 := if c = '+' then [0x20] else String.utf8EncodeChar c

/-- A percent sign and two digits are a byte; without them it is itself. -/
def bytes : Text → List UInt8
  | '%' :: high :: low :: rest =>
      match hexPair high low with
      | some byte => byte :: bytes rest
      | none => 0x25 :: bytes (high :: low :: rest)
  | c :: rest => charBytes c ++ bytes rest
  | [] => []

def readText (utf8 : Utf8Lossy) (piece : Text) : Text := utf8.decode (bytes piece)

def readPair (utf8 : Utf8Lossy) (piece : Text) : Text × Text :=
  match splitOnce '=' piece with
  | some (name, value) => (readText utf8 name, readText utf8 value)
  | none => (readText utf8 piece, [])

def parse (utf8 : Utf8Lossy) (query : Text) : List (Text × Text) :=
  ((query.splitOn '&').filter (· ≠ [])).map (readPair utf8)

def digit (n : Nat) : Char := "0123456789ABCDEF".toList.getD n '0'

/-- Bytes that stand for themselves: letters, digits and four signs. -/
def isPlain (byte : UInt8) : Bool :=
  (Char.ofNat byte.toNat).isAlphanum || (Char.ofNat byte.toNat) ∈ "*-._".toList

def writeByte (byte : UInt8) : Text :=
  if isPlain byte then [Char.ofNat byte.toNat]
  else if byte = 0x20 then ['+']
  else ['%', digit (byte.toNat / 16), digit (byte.toNat % 16)]

def writeText (text : Text) : Text := (text.flatMap String.utf8EncodeChar).flatMap writeByte

def writePair (pair : Text × Text) : Text := writeText pair.1 ++ '=' :: writeText pair.2

def serialize (pairs : List (Text × Text)) : Text := ['&'].intercalate (pairs.map writePair)

def isCode (byte : UInt8) : Text → Bool
  | [c] => c ≠ '%' ∧ charBytes c = [byte]
  | [percent, high, low] => percent = '%' ∧ hexPair high low = some byte
  | _ => false

theorem isCode_writeByte (byte : UInt8) : isCode byte (writeByte byte) = true := by
  have hall : ∀ n : Fin 256, isCode (.ofNat n) (writeByte (.ofNat n)) = true := by decide +kernel
  have h := hall ⟨byte.toNat, byte.toNat_lt⟩
  rwa [UInt8.ofNat_toNat] at h

theorem not_mem_writeByte (byte : UInt8) : '&' ∉ writeByte byte ∧ '=' ∉ writeByte byte := by
  have hall : ∀ n : Fin 256, '&' ∉ writeByte (.ofNat n) ∧ '=' ∉ writeByte (.ofNat n) := by
    decide +kernel
  have h := hall ⟨byte.toNat, byte.toNat_lt⟩
  rwa [UInt8.ofNat_toNat] at h

theorem bytes_cons_of_ne {c : Char} (h : c ≠ '%') (rest : Text) :
    bytes (c :: rest) = charBytes c ++ bytes rest := by
  rw [bytes.eq_def]
  split
  · rename_i heq
    cases heq
    exact (h rfl).elim
  · rename_i heq
    cases heq
    rfl
  · rename_i heq
    cases heq

theorem bytes_writeByte_append (byte : UInt8) (rest : Text) :
    bytes (writeByte byte ++ rest) = byte :: bytes rest := by
  have hcode := isCode_writeByte byte
  generalize writeByte byte = code at hcode
  match code with
  | [c] =>
    simp only [isCode, decide_eq_true_eq] at hcode
    rw [List.singleton_append, bytes_cons_of_ne hcode.1, hcode.2, List.singleton_append]
  | [percent, high, low] =>
    simp only [isCode, decide_eq_true_eq] at hcode
    obtain ⟨rfl, hpair⟩ := hcode
    simp only [List.cons_append, List.nil_append, bytes, hpair]
  | [] => cases hcode
  | [_, _] => cases hcode
  | _ :: _ :: _ :: _ :: _ => cases hcode

theorem bytes_flatMap_writeByte (coded : List UInt8) : bytes (coded.flatMap writeByte) = coded := by
  induction coded with
  | nil => rfl
  | cons byte rest ih => rw [List.flatMap_cons, bytes_writeByte_append, ih]

variable (utf8 : Utf8Lossy)

@[simp] theorem readText_writeText (text : Text) : readText utf8 (writeText text) = text := by
  rw [readText, writeText, bytes_flatMap_writeByte, utf8.decode_encode]

theorem not_mem_writeText (text : Text) : '&' ∉ writeText text ∧ '=' ∉ writeText text := by
  unfold writeText
  simp only [List.mem_flatMap, not_exists, not_and]
  exact ⟨fun byte _ => (not_mem_writeByte byte).1, fun byte _ => (not_mem_writeByte byte).2⟩

theorem readPair_writePair (pair : Text × Text) : readPair utf8 (writePair pair) = pair := by
  unfold readPair writePair
  rw [splitOnce_append _ (not_mem_writeText pair.1).2]
  simp

theorem parse_serialize (pairs : List (Text × Text)) : parse utf8 (serialize pairs) = pairs := by
  unfold parse serialize
  cases pairs with
  | nil => rfl
  | cons first rest =>
    have hpieces : ∀ piece ∈ (first :: rest).map writePair, '&' ∉ piece ∧ piece ≠ [] := by
      intro piece hpiece
      obtain ⟨pair, -, rfl⟩ := List.mem_map.1 hpiece
      unfold writePair
      simp [(not_mem_writeText pair.1).1, (not_mem_writeText pair.2).1]
    rw [List.splitOn_intercalate _ (fun piece hpiece => (hpieces piece hpiece).1) (by simp),
      List.filter_eq_self.2 (fun piece hpiece => by simpa using (hpieces piece hpiece).2),
      List.map_map]
    exact List.map_id'' (readPair_writePair utf8) _

end Custodly.Library.FormUrlencoded
