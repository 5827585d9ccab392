import SqliteGraph.Backend
import SqliteGraph.Lib.Text
import SqliteGraph.V3.KvStore

/-! Key-value pairs in SQLite: the JSON text of a value, and what it is decoded as. -/
namespace SqliteGraph.Sqlite
open Lib V3

/-- `serde_json::Number`; a float is given by its bits. -/
inductive Number
  | posInt (n : UInt64)
  | negInt (n : Int64)
  | float (bits : UInt64)
  deriving DecidableEq

/-- `serde_json::Value`, an object by its fields in the order of their keys. -/
inductive KvJson
  | null
  | bool (b : Bool)
  | number (n : Number)
  | string (s : String)
  | array (items : List KvJson)
  | object (fields : List (String × KvJson))

/-- `f64::is_finite`: not all bits of the exponent are set. -/
def isFinite (bits : UInt64) : Bool := bits &&& 0x7FF0000000000000 != 0x7FF0000000000000

namespace Number

/-- `From<i64>`. -/
def ofI64 (n : Int64) : Number := if 0 ≤ n then .posInt n.toUInt64 else .negInt n

def asI64 : Number → Option Int64
  | .posInt n => if n.toNat < 2 ^ 63 then some n.toInt64 else none
  | .negInt n => some n
  | .float _ => none

def asF64 : Number → UInt64
  | .posInt n => n.toFloat.toBits
  | .negInt n => n.toFloat.toBits
  | .float bits => bits

end Number

namespace KvJson

/-- `From<f64>`. -/
def ofF64 (bits : UInt64) : KvJson := if isFinite bits then .number (.float bits) else .null

/-- `Value::get`. -/
def get (v : KvJson) (key : String) : Option KvJson :=
  match v with
  | .object fields => fields.lookup key
  | _ => none

def asStr : KvJson → Option String
  | .string s => some s
  | _ => none

def asI64 : KvJson → Option Int64
  | .number n => n.asI64
  | _ => none

def asF64 : KvJson → Option UInt64
  | .number n => some n.asF64
  | _ => none

def asBool : KvJson → Option Bool
  | .bool b => some b
  | _ => none

end KvJson

abbrev KvEntryValue : Type := KvValue KvJson

def decimal (b : UInt8) : Text := Nat.toDigits 10 b.toNat

/-- `bytes_to_string`: the bytes in decimal, with commas between them. -/
def bytesToString (bytes : Bytes) : String := .ofList ([','].intercalate (bytes.map decimal))

def stringToBytes (s : String) : Except SqliteGraphError Bytes :=
  (splitChar ',' s.toList).mapM fun part =>
    match parseU8 (trimMatches isWhitespace part) with
    | some b => .ok b
    | none => .error (.connectionError s!"Invalid byte string: {s}")

/-- The object that names the kind of a value, and holds its data. -/
def tagged (type : String) (data : KvJson) : KvJson := .object [("data", data), ("type", .string type)]

def kvValueToJson : KvEntryValue → KvJson
  | .null => .object [("type", .string "null")]
  | .bytes bytes => tagged "bytes" (.string (bytesToString bytes))
  | .string s => tagged "string" (.string s)
  | .integer n => tagged "integer" (.number (.ofI64 n))
  | .float f => tagged "float" (.ofF64 f)
  | .boolean b => tagged "boolean" (.bool b)
  | .json j => tagged "json" j

/-- What a kind of value needs of its data, or the error. -/
def required {α : Type} (data : Option α) (message : String) : Except SqliteGraphError α :=
  match data with
  | some a => .ok a
  | none => .error (.connectionError message)

def jsonToKvValue (json : KvJson) : Except SqliteGraphError KvEntryValue := do
  let type ← required ((json.get "type").bind KvJson.asStr) "Missing type field in KV value JSON"
  let data ← required (json.get "data") "Missing data field in KV value JSON"
  match type with
  | "bytes" => do
    let text ← required data.asStr "Invalid bytes data in KV value"
    let bytes ← stringToBytes text
    .ok (.bytes bytes)
  | "string" => do
    let s ← required data.asStr "Invalid string data in KV value"
    .ok (.string s)
  | "integer" => do
    let n ← required data.asI64 "Invalid integer data in KV value"
    .ok (.integer n)
  | "float" => do
    let f ← required data.asF64 "Invalid float data in KV value"
    .ok (.float f)
  | "boolean" => do
    let b ← required data.asBool "Invalid boolean data in KV value"
    .ok (.boolean b)
  | "json" => .ok (.json data)
  | _ => .error (.connectionError s!"Unknown KV value type: {type}")

/-- Printing a `serde_json::Value` and parsing it. -/
structure SerdeJson where
  toString : KvJson → String
  fromStr : String → Except String KvJson

/-- The text in the column `value_json`. -/
def encodeStored (serde : SerdeJson) (value : KvEntryValue) : String := serde.toString (kvValueToJson value)

/-- What `kv_get` makes of that text. -/
def decodeStored (serde : SerdeJson) (valueJson : String) : Except SqliteGraphError KvEntryValue :=
  match serde.fromStr valueJson with
  | .ok json => jsonToKvValue json
  | .error e => .error (.connectionError s!"Failed to parse KV value JSON: {e}")

/-- Text that is printed of a value is parsed as the value. -/
def SerdeJson.RoundTrips (serde : SerdeJson) (json : KvJson) : Prop :=
  serde.fromStr (serde.toString json) = .ok json

section Proofs
variable {serde : SerdeJson} {value : KvEntryValue} {bytes : Bytes}

theorem decimal_digits (b : UInt8) : ',' ∉ decimal b := fun h =>
  absurd (Nat.isDigit_of_mem_toDigits (by decide) (by decide) h) (by decide)

theorem parseU8_decimal (b : UInt8) : parseU8 (trimMatches isWhitespace (decimal b)) = some b := by
  have hall : ∀ n < 256, parseU8 (trimMatches isWhitespace (decimal (UInt8.ofNat n))) = some (UInt8.ofNat n) := by
    decide +kernel
  have hb := hall b.toNat b.toNat_lt
  rwa [UInt8.ofNat_toNat] at hb

/-- Bytes come back from their text, unless there are none. -/
theorem stringToBytes_bytesToString (hbytes : bytes ≠ []) : stringToBytes (bytesToString bytes) = .ok bytes := by
  have hsplit : splitChar ',' (bytesToString bytes).toList = bytes.map decimal := by
    rw [bytesToString, String.toList_ofList]
    apply splitChar_intercalate
    · simpa using hbytes
    · intro part hpart
      obtain ⟨b, -, rfl⟩ := List.mem_map.mp hpart
      exact decimal_digits b
  rw [stringToBytes, hsplit]
  clear hsplit hbytes
  generalize bytesToString bytes = text
  induction bytes with
  | nil => rfl
  | cons b bytes ih =>
    rw [List.map_cons, List.mapM_cons, ih, parseU8_decimal]
    rfl

/-- The text of no bytes is split into one part that is no number. -/
theorem stringToBytes_nil : stringToBytes (bytesToString []) =
    .error (.connectionError "Invalid byte string: ") := by
  decide +kernel

theorem asI64_ofI64 (n : Int64) : (Number.ofI64 n).asI64 = some n := by
  unfold Number.ofI64
  split
  · rename_i hn
    have hsmall : n.toUInt64.toNat < 2 ^ 63 := by
      have hcond := BitVec.toInt_eq_toNat_cond n.toBitVec
      have hint := Int64.le_iff_toInt_le.mp hn
      have htoInt : n.toInt = n.toBitVec.toInt := rfl
      have htoNat : n.toUInt64.toNat = n.toBitVec.toNat := rfl
      have hzero : (0 : Int64).toInt = 0 := rfl
      rw [htoInt, hcond, hzero] at hint
      rw [htoNat]
      split at hint
      · omega
      · have hlt := n.toBitVec.isLt
        omega
    rw [Number.asI64, if_pos hsmall, Int64.toInt64_toUInt64]
  · rfl

/-- A value comes back just when it is neither null nor no bytes at all. -/
theorem jsonToKvValue_kvValueToJson (h : ∀ bits, value = .float bits → isFinite bits = true) :
    jsonToKvValue (kvValueToJson value) = .ok value ↔ value ≠ .null ∧ value ≠ .bytes [] := by
  cases value with
  | null =>
    refine iff_of_false ?_ (by simp)
    intro hnull
    cases hnull
  | bytes bytes =>
    have hread : jsonToKvValue (kvValueToJson (.bytes bytes)) = (do
      let bytes ← stringToBytes (bytesToString bytes)
      .ok (.bytes bytes)) := rfl
    rw [hread]
    by_cases hbytes : bytes = []
    · subst hbytes
      rw [stringToBytes_nil]
      exact iff_of_false (fun h => by cases h) (by simp)
    · rw [stringToBytes_bytesToString hbytes]
      exact iff_of_true rfl (by simpa using hbytes)
  | string s => exact iff_of_true rfl (by simp)
  | integer n =>
    have hread : jsonToKvValue (kvValueToJson (.integer n)) = (do
      let n ← required (Number.ofI64 n).asI64 "Invalid integer data in KV value"
      .ok (.integer n)) := rfl
    rw [hread, asI64_ofI64]
    exact iff_of_true rfl (by simp)
  | float bits =>
    have hread : jsonToKvValue (kvValueToJson (.float bits)) = (do
      let f ← required (KvJson.ofF64 bits).asF64 "Invalid float data in KV value"
      .ok (.float f)) := rfl
    have hfinite := h bits rfl
    rw [hread, KvJson.ofF64, if_pos hfinite]
    exact iff_of_true rfl (by simp)
  | boolean b => exact iff_of_true rfl (by simp)
  | json v => exact iff_of_true rfl (by simp)

/-- What is decoded of the text that was stored, with floats finite. -/
theorem decodeStored_encodeStored (hserde : serde.RoundTrips (kvValueToJson value))
    (h : ∀ bits, value = .float bits → isFinite bits = true) :
    decodeStored serde (encodeStored serde value) = .ok value ↔ value ≠ .null ∧ value ≠ .bytes [] := by
  rw [decodeStored, encodeStored, hserde]
  exact jsonToKvValue_kvValueToJson h

/-- JSON that looks like the encoding of bytes. -/
theorem decodeStored_encodeStored_tagged :
    let value : KvEntryValue := .json (tagged "bytes" (.string "1,2"))
    let serde : SerdeJson :=
      ⟨fun _ => "\x7b\"data\":\x7b\"data\":\"1,2\",\"type\":\"bytes\"\x7d,\"type\":\"json\"\x7d",
        fun _ => .ok (kvValueToJson value)⟩
    decodeStored serde (encodeStored serde value) = .ok value ↔ value ≠ .null ∧ value ≠ .bytes [] :=
  decodeStored_encodeStored rfl fun _ h => by cases h

/-- Null and no bytes are errors, as soon as they are read. -/
theorem not_decodeStored_encodeStored :
    jsonToKvValue (kvValueToJson .null) = .error (.connectionError "Missing data field in KV value JSON") ∧
      jsonToKvValue (kvValueToJson (.bytes [])) = .error (.connectionError "Invalid byte string: ") := by
  constructor
  · rfl
  · have hread : jsonToKvValue (kvValueToJson (.bytes [])) = (do
      let bytes ← stringToBytes (bytesToString [])
      .ok (.bytes bytes)) := rfl
    rw [hread, stringToBytes_nil]
    rfl

end Proofs

end SqliteGraph.Sqlite
