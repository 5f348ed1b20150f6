import Swamp.JsValue

/-!
# Record keys and partition keys

A record key is a relative path that no operating system reads as leading
anywhere else.  A partition key is the text of an aggregate's identity; its
type and name segments are percent-encoded, since flattening `/` to `-` would
give `a-b/c` and `a/b-c` one key.
-/

namespace Swamp

open Js

/-- The longest record key, in code units. -/
def MAX_RECORD_KEY_LENGTH : ℕ := 4096

/-- Why a text is no record key. -/
inductive RecordKeyError where
  | empty
  | tooLong
  | backslashOrNul
  | segment
deriving DecidableEq

/-- What `RecordKey.create` asks of a text, the first failing check named. -/
def checkRecordKey (value : JsString) : Except RecordKeyError Unit :=
  if value = [] then .error .empty
  else if MAX_RECORD_KEY_LENGTH < value.length then .error .tooLong
  else if unit '\\' ∈ value ∨ (0 : CodeUnit) ∈ value then .error .backslashOrNul
  else if ∃ segment ∈ split value, segment = [] ∨ segment = js "." ∨ segment = js ".." then
    .error .segment
  else .ok ()

/-- A record key: a relative path without empty, `.` or `..` segments. -/
structure RecordKey where
  value : JsString
  valid : checkRecordKey value = .ok ()
deriving DecidableEq

/-- `RecordKey.create`. -/
def RecordKey.create (value : JsString) : Except RecordKeyError RecordKey :=
  match h : checkRecordKey value with
  | .ok () => .ok ⟨value, h⟩
  | .error e => .error e

/-- A key's own text makes it again. -/
@[simp] theorem RecordKey.create_value (key : RecordKey) :
    RecordKey.create key.value = .ok key := by
  obtain ⟨value, valid⟩ := key
  unfold RecordKey.create
  split
  · rfl
  · rename_i h
    rw [valid] at h
    cases h

theorem RecordKey.ext_value {a b : RecordKey} (h : a.value = b.value) : a = b := by
  cases a
  cases b
  simpa using h

/-- Keys are sorted by their text, code unit by code unit. -/
instance : LinearOrder RecordKey :=
  LinearOrder.lift' RecordKey.value (fun _ _ h => RecordKey.ext_value h)

/-- A lowercase hex digest of 64 characters. -/
def isSha256Hex (value : JsString) : Prop :=
  value.length = 64 ∧
    ∀ u ∈ value, (48 ≤ u.val ∧ u.val ≤ 57) ∨ (97 ≤ u.val ∧ u.val ≤ 102)

instance (value : JsString) : Decidable (isSha256Hex value) :=
  inferInstanceAs (Decidable (_ ∧ _))

/-- The kinds of definition a config partition holds. -/
inductive DefinitionKind where
  | model
  | workflow
  | vault
deriving DecidableEq

/-- The text of a definition kind. -/
def DefinitionKind.text : DefinitionKind → JsString
  | .model => js "model"
  | .workflow => js "workflow"
  | .vault => js "vault"

/-- The aggregate a partition belongs to. -/
inductive PartitionIdentity where
  | model (type id : JsString)
  | run (workflowId runId : JsString)
  | config (definitionKind : DefinitionKind) (name : JsString)
  | lockfile
  | definition (id : JsString)
deriving DecidableEq

/-- The code units `encodeURIComponent` leaves alone. -/
def isUnreserved (u : CodeUnit) : Bool :=
  (65 ≤ u.val && u.val ≤ 90) || (97 ≤ u.val && u.val ≤ 122) || (48 ≤ u.val && u.val ≤ 57) ||
    (js "-_.!~*'()").contains u

/-- An uppercase hex digit. -/
def hexUnit (d : ℕ) : CodeUnit := Fin.ofNat 65536 (if d < 10 then 48 + d else 55 + d)

/-- One percent-encoded byte. -/
def percentByte (b : ℕ) : JsString := [unit '%', hexUnit (b / 16), hexUnit (b % 16)]

/-- The UTF-8 bytes of a code point. -/
def utf8 (point : ℕ) : List ℕ :=
  if point < 0x80 then [point]
  else if point < 0x800 then [0xC0 + point / 64, 0x80 + point % 64]
  else if point < 0x10000 then
    [0xE0 + point / 4096, 0x80 + point / 64 % 64, 0x80 + point % 64]
  else
    [0xF0 + point / 262144, 0x80 + point / 4096 % 64, 0x80 + point / 64 % 64,
     0x80 + point % 64]

/-- A high surrogate. -/
def isHighSurrogate (u : CodeUnit) : Bool := 0xD800 ≤ u.val && u.val ≤ 0xDBFF

/-- A low surrogate. -/
def isLowSurrogate (u : CodeUnit) : Bool := 0xDC00 ≤ u.val && u.val ≤ 0xDFFF

/-- `encodeURIComponent`: undefined where it throws, at a lone surrogate. -/
def encodeURIComponent : JsString → Option JsString
  | [] => some []
  | [u] =>
    if isUnreserved u then some [u]
    else if isHighSurrogate u || isLowSurrogate u then none
    else some ((utf8 u.val).flatMap percentByte)
  | u :: v :: rest =>
    if isUnreserved u then (encodeURIComponent (v :: rest)).map (u :: ·)
    else if isLowSurrogate u then none
    else if isHighSurrogate u then
      if isLowSurrogate v then
        let point := 0x10000 + (u.val - 0xD800) * 0x400 + (v.val - 0xDC00)
        (encodeURIComponent rest).map ((utf8 point).flatMap percentByte ++ ·)
      else none
    else (encodeURIComponent (v :: rest)).map ((utf8 u.val).flatMap percentByte ++ ·)

/-- `replaceAll("%40", "@")`. -/
def literalAt : JsString → JsString
  | a :: b :: c :: rest =>
    if [a, b, c] = js "%40" then unit '@' :: literalAt rest
    else a :: literalAt (b :: c :: rest)
  | s => s

/-- Percent-encode a type or name segment; `@` stays literal. -/
def encodeSegment (segment : JsString) : Option JsString :=
  (encodeURIComponent segment).map literalAt

/-- The name of the one lockfile partition. -/
def LOCKFILE_NAME : JsString := js "upstream_extensions"

/-- The text of an identity. -/
def PartitionIdentity.format : PartitionIdentity → Option JsString
  | .model type id =>
    (encodeSegment type).map (fun segment => js "model--" ++ segment ++ js "--" ++ id)
  | .run workflowId runId => some (js "run--" ++ workflowId ++ js "--" ++ runId)
  | .config definitionKind name =>
    (encodeSegment name).map
      (fun segment => js "config--" ++ definitionKind.text ++ js "--" ++ segment)
  | .lockfile => some (js "config--lockfile--" ++ LOCKFILE_NAME)
  | .definition id => some (js "definition--" ++ id)

/-- The longest partition key, in code units. -/
def MAX_PARTITION_KEY_LENGTH : ℕ := 1024

/-- A partition key: an identity and its text. -/
structure PartitionKey where
  value : JsString
  identity : PartitionIdentity
  formatted : identity.format = some value
  short : value.length ≤ MAX_PARTITION_KEY_LENGTH
deriving DecidableEq

/-- Keys are compared by their text. -/
def PartitionKey.equals (self other : PartitionKey) : Bool := self.value == other.value

@[simp] theorem PartitionKey.equals_iff (self other : PartitionKey) :
    self.equals other = true ↔ self.value = other.value := by
  simp [PartitionKey.equals]

example : (PartitionIdentity.model (js "@swamp/aws-ec2") (js "6f1c")).format =
    some (js "model--@swamp%2Faws-ec2--6f1c") := by decide

end Swamp
