import Swamp.JsText
import Swamp.Partition

/-!
# Changes a repository stages for one model

The files of a data version and the latest marker of a name have keys made of
segments: `dataKey` and `latestKey` write them, `dataKeyVersion` reads a key
back and `rekey` puts another version in it.  `ModelChanges` builds the typed
changes of one model; a change becomes an op once its content is staged.

What the platform gives is a parameter: the digest of bytes, and the dates of
`Date.parse`, `toISOString` and of the metadata's schema.
-/

namespace Swamp

open Js

/-- The bytes of a content.  A stream stands for the bytes it gives. -/
abbrev Bytes := List UInt8

/-- The bytes of a text of single bytes, as a digest reads them. -/
def bytesOf (s : JsString) : Bytes := s.map (fun u => UInt8.ofNat u.val)

/-- What the code takes from its platform: `crypto.subtle.digest`, `Date.parse`,
`toISOString` (none where it throws), the schema's check of an instant, and
`String(x)` of a number that is no safe integer. -/
structure Platform where
  sha256Hex : Bytes → Sha256
  dateParse : JsString → Option ℚ
  toISOString : ℚ → Option JsString
  isDatetime : JsString → Bool
  stringOf : ℚ → JsString

/-- What a factory throws. -/
inductive BuildError where
  | recordKey (error : RecordKeyError)
  | dataName (name : JsString)
  | version (version : ℕ)
  | metadata (metadata : DataMetadata)
  | base64 (inline : JsString)
  | time (ms : ℚ)
  | partition (message : JsString)

/-- The files of a data version. -/
inductive DataVersionFile where
  | raw
  | metadata
deriving DecidableEq

def DataVersionFile.text : DataVersionFile → JsString
  | .raw => js "raw"
  | .metadata => js "metadata.yaml"

/-- The file a last segment names. -/
def DataVersionFile.ofText (s : JsString) : Option DataVersionFile :=
  if s = js "raw" then some .raw else if s = js "metadata.yaml" then some .metadata else none

/-- `RecordKey.create`, its error thrown. -/
def createKey (value : JsString) : Except BuildError RecordKey :=
  match RecordKey.create value with
  | .ok key => .ok key
  | .error e => .error (.recordKey e)

/-- The name, version and file a key carries. -/
structure VersionFile where
  name : JsString
  version : ℕ
  file : DataVersionFile

/-- `dataKeyVersion`: the last three segments of a key under `data`. -/
def dataKeyVersion (key : RecordKey) : Option VersionFile :=
  match (split key.value).head?, (split key.value).reverse with
  | some first, file :: version :: name :: _ =>
    if first = js "data" then
      match DataVersionFile.ofText file, (number version).positive with
      | some file, some version => some ⟨name, version, file⟩
      | _, _ => none
    else none
  | _, _ => none

/-- `rekey`: another version in a version's key. -/
def rekey (key : RecordKey) (version : ℕ) : Except BuildError RecordKey :=
  match dataKeyVersion key with
  | none => .ok key
  | some _ =>
    let segments := split key.value
    createKey (join (segments.set (segments.length - 2) (decimal version)))

/-- The model changes are staged for, its type normalized. -/
structure ModelChanges where
  type : JsString
  id : JsString

namespace ModelChanges

variable (self : ModelChanges)

/-- The segments all keys of a name start with. -/
def nameSegments (name : JsString) : List JsString := [js "data", self.type, self.id, name]

/-- `dataKey`. -/
def dataKey (name : JsString) (version : ℕ) (file : DataVersionFile) :
    Except BuildError RecordKey :=
  createKey (join (self.nameSegments name ++ [decimal version, file.text]))

/-- `latestKey`. -/
def latestKey (name : JsString) : Except BuildError RecordKey :=
  createKey (join (self.nameSegments name ++ [js "latest"]))

end ModelChanges

/-- A put whose content is staged at the commit. -/
structure PendingPut where
  intent : Intent
  key : RecordKey
  expect : Option PutExpect
  content : Bytes
  access : Option FileAccess

/-- A change that can become an op of a commit. -/
inductive TypedChange where
  | op (partition : PartitionKey) (op : Op)
  | put (partition : PartitionKey) (put : PendingPut)

/-- The longest text of an intent, in code units. -/
def MAX_FIELD_LENGTH : ℕ := 1024

/-- What both an intent and the metadata's schema ask of a data name. -/
def isDataName (name : JsString) : Bool :=
  decide (name ≠ []) && !decide (js ".." <:+: name) && !name.contains (unit '/') &&
    !name.contains (unit '\\') && !name.contains 0

/-- `readDataName`: a name an intent takes. -/
def readDataName (name : JsString) : Except BuildError JsString :=
  if isDataName name = true ∧ name.length ≤ MAX_FIELD_LENGTH then .ok name
  else .error (.dataName name)

/-- `readVersion`: a positive safe integer. -/
def readVersion (n : ℕ) : Except BuildError Version :=
  if h : 1 ≤ n ∧ n ≤ maxSafeInteger then .ok ⟨n, Version.pos_of h, Version.safe_of h⟩
  else .error (.version n)

/-- The most tags a data version has. -/
def MAX_DATA_TAGS : ℕ := 10000

/-- `dataVersionOp`, its tags in key order.  Of what the metadata's schema asks,
the name, the instant and the number of tags are checked here. -/
def dataVersionOp (platform : Platform) (key : RecordKey) (metadata : DataMetadata) :
    Except BuildError DataVersionOp :=
  if isDataName metadata.name = true ∧ platform.isDatetime metadata.createdAt = true ∧
      metadata.tags.length ≤ MAX_DATA_TAGS then
    .ok ⟨key, { metadata with tags := metadata.tags.insertionSort (fun a b => a.1 ≤ b.1) }⟩
  else .error (.metadata metadata)

/-- Why data is written. -/
inductive DataWrite where
  | save
  | append
  | rename (source target : JsString)

namespace ModelChanges

variable (platform : Platform) (partition : PartitionKey) (self : ModelChanges)

/-- The reference of the model. -/
def ref : ModelRef := ⟨self.type, self.id⟩

/-- The intent of a write. -/
def writeIntent (why : DataWrite) (name : JsString) (version : ℕ) : Except BuildError Intent :=
  match why with
  | .save => do return .dataSave self.ref (← readDataName name) (← readVersion version)
  | .append => do return .dataAppend self.ref (← readDataName name) (← readVersion version)
  | .rename source target => do
      return .dataRename self.ref (← readDataName source) (← readDataName target)

/-- `latestPut` of a write. -/
def latestPut (why : DataWrite) (name : JsString) (version : ℕ) (bytes : Bytes) :
    Except BuildError TypedChange := do
  let intent ← self.writeIntent why name version
  let key ← self.latestKey name
  return .put partition ⟨intent, key, none, bytes, none⟩

end ModelChanges

theorem readVersion_ok {n : ℕ} {version : Version} (h : readVersion n = .ok version) :
    version.val = n := by
  unfold readVersion at h
  split at h
  · cases h
    rfl
  · cases h

namespace ModelChanges

variable {self : ModelChanges} {name : JsString}

end ModelChanges

end Swamp
