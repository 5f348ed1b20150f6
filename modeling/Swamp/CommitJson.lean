import Swamp.PartitionParse

/-!
# Commits written as JSON and read back

`Commit.toJSON` writes a commit, `Commit.fromJSON` reads one.  A reader goes
through the factories: an intent through `createIntent`, an op through `putOp`,
`tombstoneOp`, `dataVersionOp` and `leaseOp`, the whole through `Commit.create`,
and the digest of inline content is taken from its bytes again.

A `Json` object lists its fields in the order `Object.keys` gives.  Fields that
`undefined` leaves out are written with `present`.  What `JSON.parse` makes of the
text `JSON.stringify` writes of such a value is the value.
-/

namespace Js

namespace Json

/-- The fields of an object literal, without those that are `undefined`. -/
def present (fields : List (JsString × Option Json)) : List (JsString × Json) :=
  fields.filterMap (fun field => field.2.map (fun value => (field.1, value)))

/-- The fields of an object, each name once. -/
def entries (fields : List (JsString × Json)) : List (JsString × Json) :=
  (fields.map Prod.fst).dedup.filterMap (fun name => (field fields name).map (fun value => (name, value)))

/-- The array index a name of a property is. -/
def arrayIndex (name : JsString) : Option ℕ :=
  if decimal (decimalValue name) = name ∧ decimalValue name < 2 ^ 32 - 1 then
    some (decimalValue name)
  else none

/-- `Object.fromEntries`: array indices come first, in ascending order. -/
def fromEntries {α : Type} (entries : List (JsString × α)) : List (JsString × α) :=
  (entries.filter (fun entry => (arrayIndex entry.1).isSome)).insertionSort
      (fun a b => (arrayIndex a.1).getD 0 ≤ (arrayIndex b.1).getD 0) ++
    entries.filter (fun entry => !(arrayIndex entry.1).isSome)

end Json

end Js

namespace Swamp

open Js

/-- What reading a commit takes from its platform: what staging takes, the
lowercasing of Unicode text, and the check of a UUID by the metadata's schema. -/
structure CommitHost extends Platform where
  toLowerCase : JsString → JsString
  isUuidFormat : JsString → Bool

/-- The text of an intent's kind. -/
def IntentKind.text (kind : IntentKind) : JsString :=
  ((INTENT_KINDS.find? (fun entry => entry.2 = kind)).map Prod.fst).getD []

def ModelRef.toJSON (ref : ModelRef) : Json :=
  .obj [(js "type", .str ref.type), (js "id", .str ref.id)]

def RunRef.toJSON (ref : RunRef) : Json :=
  .obj [(js "workflowId", .str ref.workflowId), (js "runId", .str ref.runId)]

def DefinitionRef.toJSON (ref : DefinitionRef) : Json :=
  .obj [(js "kind", .str ref.kind.text), (js "name", .str ref.name)]

/-- A version as a JSON value. -/
def Version.toJSON (version : Version) : Json := .ofNat version.val

/-- The fields of an intent after its kind. -/
def Intent.rest : Intent → List (JsString × Option Json)
  | .dataSave ref name version =>
    [(js "model", some ref.toJSON), (js "name", some (.str name)),
     (js "version", some version.toJSON)]
  | .dataAppend ref name version =>
    [(js "model", some ref.toJSON), (js "name", some (.str name)),
     (js "version", some version.toJSON)]
  | .dataDelete ref name version =>
    [(js "model", some ref.toJSON), (js "name", some (.str name)),
     (js "version", version.map Version.toJSON)]
  | .dataGc ref name version =>
    [(js "model", some ref.toJSON), (js "name", some (.str name)),
     (js "version", version.map Version.toJSON)]
  | .dataRename ref name target =>
    [(js "model", some ref.toJSON), (js "name", some (.str name)), (js "to", some (.str target))]
  | .outputSave ref outputId =>
    [(js "model", some ref.toJSON), (js "outputId", some (.str outputId))]
  | .outputDelete ref outputId =>
    [(js "model", some ref.toJSON), (js "outputId", some (.str outputId))]
  | .model _ ref => [(js "model", some ref.toJSON)]
  | .run _ ref => [(js "run", some ref.toJSON)]
  | .definition _ ref => [(js "definition", some ref.toJSON)]
  | .definitionRenameTo ref source =>
    [(js "definition", some ref.toJSON), (js "from", some (.str source))]
  | .definitionRenameFrom ref target =>
    [(js "definition", some ref.toJSON), (js "to", some (.str target))]
  | .autoDefinitionSave id => [(js "autoDefinition", some (.obj [(js "id", .str id)]))]
  | .autoDefinitionDelete id => [(js "autoDefinition", some (.obj [(js "id", .str id)]))]
  | .lockfileWrite => []

/-- The fields of an intent. -/
def Intent.fields (intent : Intent) : List (JsString × Option Json) :=
  (js "kind", some (.str intent.kind.text)) :: intent.rest

/-- An intent as it is written: it has no `toJSON` of its own. -/
def Intent.toJSON (intent : Intent) : Json := .obj (Json.present intent.fields)

def BlobPart.toJSON (part : BlobPart) : Json :=
  .obj [(js "sha256", .str part.sha256.value), (js "size", .ofNat part.size)]

def BlobRef.fields (ref : BlobRef) : List (JsString × Option Json) :=
  [(js "sha256", some (.str ref.sha256.value)), (js "size", some (.ofNat ref.size)),
   (js "parts", ref.parts.map (fun parts => .arr (parts.map BlobPart.toJSON))),
   (js "legacyKey", ref.legacyKey.map (fun key => .str key.value))]

/-- `BlobRef.toJSON`. -/
def BlobRef.toJSON (ref : BlobRef) : Json := .obj (Json.present ref.fields)

def Sha256.toJSON (digest : Sha256) : Json := .obj [(js "sha256", .str digest.value)]

def PutExpect.toJSON : PutExpect → Json
  | .absent => .str (js "absent")
  | .sha256 digest => digest.toJSON

def TombstoneExpect.toJSON : TombstoneExpect → Json
  | .present => .str (js "present")
  | .sha256 digest => digest.toJSON

/-- The texts of `FILE_ACCESSES`. -/
def FileAccess.text : FileAccess → JsString
  | .executable => js "executable"
  | .«private» => js "private"
  | .privateExecutable => js "private-executable"

def PutOp.fields (op : PutOp) : List (JsString × Option Json) :=
  [(js "kind", some (.str (js "put"))), (js "intent", some op.intent.toJSON),
   (js "key", some (.str op.key.value)),
   (js "blob", match op.content with | .blob ref => some ref.toJSON | .inline .. => none),
   (js "inline", match op.content with | .blob _ => none | .inline text _ => some (.str text)),
   (js "expect", op.expect.map PutExpect.toJSON),
   (js "access", op.access.map (fun access => .str access.text))]

/-- `PutOp.toJSON`: the digest of inline content is not written. -/
def PutOp.toJSON (op : PutOp) : Json := .obj (Json.present op.fields)

def TombstoneOp.fields (op : TombstoneOp) : List (JsString × Option Json) :=
  [(js "kind", some (.str (js "tombstone"))), (js "intent", some op.intent.toJSON),
   (js "key", some (.str op.key.value)), (js "expect", op.expect.map TombstoneExpect.toJSON)]

/-- `TombstoneOp.toJSON`. -/
def TombstoneOp.toJSON (op : TombstoneOp) : Json := .obj (Json.present op.fields)

def OwnerType.text : OwnerType → JsString
  | .modelMethod => js "model-method"
  | .workflowStep => js "workflow-step"
  | .manual => js "manual"

def DataLifecycle.text : DataLifecycle → JsString
  | .active => js "active"
  | .deleted => js "deleted"

def OwnerDefinition.fields (owner : OwnerDefinition) : List (JsString × Option Json) :=
  [(js "definitionHash", owner.definitionHash.map .str),
   (js "ownerType", some (.str owner.ownerType.text)),
   (js "ownerRef", some (.str owner.ownerRef)), (js "workflowId", owner.workflowId.map .str),
   (js "workflowRunId", owner.workflowRunId.map .str),
   (js "workflowName", owner.workflowName.map .str), (js "jobName", owner.jobName.map .str),
   (js "stepName", owner.stepName.map .str), (js "source", owner.source.map .str)]

def OwnerDefinition.toJSON (owner : OwnerDefinition) : Json := .obj (Json.present owner.fields)

def GarbageCollectionPolicy.toJSON : GarbageCollectionPolicy → Json
  | .count n => .ofNat n
  | .duration text => .str text

def DataMetadata.fields (metadata : DataMetadata) : List (JsString × Option Json) :=
  [(js "name", some (.str metadata.name)), (js "id", some (.str metadata.id)),
   (js "version", some metadata.version.toJSON),
   (js "contentType", some (.str metadata.contentType)),
   (js "lifetime", some (.str metadata.lifetime)),
   (js "garbageCollection", some metadata.garbageCollection.toJSON),
   (js "streaming", some (.bool metadata.streaming)),
   (js "tags", some (.obj ((Json.fromEntries metadata.tags).map (fun tag => (tag.1, .str tag.2))))),
   (js "ownerDefinition", some metadata.ownerDefinition.toJSON),
   (js "createdAt", some (.str metadata.createdAt)), (js "size", metadata.size.map .ofNat),
   (js "checksum", metadata.checksum.map .str),
   (js "lifecycle", metadata.lifecycle.map (fun lifecycle => .str lifecycle.text)),
   (js "renamedTo", metadata.renamedTo.map .str)]

/-- The metadata as the schema's parse builds it, its tags as
`Object.fromEntries` does. -/
def DataMetadata.toJSON (metadata : DataMetadata) : Json := .obj (Json.present metadata.fields)

/-- `DataVersionOp.toJSON`. -/
def DataVersionOp.toJSON (op : DataVersionOp) : Json :=
  .obj [(js "kind", .str (js "data-version")), (js "key", .str op.key.value),
    (js "metadata", op.metadata.toJSON)]

/-- `LeaseOp.toJSON`. -/
def LeaseOp.toJSON (op : LeaseOp) : Json :=
  .obj [(js "kind", .str (js "lease")), (js "holder", .str op.holder),
    (js "fence", .ofNat op.fence.val)]

def Op.toJSON : Op → Json
  | .put op => op.toJSON
  | .tombstone op => op.toJSON
  | .dataVersion op => op.toJSON
  | .lease op => op.toJSON

def CommitWriter.toJSON (writer : CommitWriter) : Json :=
  .obj [(js "host", .str writer.host), (js "pid", .ofNat writer.pid),
    (js "instance", .str writer.inst)]

def Commit.fields (commit : Commit) : List (JsString × Option Json) :=
  [(js "v", some (.ofNat 3)), (js "seq", some (.ofNat commit.seq)),
   (js "partition", some (.str commit.partition.value)), (js "namespace", some (.str commit.ns)),
   (js "txnId", some (.str commit.txnId)), (js "writer", some commit.writer.toJSON),
   (js "executedAt", commit.executedAt.map .str),
   (js "clockOffsetMs", commit.clockOffsetMs.map .num),
   (js "principal", commit.principal.map .str),
   (js "fence", commit.fence.map (fun fence => .ofNat fence.val)),
   (js "at", some (.str commit.atTime)), (js "ops", some (.arr (commit.ops.map Op.toJSON)))]

/-- `Commit.toJSON`. -/
def Commit.toJSON (commit : Commit) : Json := .obj (Json.present commit.fields)

end Swamp
