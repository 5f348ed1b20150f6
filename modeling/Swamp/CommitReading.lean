import Swamp.CanonicalJson
import Swamp.CommitJson

/-!
# The factories of commits and ops, and the readers that call them

A factory is given values that callers and readers only assume to be of the right
kind: each is checked where the source checks it, in its order.  `undefined` is
`none`.  What the zod schema of data metadata refuses is one error: the texts of
its issues are the library's.
-/

namespace Swamp

open Js

/-- Why a value is no blob reference. -/
inductive BlobError where
  | notObject
  | extraField (field : JsString)
  | sha256
  | size
  | legacyKey (error : RecordKeyError)
  | legacyKeyText
  | partsArray
  | fewParts
  | partObject (index : ℕ)
  | partField (field : JsString)
  | partSha256 (index : ℕ)
  | partSize (index : ℕ)
  | total (total size : ℕ)

/-- Why a value is no op. -/
inductive OpError where
  | notObject
  | unknownKind
  | extraField (kind field : JsString)
  | intent (error : IntentError)
  | key (error : RecordKeyError)
  | keyText
  | putExpect
  | tombstoneExpect
  | access
  | blobAndInline
  | blob (error : BlobError)
  | inlineText
  | inlineTooLong
  | base64
  | notCanonicalBase64
  | metadata
  | holder
  | fence

/-- Why a value is no commit. -/
inductive CommitError where
  | notObject
  | extraField (field : JsString)
  | format
  | partitionText
  | opsArray
  | tooManyOps
  | noOps
  | seq
  | ns
  | text (label : JsString)
  | writerObject
  | writerField (field : JsString)
  | pid
  | instant (label : JsString)
  | clockOffsetMs
  | fence
  | intent (error : IntentError)
  | foreignIntent (kind : IntentKind)
  | dataVersionElsewhere
  | op (error : OpError)
  | partition (error : PartitionParseError)

/-- The fields of an object: `typeof value === "object"`, not null and no array. -/
def recordFields : Option Json → Option (List (JsString × Json))
  | some (.obj fields) => some fields
  | _ => none

/-- The first field that is none of those allowed. -/
def extraField (fields : List (JsString × Json)) (allowed : List JsString) : Option JsString :=
  (fields.find? (fun field => !allowed.contains field.1)).map Prod.fst

/-- A value that may be `undefined`. -/
def optional {ε α : Type} (read : Option Json → Except ε α) : Option Json → Except ε (Option α)
  | none => .ok none
  | some value => do return some (← read (some value))

/-- `isSha256Hex`. -/
def readSha256 : Option Json → Option Sha256
  | some (.str text) => if h : isSha256Hex text then some ⟨text, h⟩ else none
  | _ => none

/-- A safe integer from `least` on. -/
def readSafeFrom (least : ℕ) (value : Option Json) : Option ℕ :=
  (value.bind Json.safeNat).filter (fun n => least ≤ n)

/-- `RecordKey.fromJSON`. -/
def RecordKey.fromJSON {ε : Type} (text : ε) (error : RecordKeyError → ε) :
    Option Json → Except ε RecordKey
  | some (.str value) => (RecordKey.create value).mapError error
  | _ => .error text

/-- One part of `readParts`. -/
def readPart (index : ℕ) (value : Json) : Except BlobError BlobPart :=
  match recordFields (some value) with
  | none => .error (.partObject index)
  | some fields =>
    match extraField fields [js "sha256", js "size"] with
    | some field => .error (.partField field)
    | none =>
      match readSha256 (Json.field fields (js "sha256")) with
      | none => .error (.partSha256 index)
      | some digest =>
        match readSafeFrom 1 (Json.field fields (js "size")) with
        | none => .error (.partSize index)
        | some size => .ok ⟨digest, size⟩

/-- `readParts`. -/
def readParts (size : ℕ) : Option Json → Except BlobError (List BlobPart)
  | some (.arr items) => do
      if items.length < 2 then .error .fewParts
      else
        let parts ← items.zipIdx.mapM (fun item => readPart item.2 item.1)
        let total := (parts.map BlobPart.size).sum
        if total ≠ size then .error (.total total size) else return parts
  | _ => .error .partsArray

/-- `BlobRef.create`, its key a `RecordKey` already. -/
def BlobRef.create (sha256 size parts : Option Json) (legacyKey : Option RecordKey) :
    Except BlobError BlobRef :=
  match readSha256 sha256 with
  | none => .error .sha256
  | some digest =>
    match readSafeFrom 0 size with
    | none => .error .size
    | some size => do
        let parts ← optional (readParts size) parts
        return ⟨digest, size, parts, legacyKey⟩

/-- `BlobRef.fromJSON`. -/
def BlobRef.fromJSON (value : Option Json) : Except BlobError BlobRef :=
  match recordFields value with
  | none => .error .notObject
  | some json =>
    match extraField json [js "sha256", js "size", js "parts", js "legacyKey"] with
    | some field => .error (.extraField field)
    | none => do
        let legacyKey ← optional (RecordKey.fromJSON .legacyKeyText .legacyKey)
          (Json.field json (js "legacyKey"))
        BlobRef.create (Json.field json (js "sha256")) (Json.field json (js "size"))
          (Json.field json (js "parts")) legacyKey

/-- A string. -/
def readStr : Option Json → Option JsString
  | some (.str text) => some text
  | _ => none

/-- A string that a check accepts. -/
def readStrIf (check : JsString → Bool) (value : Option Json) : Option JsString :=
  (readStr value).filter check

/-- A field that may be absent. -/
def optionalSchema {α : Type} (read : Option Json → Option α) : Option Json → Option (Option α)
  | none => some none
  | some value => (read (some value)).map some

/-- A text that is not empty. -/
def isFilled (text : JsString) : Bool := !text.isEmpty

/-- `/^\d+(mo|y|h|m|d|w)$/`. -/
def isDuration (text : JsString) : Bool :=
  let digits := text.takeWhile isDigitUnit
  isFilled digits &&
    [js "mo", js "y", js "h", js "m", js "d", js "w"].contains (text.dropWhile isDigitUnit)

/-- `LifetimeSchema`. -/
def isLifetime (text : JsString) : Bool :=
  isDuration text || [js "ephemeral", js "infinite", js "job", js "workflow"].contains text

/-- `GarbageCollectionSchema`. -/
def readGarbageCollection (value : Option Json) : Option GarbageCollectionPolicy :=
  match value with
  | some (.str text) =>
    if isDuration text && 0 < decimalValue (text.takeWhile isDigitUnit) then
      some (.duration text)
    else none
  | value => (readSafeFrom 1 value).map .count

/-- The member of an enumeration a text names. -/
def readEnum {α : Type} (members : List α) (text : α → JsString) (value : Option Json) :
    Option α :=
  (readStr value).bind (fun found => members.find? (fun m => text m = found))

/-- `OwnerDefinitionSchema`. -/
def readOwnerDefinition (host : CommitHost) (value : Option Json) : Option OwnerDefinition := do
  let json ← recordFields value
  let field := fun name => Json.field json (js name)
  let definitionHash ← optionalSchema (readStrIf isFilled) (field "definitionHash")
  let ownerType ← readEnum [OwnerType.modelMethod, .workflowStep, .manual] OwnerType.text
    (field "ownerType")
  let ownerRef ← readStrIf isFilled (field "ownerRef")
  let workflowId ← optionalSchema (readStrIf host.isUuidFormat) (field "workflowId")
  let workflowRunId ← optionalSchema (readStrIf host.isUuidFormat) (field "workflowRunId")
  let workflowName ← optionalSchema readStr (field "workflowName")
  let jobName ← optionalSchema readStr (field "jobName")
  let stepName ← optionalSchema readStr (field "stepName")
  let source ← optionalSchema readStr (field "source")
  return ⟨definitionHash, ownerType, ownerRef, workflowId, workflowRunId, workflowName, jobName,
    stepName, source⟩

/-- The tags of `boundedRecord(z.string(), z.string(), MAX_DATA_TAGS)`: a record
leaves `__proto__` out. -/
def readTags (value : Option Json) : Option (List (JsString × JsString)) := do
  let fields ← recordFields value
  let entries := Json.entries fields
  if MAX_DATA_TAGS < entries.length then none
  else
    let tags ← (entries.filter (fun entry => entry.1 ≠ js "__proto__")).mapM
      (fun entry => (readStr (some entry.2)).map (fun text => (entry.1, text)))
    if tags.any (fun tag => tag.1 = js "type") then some tags else none

/-- `streaming`, false when absent. -/
def readStreaming : Option Json → Option Bool
  | none => some false
  | some (.bool streaming) => some streaming
  | _ => none

/-- A version of `DataMetadataSchema`. -/
def readMetadataVersion (value : Option Json) : Option Version :=
  (value.bind Json.safeNat).bind (fun n =>
    if h : 1 ≤ n ∧ n ≤ maxSafeInteger then some ⟨n, Version.pos_of h, Version.safe_of h⟩
    else none)

/-- `DataMetadataSchema`: fields it does not know are left out. -/
def parseMetadata (host : CommitHost) (value : Option Json) : Option DataMetadata := do
  let json ← recordFields value
  let field := fun name => Json.field json (js name)
  let name ← readStrIf isDataName (field "name")
  let id ← readStrIf host.isUuidFormat (field "id")
  let version ← readMetadataVersion (field "version")
  let contentType ← readStrIf isFilled (field "contentType")
  let lifetime ← readStrIf isLifetime (field "lifetime")
  let garbageCollection ← readGarbageCollection (field "garbageCollection")
  let streaming ← readStreaming (field "streaming")
  let tags ← readTags (field "tags")
  let ownerDefinition ← readOwnerDefinition host (field "ownerDefinition")
  let createdAt ← readStrIf host.isDatetime (field "createdAt")
  let size ← optionalSchema (readSafeFrom 0) (field "size")
  let checksum ← optionalSchema readStr (field "checksum")
  let lifecycle ← optionalSchema (readEnum [DataLifecycle.active, .deleted] DataLifecycle.text)
    (field "lifecycle")
  let renamedTo ← optionalSchema (readStrIf isFilled) (field "renamedTo")
  return ⟨name, id, version, contentType, lifetime, garbageCollection, streaming, tags,
    ownerDefinition, createdAt, size, checksum, lifecycle, renamedTo⟩

namespace CommitReading

/-- The most bytes of inline content. -/
def MAX_INLINE_BYTES : ℕ := 8 * 1024

/-- `Math.ceil(MAX_INLINE_BYTES / 3) * 4`. -/
def MAX_INLINE_BASE64_LENGTH : ℕ := (MAX_INLINE_BYTES + 2) / 3 * 4

/-- `decodeInline`. -/
def decodeInline : Option Json → Except OpError Bytes
  | some (.str text) =>
    if MAX_INLINE_BASE64_LENGTH < text.length then .error .inlineTooLong
    else
      match atob text with
      | none => .error .base64
      | some binary =>
        if btoa binary ≠ text then .error .notCanonicalBase64
        else if MAX_INLINE_BYTES < binary.length then .error .inlineTooLong
        else .ok (bytesOf binary)
  | _ => .error .inlineText

/-- The digest of an `expect` that is an object. -/
def readExpectDigest (value : Option Json) : Option Sha256 := do
  let json ← recordFields value
  if (Json.entries json).length = 1 then readSha256 (Json.field json (js "sha256")) else none

/-- `readPutExpect`, of a value that is there. -/
def readPutExpect (value : Option Json) : Except OpError PutExpect :=
  if readStr value = some (js "absent") then .ok .absent
  else
    match readExpectDigest value with
    | some digest => .ok (.sha256 digest)
    | none => .error .putExpect

/-- `readTombstoneExpect`, of a value that is there. -/
def readTombstoneExpect (value : Option Json) : Except OpError TombstoneExpect :=
  if readStr value = some (js "present") then .ok .present
  else
    match readExpectDigest value with
    | some digest => .ok (.sha256 digest)
    | none => .error .tombstoneExpect

/-- `readFileAccess`, of a value that is there. -/
def readFileAccess (value : Option Json) : Except OpError FileAccess :=
  match readEnum [FileAccess.executable, .«private», .privateExecutable] FileAccess.text value with
  | some access => .ok access
  | none => .error .access

/-- `requireFence`. -/
def readFence (value : Option Json) : Option Fence :=
  (value.bind Json.safeNat).bind (fun n =>
    if h : n ≤ maxSafeInteger then some ⟨n, h⟩ else none)

/-- What `putOp` is given. -/
structure PutProps where
  intent : Json
  key : RecordKey
  blob : Option BlobRef
  inline : Option Json
  expect : Option Json
  access : Option Json

section

variable (host : CommitHost)

/-- `createIntent`, its error an op's. -/
def opIntent (value : Json) : Except OpError Intent :=
  (createIntent host.toLowerCase value).mapError .intent

/-- `putOp`. -/
def putOp (props : PutProps) : Except OpError PutOp := do
  let intent ← opIntent host props.intent
  let expect ← optional readPutExpect props.expect
  let access ← optional readFileAccess props.access
  match props.blob, props.inline with
  | some blob, none => return ⟨intent, props.key, .blob blob, expect, access⟩
  | none, some (.str text) => do
      let bytes ← decodeInline (some (.str text))
      return ⟨intent, props.key, .inline text (host.sha256Hex bytes), expect, access⟩
  | none, some _ => .error .inlineText
  | _, _ => .error .blobAndInline

/-- `tombstoneOp`. -/
def tombstoneOp (intent : Json) (key : RecordKey) (expect : Option Json) :
    Except OpError TombstoneOp := do
  let intent ← opIntent host intent
  let expect ← optional readTombstoneExpect expect
  return ⟨intent, key, expect⟩

/-- `dataVersionOp`: tags in key order, so equal metadata serializes equally. -/
def dataVersionOp (key : RecordKey) (metadata : Option Json) : Except OpError DataVersionOp :=
  match parseMetadata host metadata with
  | none => .error .metadata
  | some parsed =>
    .ok ⟨key, { parsed with tags := parsed.tags.insertionSort (fun a b => a.1 ≤ b.1) }⟩

/-- `leaseOp`. -/
def leaseOp (holder fence : Option Json) : Except OpError LeaseOp :=
  match holder with
  | some (.str text) =>
    if h : text ≠ [] ∧ text.length ≤ MAX_HOLDER_LENGTH then
      match readFence fence with
      | some fence => .ok ⟨text, fence, h.1, h.2⟩
      | none => .error .fence
    else .error .holder
  | _ => .error .holder

/-- `requireOnlyFields` of an op. -/
def requireOnlyFields (kind : JsString) (json : List (JsString × Json)) (allowed : List JsString) :
    Except OpError Unit :=
  match extraField json allowed with
  | some field => .error (.extraField kind field)
  | none => .ok ()

/-- The key of an op. -/
def opKey (json : List (JsString × Json)) : Except OpError RecordKey :=
  RecordKey.fromJSON .keyText .key (Json.field json (js "key"))

/-- The intent of an op: `undefined` is refused as null is. -/
def intentField (json : List (JsString × Json)) : Json :=
  (Json.field json (js "intent")).getD .null

/-- A put of `opFromJSON`.  The key and the blob are read before `putOp` is
called. -/
def putFromJSON (json : List (JsString × Json)) : Except OpError Op := do
  requireOnlyFields (js "put") json
    [js "kind", js "intent", js "key", js "blob", js "inline", js "expect", js "access"]
  let key ← opKey json
  let blob ← (optional BlobRef.fromJSON (Json.field json (js "blob"))).mapError .blob
  let op ← putOp host ⟨intentField json, key, blob, Json.field json (js "inline"),
    Json.field json (js "expect"), Json.field json (js "access")⟩
  return .put op

/-- A tombstone of `opFromJSON`. -/
def tombstoneFromJSON (json : List (JsString × Json)) : Except OpError Op := do
  requireOnlyFields (js "tombstone") json [js "kind", js "intent", js "key", js "expect"]
  let key ← opKey json
  let op ← tombstoneOp host (intentField json) key (Json.field json (js "expect"))
  return .tombstone op

/-- A data-version op of `opFromJSON`. -/
def dataVersionFromJSON (json : List (JsString × Json)) : Except OpError Op := do
  requireOnlyFields (js "data-version") json [js "kind", js "key", js "metadata"]
  let key ← opKey json
  let op ← dataVersionOp host key (Json.field json (js "metadata"))
  return .dataVersion op

/-- A lease of `opFromJSON`. -/
def leaseFromJSON (json : List (JsString × Json)) : Except OpError Op := do
  requireOnlyFields (js "lease") json [js "kind", js "holder", js "fence"]
  let op ← leaseOp (Json.field json (js "holder")) (Json.field json (js "fence"))
  return .lease op

/-- `opFromJSON`. -/
def opFromJSON (value : Json) : Except OpError Op :=
  match recordFields (some value) with
  | none => .error .notObject
  | some json =>
    match readStr (Json.field json (js "kind")) with
    | none => .error .unknownKind
    | some kind =>
      if kind = js "put" then putFromJSON host json
      else if kind = js "tombstone" then tombstoneFromJSON host json
      else if kind = js "data-version" then dataVersionFromJSON host json
      else if kind = js "lease" then leaseFromJSON json
      else .error .unknownKind

/-- An op a factory built: what `isOp` tells. -/
inductive Built : Op → Prop
  | put {op : PutOp} (props : PutProps) (h : putOp host props = .ok op)
      (hblob : ∀ blob ∈ props.blob, ∃ sha256 size parts legacyKey,
        BlobRef.create sha256 size parts legacyKey = .ok blob) : Built (.put op)
  | tombstone {op : TombstoneOp} (intent : Json) (key : RecordKey) (expect : Option Json)
      (h : tombstoneOp host intent key expect = .ok op) : Built (.tombstone op)
  | dataVersion {op : DataVersionOp} (key : RecordKey) (metadata : Option Json)
      (h : dataVersionOp host key metadata = .ok op) : Built (.dataVersion op)
  | lease {op : LeaseOp} (holder fence : Option Json) (h : leaseOp holder fence = .ok op) :
      Built (.lease op)

end

end CommitReading

/-- The most ops of a commit, besides the one lease op serve may stamp on it. -/
def MAX_COMMIT_OPS : ℕ := 10000

def MAX_OPS_WITH_LEASE : ℕ := MAX_COMMIT_OPS + 1

/-- The longest text of a commit. -/
def MAX_COMMIT_FIELD_LENGTH : ℕ := 1024

/-- What `Commit.create` is given.  A partition is a `PartitionKey` and an op one
that a factory built; of the rest nothing is known. -/
structure CommitProps where
  seq : Option Json
  partition : PartitionKey
  ns : Option Json
  txnId : Option Json
  writer : Option Json
  executedAt : Option Json
  clockOffsetMs : Option Json
  principal : Option Json
  fence : Option Json
  atTime : Option Json
  ops : List Op

namespace Commit

/-- `requireText`. -/
def requireText (label : JsString) : Option Json → Except CommitError JsString
  | some (.str text) =>
    if text = [] ∨ MAX_COMMIT_FIELD_LENGTH < text.length then .error (.text label) else .ok text
  | _ => .error (.text label)

/-- A namespace. -/
def requireNs : Option Json → Except CommitError JsString
  | some (.str text) =>
    if MAX_COMMIT_FIELD_LENGTH < text.length then .error .ns else .ok text
  | _ => .error .ns

/-- `ISO_INSTANT`. -/
def isIsoInstant (text : JsString) : Bool :=
  let shape := js "0000-00-00T00:00:00"
  let tail := text.drop shape.length
  decide (shape.length ≤ text.length) &&
    (text.zip shape).all (fun pair =>
      if pair.2 = unit '0' then isDigitUnit pair.1 else pair.1 = pair.2) &&
    (tail = js "Z" ||
      (tail.head? = some (unit '.') && tail.getLast? = some (unit 'Z') && decide (3 ≤ tail.length) &&
        tail.tail.dropLast.all isDigitUnit))

/-- `requireInstant`: a date the engine would roll over is refused. -/
def requireInstant (platform : Platform) (label : JsString) :
    Option Json → Except CommitError JsString
  | some (.str text) =>
    if isIsoInstant text &&
        (((platform.dateParse text).bind platform.toISOString).map (List.take 19) =
          some (text.take 19)) then .ok text
    else .error (.instant label)
  | _ => .error (.instant label)

/-- `readWriter`. -/
def readWriter (value : Option Json) : Except CommitError CommitWriter :=
  match recordFields value with
  | none => .error .writerObject
  | some json =>
    match extraField json [js "host", js "pid", js "instance"] with
    | some field => .error (.writerField field)
    | none => do
        let host ← requireText (js "writer.host") (Json.field json (js "host"))
        let inst ← requireText (js "writer.instance") (Json.field json (js "instance"))
        match readSafeFrom 1 (Json.field json (js "pid")) with
        | none => .error .pid
        | some pid => return ⟨host, pid, inst⟩

/-- A finite number. -/
def readClockOffset : Option Json → Except CommitError ℚ
  | some (.num n) => .ok n
  | _ => .error .clockOffsetMs

/-- A commit's fence. -/
def readFence (value : Option Json) : Except CommitError Fence :=
  match CommitReading.readFence value with
  | some fence => .ok fence
  | none => .error .fence

/-- What each op must be for its commit's partition. -/
def checkOp (host : CommitHost) (partition : PartitionKey) (op : Op) : Except CommitError Unit :=
  let checkIntent := fun (intent : Intent) =>
    match intentPartition host.toLowerCase intent with
    | .error e => .error (.intent e)
    | .ok target =>
      if target.equals partition then .ok () else .error (.foreignIntent intent.kind)
  match op with
  | .put op => checkIntent op.intent
  | .tombstone op => checkIntent op.intent
  | .dataVersion _ =>
    match partition.identity with
    | .model .. => .ok ()
    | _ => .error .dataVersionElsewhere
  | .lease _ => .ok ()

/-- Whether an op is a lease. -/
def isLease : Op → Bool
  | .lease _ => true
  | _ => false

/-- The checks of the ops' number. -/
def checkCount (ops : List Op) : Except CommitError Unit :=
  if ops.isEmpty then .error .noOps
  else if MAX_COMMIT_OPS < ops.length - (ops.filter isLease).length ∨
      MAX_OPS_WITH_LEASE < ops.length then .error .tooManyOps
  else .ok ()

/-- A seq. -/
def readSeq (value : Option Json) : Except CommitError { n : ℕ // 1 ≤ n ∧ n ≤ maxSafeInteger } :=
  match value.bind Json.safeNat with
  | none => .error .seq
  | some n => if h : 1 ≤ n ∧ n ≤ maxSafeInteger then .ok ⟨n, h⟩ else .error .seq

/-- `Commit.create`. -/
def create (host : CommitHost) (props : CommitProps) : Except CommitError Commit := do
  let seq ← readSeq props.seq
  let ns ← requireNs props.ns
  let txnId ← requireText (js "txnId") props.txnId
  let writer ← readWriter props.writer
  let executedAt ← optional (requireInstant host.toPlatform (js "executedAt")) props.executedAt
  let clockOffsetMs ← optional readClockOffset props.clockOffsetMs
  let principal ← optional (requireText (js "principal")) props.principal
  let fence ← optional readFence props.fence
  let atTime ← requireInstant host.toPlatform (js "at") props.atTime
  checkCount props.ops
  props.ops.forM (checkOp host props.partition)
  return ⟨seq.1, props.partition, ns, txnId, writer, executedAt, clockOffsetMs, principal, fence,
    atTime, props.ops, seq.2.1, seq.2.2⟩

/-- The fields of a commit. -/
def fieldNames : List JsString :=
  [js "v", js "seq", js "partition", js "namespace", js "txnId", js "writer", js "executedAt",
   js "clockOffsetMs", js "principal", js "fence", js "at", js "ops"]

/-- The items of a commit's ops, bounded before each is parsed. -/
def readOps (host : CommitHost) : Option Json → Except CommitError (List Op)
  | some (.arr items) =>
    if MAX_OPS_WITH_LEASE < items.length then .error .tooManyOps
    else items.mapM (fun item => (CommitReading.opFromJSON host item).mapError .op)
  | _ => .error .opsArray

/-- `Commit.fromJSON`. -/
def fromJSON (host : CommitHost) (value : Json) : Except CommitError Commit :=
  match recordFields (some value) with
  | none => .error .notObject
  | some json =>
    match extraField json fieldNames with
    | some field => .error (.extraField field)
    | none =>
      if Json.field json (js "v") ≠ some (.num 3) then .error .format
      else
        match readStr (Json.field json (js "partition")) with
        | none => .error .partitionText
        | some text => do
            let ops ← readOps host (Json.field json (js "ops"))
            let partition ← (PartitionKey.parse host.toLowerCase text).mapError .partition
            let field := fun name => Json.field json (js name)
            create host ⟨field "seq", partition, field "namespace", field "txnId",
              field "writer", field "executedAt", field "clockOffsetMs", field "principal",
              field "fence", field "at", ops⟩

/-- A commit `Commit.create` built. -/
def Built (host : CommitHost) (commit : Commit) : Prop :=
  ∃ props : CommitProps, props.partition.Built host.toLowerCase ∧
    (∀ op ∈ props.ops, CommitReading.Built host op) ∧ create host props = .ok commit

end Commit

end Swamp
