import Mathlib.Order.Lattice.Nat
import Swamp.LatestChoice
import Swamp.OrderedMap

/-!
# Rebasing offline commits

Commits queued while serve was unreachable are rebased in queue order, each on
the state the earlier ones left: a version written offline lands above every
number its name ever recorded, and its keys, its intent, its metadata, the
marker and the digests an append expects follow it.  Where an offline version is
not observed after the current latest, the latest is restated above it.

`FlushState` is what the flush knows beyond the partition, `rebaseOne` one
commit of it.  A throw of a factory ends the whole flush.
-/

namespace Swamp

open Js

structure VersionContent where
  raw : PutContent
  rawAccess : Option FileAccess
  metadata : DataMetadata

/-- What is known of committed versions: when they were observed, and their
content where this checkout can read it. -/
structure OfflineRebaseLookups where
  observation : JsString → ℕ → Option VersionObservation
  content : JsString → ℕ → Option VersionContent

/-- A queued version and the number it lands with. -/
structure RenumberedVersion where
  name : JsString
  source : ℕ
  target : ℕ

structure CarriedCreatedAt where
  name : JsString
  version : ℕ
  createdAt : JsString

/-- What later commits of the queue need to know of the landed ones. -/
structure OfflineRebaseCarry where
  versions : List RenumberedVersion
  digests : List (Sha256 × Sha256)
  createdAt : List CarriedCreatedAt

def EMPTY_REBASE_CARRY : OfflineRebaseCarry := ⟨[], [], []⟩

structure OfflineRebaseOptions where
  encodeMetadata : DataMetadata → Bytes
  restate : Option Bool
  windowMs : Option ℚ
  carry : Option OfflineRebaseCarry
  reserved : Option (JsString → Finset ℕ)

/-- Why a latest is not restated. -/
inductive RestateSkipped where
  | disabled
  | contentNotProvided
  | contentUnknown
  | renamed
  | lifecycle

/-- What became of a name's latest. -/
inductive LatestOutcome where
  | rebased (name : JsString) (version : ℕ) (restateSkipped : Option RestateSkipped)
  | restated (name : JsString) (version restates : ℕ)

/-- What became of a commit.  One whose removal's target changed is kept, not
sent. -/
inductive RebasedCommit where
  | unchanged (commit : Commit)
  | rebased (commit : Commit) (changes : List TypedChange) (renumbered : List RenumberedVersion)
      (latest : List LatestOutcome) (carry : OfflineRebaseCarry)
  | rejected (commit : Commit) (detail : JsString)

/-- The versions a result renumbers. -/
def RebasedCommit.renumbered : RebasedCommit → List RenumberedVersion
  | .unchanged _ => []
  | .rebased _ _ renumbered _ _ => renumbered
  | .rejected _ _ => []

/-- A data name as the flush leaves it. -/
structure NameState where
  highWater : ℕ
  live : Finset ℕ
  latest : Option ℕ
  observedAt : OrderedMap ℕ (Option ℚ)
  sources : OrderedMap ℕ ℕ
  content : OrderedMap ℕ VersionContent
  createdAt : OrderedMap ℕ JsString

/-- The names, the numbers queued versions landed with, the metadata digests
rewritten, and the records written. -/
structure FlushState where
  names : OrderedMap JsString NameState
  mapped : OrderedMap JsString (OrderedMap ℕ ℕ)
  digests : OrderedMap Sha256 Sha256
  records : OrderedMap RecordKey (Option Sha256)

/-- The number a queued version has in a map of maps. -/
def numberIn (numbers : OrderedMap JsString (OrderedMap ℕ ℕ)) (name : JsString) (version : ℕ) :
    Option ℕ :=
  (numbers.get name).bind (fun all => all.get version)

/-- `remap`: a number of this commit, of an earlier one, or the version itself. -/
def remap (localNumbers mapped : OrderedMap JsString (OrderedMap ℕ ℕ)) (name : JsString)
    (version : ℕ) : ℕ :=
  ((numberIn localNumbers name version).or (numberIn mapped name version)).getD version

/-- Add the numbers of a name. -/
def addNumbers (mapped : OrderedMap JsString (OrderedMap ℕ ℕ)) (name : JsString)
    (numbers : List (ℕ × ℕ)) : OrderedMap JsString (OrderedMap ℕ ℕ) :=
  mapped.set name (((mapped.get name).getD .empty).setAll numbers)

/-- `maxOf` of a list. -/
def maxOf (values : List ℕ) : Option ℕ := values.max?

/-- `maxOf` of a set. -/
def highestOf (values : Finset ℕ) : Option ℕ :=
  if h : values.Nonempty then some (values.max' h) else none

/-- `intentVersion`. -/
def intentVersion : Intent → Option Version
  | .dataSave _ _ version => some version
  | .dataAppend _ _ version => some version
  | .dataDelete _ _ version => version
  | .dataGc _ _ version => version
  | _ => none

/-- `intentName`. -/
def intentName : Intent → JsString
  | .dataSave _ name _ => name
  | .dataAppend _ name _ => name
  | .dataDelete _ name _ => name
  | .dataGc _ name _ => name
  | .dataRename _ name _ => name
  | _ => []

/-- `withVersion`: the intent about another version. -/
def withVersion (intent : Intent) (version : ℕ) : Except BuildError Intent :=
  match intent with
  | .dataSave model name _ => do return .dataSave model name (← readVersion version)
  | .dataAppend model name _ => do return .dataAppend model name (← readVersion version)
  | .dataDelete model name _ => do return .dataDelete model name (some (← readVersion version))
  | .dataGc model name _ => do return .dataGc model name (some (← readVersion version))
  | intent => .ok intent

/-- `remapIntent`. -/
def remapIntent (intent : Intent) (remapped : JsString → ℕ → ℕ) : Except BuildError Intent :=
  match intentVersion intent with
  | none => .ok intent
  | some version =>
    let target := remapped (intentName intent) version.val
    if target = version.val then .ok intent else withVersion intent target

/-- `versionOf`: the version a tombstone removes. -/
def versionOf (op : TombstoneOp) : Option (JsString × ℕ) :=
  match dataKeyVersion op.key with
  | none => none
  | some _ => op.removes.map (fun target => (target.1, target.2.val))

/-- `touchesFlushVersion`. -/
def touchesFlushVersion (mapped : OrderedMap JsString (OrderedMap ℕ ℕ)) : Op → Bool
  | .dataVersion op => (numberIn mapped op.metadata.name op.metadata.version.val).isSome
  | .lease _ => false
  | .put op => touchesIntent op.intent
  | .tombstone op => touchesIntent op.intent
where
  touchesIntent (intent : Intent) : Bool :=
    match intentVersion intent with
    | none => false
    | some version => (numberIn mapped (intentName intent) version.val).isSome

/-- The version an op lets a data version of its commit record again. -/
def Op.appends : Op → Option (JsString × Version)
  | .put op => op.appends
  | _ => none

/-- The versions a commit appends to. -/
def appendedOf (ops : List Op) : List JsString :=
  ops.filterMap (fun op => op.appends.map (fun target => nameVersion target.1 target.2.val))

/-- The versions a commit records. -/
def recordedOf (ops : List Op) : List DataVersionOp :=
  ops.filterMap (fun op => match op with
    | .dataVersion record => some record
    | _ => none)

/-- The versions a commit records without appending to them. -/
def freshOf (ops : List Op) : List DataVersionOp :=
  (recordedOf ops).filter (fun op =>
    decide (nameVersion op.metadata.name op.metadata.version.val ∉ appendedOf ops))

/-- The fresh versions, by name. -/
def freshByName (fresh : List DataVersionOp) : OrderedMap JsString (List ℕ) :=
  fresh.foldl
    (fun all op =>
      all.set op.metadata.name (((all.get op.metadata.name).getD []) ++ [op.metadata.version.val]))
    .empty

/-- The next number that is the version's own or not reserved.  Past the highest
reserved number none is, so this much fuel is enough. -/
def skipReserved (version : ℕ) (reserved : Finset ℕ) : ℕ → ℕ → ℕ
  | 0, target => target
  | fuel + 1, target =>
    if target ≠ version ∧ target ∈ reserved then skipReserved version reserved fuel (target + 1)
    else target

/-- The number a version lands with, `next` being the first one free. -/
def targetOf (reserved : Finset ℕ) (next version : ℕ) : ℕ :=
  skipReserved version reserved (reserved.sup id + 1 - max version next) (max version next)

/-- The numbers of sorted versions, from `next` on. -/
def assignNumbers (reserved : Finset ℕ) (next : ℕ) : List ℕ → List (ℕ × ℕ)
  | [] => []
  | version :: rest =>
    (version, targetOf reserved next version) ::
      assignNumbers reserved (targetOf reserved next version + 1) rest

/-- The numbers of a name's fresh versions. -/
def numbersOf (reserved : Finset ℕ) (highWater : ℕ) (versions : List ℕ) : OrderedMap ℕ ℕ :=
  .ofList (assignNumbers reserved (highWater + 1) (versions.dedup.insertionSort (· ≤ ·)))

section Flush

variable (platform : Platform) (partition : Partition) (lookups : OfflineRebaseLookups)
  (options : OfflineRebaseOptions)

/-- The carry a flush starts from. -/
def OfflineRebaseOptions.carried : OfflineRebaseCarry := options.carry.getD EMPTY_REBASE_CARRY

/-- A name before the flush touches it. -/
def initialName (name : JsString) : NameState where
  highWater := partition.highWater name
  live := partition.live name
  latest := partition.latest name
  observedAt := .empty
  sources := .empty
  content := .empty
  createdAt :=
    .ofList ((options.carried.createdAt.filter (fun c => c.name = name)).map
      (fun c => (c.version, c.createdAt)))

/-- `stateOf`. -/
def stateOf (flush : FlushState) (name : JsString) : NameState :=
  (flush.names.get name).getD (initialName partition options name)

/-- What a flush knows at its start. -/
def initialFlush : FlushState where
  names := .empty
  mapped :=
    options.carried.versions.foldl
      (fun mapped version => addNumbers mapped version.name [(version.source, version.target)])
      .empty
  digests := .ofList options.carried.digests
  records := .empty

/-- The numbers of a commit's fresh versions, by name. -/
def localNumbers (flush : FlushState) (fresh : List DataVersionOp) :
    OrderedMap JsString (OrderedMap ℕ ℕ) :=
  (freshByName fresh).mapValues (fun name versions =>
    numbersOf ((options.reserved.map (fun reserved => reserved name)).getD ∅)
      (stateOf partition options flush name).highWater versions)

/-- The renumbered versions, in order. -/
def renumberedOf (numbers : OrderedMap JsString (OrderedMap ℕ ℕ)) : List RenumberedVersion :=
  numbers.entries.flatMap (fun entry =>
    entry.2.entries.map (fun pair => ⟨entry.1, pair.1, pair.2⟩))

/-- The digest a rewritten one gave way to. -/
def FlushState.digestOf (flush : FlushState) (digest : Sha256) : Sha256 :=
  (flush.digests.get digest).getD digest

/-- The record of a key as the flush leaves it. -/
def FlushState.recordOf (flush : FlushState) (key : RecordKey) : Option Sha256 :=
  (flush.records.get key).getD (partition.record key)

/-- Why a removal's target is not what the queued commit saw, if it is not. -/
def targetChanged (flush : FlushState) (remapped : JsString → ℕ → ℕ) :
    List Op → Except BuildError (Option JsString)
  | [] => .ok none
  | .tombstone op :: rest =>
    match versionOf op with
    | none => targetChanged flush remapped rest
    | some (name, version) =>
      if remapped name version ∉ (stateOf partition options flush name).live then
        .ok (some (js "version " ++ decimal version ++ js " of " ++ name ++
          js " is no longer live"))
      else
        match op.expect with
        | some (.sha256 expected) => do
            let key ← rekey op.key (remapped name version)
            if flush.recordOf partition key ≠ some (flush.digestOf expected) then
              return some (js "version " ++ decimal version ++ js " of " ++ name ++
                js " changed")
            else targetChanged flush remapped rest
        | _ => targetChanged flush remapped rest
  | _ :: rest => targetChanged flush remapped rest

/-- When a commit ran, by the writer's corrected clock. -/
def executionTime (commit : Commit) : Option ℚ :=
  correctedExecutionTime platform (commit.executedAt.getD commit.atTime) commit.clockOffsetMs

/-- The text of that time. -/
def correctedCreatedAt (commit : Commit) : Except BuildError (Option JsString) :=
  match executionTime platform commit with
  | none => .ok none
  | some ms =>
    match platform.toISOString ms with
    | some text => .ok (some text)
    | none => .error (.time ms)

/-- The metadata a recorded version lands with: a fresh one keeps the corrected
time it ran, an append the time of its version. -/
def landedMetadata (flush : FlushState) (remapped : JsString → ℕ → ℕ) (appended : List JsString)
    (createdAt : Option JsString) (metadata : DataMetadata) : Except BuildError DataMetadata := do
  let target := remapped metadata.name metadata.version.val
  let version ← readVersion target
  let kept :=
    if nameVersion metadata.name metadata.version.val ∈ appended then
      (stateOf partition options flush metadata.name).createdAt.get target
    else createdAt
  return { metadata with version := version, createdAt := kept.getD metadata.createdAt }

/-- A recorded version with the key and the metadata it lands with. -/
def landedRecord (flush : FlushState) (remapped : JsString → ℕ → ℕ) (appended : List JsString)
    (createdAt : Option JsString) (op : DataVersionOp) :
    Except BuildError (DataVersionOp × RecordKey × DataMetadata) := do
  let key ← rekey op.key (remapped op.metadata.name op.metadata.version.val)
  let metadata ← landedMetadata partition options flush remapped appended createdAt op.metadata
  return (op, key, metadata)

/-- The metadata of each landed key, and the keys whose metadata changed. -/
structure Rewriting where
  metadataOf : OrderedMap RecordKey DataMetadata
  rewritten : List RecordKey

def rewritingOf (records : List (DataVersionOp × RecordKey × DataMetadata)) : Rewriting where
  metadataOf := .ofList (records.map (fun record => record.2))
  rewritten :=
    (records.filter (fun record => decide (record.2.2.version ≠ record.1.metadata.version ∨
      record.2.2.createdAt ≠ record.1.metadata.createdAt))).map (fun record => record.2.1)

/-- The expect of a put follows the digests rewritten so far. -/
def FlushState.putExpect (flush : FlushState) : Option PutExpect → Option PutExpect
  | some (.sha256 digest) => some (.sha256 (flush.digestOf digest))
  | expect => expect

def FlushState.tombstoneExpect (flush : FlushState) : Option TombstoneExpect → Option TombstoneExpect
  | some (.sha256 digest) => some (.sha256 (flush.digestOf digest))
  | expect => expect

/-- `String(x)`. -/
def numberText : JsNumber → JsString
  | .nan => js "NaN"
  | .infinite negative => if negative then js "-Infinity" else js "Infinity"
  | .finite value =>
    if value.den = 1 ∧ 0 ≤ value.num ∧ value.num ≤ maxSafeInteger then decimal value.num.toNat
    else platform.stringOf value

/-- `putOp` of an inline text. -/
def inlineContent (text : JsString) : PutContent :=
  .inline (btoa text) (platform.sha256Hex (bytesOf text))

/-- The name whose latest marker a key is. -/
def markedName (key : RecordKey) : Option JsString :=
  match (split key.value).head?, (split key.value).reverse with
  | some first, last :: name :: _ =>
    if first = js "data" ∧ last = js "latest" then some name else none
  | _, _ => none

/-- An inline latest marker follows the version it marks.  A text that is no
number is not equal to itself, and is written again. -/
def rewriteMarker (flush : FlushState) (remapped : JsString → ℕ → ℕ) (key : PartitionKey)
    (op : PutOp) (name inline : JsString) : Except BuildError TypedChange :=
  match atob inline with
  | none => .error (.base64 inline)
  | some text => do
      let marked := number (trim text)
      let version : JsNumber :=
        match marked.positive with
        | some n => .finite (remapped name n)
        | none => marked
      let intent ← remapIntent op.intent remapped
      if version = marked ∧ marked ≠ .nan ∧ intent = op.intent then return .op key (.put op)
      else
        return .op key (.put
          { op with
            intent := intent
            content := inlineContent platform (numberText platform version)
            expect := flush.putExpect op.expect })

/-- The put of a version's file follows the version; changed metadata is encoded
again, and its old and new digest are noted. -/
def rewriteFile (flush : FlushState) (remapped : JsString → ℕ → ℕ) (rewriting : Rewriting)
    (partitionKey : PartitionKey) (op : PutOp) (keyed : VersionFile) :
    Except BuildError (TypedChange × Option (Sha256 × Sha256)) := do
  let version := remapped keyed.name keyed.version
  let intent ← remapIntent op.intent remapped
  let key ← rekey op.key version
  let changed : Bool := decide (keyed.file = .metadata) && rewriting.rewritten.contains key
  if version = keyed.version ∧ intent = op.intent ∧ changed = false then
    return (.op partitionKey (.put op), none)
  else
    match changed, rewriting.metadataOf.get key with
    | true, some metadata =>
      let content := options.encodeMetadata metadata
      return (.put partitionKey ⟨intent, key, flush.putExpect op.expect, content, op.access⟩,
        some (op.sha256, platform.sha256Hex content))
    | _, _ =>
      return (.op partitionKey (.put
        { op with intent := intent, key := key, expect := flush.putExpect op.expect }), none)

/-- `rewritePut`. -/
def rewritePut (flush : FlushState) (remapped : JsString → ℕ → ℕ) (rewriting : Rewriting)
    (partitionKey : PartitionKey) (op : PutOp) :
    Except BuildError (TypedChange × Option (Sha256 × Sha256)) :=
  match markedName op.key, op.content with
  | some name, .inline text _ => do
      return (← rewriteMarker platform flush remapped partitionKey op name text, none)
  | _, _ =>
    match dataKeyVersion op.key with
    | none => .ok (.op partitionKey (.put op), none)
    | some keyed => rewriteFile platform options flush remapped rewriting partitionKey op keyed

/-- `rewrite` of a tombstone. -/
def rewriteTombstone (flush : FlushState) (remapped : JsString → ℕ → ℕ)
    (partitionKey : PartitionKey) (op : TombstoneOp) : Except BuildError TypedChange :=
  match versionOf op with
  | none => .ok (.op partitionKey (.tombstone op))
  | some (name, version) =>
    if remapped name version = version then .ok (.op partitionKey (.tombstone op))
    else do
      let intent ← withVersion op.intent (remapped name version)
      let key ← rekey op.key (remapped name version)
      return .op partitionKey (.tombstone ⟨intent, key, flush.tombstoneExpect op.expect⟩)

/-- `rewrite` of a data version. -/
def rewriteDataVersion (remapped : JsString → ℕ → ℕ) (rewriting : Rewriting)
    (partitionKey : PartitionKey) (op : DataVersionOp) : Except BuildError TypedChange := do
  let key ← rekey op.key (remapped op.metadata.name op.metadata.version.val)
  match rewriting.rewritten.contains key, rewriting.metadataOf.get key with
  | true, some metadata =>
    return .op partitionKey (.dataVersion (← dataVersionOp platform key metadata))
  | _, _ => return .op partitionKey (.dataVersion op)

/-- `rewrite`: the change an op becomes, and the metadata digest it replaces. -/
def rewrite (flush : FlushState) (remapped : JsString → ℕ → ℕ) (rewriting : Rewriting)
    (partitionKey : PartitionKey) : Op → Except BuildError (TypedChange × Option (Sha256 × Sha256))
  | .dataVersion op => do
      return (← rewriteDataVersion platform remapped rewriting partitionKey op, none)
  | .tombstone op => do return (← rewriteTombstone flush remapped partitionKey op, none)
  | .put op => rewritePut platform options flush remapped rewriting partitionKey op
  | .lease op => .ok (.op partitionKey (.lease op), none)

/-- A name once its fresh versions landed. -/
def NameState.landed (state : NameState) (numbers : OrderedMap ℕ ℕ) (top : ℕ)
    (executedAt : Option ℚ) (createdAt : Option JsString) : NameState :=
  let targets := numbers.entries.map Prod.snd
  { state with
    highWater := max state.highWater top
    live := state.live ∪ targets.toFinset
    observedAt := state.observedAt.setAll (targets.map (fun target => (target, executedAt)))
    createdAt :=
      match createdAt with
      | some text => state.createdAt.setAll (targets.map (fun target => (target, text)))
      | none => state.createdAt }

/-- The content a raw put gives a landed version of the name, if it gives one. -/
def rawContent (model : ModelChanges) (remapped : JsString → ℕ → ℕ) (rewriting : Rewriting)
    (name : JsString) (op : Op) : Except BuildError (Option (ℕ × VersionContent)) :=
  match op with
  | .put put =>
    match dataKeyVersion put.key with
    | some ⟨keyed, version, .raw⟩ =>
      if keyed = name then do
        let key ← model.dataKey name (remapped name version) .metadata
        return (rewriting.metadataOf.get key).map (fun metadata =>
          (remapped name version, ⟨put.content, put.access, metadata⟩))
      else .ok none
    | _ => .ok none
  | _ => .ok none

/-- The contents a commit gives the landed versions of a name. -/
def rawContents (model : ModelChanges) (remapped : JsString → ℕ → ℕ) (rewriting : Rewriting)
    (name : JsString) (ops : List Op) : Except BuildError (List (ℕ × VersionContent)) := do
  let found ← ops.mapM (rawContent model remapped rewriting name)
  return found.filterMap id

/-- `restateSkip`: the content to restate, or why it is not restated. -/
def restateSkip (name : JsString) (current : ℕ) (state : NameState) :
    Except RestateSkipped VersionContent :=
  if options.restate = some false then .error .disabled
  else
    match (state.content.get current).or (lookups.content name current) with
    | none => .error .contentUnknown
    | some content =>
      if content.metadata.renamedTo ≠ none then .error .renamed
      else if content.metadata.lifecycle ≠ none then .error .lifecycle
      else .ok content

/-- Set a tag: in its place, or at the end. -/
def setTag (tags : List (JsString × JsString)) (key value : JsString) :
    List (JsString × JsString) :=
  OrderedMap.setEntry key value tags

/-- `isLatestMarkerOf`. -/
def isMarkerChange (markerKey : RecordKey) : TypedChange → Bool
  | .op _ (.put op) => decide (op.key = markerKey)
  | .op _ _ => false
  | .put _ put => decide (put.key = markerKey)

/-- What is known of a name, the changes so far, and the outcomes. -/
structure Settling where
  flush : FlushState
  changes : List TypedChange
  latest : List LatestOutcome

/-- The state of a name set, its latest `version` taken as it is. -/
def Settling.take (s : Settling) (name : JsString) (state : NameState) (version : ℕ)
    (skipped : Option RestateSkipped) : Settling :=
  { s with
    flush := { s.flush with names := s.flush.names.set name { state with latest := some version } }
    latest := s.latest ++ [.rebased name version skipped] }

/-- The metadata of a restatement. -/
def restatedMetadata (content : VersionContent) (version : Version) (source : ℕ) : DataMetadata :=
  { content.metadata with
    version := version
    tags := setTag content.metadata.tags RESTATES_TAG (decimal source) }

/-- The changes that restate a content as a new version. -/
def restateChanges (model : ModelChanges) (partitionKey : PartitionKey) (name : JsString)
    (content : VersionContent) (version : Version) (source : ℕ) :
    Except BuildError (List TypedChange) := do
  let metadata := restatedMetadata content version source
  let intent ← model.writeIntent .save name version.val
  let metadataKey ← model.dataKey name version.val .metadata
  let rawKey ← model.dataKey name version.val .raw
  let record ← dataVersionOp platform metadataKey metadata
  let marker ← model.latestPut partitionKey .save name version.val (bytesOf (decimal version.val))
  return [.op partitionKey (.put ⟨intent, rawKey, content.raw, none, content.rawAccess⟩),
    .put partitionKey ⟨intent, metadataKey, none, options.encodeMetadata metadata, none⟩,
    .op partitionKey (.dataVersion record), marker]

/-- Restate the current latest above the landed versions. -/
def Settling.restate (s : Settling) (model : ModelChanges) (partitionKey : PartitionKey)
    (name : JsString) (state : NameState) (current : ℕ) (currentObservedAt : Option ℚ)
    (content : VersionContent) : Except BuildError Settling := do
  let source := (state.sources.get current).getD
    (sourceVersionOf (lookups.observation name) current)
  let version ← readVersion (state.highWater + 1)
  let markerKey ← model.latestKey name
  let restated ← restateChanges platform options model partitionKey name content version source
  let next : NameState :=
    { state with
      highWater := version.val
      live := insert version.val state.live
      latest := some version.val
      observedAt := state.observedAt.set version.val currentObservedAt
      sources := state.sources.set version.val source
      content := state.content.set version.val
        { content with metadata := restatedMetadata content version source } }
  return { flush := { s.flush with names := s.flush.names.set name next }
           changes := s.changes.filter (fun change => !isMarkerChange markerKey change) ++ restated
           latest := s.latest ++ [.restated name version.val source] }

/-- Choose the latest of a name whose fresh versions landed. -/
def Settling.choose (s : Settling) (model : ModelChanges) (partitionKey : PartitionKey)
    (name : JsString) (state : NameState) (top : ℕ) (renamed : Bool) (executedAt : Option ℚ) :
    Except BuildError Settling :=
  match state.latest with
  | none => .ok (s.take name state top none)
  | some current =>
    if top < current ∨ renamed = true then
      if current < top then .ok (s.take name state top none)
      else if current = top then .ok (s.take name state top none)
      else .ok { s with flush := { s.flush with names := s.flush.names.set name state } }
    else
      let currentObservedAt :=
        (state.observedAt.get current).getD
          (observationTimeOf platform (lookups.observation name) current)
      match chooseLatest executedAt currentObservedAt options.windowMs with
      | .rebased => .ok (s.take name state top none)
      | .current =>
        match restateSkip lookups options name current state with
        | .error reason => .ok (s.take name state top (some reason))
        | .ok content =>
          s.restate platform lookups options model partitionKey name state current
            currentObservedAt content

/-- Settle one name of a commit. -/
def Settling.settle (s : Settling) (model : ModelChanges) (commit : Commit)
    (remapped : JsString → ℕ → ℕ) (rewriting : Rewriting) (createdAt : Option JsString)
    (name : JsString) (numbers : OrderedMap ℕ ℕ) : Except BuildError Settling :=
  match maxOf (numbers.entries.map Prod.snd) with
  | none => .ok s
  | some top => do
      let topKey ← model.dataKey name top .metadata
      let executedAt := executionTime platform commit
      let landed := (stateOf partition options s.flush name).landed numbers top executedAt createdAt
      let contents ← rawContents model remapped rewriting name commit.ops
      let renamed := ((rewriting.metadataOf.get topKey).bind DataMetadata.renamedTo).isSome
      s.choose platform lookups options model commit.partition name
        { landed with content := landed.content.setAll contents } top renamed executedAt

/-- A name once a removal of the commit landed. -/
def NameState.without (state : NameState) (version : ℕ) : NameState :=
  let live := state.live.erase version
  { state with
    live := live
    latest := if state.latest = some version then highestOf live else state.latest }

/-- The names once the removals of a commit landed. -/
def removeTargets (remapped : JsString → ℕ → ℕ) (flush : FlushState) (ops : List Op) : FlushState :=
  ops.foldl
    (fun flush op =>
      match op with
      | .tombstone tombstone =>
        match versionOf tombstone with
        | none => flush
        | some (name, version) =>
          { flush with
            names := flush.names.set name
              ((stateOf partition options flush name).without (remapped name version)) }
      | _ => flush)
    flush

/-- The record a change leaves, if it leaves one. -/
def writtenRecord : TypedChange → Option (RecordKey × Option Sha256)
  | .op _ (.put op) => some (op.key, some op.sha256)
  | .op _ (.tombstone op) => some (op.key, none)
  | .op _ _ => none
  | .put _ put => some (put.key, some (platform.sha256Hex put.content))

/-- What a rebased commit carries to later ones. -/
def carryOf (renumbered : List RenumberedVersion) (digests : List (Sha256 × Sha256))
    (createdAt : Option JsString) : OfflineRebaseCarry where
  versions := renumbered
  digests := digests
  createdAt :=
    match createdAt with
    | none => []
    | some text => renumbered.map (fun version => ⟨version.name, version.target, text⟩)

/-- The flush once a rebased commit is noted: its records, its digests and its
numbers. -/
def FlushState.noted (flush : FlushState) (changes : List TypedChange)
    (digests : List (Sha256 × Sha256)) (numbers : OrderedMap JsString (OrderedMap ℕ ℕ)) :
    FlushState :=
  { flush with
    records := flush.records.setAll (changes.filterMap (writtenRecord platform))
    digests := flush.digests.setAll digests
    mapped := numbers.entries.foldl (fun mapped entry => addNumbers mapped entry.1 entry.2.entries)
      flush.mapped }

/-- Whether a commit needs no rebase. -/
def staysUnchanged (flush : FlushState) (commit : Commit) : Bool :=
  (freshOf commit.ops).isEmpty && !commit.ops.any (touchesFlushVersion flush.mapped) &&
    !commit.ops.any (fun op => match op with
      | .tombstone tombstone => (versionOf tombstone).isSome
      | _ => false)

/-- Rebase a commit that needs it, for the model its partition belongs to. -/
def rebaseModel (model : ModelChanges) (flush : FlushState) (commit : Commit) :
    Except BuildError (RebasedCommit × FlushState) := do
  let numbers := localNumbers partition options flush (freshOf commit.ops)
  let remapped := remap numbers flush.mapped
  match ← targetChanged partition options flush remapped commit.ops with
  | some detail => return (.rejected commit detail, flush)
  | none =>
    let createdAt ← correctedCreatedAt platform commit
    let records ← (recordedOf commit.ops).mapM
      (landedRecord partition options flush remapped (appendedOf commit.ops) createdAt)
    let rewriting := rewritingOf records
    let rewrites ← commit.ops.mapM
      (rewrite platform options flush remapped rewriting commit.partition)
    let digests := OrderedMap.ofList (rewrites.filterMap Prod.snd)
    let settled ← numbers.entries.foldlM
      (fun s entry => s.settle platform partition lookups options model commit remapped rewriting
        createdAt entry.1 entry.2)
      (⟨flush, rewrites.map Prod.fst, []⟩ : Settling)
    let removed := removeTargets partition options remapped settled.flush commit.ops
    return (.rebased commit settled.changes (renumberedOf numbers) settled.latest
        (carryOf (renumberedOf numbers) digests.entries createdAt),
      removed.noted platform settled.changes digests.entries numbers)

/-- `rebaseOne`. -/
def rebaseOne (flush : FlushState) (commit : Commit) :
    Except BuildError (RebasedCommit × FlushState) :=
  match commit.partition.identity with
  | .model type id =>
    if staysUnchanged flush commit then .ok (.unchanged commit, flush)
    else rebaseModel platform partition lookups options ⟨type, id⟩ flush commit
  | _ => .ok (.unchanged commit, flush)

/-- The commits one after another, from a flush on. -/
def rebaseAll (flush : FlushState) : List Commit → Except BuildError (List RebasedCommit)
  | [] => .ok []
  | commit :: rest => do
      if commit.partition.equals partition.key then
        let (result, next) ← rebaseOne platform partition lookups options flush commit
        return result :: (← rebaseAll next rest)
      else
        .error (.partition (js "Commit " ++ commit.txnId ++ js " is for " ++
          commit.partition.value ++ js ", not " ++ partition.key.value))

/-- `rebaseOfflineCommits`. -/
def rebaseOfflineCommits (commits : List Commit) : Except BuildError (List RebasedCommit) :=
  rebaseAll platform partition lookups options (initialFlush options) commits

end Flush

end Swamp
