import Swamp.Keys
import Swamp.VersionRanges

/-!
# Commits and their ops

A commit is the unit a partition's log grows by.  Its ops are built by
factories, never written out as literals, so what a factory checks is a field
of the op here: a digest is a `Sha256`, a lease holder is never empty, a
version is a `Version`.

`Commit` keeps, of what its own `create` checks, what a partition relies on:
the range of its seq and of its fence.  The lengths of its texts, the form of
its instants and the number of its ops play no part in the log.
-/

namespace Swamp

open Js

/-- A digest: 64 lowercase hex characters. -/
structure Sha256 where
  value : JsString
  hex : isSha256Hex value
deriving DecidableEq

/-- The digest of zeros. -/
def Sha256.zeros : Sha256 where
  value := List.replicate 64 (unit '0')
  hex := ⟨List.length_replicate, fun u hu => by rw [List.eq_of_mem_replicate hu]; decide⟩

/-- A fence: a non-negative safe integer, as `requireFence` asks. -/
structure Fence where
  val : ℕ
  safe : val ≤ maxSafeInteger
deriving DecidableEq

/-- The model an intent is about. -/
structure ModelRef where
  type : JsString
  id : JsString
deriving DecidableEq

/-- The run an intent is about. -/
structure RunRef where
  workflowId : JsString
  runId : JsString
deriving DecidableEq

/-- The definition an intent is about. -/
structure DefinitionRef where
  kind : DefinitionKind
  name : JsString
deriving DecidableEq

/-- The kinds of intent that carry a model and nothing else. -/
inductive ModelIntentKind where
  | evaluatedDefinitionSave
  | evaluatedDefinitionDelete
  | grantCreate
  | grantRevoke
  | groupCreate
  | groupUpdate
  | tokenCreate
  | tokenRevoke
  | tokenRotate
  | workerTokenCreate
  | workerTokenRevoke
  | workerDelete
deriving DecidableEq

/-- The kinds of intent that carry a run. -/
inductive RunIntentKind where
  | runCreate
  | runUpdate
  | runDelete
  | runSnapshotSave
  | runSnapshotDelete
  | runStartSave
  | runStartDelete
deriving DecidableEq

/-- The kinds of intent that carry a definition and nothing else. -/
inductive DefinitionIntentKind where
  | definitionCreate
  | definitionEdit
  | definitionDelete
  | evaluatedWorkflowSave
  | evaluatedWorkflowDelete
deriving DecidableEq

/-- What a change is for.  A `data.delete` or `data.gc` without a version is
about a key that carries none: the name's latest marker or its directory. -/
inductive Intent where
  | dataSave (model : ModelRef) (name : JsString) (version : Version)
  | dataAppend (model : ModelRef) (name : JsString) (version : Version)
  | dataDelete (model : ModelRef) (name : JsString) (version : Option Version)
  | dataGc (model : ModelRef) (name : JsString) (version : Option Version)
  | dataRename (model : ModelRef) (name target : JsString)
  | outputSave (model : ModelRef) (outputId : JsString)
  | outputDelete (model : ModelRef) (outputId : JsString)
  | model (kind : ModelIntentKind) (model : ModelRef)
  | run (kind : RunIntentKind) (run : RunRef)
  | definition (kind : DefinitionIntentKind) (definition : DefinitionRef)
  | definitionRenameTo (definition : DefinitionRef) (source : JsString)
  | definitionRenameFrom (definition : DefinitionRef) (target : JsString)
  | autoDefinitionSave (id : JsString)
  | autoDefinitionDelete (id : JsString)
  | lockfileWrite
deriving DecidableEq

/-- One chunk of a blob. -/
structure BlobPart where
  sha256 : Sha256
  size : ℕ
deriving DecidableEq

/-- Content kept outside the commit, by its digest. -/
structure BlobRef where
  sha256 : Sha256
  size : ℕ
  parts : Option (List BlobPart)
  legacyKey : Option RecordKey
deriving DecidableEq

/-- The access a file travels with, beyond that of a plain one. -/
inductive FileAccess where
  | executable
  | «private»
  | privateExecutable
deriving DecidableEq

/-- The content of a put.  The digest of an inline text is recomputed from its
bytes by whoever reads the commit, so it stands beside the text. -/
inductive PutContent where
  | blob (ref : BlobRef)
  | inline (text : JsString) (digest : Sha256)
deriving DecidableEq

/-- What a put expects of its key. -/
inductive PutExpect where
  | absent
  | sha256 (digest : Sha256)
deriving DecidableEq

/-- What a tombstone expects of its key. -/
inductive TombstoneExpect where
  | present
  | sha256 (digest : Sha256)
deriving DecidableEq

/-- Whether a version of a data name is the name's or marks its end. -/
inductive DataLifecycle where
  | active
  | deleted
deriving DecidableEq

/-- The kinds of writer a data version has. -/
inductive OwnerType where
  | modelMethod
  | workflowStep
  | manual
deriving DecidableEq

/-- Who wrote a data version. -/
structure OwnerDefinition where
  definitionHash : Option JsString
  ownerType : OwnerType
  ownerRef : JsString
  workflowId : Option JsString
  workflowRunId : Option JsString
  workflowName : Option JsString
  jobName : Option JsString
  stepName : Option JsString
  source : Option JsString
deriving DecidableEq

/-- How many versions, or how long, a data name keeps. -/
inductive GarbageCollectionPolicy where
  | count (n : ℕ)
  | duration (text : JsString)
deriving DecidableEq

/-- The metadata of one data version.  Tags stand in key order. -/
structure DataMetadata where
  name : JsString
  id : JsString
  version : Version
  contentType : JsString
  lifetime : JsString
  garbageCollection : GarbageCollectionPolicy
  streaming : Bool
  tags : List (JsString × JsString)
  ownerDefinition : OwnerDefinition
  createdAt : JsString
  size : Option ℕ
  checksum : Option JsString
  lifecycle : Option DataLifecycle
  renamedTo : Option JsString
deriving DecidableEq

/-- A put: the record a key holds from here on. -/
structure PutOp where
  intent : Intent
  key : RecordKey
  content : PutContent
  expect : Option PutExpect
  access : Option FileAccess
deriving DecidableEq

/-- The digest of a put's content. -/
def PutOp.sha256 (op : PutOp) : Sha256 :=
  match op.content with
  | .blob ref => ref.sha256
  | .inline _ digest => digest

/-- A tombstone: the key holds no record from here on. -/
structure TombstoneOp where
  intent : Intent
  key : RecordKey
  expect : Option TombstoneExpect
deriving DecidableEq

/-- The record of a data version. -/
structure DataVersionOp where
  key : RecordKey
  metadata : DataMetadata
deriving DecidableEq

/-- The longest lease holder, in code units. -/
def MAX_HOLDER_LENGTH : ℕ := 1024

/-- A model lease taken in the partition. -/
structure LeaseOp where
  holder : JsString
  fence : Fence
  holder_ne : holder ≠ []
  holder_short : holder.length ≤ MAX_HOLDER_LENGTH
deriving DecidableEq

/-- An op of a commit. -/
inductive Op where
  | put (op : PutOp)
  | tombstone (op : TombstoneOp)
  | dataVersion (op : DataVersionOp)
  | lease (op : LeaseOp)
deriving DecidableEq

/-- The process that wrote a commit. -/
structure CommitWriter where
  host : JsString
  pid : ℕ
  inst : JsString
deriving DecidableEq

/-- A commit. -/
structure Commit where
  seq : ℕ
  partition : PartitionKey
  ns : JsString
  txnId : JsString
  writer : CommitWriter
  executedAt : Option JsString
  clockOffsetMs : Option ℚ
  principal : Option JsString
  fence : Option Fence
  atTime : JsString
  ops : List Op
  seq_pos : 1 ≤ seq
  seq_safe : seq ≤ maxSafeInteger
deriving DecidableEq

/-- The data name and version a `data.append` put adds content to. -/
def PutOp.appends (op : PutOp) : Option (JsString × Version) :=
  match op.intent with
  | .dataAppend _ name version => some (name, version)
  | _ => none

/-- The data name and version a versioned `data.delete` or `data.gc` removes. -/
def TombstoneOp.removes (op : TombstoneOp) : Option (JsString × Version) :=
  match op.intent with
  | .dataDelete _ name (some version) => some (name, version)
  | .dataGc _ name (some version) => some (name, version)
  | _ => none

end Swamp
