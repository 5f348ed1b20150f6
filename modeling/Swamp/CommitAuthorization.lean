import Swamp.IntentKeyPaths

/-!
# What reading a commit, or a compacted record, requires

A commit of the changes feed is kept for a caller who may read every op, decided
from the op's intent (`readAccessOf`).  A compacted record carries no intent, so
it is decided from its partition and key alone (`baseRecordReadAccessOf`).

The lookups of aggregates are the resolver's, a parameter.
-/

namespace Swamp

open Js

/-- What a caller does. -/
inductive Action where
  | run
  | read
  | write
  | approve
  | signal
  | tag
  | admin
deriving DecidableEq

/-- The kinds of resource a grant names. -/
inductive ResourceKind where
  | workflow
  | model
  | data
  | access
  | vault
deriving DecidableEq

/-- Tags, in the order they are written. -/
abbrev Tags := List (JsString × JsString)

/-- The value of a field a condition may read. -/
inductive FieldValue where
  | text (value : JsString)
  | tags (value : Tags)
deriving DecidableEq

/-- What an access is asked for. -/
structure AccessResource where
  kind : ResourceKind
  name : JsString
  fields : List (JsString × FieldValue)
deriving DecidableEq

/-- An access a caller must have. -/
structure RequiredAccess where
  action : Action
  resource : AccessResource
deriving DecidableEq

/-- A definition found for a model, with its type. -/
structure DefinitionLookupResult where
  name : JsString
  tags : Option Tags
  type : ModelType

/-- A workflow found by its id. -/
structure ResolvedWorkflow where
  name : JsString
  tags : Option Tags

/-- The lookups of aggregates, by the identity an intent holds. -/
structure AggregateResourceResolver where
  model : ModelRef → Option DefinitionLookupResult
  definitionTags : DefinitionKind → JsString → Option ModelType → Option Tags
  workflow : JsString → Option ResolvedWorkflow
  isRestrictedType : ModelType → Bool

/-- What deciding an access throws. -/
inductive AccessError where
  | emptyType
  | modelType (error : ModelTypeError)
deriving DecidableEq

/-- The resource of everything, for an admin. -/
def ADMIN_RESOURCE : AccessResource := ⟨.access, js "*", []⟩

/-- The access of an admin. -/
def adminAccess : RequiredAccess := ⟨.admin, ADMIN_RESOURCE⟩

/-- The two kinds a behavior's records are read as. -/
def ModelRecordKind.resourceKind : ModelRecordKind → ResourceKind
  | .data => .data
  | .model => .model

/-- `modelTypeFields`: every field of the kind is present, empty when none. -/
def modelTypeFields (name type : JsString) (tags : Option Tags) (kind : ModelRecordKind) :
    List (JsString × FieldValue) :=
  let typed :=
    match kind with
    | .model => (js "modelType", FieldValue.text type)
    | .data => (js "ns", FieldValue.text ((ModelType.getUserNamespace type).getD []))
  [(js "name", .text name), typed, (js "tags", .tags (tags.getD []))]

/-- `workflowAccessResource`. -/
def workflowAccessResource (name : JsString) (tags : Option Tags) : AccessResource :=
  ⟨.workflow, name, [(js "name", .text name), (js "tags", .tags (tags.getD []))]⟩

/-- `unresolvedAccessResource`. -/
def unresolvedAccessResource (kind : ResourceKind) (idOrName : JsString) : AccessResource where
  kind := kind
  name := idOrName
  fields :=
    [(js "name", .text idOrName)] ++
      (if kind = .access then [] else [(js "tags", .tags [])]) ++
      (if kind = .data then [(js "ns", .text [])] else [])

/-- The methods of a vault a definition's change is decided as. -/
inductive VaultMethod where
  | create
  | delete
  | edit
  | describe

def VaultMethod.text : VaultMethod → JsString
  | .create => js "create"
  | .delete => js "delete"
  | .edit => js "edit"
  | .describe => js "describe"

/-- `vaultKindResource` with no key. -/
def vaultKindResource (name : JsString) (methodName : VaultMethod) : AccessResource :=
  ⟨.vault, name, [(js "name", .text name), (js "methodName", .text methodName.text)]⟩

/-- `unresolvedModelResource`: a behavior no definition holds, named by its id. -/
def unresolvedModelResource (type : ModelType) (id : JsString) (kind : ModelRecordKind) :
    AccessResource :=
  ⟨kind.resourceKind, id, modelTypeFields id type.normalized (some []) kind⟩

/-- `readOfDefinition`: reading a definition is the same read however it was
written. -/
def readOfDefinition (resource : AccessResource) : AccessResource :=
  if resource.kind = .vault then vaultKindResource resource.name .describe else resource

/-- `vaultDefinitionMethod`. -/
def vaultDefinitionMethod (intent : Intent) : VaultMethod :=
  match intent.kind with
  | .definition .definitionCreate => .create
  | .definition .definitionDelete => .delete
  | _ => .edit

/-- Whether a kind's text starts with `data.`. -/
def IntentKind.isData : IntentKind → Bool
  | .dataSave => true
  | .dataAppend => true
  | .dataDelete => true
  | .dataGc => true
  | .dataRename => true
  | _ => false

section

variable (toLowerCase : JsString → JsString)

/-- `controlPlaneRecordResource`. -/
def controlPlaneRecordResource (type name : JsString) (tags : Option Tags) :
    Except AccessError AccessResource :=
  match normalizeModelTypeName toLowerCase type with
  | none => .error .emptyType
  | some typeName =>
    .ok ⟨.access, typeName, [(js "name", .text name), (js "modelType", .text typeName),
      (js "tags", .tags (tags.getD []))]⟩

/-- `modelAccessResource`: a control-plane model is owned by the access kind,
whichever kind was asked for. -/
def modelAccessResource (result : DefinitionLookupResult) (kind : ModelRecordKind) :
    Except AccessError AccessResource :=
  if isControlPlaneModelType toLowerCase result.type.normalized then
    controlPlaneRecordResource toLowerCase result.type.normalized result.name result.tags
  else
    .ok ⟨kind.resourceKind, result.name,
      modelTypeFields result.name result.type.normalized result.tags kind⟩

variable (resolver : AggregateResourceResolver)

/-- `controlPlaneResourceOf`. -/
def controlPlaneResourceOf (model : ModelRef) : Except AccessError AccessResource :=
  let lookup := resolver.model model
  controlPlaneRecordResource toLowerCase model.type
    ((lookup.map DefinitionLookupResult.name).getD model.id)
    (lookup.bind DefinitionLookupResult.tags)

/-- The read of a behavior's data or of the behavior itself. -/
def modelReadAccess (model : ModelRef) (type : ModelType) (kind : ModelRecordKind) :
    Except AccessError RequiredAccess := do
  match resolver.model model with
  | none => return ⟨.read, unresolvedModelResource type model.id kind⟩
  | some lookup => return ⟨.read, ← modelAccessResource toLowerCase lookup kind⟩

/-- The read of a run: of its workflow. -/
def runReadAccess (workflowId : JsString) : RequiredAccess :=
  match resolver.workflow workflowId with
  | none => ⟨.read, unresolvedAccessResource .workflow workflowId⟩
  | some workflow => ⟨.read, workflowAccessResource workflow.name (some (workflow.tags.getD []))⟩

/-- The type a key names under an intent. -/
def keyType (intent : Intent) (opKind : IntentOpKind) (key : RecordKey) : Option ModelType :=
  match bindKey toLowerCase intent opKind key with
  | .ok bound => bound.type
  | .error _ => none

/-- `definitionAccessOf`: a behavior definition's type comes from its key, never
its content. -/
def definitionAccessOf (intent : Intent) (opKind : IntentOpKind) (key : RecordKey)
    (definition : DefinitionRef) : RequiredAccess :=
  let type := keyType toLowerCase intent opKind key
  let tags := resolver.definitionTags definition.kind definition.name
    (if definition.kind = .model then type else none)
  match definition.kind with
  | .workflow => ⟨.write, workflowAccessResource definition.name (some (tags.getD []))⟩
  | .vault => ⟨.write, vaultKindResource definition.name (vaultDefinitionMethod intent)⟩
  | .model =>
    match type with
    | none => adminAccess
    | some type =>
      if isControlPlaneModelType toLowerCase type.normalized || resolver.isRestrictedType type
      then adminAccess
      else
        ⟨.write, ⟨.model, definition.name,
          modelTypeFields definition.name type.normalized tags .model⟩⟩

/-- A write of a definition, as the read that shows it. -/
def readAccessOfWrite (write : RequiredAccess) : RequiredAccess :=
  if write.action = .admin then write else ⟨.read, readOfDefinition write.resource⟩

/-- The read of an auto-definition, by the type its key names. -/
def autoDefinitionReadAccess (intent : Intent) (opKind : IntentOpKind) (key : RecordKey)
    (id : JsString) : RequiredAccess :=
  match keyType toLowerCase intent opKind key with
  | none => adminAccess
  | some type =>
    if isControlPlaneModelType toLowerCase type.normalized then adminAccess
    else ⟨.read, unresolvedModelResource type id .model⟩

/-- `readAccessOf` of an op that carries an intent: none when any authenticated
caller may read it. -/
def intentReadAccess (intent : Intent) (opKind : IntentOpKind) (key : RecordKey) :
    Except AccessError (Option RequiredAccess) :=
  match intent.subject with
  | .model model => do
      let type ← (ModelType.create toLowerCase model.type).mapError .modelType
      if (CONTROL_PLANE_INTENT_TYPES intent.kind).isSome ||
          isControlPlaneModelType toLowerCase type.normalized then
        return some ⟨.admin, ← controlPlaneResourceOf toLowerCase resolver model⟩
      else
        let kind := if intent.kind.isData then ModelRecordKind.data else .model
        return some (← modelReadAccess toLowerCase resolver model type kind)
  | .run run => .ok (some (runReadAccess resolver run.workflowId))
  | .definition definition =>
    .ok (some (readAccessOfWrite
      (definitionAccessOf toLowerCase resolver intent opKind key definition)))
  | .autoDefinition id =>
    .ok (some (autoDefinitionReadAccess toLowerCase intent opKind key id))
  | .none => .ok none

/-- `readAccessOf`. -/
def readAccessOf : Op → Except AccessError (Option RequiredAccess)
  | .dataVersion _ => .ok none
  | .lease _ => .ok none
  | .put op => intentReadAccess toLowerCase resolver op.intent .put op.key
  | .tombstone op => intentReadAccess toLowerCase resolver op.intent .tombstone op.key

/-- `partitionReadAccessOf`: a behavior's partition holds data and outputs, so
both reads are needed. -/
def partitionReadAccessOf (partition : PartitionKey) : Except AccessError (List RequiredAccess) :=
  match partition.identity with
  | .model type id => do
      let created ← (ModelType.create toLowerCase type).mapError AccessError.modelType
      if isControlPlaneModelType toLowerCase created.normalized then
        return [⟨.admin, ← controlPlaneResourceOf toLowerCase resolver ⟨type, id⟩⟩]
      else
        return [← modelReadAccess toLowerCase resolver ⟨type, id⟩ created .data,
          ← modelReadAccess toLowerCase resolver ⟨type, id⟩ created .model]
  | .run workflowId _ => .ok [runReadAccess resolver workflowId]
  | .config definitionKind name =>
    let tags := resolver.definitionTags definitionKind name none
    match definitionKind with
    | .workflow => .ok [⟨.read, workflowAccessResource name (some (tags.getD []))⟩]
    | .vault => .ok [⟨.read, vaultKindResource name .describe⟩]
    -- The partition names no behavior type, so a deny conditioned on the type
    -- or the tags fails closed.
    | .model => .ok [⟨.read, ⟨.model, name, [(js "name", .text name)]⟩⟩]
  | .definition _ => .ok [adminAccess]
  | .lockfile => .ok []

/-- The stem of the file a key ends in, empty where it is no YAML file. -/
def keyStem (key : RecordKey) : JsString := ((split key.value).getLast?.bind yamlStem).getD []

/-- `baseRecordReadAccessOf`. -/
def baseRecordReadAccessOf (partition : PartitionKey) (key : RecordKey) :
    Except AccessError (List RequiredAccess) :=
  match partition.identity with
  | .model type id => do
      let created ← (ModelType.create toLowerCase type).mapError AccessError.modelType
      if isControlPlaneModelType toLowerCase created.normalized then
        return [⟨.admin, ← controlPlaneResourceOf toLowerCase resolver ⟨type, id⟩⟩]
      else
        match modelRecordKind toLowerCase ⟨type, id⟩ key with
        | none => return adminAccess :: (← partitionReadAccessOf toLowerCase resolver partition)
        | some kind => return [← modelReadAccess toLowerCase resolver ⟨type, id⟩ created kind]
  | .run workflowId _ => .ok [runReadAccess resolver workflowId]
  | .config definitionKind name =>
    -- A rename puts the key named by the other name into this partition: the
    -- name the key's file carries is bound, so its type is read from the key.
    let definition : DefinitionRef := ⟨definitionKind, name⟩
    .ok [readAccessOfWrite (definitionAccessOf toLowerCase resolver
      (.definitionRenameTo definition (keyStem key)) .put key definition)]
  | .definition id =>
    .ok [autoDefinitionReadAccess toLowerCase (.autoDefinitionSave id) .put key id]
  | .lockfile => .ok []

end

end Swamp
