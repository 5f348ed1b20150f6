import Swamp.ExceptRules
import Swamp.ModelType
import Swamp.RepositoryChanges

/-!
# Intents, and the partition each belongs to

An intent is read from JSON by `createIntent`, one reader a shape.  Its ids are
lowercased as they are read, as `partitionOf` lowercases them, so the identity
serve authorises on is the identity the partition holds; that the two agree is
`Identifies`, and `createIntent_ok` says it of every intent that is accepted.
-/

namespace Swamp

open Js

/-- A lowercase hex digit. -/
def isHexUnit (u : CodeUnit) : Bool :=
  (48 ≤ u.val && u.val ≤ 57) || (97 ≤ u.val && u.val ≤ 102)

/-- A UUID in canonical lowercase. -/
def isUuid (id : JsString) : Bool :=
  match id.splitOn (unit '-') with
  | [a, b, c, d, e] =>
    [a, b, c, d, e].map List.length == [8, 4, 4, 4, 12] &&
      [a, b, c, d, e].all (fun group => group.all isHexUnit)
  | _ => false

/-- Why an aggregate has no partition. -/
inductive PartitionError where
  | uuid (label id : JsString)
  | name
  | encoding
  | tooLong
deriving DecidableEq

/-- The aggregate a partition is asked for.  A type is a `ModelType`, of which
only the normalized form reaches the key. -/
inductive AggregateIdentity where
  | model (type : ModelType) (id : JsString)
  | run (workflowId runId : JsString)
  | config (definitionKind : DefinitionKind) (name : JsString)
  | lockfile
  | definition (id : JsString)

/-- `PartitionKey.fromIdentity`. -/
def PartitionKey.fromIdentity (identity : PartitionIdentity) :
    Except PartitionError PartitionKey :=
  match h : identity.format with
  | none => .error .encoding
  | some value =>
    if hshort : value.length ≤ MAX_PARTITION_KEY_LENGTH then .ok ⟨value, identity, h, hshort⟩
    else .error .tooLong

theorem fromIdentity_identity {identity : PartitionIdentity} {key : PartitionKey}
    (h : PartitionKey.fromIdentity identity = .ok key) : key.identity = identity := by
  unfold PartitionKey.fromIdentity at h
  split at h
  · cases h
  · split at h
    · cases h
      rfl
    · cases h

section

variable (toLowerCase : JsString → JsString)

/-- `canonicalUuid`. -/
def canonicalUuid (id label : JsString) : Except PartitionError JsString :=
  let lowered := toLowerCase id
  if isUuid lowered then .ok lowered else .error (.uuid label lowered)

/-- The identity a partition of an aggregate holds. -/
def partitionIdentity : AggregateIdentity → Except PartitionError PartitionIdentity
  | .model type id => do
      return .model type.normalized (← canonicalUuid toLowerCase id (js "model id"))
  | .run workflowId runId => do
      return .run (← canonicalUuid toLowerCase workflowId (js "workflow id"))
        (← canonicalUuid toLowerCase runId (js "run id"))
  | .config definitionKind name =>
    if name = [] then .error .name else .ok (.config definitionKind name)
  | .lockfile => .ok .lockfile
  | .definition id => do
      return .definition (← canonicalUuid toLowerCase id (js "auto-definition id"))

/-- `partitionOf`. -/
def partitionOf (identity : AggregateIdentity) : Except PartitionError PartitionKey := do
  PartitionKey.fromIdentity (← partitionIdentity toLowerCase identity)

end

/-- The kind of an intent. -/
inductive IntentKind where
  | dataSave
  | dataAppend
  | dataDelete
  | dataGc
  | dataRename
  | outputSave
  | outputDelete
  | model (kind : ModelIntentKind)
  | run (kind : RunIntentKind)
  | definition (kind : DefinitionIntentKind)
  | definitionRenameTo
  | definitionRenameFrom
  | autoDefinitionSave
  | autoDefinitionDelete
  | lockfileWrite
deriving DecidableEq

def Intent.kind : Intent → IntentKind
  | .dataSave .. => .dataSave
  | .dataAppend .. => .dataAppend
  | .dataDelete .. => .dataDelete
  | .dataGc .. => .dataGc
  | .dataRename .. => .dataRename
  | .outputSave .. => .outputSave
  | .outputDelete .. => .outputDelete
  | .model kind _ => .model kind
  | .run kind _ => .run kind
  | .definition kind _ => .definition kind
  | .definitionRenameTo .. => .definitionRenameTo
  | .definitionRenameFrom .. => .definitionRenameFrom
  | .autoDefinitionSave .. => .autoDefinitionSave
  | .autoDefinitionDelete .. => .autoDefinitionDelete
  | .lockfileWrite => .lockfileWrite

/-- Every kind with its text, in the source's order. -/
def INTENT_KINDS : List (JsString × IntentKind) :=
  [(js "data.save", .dataSave), (js "data.append", .dataAppend),
   (js "data.delete", .dataDelete), (js "data.gc", .dataGc), (js "data.rename", .dataRename),
   (js "output.save", .outputSave), (js "output.delete", .outputDelete),
   (js "evaluated-definition.save", .model .evaluatedDefinitionSave),
   (js "evaluated-definition.delete", .model .evaluatedDefinitionDelete),
   (js "grant.create", .model .grantCreate), (js "grant.revoke", .model .grantRevoke),
   (js "group.create", .model .groupCreate), (js "group.update", .model .groupUpdate),
   (js "token.create", .model .tokenCreate), (js "token.revoke", .model .tokenRevoke),
   (js "token.rotate", .model .tokenRotate),
   (js "worker-token.create", .model .workerTokenCreate),
   (js "worker-token.revoke", .model .workerTokenRevoke),
   (js "worker.delete", .model .workerDelete), (js "run.create", .run .runCreate),
   (js "run.update", .run .runUpdate), (js "run.delete", .run .runDelete),
   (js "run-snapshot.save", .run .runSnapshotSave),
   (js "run-snapshot.delete", .run .runSnapshotDelete),
   (js "run-start.save", .run .runStartSave), (js "run-start.delete", .run .runStartDelete),
   (js "definition.create", .definition .definitionCreate),
   (js "definition.edit", .definition .definitionEdit),
   (js "definition.delete", .definition .definitionDelete),
   (js "evaluated-workflow.save", .definition .evaluatedWorkflowSave),
   (js "evaluated-workflow.delete", .definition .evaluatedWorkflowDelete),
   (js "definition.rename-to", .definitionRenameTo),
   (js "definition.rename-from", .definitionRenameFrom),
   (js "auto-definition.save", .autoDefinitionSave),
   (js "auto-definition.delete", .autoDefinitionDelete), (js "lockfile.write", .lockfileWrite)]

/-- The type a control-plane kind needs of its model. -/
def CONTROL_PLANE_INTENT_TYPES : IntentKind → Option JsString
  | .model .grantCreate => some (js "swamp/grant")
  | .model .grantRevoke => some (js "swamp/grant")
  | .model .groupCreate => some (js "swamp/group")
  | .model .groupUpdate => some (js "swamp/group")
  | .model .tokenCreate => some (js "swamp/server-token")
  | .model .tokenRevoke => some (js "swamp/server-token")
  | .model .tokenRotate => some (js "swamp/server-token")
  | .model .workerTokenCreate => some (js "swamp/enrollment-token")
  | .model .workerTokenRevoke => some (js "swamp/enrollment-token")
  | .model .workerDelete => some (js "swamp/worker")
  | _ => none

/-- Why a value is no intent. -/
inductive IntentError where
  | notObject (label : JsString)
  | unknownKind
  | text (label : JsString)
  | tooLong (label : JsString)
  | modelType (kind : IntentKind) (type : JsString)
  | notNormalized (kind : IntentKind) (type : JsString)
  | needsType (kind : IntentKind) (required type : JsString)
  | definitionKind (kind : IntentKind)
  | needsWorkflow (kind : IntentKind)
  | dataName (name : JsString)
  | version
  | extraField (kind : IntentKind) (field : JsString)
  | partitionType (error : ModelTypeError)
  | partition (error : PartitionError)
deriving DecidableEq

/-- What reading an intent gives. -/
abbrev Reads := Except IntentError

namespace createIntent

/-- `asObject`. -/
def asObject (label : JsString) : Option Json → Reads (List (JsString × Json))
  | some (.obj fields) => .ok fields
  | _ => .error (.notObject label)

/-- `requireOnlyFields`. -/
def requireOnlyFields (fields : List (JsString × Json)) (allowed : List JsString)
    (kind : IntentKind) : Reads Unit :=
  match fields.find? (fun field => !allowed.contains field.1) with
  | some field => .error (.extraField kind field.1)
  | none => .ok ()

/-- `readString`. -/
def readString (label : JsString) : Option Json → Reads JsString
  | some (.str value) =>
    if value = [] then .error (.text label)
    else if MAX_FIELD_LENGTH < value.length then .error (.tooLong label)
    else .ok value
  | _ => .error (.text label)

/-- `readDataName`. -/
def readDataName (value : Option Json) : Reads JsString := do
  let name ← readString (js "data name") value
  if isDataName name then .ok name else .error (.dataName name)

/-- `readVersion`. -/
def readVersion (value : Option Json) : Reads Version :=
  match value.bind Json.safeNat with
  | none => .error .version
  | some n =>
    if h : 1 ≤ n ∧ n ≤ maxSafeInteger then .ok ⟨n, Version.pos_of h, Version.safe_of h⟩
    else .error .version

/-- The kind of a definition from its text. -/
def definitionKindOf (value : Option Json) : Option DefinitionKind :=
  match value with
  | some (.str text) => [DefinitionKind.model, .workflow, .vault].find? (fun k => k.text = text)
  | _ => none

/-- `readDefinition`. -/
def readDefinition (kind : IntentKind) (value : Option Json) : Reads DefinitionRef := do
  let ref ← asObject (js "definition") value
  requireOnlyFields ref [js "kind", js "name"] kind
  match definitionKindOf (Json.field ref (js "kind")) with
  | none => .error (.definitionKind kind)
  | some definitionKind =>
    if (kind = .definition .evaluatedWorkflowSave ∨
        kind = .definition .evaluatedWorkflowDelete) ∧ definitionKind ≠ .workflow then
      .error (.needsWorkflow kind)
    else
      return ⟨definitionKind, ← readString (js "definition.name") (Json.field ref (js "name"))⟩

section

variable (toLowerCase : JsString → JsString)

/-- `readId`: lowercased as `partitionOf` lowercases it. -/
def readId (label : JsString) (value : Option Json) : Reads JsString := do
  return toLowerCase (← readString label value)

/-- `readModel`. -/
def readModel (kind : IntentKind) (value : Option Json) : Reads ModelRef := do
  let ref ← asObject (js "model") value
  requireOnlyFields ref [js "type", js "id"] kind
  let type ← readString (js "model.type") (Json.field ref (js "type"))
  match ModelType.create toLowerCase type with
  | .error _ => .error (.modelType kind type)
  | .ok created =>
    if created.normalized ≠ type then .error (.notNormalized kind type)
    else
      match CONTROL_PLANE_INTENT_TYPES kind with
      | some required =>
        if normalizeModelTypeName toLowerCase type ≠ some required then
          .error (.needsType kind required type)
        else return ⟨type, ← readId toLowerCase (js "model.id") (Json.field ref (js "id"))⟩
      | none => return ⟨type, ← readId toLowerCase (js "model.id") (Json.field ref (js "id"))⟩

/-- `readRun`: the run of a `run` shape. -/
def readRun (kind : IntentKind) (value : Option Json) : Reads RunRef := do
  let run ← asObject (js "run") value
  requireOnlyFields run [js "workflowId", js "runId"] kind
  let workflowId ← readId toLowerCase (js "workflowId") (Json.field run (js "workflowId"))
  let runId ← readId toLowerCase (js "runId") (Json.field run (js "runId"))
  return ⟨workflowId, runId⟩

/-- The id of an `auto` shape. -/
def readAutoDefinition (kind : IntentKind) (value : Option Json) : Reads JsString := do
  let ref ← asObject (js "autoDefinition") value
  requireOnlyFields ref [js "id"] kind
  readId toLowerCase (js "autoDefinition.id") (Json.field ref (js "id"))

/-- A version that may be absent. -/
def readOptVersion : Option Json → Reads (Option Version)
  | none => .ok none
  | some value => do return some (← readVersion (some value))

/-- `build`. -/
def build (kind : IntentKind) (json : List (JsString × Json)) : Reads Intent :=
  let field := fun name => Json.field json (js name)
  match kind with
  | .dataSave => do
      let model ← readModel toLowerCase kind (field "model")
      let name ← readDataName (field "name")
      let version ← readVersion (field "version")
      return .dataSave model name version
  | .dataAppend => do
      let model ← readModel toLowerCase kind (field "model")
      let name ← readDataName (field "name")
      let version ← readVersion (field "version")
      return .dataAppend model name version
  | .dataDelete => do
      let model ← readModel toLowerCase kind (field "model")
      let name ← readDataName (field "name")
      let version ← readOptVersion (field "version")
      return .dataDelete model name version
  | .dataGc => do
      let model ← readModel toLowerCase kind (field "model")
      let name ← readDataName (field "name")
      let version ← readOptVersion (field "version")
      return .dataGc model name version
  | .dataRename => do
      let model ← readModel toLowerCase kind (field "model")
      let name ← readDataName (field "name")
      let target ← readDataName (field "to")
      return .dataRename model name target
  | .outputSave => do
      let model ← readModel toLowerCase kind (field "model")
      let outputId ← readString (js "outputId") (field "outputId")
      return .outputSave model outputId
  | .outputDelete => do
      let model ← readModel toLowerCase kind (field "model")
      let outputId ← readString (js "outputId") (field "outputId")
      return .outputDelete model outputId
  | .model modelKind => do
      let model ← readModel toLowerCase kind (field "model")
      return .model modelKind model
  | .run runKind => do
      let run ← readRun toLowerCase kind (field "run")
      return .run runKind run
  | .definition definitionKind => do
      let definition ← readDefinition kind (field "definition")
      return .definition definitionKind definition
  | .definitionRenameTo => do
      let definition ← readDefinition kind (field "definition")
      let source ← readString (js "from") (field "from")
      return .definitionRenameTo definition source
  | .definitionRenameFrom => do
      let definition ← readDefinition kind (field "definition")
      let target ← readString (js "to") (field "to")
      return .definitionRenameFrom definition target
  | .autoDefinitionSave => do
      let id ← readAutoDefinition toLowerCase kind (field "autoDefinition")
      return .autoDefinitionSave id
  | .autoDefinitionDelete => do
      let id ← readAutoDefinition toLowerCase kind (field "autoDefinition")
      return .autoDefinitionDelete id
  | .lockfileWrite => .ok .lockfileWrite

end

end createIntent

/-- What an intent carries: which of the source's `"model" in intent` and its
siblings holds. -/
inductive IntentSubject where
  | model (model : ModelRef)
  | run (run : RunRef)
  | definition (definition : DefinitionRef)
  | autoDefinition (id : JsString)
  | none

def Intent.subject : Intent → IntentSubject
  | .dataSave ref _ _ => .model ref
  | .dataAppend ref _ _ => .model ref
  | .dataDelete ref _ _ => .model ref
  | .dataGc ref _ _ => .model ref
  | .dataRename ref _ _ => .model ref
  | .outputSave ref _ => .model ref
  | .outputDelete ref _ => .model ref
  | .model _ ref => .model ref
  | .run _ ref => .run ref
  | .definition _ ref => .definition ref
  | .definitionRenameTo ref _ => .definition ref
  | .definitionRenameFrom ref _ => .definition ref
  | .autoDefinitionSave id => .autoDefinition id
  | .autoDefinitionDelete id => .autoDefinition id
  | .lockfileWrite => .none

/-- The partition of a subject. -/
def IntentSubject.partition (toLowerCase : JsString → JsString) (subject : IntentSubject) :
    Reads PartitionKey :=
  let of := fun identity =>
    (partitionOf toLowerCase identity).mapError IntentError.partition
  match subject with
  | .model ref =>
    match ModelType.create toLowerCase ref.type with
    | .error e => .error (.partitionType e)
    | .ok type => of (.model type ref.id)
  | .run ref => of (.run ref.workflowId ref.runId)
  | .definition ref => of (.config ref.kind ref.name)
  | .autoDefinition id => of (.definition id)
  | .none => of .lockfile

/-- `intentPartition`. -/
def intentPartition (toLowerCase : JsString → JsString) (intent : Intent) : Reads PartitionKey :=
  intent.subject.partition toLowerCase

/-- The fields an intent is written with: what `Object.keys` gives. -/
def Intent.fieldNames : Intent → List JsString
  | .dataSave .. => [js "kind", js "model", js "name", js "version"]
  | .dataAppend .. => [js "kind", js "model", js "name", js "version"]
  | .dataDelete _ _ version => [js "kind", js "model", js "name"] ++ optVersion version
  | .dataGc _ _ version => [js "kind", js "model", js "name"] ++ optVersion version
  | .dataRename .. => [js "kind", js "model", js "name", js "to"]
  | .outputSave .. => [js "kind", js "model", js "outputId"]
  | .outputDelete .. => [js "kind", js "model", js "outputId"]
  | .model .. => [js "kind", js "model"]
  | .run .. => [js "kind", js "run"]
  | .definition .. => [js "kind", js "definition"]
  | .definitionRenameTo .. => [js "kind", js "definition", js "from"]
  | .definitionRenameFrom .. => [js "kind", js "definition", js "to"]
  | .autoDefinitionSave .. => [js "kind", js "autoDefinition"]
  | .autoDefinitionDelete .. => [js "kind", js "autoDefinition"]
  | .lockfileWrite => [js "kind"]
where
  optVersion (version : Option Version) : List JsString :=
    if version.isSome then [js "version"] else []

/-- `createIntent`. -/
def createIntent (toLowerCase : JsString → JsString) (value : Json) : Reads Intent := do
  let json ← createIntent.asObject (js "Intent") (some value)
  match Json.field json (js "kind") with
  | some (.str text) =>
    match INTENT_KINDS.lookup text with
    | none => .error .unknownKind
    | some kind => do
        let intent ← createIntent.build toLowerCase kind json
        createIntent.requireOnlyFields json intent.fieldNames kind
        let _ ← intentPartition toLowerCase intent
        return intent
  | _ => .error .unknownKind

/-- What `createIntent` promises of an intent. -/
structure Intent.WellFormed (toLowerCase : JsString → JsString) (intent : Intent) : Prop where
  type : ∀ ref, intent.subject = .model ref →
    ∃ type, ModelType.create toLowerCase ref.type = .ok type ∧ type.normalized = ref.type
  required : ∀ ref, intent.subject = .model ref →
    ∀ required, CONTROL_PLANE_INTENT_TYPES intent.kind = some required →
      normalizeModelTypeName toLowerCase ref.type = some required
  model : ∀ ref, intent.subject = .model ref → ∃ raw, ref.id = toLowerCase raw
  run : ∀ ref, intent.subject = .run ref →
    ∃ workflowId runId, ref = ⟨toLowerCase workflowId, toLowerCase runId⟩
  autoDefinition : ∀ id, intent.subject = .autoDefinition id → ∃ raw, id = toLowerCase raw
  workflow : ∀ ref, intent.subject = .definition ref →
    intent.kind = .definition .evaluatedWorkflowSave ∨
      intent.kind = .definition .evaluatedWorkflowDelete → ref.kind = .workflow

variable {intent : Intent}

namespace createIntent

variable {toLowerCase : JsString → JsString}

open ExceptRules

variable {value : Option Json}

theorem readId_ok {label : JsString} {id : JsString} (h : readId toLowerCase label value = .ok id) :
    ∃ raw, id = toLowerCase raw := by
  obtain ⟨raw, -, h⟩ := bind_ok h
  cases h
  exact ⟨raw, rfl⟩

variable {kind : IntentKind}

theorem readModel_ok {ref : ModelRef} (h : readModel toLowerCase kind value = .ok ref) :
    (∃ type, ModelType.create toLowerCase ref.type = .ok type ∧ type.normalized = ref.type) ∧
      (∀ required, CONTROL_PLANE_INTENT_TYPES kind = some required →
        normalizeModelTypeName toLowerCase ref.type = some required) ∧
      ∃ raw, ref.id = toLowerCase raw := by
  obtain ⟨fields, -, h⟩ := bind_ok h
  obtain ⟨-, -, h⟩ := bind_ok h
  obtain ⟨type, -, h⟩ := bind_ok h
  split at h
  · cases h
  · rename_i created hcreated
    split at h
    · cases h
    · rename_i hnormalized
      have hsame : created.normalized = type := not_not.mp hnormalized
      split at h
      · rename_i required hrequired
        split at h
        · cases h
        · rename_i hname
          obtain ⟨id, hid, h⟩ := bind_ok h
          cases h
          refine ⟨⟨created, hcreated, hsame⟩, ?_, readId_ok hid⟩
          intro other hother
          rw [hrequired] at hother
          cases hother
          exact not_not.mp hname
      · rename_i hrequired
        obtain ⟨id, hid, h⟩ := bind_ok h
        cases h
        refine ⟨⟨created, hcreated, hsame⟩, ?_, readId_ok hid⟩
        intro other hother
        rw [hrequired] at hother
        cases hother

theorem readRun_ok {ref : RunRef} (h : readRun toLowerCase kind value = .ok ref) :
    ∃ workflowId runId, ref = ⟨toLowerCase workflowId, toLowerCase runId⟩ := by
  obtain ⟨fields, -, h⟩ := bind_ok h
  obtain ⟨-, -, h⟩ := bind_ok h
  obtain ⟨workflowId, hworkflow, h⟩ := bind_ok h
  obtain ⟨runId, hrun, h⟩ := bind_ok h
  cases h
  obtain ⟨rawWorkflow, rfl⟩ := readId_ok hworkflow
  obtain ⟨rawRun, rfl⟩ := readId_ok hrun
  exact ⟨rawWorkflow, rawRun, rfl⟩

theorem readAutoDefinition_ok {id : JsString}
    (h : readAutoDefinition toLowerCase kind value = .ok id) : ∃ raw, id = toLowerCase raw := by
  obtain ⟨fields, -, h⟩ := bind_ok h
  obtain ⟨-, -, h⟩ := bind_ok h
  exact readId_ok h

theorem readDefinition_ok {ref : DefinitionRef} (h : readDefinition kind value = .ok ref) :
    kind = .definition .evaluatedWorkflowSave ∨ kind = .definition .evaluatedWorkflowDelete →
      ref.kind = .workflow := by
  intro hkind
  obtain ⟨fields, -, h⟩ := bind_ok h
  obtain ⟨-, -, h⟩ := bind_ok h
  split at h
  · cases h
  · rename_i definitionKind hdefinition
    split at h
    · cases h
    · rename_i hworkflow
      obtain ⟨name, -, h⟩ := bind_ok h
      cases h
      by_contra hne
      exact hworkflow ⟨hkind, hne⟩

/-- An intent about a model, once its model is read. -/
theorem wellFormed_of_model {ref : ModelRef} (hsubject : intent.subject = .model ref)
    (hread : readModel toLowerCase intent.kind value = .ok ref) :
    intent.WellFormed toLowerCase := by
  obtain ⟨htype, hrequired, hid⟩ := readModel_ok hread
  refine ⟨?_, ?_, ?_, ?_, ?_, ?_⟩
  · intro other hother
    rw [hsubject] at hother
    cases hother
    exact htype
  · intro other hother
    rw [hsubject] at hother
    cases hother
    exact hrequired
  · intro other hother
    rw [hsubject] at hother
    cases hother
    exact hid
  · intro other hother
    rw [hsubject] at hother
    cases hother
  · intro other hother
    rw [hsubject] at hother
    cases hother
  · intro other hother
    rw [hsubject] at hother
    cases hother

theorem wellFormed_of_definition {ref : DefinitionRef} (hsubject : intent.subject = .definition ref)
    (hread : readDefinition intent.kind value = .ok ref) : intent.WellFormed toLowerCase := by
  constructor <;> simp [hsubject]
  exact fun hkind => readDefinition_ok hread hkind

/-- **Every reader gives well-formed intents.** -/
theorem build_wellFormed {json : List (JsString × Json)}
    (h : build toLowerCase kind json = .ok intent) : intent.WellFormed toLowerCase := by
  cases kind with
  | dataSave | dataAppend | dataDelete | dataGc =>
    obtain ⟨model, hmodel, h⟩ := bind_ok h
    obtain ⟨name, -, h⟩ := bind_ok h
    obtain ⟨version, -, h⟩ := bind_ok h
    cases h
    exact wellFormed_of_model rfl hmodel
  | dataRename =>
    obtain ⟨model, hmodel, h⟩ := bind_ok h
    obtain ⟨name, -, h⟩ := bind_ok h
    obtain ⟨target, -, h⟩ := bind_ok h
    cases h
    exact wellFormed_of_model rfl hmodel
  | outputSave | outputDelete =>
    obtain ⟨model, hmodel, h⟩ := bind_ok h
    obtain ⟨outputId, -, h⟩ := bind_ok h
    cases h
    exact wellFormed_of_model rfl hmodel
  | model modelKind =>
    obtain ⟨model, hmodel, h⟩ := bind_ok h
    cases h
    exact wellFormed_of_model rfl hmodel
  | run runKind =>
    obtain ⟨run, hrun, h⟩ := bind_ok h
    cases h
    obtain ⟨workflowId, runId, rfl⟩ := readRun_ok hrun
    constructor <;> simp [Intent.subject]
  | definition definitionKind =>
    obtain ⟨definition, hdefinition, h⟩ := bind_ok h
    cases h
    exact wellFormed_of_definition rfl hdefinition
  | definitionRenameTo =>
    obtain ⟨definition, hdefinition, h⟩ := bind_ok h
    obtain ⟨source, -, h⟩ := bind_ok h
    cases h
    exact wellFormed_of_definition rfl hdefinition
  | definitionRenameFrom =>
    obtain ⟨definition, hdefinition, h⟩ := bind_ok h
    obtain ⟨target, -, h⟩ := bind_ok h
    cases h
    exact wellFormed_of_definition rfl hdefinition
  | autoDefinitionSave | autoDefinitionDelete =>
    obtain ⟨id, hid, h⟩ := bind_ok h
    cases h
    obtain ⟨raw, rfl⟩ := readAutoDefinition_ok hid
    constructor <;> simp [Intent.subject]
  | lockfileWrite =>
    cases h
    constructor <;> simp [Intent.subject]

end createIntent

/-- **An accepted intent is well formed and has a partition.** -/
theorem createIntent_ok {toLowerCase : JsString → JsString} {value : Json}
    (h : createIntent toLowerCase value = .ok intent) :
    intent.WellFormed toLowerCase ∧ ∃ key, intentPartition toLowerCase intent = .ok key := by
  obtain ⟨json, -, h⟩ := ExceptRules.bind_ok h
  split at h
  · split at h
    · cases h
    · obtain ⟨built, hbuilt, h⟩ := ExceptRules.bind_ok h
      obtain ⟨-, -, h⟩ := ExceptRules.bind_ok h
      obtain ⟨key, hkey, h⟩ := ExceptRules.bind_ok h
      cases h
      exact ⟨createIntent.build_wellFormed hbuilt, key, hkey⟩
  · cases h

end Swamp
