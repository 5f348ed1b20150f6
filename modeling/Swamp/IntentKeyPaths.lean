import Swamp.Intents

/-!
# The keys an intent may write

Serve authorises on the intent, so a key must belong to the intent's aggregate.
`bindSegments` reads a key's segments under each kind of intent.  A definition
stored by id cannot be tied to its name by layout; its binding says so, by
`fileId` or `fileName`.
-/

namespace Swamp

open Js

/-- The ops that carry an intent. -/
inductive IntentOpKind where
  | put
  | tombstone
deriving DecidableEq

/-- Why a key is not the intent's. -/
inductive KeyBindingRefusal where
  | keyOutsideAggregate
  | opKindNotAllowed
  | definitionTypeUnknown
deriving DecidableEq

/-- What an accepted key names beside the intent's aggregate. -/
structure BoundKey where
  fileId : Option JsString := none
  fileName : Option JsString := none
  type : Option ModelType := none
deriving DecidableEq

/-- A binding: accepted, or refused with a reason. -/
abbrev KeyBinding := Except KeyBindingRefusal BoundKey

/-- Nothing beside the aggregate. -/
def plainBinding : KeyBinding := .ok {}

/-- `OP_KINDS`: a version-less removal puts or tombstones the latest marker, a
move tombstones its old key under create or edit, and control-plane kinds write
new versions. -/
def OP_KINDS : IntentKind → List IntentOpKind
  | .dataSave => [.put]
  | .dataAppend => [.put]
  | .dataDelete => [.put, .tombstone]
  | .dataGc => [.put, .tombstone]
  | .dataRename => [.put]
  | .outputSave => [.put]
  | .outputDelete => [.tombstone]
  | .model .evaluatedDefinitionDelete => [.tombstone]
  | .model .workerDelete => [.put, .tombstone]
  | .model _ => [.put]
  | .run .runDelete => [.tombstone]
  | .run .runSnapshotDelete => [.tombstone]
  | .run .runStartDelete => [.tombstone]
  | .run _ => [.put]
  | .definition .definitionCreate => [.put, .tombstone]
  | .definition .definitionEdit => [.put, .tombstone]
  | .definition .evaluatedWorkflowSave => [.put]
  | .definition _ => [.tombstone]
  | .definitionRenameTo => [.put]
  | .definitionRenameFrom => [.tombstone]
  | .autoDefinitionSave => [.put]
  | .autoDefinitionDelete => [.tombstone]
  | .lockfileWrite => [.put]

/-- `opKindAllowed`. -/
def opKindAllowed (intent : Intent) (opKind : IntentOpKind) : Bool :=
  (OP_KINDS intent.kind).contains opKind

/-- The key of the lockfile. -/
def LOCKFILE_RECORD_KEY : JsString := js "config/upstream_extensions.json"

/-- The ending of every YAML file. -/
def yamlSuffix : JsString := js ".yaml"

/-- The name of a YAML file without its ending. -/
def yamlStem (file : JsString) : Option JsString :=
  if endsWith file yamlSuffix then some (file.take (file.length - yamlSuffix.length)) else none

/-- `STEP_START_FILE_PATTERN`. -/
def isStepStartFile (file : JsString) : Bool :=
  match yamlStem file with
  | some stem => decide (isSha256Hex stem)
  | none => false

/-- Which part of a name a removal may touch. -/
inductive OnlyPart where
  | latest
  | version
deriving DecidableEq

/-- `/^[1-9][0-9]*$/`. -/
def isVersionSegment (segment : JsString) : Bool :=
  match segment with
  | [] => false
  | u :: rest =>
    (49 ≤ u.val && u.val ≤ 57) && rest.all (fun v => 48 ≤ v.val && v.val ≤ 57)

/-- `dataKey`: `data/{type}/{id}/{name}/latest` or
`data/{type}/{id}/{name}/{version}/{raw|metadata.yaml}`. -/
def bindDataKey (model : ModelRef) (segments : List JsString) (names : Option (List JsString))
    (version : Option Version) (only : Option OnlyPart) : Option KeyBinding :=
  let typeSegments := split model.type
  let idIndex := 1 + typeSegments.length
  if segments[0]? ≠ some (js "data") then none
  else if (segments.drop 1).take typeSegments.length ≠ typeSegments then none
  else if segments[idIndex]? ≠ some model.id then none
  else
    match segments.drop (idIndex + 1) with
    | [] => none
    | name :: below =>
      if ∃ allowed ∈ names, name ∉ allowed then none
      else
        match below with
        | [last] =>
          if last = js "latest" then
            if only = some .version then none else some plainBinding
          else none
        | [versionSegment, file] =>
          if only = some .latest then none
          else if file ≠ js "raw" ∧ file ≠ js "metadata.yaml" then none
          else if ¬ isVersionSegment versionSegment then none
          else if ∃ v ∈ version, number versionSegment ≠ .finite v.val then none
          else some plainBinding
        | _ => none

/-- A line terminator, which `.` of a pattern does not match. -/
def isLineTerminator (u : CodeUnit) : Bool :=
  u.val == 10 || u.val == 13 || u.val == 0x2028 || u.val == 0x2029

/-- The stamp of an output file, `d` for a digit. -/
def OUTPUT_STAMP : JsString := js "-dddd-dd-ddTdd-dd-dd-dddZ.yaml"

/-- Whether a text has the form of a stamp. -/
def isOutputStamp (s : JsString) : Bool :=
  s.length == OUTPUT_STAMP.length &&
    (List.zipWith (fun u p => if p = unit 'd' then isDigitUnit u else u == p) s
      OUTPUT_STAMP).all id

/-- `OUTPUT_FILE.exec(file)?.[1]`: what stands before the stamp. -/
def outputFileOwner (file : JsString) : Option JsString :=
  let owner := file.take (file.length - OUTPUT_STAMP.length)
  let stamp := file.drop (file.length - OUTPUT_STAMP.length)
  if isOutputStamp stamp ∧ owner ≠ [] ∧ ¬ owner.any isLineTerminator then some owner else none

/-- `isOutputFileOf`. -/
def isOutputFileOf (file modelId : JsString) : Bool := outputFileOwner file == some modelId

/-- How the files of an aggregate are named. -/
structure FileNaming where
  ids : Option (List JsString) := none
  names : Option (List JsString) := none
  anyName : Bool := false

section

variable (toLowerCase : JsString → JsString)

/-- `typeUnder`: the type that a range of segments spells. -/
def typeUnder (segments : List JsString) (first last : ℕ) : Option ModelType :=
  if last ≤ first then none
  else
    let spelled := join ((segments.take last).drop first)
    match ModelType.create toLowerCase spelled with
    | .error _ => none
    | .ok type => if type.normalized = spelled then some type else none

/-- `typedFile`. -/
def typedFile (segments : List JsString) (root : JsString) (expectedType : Option JsString)
    (naming : FileNaming) : Option KeyBinding :=
  if segments.length < 3 ∨ segments[0]? ≠ some root then none
  else
    match typeUnder toLowerCase segments 1 (segments.length - 1) with
    | none => some (.error .definitionTypeUnknown)
    | some type =>
      if ∃ expected ∈ expectedType, type.normalized ≠ expected then none
      else
        match segments.getLast?.bind yamlStem with
        | none => none
        | some stem =>
          if isUuid stem then
            match naming.ids with
            | none => some (.ok { fileId := some stem, type := some type })
            | some ids => if stem ∈ ids then some (.ok { type := some type }) else none
          else if ∃ names ∈ naming.names, stem ∈ names then some (.ok { type := some type })
          else if naming.anyName then
            some (.ok { fileName := some stem, type := some type })
          else none

/-- `namedFile`. -/
def namedFile (file lead : JsString) (names : List JsString) : Option KeyBinding :=
  if ¬ startsWith file lead ∨ ¬ endsWith file yamlSuffix then none
  else
    let stem := (file.take (file.length - yamlSuffix.length)).drop lead.length
    if isUuid stem then some (.ok { fileId := some stem })
    else if stem ∈ names then some plainBinding else none

/-- `definitionKey`. -/
def definitionKey (definition : DefinitionRef) (segments : List JsString)
    (names : List JsString) : Option KeyBinding :=
  if segments[0]? ≠ some (js "config") then none
  else
    match definition.kind with
    | .model =>
      typedFile toLowerCase (segments.drop 1) (js "models") none { names := some names }
    | .vault => typedFile toLowerCase (segments.drop 1) (js "vaults") none {}
    | .workflow =>
      match segments with
      | [_, folder, file] =>
        if folder = js "workflows" then namedFile file (js "workflow-") names else none
      | _ => none

/-- An output: `outputs/{type}/{method}/{modelId}-{stamp}.yaml`. -/
def outputKey (model : ModelRef) (segments : List JsString) : Option KeyBinding :=
  if 4 ≤ segments.length ∧ segments[0]? = some (js "outputs") ∧
      (typeUnder toLowerCase segments 1 (segments.length - 2)).map ModelType.normalized =
        some model.type ∧
      (segments.getLast?.map (fun file => isOutputFileOf file model.id)) = some true then
    some plainBinding
  else none

/-- `bindSegments`. -/
def bindSegments (intent : Intent) (segments : List JsString) : Option KeyBinding :=
  match intent with
  | .dataSave model name version => bindDataKey model segments (some [name]) (some version) none
  | .dataAppend model name version => bindDataKey model segments (some [name]) (some version) none
  -- A versioned removal tombstones that version's files; a version-less one
  -- changes only the name's latest marker.
  | .dataDelete model name version =>
    bindDataKey model segments (some [name]) version
      (some (if version = none then .latest else .version))
  | .dataGc model name version =>
    bindDataKey model segments (some [name]) version
      (some (if version = none then .latest else .version))
  | .dataRename model name target =>
    bindDataKey model segments (some [name, target]) none none
  | .outputSave model _ => outputKey toLowerCase model segments
  | .outputDelete model _ => outputKey toLowerCase model segments
  | .model kind model =>
    match kind with
    | .evaluatedDefinitionSave => evaluatedKey model
    | .evaluatedDefinitionDelete => evaluatedKey model
    | _ => bindDataKey model segments none none none
  | .run kind run =>
    match kind with
    | .runCreate => runKey run
    | .runUpdate => runKey run
    | .runDelete => runKey run
    | .runStartSave => runStartKey run
    | .runStartDelete => runStartKey run
    | .runSnapshotSave => runSnapshotKey run
    | .runSnapshotDelete => runSnapshotKey run
  | .definition kind definition =>
    match kind with
    | .evaluatedWorkflowSave => evaluatedWorkflowKey definition
    | .evaluatedWorkflowDelete => evaluatedWorkflowKey definition
    | _ => definitionKey toLowerCase definition segments [definition.name]
  | .definitionRenameTo definition source =>
    definitionKey toLowerCase definition segments [definition.name, source]
  | .definitionRenameFrom definition target =>
    definitionKey toLowerCase definition segments [definition.name, target]
  | .autoDefinitionSave id => autoDefinitionKey id
  | .autoDefinitionDelete id => autoDefinitionKey id
  | .lockfileWrite => if join segments = LOCKFILE_RECORD_KEY then some plainBinding else none
where
  evaluatedKey (model : ModelRef) : Option KeyBinding :=
    typedFile toLowerCase segments (js "definitions-evaluated") (some model.type)
      { ids := some [model.id], anyName := true }
  runKey (run : RunRef) : Option KeyBinding :=
    if segments = [js "workflow-runs", run.workflowId,
        js "workflow-run-" ++ run.runId ++ yamlSuffix] then some plainBinding
    else none
  runStartKey (run : RunRef) : Option KeyBinding :=
    match segments with
    | [root, workflowId, starts, runId, file] =>
      if root = js "workflow-runs" ∧ workflowId = run.workflowId ∧ starts = js "starts" ∧
          runId = run.runId ∧ isStepStartFile file then some plainBinding
      else none
    | _ => none
  runSnapshotKey (run : RunRef) : Option KeyBinding :=
    if segments = [js "workflows-evaluated", js "runs", run.runId,
        js "evaluated-workflow.yaml"] then some plainBinding
    else none
  evaluatedWorkflowKey (definition : DefinitionRef) : Option KeyBinding :=
    match segments with
    | [root, file] =>
      if root = js "workflows-evaluated" then
        namedFile file (js "workflow-") [definition.name]
      else none
    | _ => none
  autoDefinitionKey (id : JsString) : Option KeyBinding :=
    typedFile toLowerCase segments (js "auto-definitions") none
      { ids := some [id], anyName := true }

/-- `bindKey`. -/
def bindKey (intent : Intent) (opKind : IntentOpKind) (key : RecordKey) : KeyBinding :=
  if opKindAllowed intent opKind then
    (bindSegments toLowerCase intent (split key.value)).getD (.error .keyOutsideAggregate)
  else .error .opKindNotAllowed

/-- `modelRecordKind`: what a record of a behavior's partition is, from its key
alone.  The output binding reads only the model, never the output id. -/
inductive ModelRecordKind where
  | data
  | model

def modelRecordKind (model : ModelRef) (key : RecordKey) : Option ModelRecordKind :=
  let segments := split key.value
  let bound := fun intent =>
    match bindSegments toLowerCase intent segments with
    | some (.ok _) => true
    | _ => false
  if (bindDataKey model segments none none none).isSome then some .data
  else if bound (.outputSave model []) || bound (.model .evaluatedDefinitionSave model) then
    some .model
  else none

end

end Swamp
