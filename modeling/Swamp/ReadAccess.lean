import Swamp.CommitAuthorization
import Swamp.KeyIsolation

/-!
# The base is read as strictly as the feed

A compacted record is decided from its partition and key, the put that wrote it
from its intent.  The partition of an accepted intent holds the intent's own
identity (`partition_identity`), and the key it binds tells the rest: whether a
behavior's record is data (`modelRecordKind_of_data`, `modelRecordKind_of_output`,
`modelRecordKind_of_evaluated`), and which type a definition's file is of
(`definitionKey_type`).
-/

namespace Swamp

open Js ExceptRules

/-- The identity the partition of a subject holds. -/
def IntentSubject.identity : IntentSubject → PartitionIdentity
  | .model ref => .model ref.type ref.id
  | .run ref => .run ref.workflowId ref.runId
  | .definition ref => .config ref.kind ref.name
  | .autoDefinition id => .definition id
  | .none => .lockfile

section

variable {toLowerCase : JsString → JsString}

theorem canonicalUuid_lowered {id label canonical : JsString}
    (h : canonicalUuid toLowerCase id label = .ok canonical) : canonical = toLowerCase id := by
  unfold canonicalUuid at h
  simp only at h
  split at h
  · cases h
    rfl
  · cases h

theorem partitionOf_identity {identity : AggregateIdentity} {key : PartitionKey}
    (h : (partitionOf toLowerCase identity).mapError IntentError.partition = .ok key) :
    ∃ held, partitionIdentity toLowerCase identity = .ok held ∧ key.identity = held := by
  obtain ⟨held, hheld, hkey⟩ := bind_ok (mapError_ok h)
  exact ⟨held, hheld, fromIdentity_identity hkey⟩

variable {intent : Intent}

/-- **The partition of an accepted intent holds the intent's identity.** -/
theorem partition_identity (hlower : ∀ s, toLowerCase (toLowerCase s) = toLowerCase s)
    {key : PartitionKey} (hformed : intent.WellFormed toLowerCase)
    (h : intentPartition toLowerCase intent = .ok key) :
    key.identity = intent.subject.identity := by
  unfold intentPartition IntentSubject.partition at h
  cases hsubject : intent.subject with
  | model ref =>
    rw [hsubject] at h
    obtain ⟨type, htype, hnormalized⟩ := hformed.type ref hsubject
    obtain ⟨raw, hid⟩ := hformed.model ref hsubject
    simp only [htype] at h
    obtain ⟨held, hheld, hidentity⟩ := partitionOf_identity h
    obtain ⟨id, hcanonical, hheld⟩ := bind_ok hheld
    cases hheld
    rw [hidentity, canonicalUuid_lowered hcanonical, hnormalized, IntentSubject.identity, hid,
      hlower]
  | run ref =>
    rw [hsubject] at h
    obtain ⟨rawWorkflow, rawRun, rfl⟩ := hformed.run ref hsubject
    obtain ⟨held, hheld, hidentity⟩ := partitionOf_identity h
    obtain ⟨workflowId, hworkflow, hheld⟩ := bind_ok hheld
    obtain ⟨runId, hrun, hheld⟩ := bind_ok hheld
    cases hheld
    rw [hidentity, canonicalUuid_lowered hworkflow, canonicalUuid_lowered hrun, hlower, hlower]
    rfl
  | definition ref =>
    rw [hsubject] at h
    obtain ⟨held, hheld, hidentity⟩ := partitionOf_identity h
    simp only [partitionIdentity] at hheld
    split at hheld
    · cases hheld
    · cases hheld
      exact hidentity
  | autoDefinition id =>
    rw [hsubject] at h
    obtain ⟨raw, rfl⟩ := hformed.autoDefinition id hsubject
    obtain ⟨held, hheld, hidentity⟩ := partitionOf_identity h
    obtain ⟨id, hcanonical, hheld⟩ := bind_ok hheld
    cases hheld
    rw [hidentity, canonicalUuid_lowered hcanonical, hlower]
    rfl
  | none =>
    rw [hsubject] at h
    obtain ⟨held, hheld, hidentity⟩ := partitionOf_identity h
    cases hheld
    exact hidentity

variable {model : ModelRef} {segments : List JsString} {binding : KeyBinding}

theorem dataKey_of_narrower {names : Option (List JsString)} {version : Option Version}
    {only : Option OnlyPart} (h : bindDataKey model segments names version only = some binding) :
    (bindDataKey model segments none none none).isSome := by
  unfold bindDataKey at h ⊢
  simp only at h ⊢
  split at h
  · cases h
  rename_i hroot
  split at h
  · cases h
  rename_i htype
  split at h
  · cases h
  rename_i hid
  rw [if_neg hroot, if_neg htype, if_neg hid]
  split at h
  · cases h
  split at h
  · cases h
  split at h
  · split at h
    · rename_i hlast
      simp [hlast]
    · cases h
  · split at h
    · cases h
    split at h
    · cases h
    rename_i hfile
    split at h
    · cases h
    rename_i hversion
    simp [hfile, hversion]
  · cases h

/-- A key under another root is no data. -/
theorem dataKey_of_root {root : JsString} (hroot : segments[0]? = some root)
    (hne : root ≠ js "data") : (bindDataKey model segments none none none).isSome = false := by
  unfold bindDataKey
  simp [hroot, hne]

variable {key : RecordKey}

theorem modelRecordKind_of_data {names : Option (List JsString)} {version : Option Version}
    {only : Option OnlyPart}
    (h : bindDataKey model (split key.value) names version only = some binding) :
    modelRecordKind toLowerCase model key = some .data := by
  rw [modelRecordKind, if_pos (dataKey_of_narrower h)]

theorem modelRecordKind_of_output (h : outputKey toLowerCase model (split key.value) = some binding)
    : modelRecordKind toLowerCase model key = some .model := by
  have hkey := h
  unfold outputKey at hkey
  split at hkey
  · rename_i hshape
    have hdata := @dataKey_of_root model _ _ hshape.2.1 (by decide)
    have hplain : bindSegments toLowerCase (.outputSave model []) (split key.value) =
        some plainBinding := by
      rw [bindSegments, outputKey, if_pos hshape]
    simp [modelRecordKind, hdata, hplain, plainBinding]
  · cases hkey

variable {bound : BoundKey}

theorem modelRecordKind_of_evaluated
    (h : bindSegments.evaluatedKey toLowerCase (split key.value) model = some (.ok bound)) :
    modelRecordKind toLowerCase model key = some .model := by
  have hroot : (split key.value)[0]? = some (js "definitions-evaluated") := by
    unfold bindSegments.evaluatedKey typedFile at h
    split at h
    · cases h
    · rename_i hshape
      rw [not_or, not_not] at hshape
      exact hshape.2
  have hdata := @dataKey_of_root model _ _ hroot (by decide)
  have hbound : bindSegments toLowerCase (.model .evaluatedDefinitionSave model)
      (split key.value) = some (.ok bound) := h
  simp [modelRecordKind, hdata, hbound]

theorem typedFile_type {root : JsString} {naming : FileNaming}
    (h : typedFile toLowerCase segments root none naming = some (.ok bound))
    (hids : naming.ids = none) {names : List JsString}
    (hstem : ∀ stem, segments.getLast?.bind yamlStem = some stem → stem ∈ names) :
    ∃ other, typedFile toLowerCase segments root none { names := some names } = some (.ok other) ∧
      other.type = bound.type := by
  unfold typedFile at h ⊢
  split at h
  · cases h
  rename_i hshape
  rw [if_neg hshape]
  split at h
  · cases h
  rename_i type htype
  simp only [Option.not_mem_none, false_and, exists_false, if_false, hids] at h ⊢
  split at h
  · cases h
  rename_i stem hlast
  have hmem := hstem stem hlast
  split at h
  · rename_i huuid
    cases h
    exact ⟨_, by rw [if_pos huuid], rfl⟩
  · rename_i huuid
    refine ⟨{ type := some type }, ?_, ?_⟩
    · rw [if_neg huuid, if_pos ⟨names, rfl, hmem⟩]
    · split at h
      · cases h
        rfl
      · split at h
        · cases h
          rfl
        · cases h

theorem getLast?_drop_one (h : segments.drop 1 ≠ []) :
    (segments.drop 1).getLast? = segments.getLast? := by
  cases segments with
  | nil => rfl
  | cons root below =>
    rw [List.drop_succ_cons, List.drop_zero] at h ⊢
    rw [List.getLast?_cons]
    cases hlast : below.getLast? with
    | none => exact absurd (List.getLast?_eq_none_iff.mp hlast) h
    | some last => rfl

/-- **A definition's file** is of the type its key names, under whatever name its
own file carries. -/
theorem definitionKey_type {name : JsString} {names : List JsString}
    (h : definitionKey toLowerCase ⟨.model, name⟩ (split key.value) names = some (.ok bound)) :
    keyType toLowerCase (.definitionRenameTo ⟨.model, name⟩ (keyStem key)) .put key =
      bound.type := by
  have hallowed : opKindAllowed (.definitionRenameTo ⟨.model, name⟩ (keyStem key)) .put = true :=
    rfl
  unfold definitionKey at h
  split at h
  · cases h
  rename_i hroot
  have hbelow : (split key.value).drop 1 ≠ [] := by
    intro hnil
    simp [hnil, typedFile] at h
  have hstem : ∀ stem, ((split key.value).drop 1).getLast?.bind yamlStem = some stem →
      stem ∈ [name, keyStem key] := by
    intro stem hlast
    rw [getLast?_drop_one hbelow] at hlast
    have hkey : keyStem key = stem := by rw [keyStem, hlast, Option.getD_some]
    rw [hkey]
    exact List.mem_cons_of_mem _ List.mem_cons_self
  obtain ⟨other, hother, htype⟩ := typedFile_type h rfl hstem
  have hbind : bindSegments toLowerCase (.definitionRenameTo ⟨.model, name⟩ (keyStem key))
      (split key.value) = some (.ok other) := by
    change definitionKey toLowerCase ⟨.model, name⟩ (split key.value) [name, keyStem key] = _
    unfold definitionKey
    simp only [hroot, if_false]
    exact hother
  rw [keyType, bindKey, if_pos hallowed, hbind]
  exact htype

variable {opKind : IntentOpKind}

/-- What deciding an access reads of a definition's op is the kind of the
definition, its name and, for a behavior, the type its key names. -/
theorem readAccess_definition {resolver : AggregateResourceResolver} {first second : Intent}
    {opKind' : IntentOpKind} {definition : DefinitionRef} (h : definition.kind = .model →
      keyType toLowerCase first opKind key = keyType toLowerCase second opKind' key) :
    readAccessOfWrite (definitionAccessOf toLowerCase resolver first opKind key definition) =
      readAccessOfWrite (definitionAccessOf toLowerCase resolver second opKind' key definition) := by
  unfold definitionAccessOf
  cases hkind : definition.kind with
  | workflow => simp
  | vault => simp [readAccessOfWrite, readOfDefinition, vaultKindResource]
  | model => simp [h hkind]

/-- The type a bound key names. -/
theorem keyType_of_bound (h : bindKey toLowerCase intent opKind key = .ok bound) :
    keyType toLowerCase intent opKind key = bound.type := by
  rw [keyType, h]

/-- **Definitions.**  The base reads the type the feed does. -/
theorem definitionRenameTo_type {ref : DefinitionRef} (hformed : intent.WellFormed toLowerCase)
    (hsubject : intent.subject = .definition ref) (hkind : ref.kind = .model)
    (h : bindKey toLowerCase intent opKind key = .ok bound) :
    keyType toLowerCase (.definitionRenameTo ⟨ref.kind, ref.name⟩ (keyStem key)) .put key =
      bound.type := by
  obtain ⟨-, h⟩ := bindKey_ok h
  obtain ⟨kind, name⟩ := ref
  simp only at hkind
  subst hkind
  cases intent with
  | definition kind definition =>
    cases hsubject
    cases kind with
    | evaluatedWorkflowSave => cases hformed.workflow _ rfl (Or.inl rfl)
    | evaluatedWorkflowDelete => cases hformed.workflow _ rfl (Or.inr rfl)
    | _ => exact definitionKey_type h
  | definitionRenameTo definition source | definitionRenameFrom definition target =>
    cases hsubject
    exact definitionKey_type h
  | _ => cases hsubject

/-- **Auto-definitions.**  Only a save puts one. -/
theorem autoDefinition_of_put {id : JsString} (hsubject : intent.subject = .autoDefinition id)
    (h : bindKey toLowerCase intent .put key = .ok bound) : intent = .autoDefinitionSave id := by
  obtain ⟨hallowed, -⟩ := bindKey_ok h
  cases intent with
  | autoDefinitionSave other =>
    cases hsubject
    rfl
  | autoDefinitionDelete other => cases hallowed
  | _ => cases hsubject

/-- **Behaviors.**  The kind of record the feed decides on is the one the key
tells. -/
theorem modelRecordKind_of_bound (hsubject : intent.subject = .model model)
    (hplain : CONTROL_PLANE_INTENT_TYPES intent.kind = none)
    (h : bindKey toLowerCase intent opKind key = .ok bound) :
    modelRecordKind toLowerCase model key =
      some (if intent.kind.isData then ModelRecordKind.data else .model) := by
  obtain ⟨-, h⟩ := bindKey_ok h
  cases intent with
  | dataSave ref name version | dataAppend ref name version | dataDelete ref name version
  | dataGc ref name version | dataRename ref name target =>
    cases hsubject
    exact modelRecordKind_of_data h
  | outputSave ref outputId | outputDelete ref outputId =>
    cases hsubject
    exact modelRecordKind_of_output h
  | model kind ref =>
    cases hsubject
    cases kind with
    | evaluatedDefinitionSave | evaluatedDefinitionDelete => exact modelRecordKind_of_evaluated h
    | _ => cases hplain
  | _ => cases hsubject

/-- A control-plane kind is of a control-plane type. -/
theorem controlPlane_of_required (hformed : intent.WellFormed toLowerCase) {ref : ModelRef}
    (hsubject : intent.subject = .model ref) (h : (CONTROL_PLANE_INTENT_TYPES intent.kind).isSome) :
    isControlPlaneModelType toLowerCase ref.type = true := by
  obtain ⟨required, hrequired⟩ := Option.isSome_iff_exists.mp h
  have hname := hformed.required ref hsubject required hrequired
  have hlisted : CONTROL_PLANE_MODEL_TYPES.contains required = true := by
    unfold CONTROL_PLANE_INTENT_TYPES at hrequired
    split at hrequired
    all_goals first
      | (cases hrequired; done)
      | (cases hrequired; decide)
  rw [isControlPlaneModelType, hname]
  exact hlisted

/-- **The base is never read more loosely than the feed.**  Whatever access the
feed requires of a put is among those the base requires of the record the put
leaves. -/
theorem base_requires_what_feed_requires (toLowerCase : JsString → JsString)
    (hlower : ∀ s, toLowerCase (toLowerCase s) = toLowerCase s)
    (resolver : AggregateResourceResolver) (value : Json) (op : PutOp)
    (haccepted : createIntent toLowerCase value = .ok op.intent) (bound : BoundKey)
    (hbound : bindKey toLowerCase op.intent .put op.key = .ok bound) (access : RequiredAccess)
    (hfeed : readAccessOf toLowerCase resolver (.put op) = .ok (some access)) :
    ∃ partition, intentPartition toLowerCase op.intent = .ok partition ∧
      ∃ required, baseRecordReadAccessOf toLowerCase resolver partition op.key = .ok required ∧
        access ∈ required := by
  obtain ⟨hformed, partition, hpartition⟩ := createIntent_ok haccepted
  have hidentity := partition_identity hlower hformed hpartition
  refine ⟨partition, hpartition, ?_⟩
  change intentReadAccess toLowerCase resolver op.intent .put op.key = _ at hfeed
  unfold intentReadAccess at hfeed
  unfold baseRecordReadAccessOf
  rw [hidentity]
  cases hsubject : op.intent.subject with
  | model ref =>
    rw [hsubject] at hfeed
    obtain ⟨type, htype, hnormalized⟩ := hformed.type ref hsubject
    simp only [IntentSubject.identity, htype, Except.mapError, bind, Except.bind] at hfeed ⊢
    by_cases hcontrol : isControlPlaneModelType toLowerCase type.normalized = true
    · simp only [hcontrol, Bool.or_true, if_true] at hfeed ⊢
      cases hresource : controlPlaneResourceOf toLowerCase resolver ref with
      | error e =>
        rw [hresource] at hfeed
        cases hfeed
      | ok resource =>
        rw [hresource] at hfeed
        cases hfeed
        exact ⟨_, rfl, List.mem_singleton_self _⟩
    · have hplain : CONTROL_PLANE_INTENT_TYPES op.intent.kind = none := by
        by_contra hsome
        rw [hnormalized] at hcontrol
        exact hcontrol (controlPlane_of_required hformed hsubject (Option.isSome_iff_ne_none.mpr hsome))
      rw [modelRecordKind_of_bound hsubject hplain hbound]
      simp only [hcontrol, hplain, Option.isSome_none, Bool.or_self, Bool.false_eq_true,
        if_false] at hfeed ⊢
      cases hread : modelReadAccess toLowerCase resolver ref type
          (if op.intent.kind.isData = true then ModelRecordKind.data else .model) with
      | error e =>
        rw [hread] at hfeed
        cases hfeed
      | ok resource =>
        rw [hread] at hfeed
        cases hfeed
        exact ⟨_, rfl, List.mem_singleton_self _⟩
  | run ref =>
    rw [hsubject] at hfeed
    cases hfeed
    exact ⟨_, rfl, List.mem_singleton_self _⟩
  | definition ref =>
    rw [hsubject] at hfeed
    cases hfeed
    refine ⟨_, rfl, List.mem_singleton.mpr ?_⟩
    apply readAccess_definition
    intro hkind
    rw [keyType_of_bound hbound]
    exact (definitionRenameTo_type hformed hsubject hkind hbound).symm
  | autoDefinition id =>
    rw [hsubject] at hfeed
    cases hfeed
    refine ⟨_, rfl, List.mem_singleton.mpr ?_⟩
    rw [autoDefinition_of_put hsubject hbound]
  | none =>
    rw [hsubject] at hfeed
    cases hfeed

end

/-- A save of the data name `vpc`, as it is sent. -/
def saveIntent : Json :=
  .obj [(js "kind", .str (js "data.save")),
    (js "model", .obj [(js "type", .str (js "aws/ec2")), (js "id", .str sampleRunId)]),
    (js "name", .str (js "vpc")), (js "version", .num 1)]

/-- The put of its content. -/
def savePut : PutOp where
  intent := .dataSave ⟨js "aws/ec2", sampleRunId⟩ (js "vpc") .first
  key := ⟨js "data/aws/ec2/33333333-3333-4333-8333-333333333333/vpc/1/raw", by decide⟩
  content := .inline [] .zeros
  expect := none
  access := none

/-- A resolver that knows nothing. -/
def emptyResolver : AggregateResourceResolver where
  model := fun _ => none
  definitionTags := fun _ _ _ => none
  workflow := fun _ => none
  isRestrictedType := fun _ => false

/-- The record of that content is read as the put is. -/
theorem base_reads_saved_data :
    ∃ partition, intentPartition latinLower savePut.intent = .ok partition ∧
      ∃ required, baseRecordReadAccessOf latinLower emptyResolver partition savePut.key =
          .ok required ∧
        ⟨.read, unresolvedModelResource ⟨js "aws/ec2", js "aws/ec2"⟩ sampleRunId .data⟩ ∈
          required :=
  base_requires_what_feed_requires latinLower latinLower_idem emptyResolver saveIntent savePut
    (by decide +kernel) {} (by decide +kernel) _ (by decide +kernel)

end Swamp
