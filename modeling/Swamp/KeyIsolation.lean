import Swamp.IntentKeyPaths

/-!
# A key names its owner

`ownerOf` reads from the segments of a key alone which aggregate its layout
belongs to.  Whatever key an intent binds without naming a file of its own is a
key whose owner is the intent's (`owner_of_bound`), so two intents that bind one
key have one owner: a behavior's type may span any number of segments, but the
end of the path says where it stops.

The snapshot of a run is the one layout that names less than its aggregate: it
is kept by run id, without the workflow.
-/

namespace Swamp

open Js

/-- The aggregate a layout belongs to. -/
inductive KeyOwner where
  | model (type id : JsString)
  | run (workflowId runId : JsString)
  | snapshot (runId : JsString)
  | definition (kind : DefinitionKind) (name : JsString)
  | autoDefinition (id : JsString)
  | lockfile
deriving DecidableEq

/-- The owner of a key under `data`, its segments read from the end. -/
def dataOwner (last : JsString) (rest : List JsString) : Option KeyOwner :=
  let above := if last = js "latest" then rest.drop 1 else rest.drop 2
  match above with
  | id :: typeSegments => some (.model (join typeSegments.reverse) id)
  | [] => none

/-- What a file `{lead}{name}.yaml` is named by. -/
def fileStem (file lead : JsString) : JsString :=
  (file.take (file.length - yamlSuffix.length)).drop lead.length

/-- What the last segment of a path is named by. -/
def lastStem (segments : List JsString) : Option JsString := segments.getLast?.bind yamlStem

/-- The owner of a key under `config`. -/
def configOwner (segments : List JsString) : Option KeyOwner :=
  match segments with
  | [] => none
  | [_] => some .lockfile
  | folder :: below =>
    if folder = js "workflows" then
      below.getLast?.map (fun file => .definition .workflow (fileStem file (js "workflow-")))
    else (lastStem below).map (.definition .model)

/-- The owner of a key under `workflows-evaluated`. -/
def evaluatedOwner (segments : List JsString) : Option KeyOwner :=
  match segments with
  | [file] => some (.definition .workflow (fileStem file (js "workflow-")))
  | [_, runId, _] => some (.snapshot runId)
  | _ => none

/-- The owner of a key under `workflow-runs`. -/
def runOwner (segments : List JsString) : Option KeyOwner :=
  match segments with
  | [workflowId, file] => some (.run workflowId (fileStem file (js "workflow-run-")))
  | [workflowId, _, runId, _] => some (.run workflowId runId)
  | _ => none

/-- The owner of a key, by its layout. -/
def ownerOf (segments : List JsString) : Option KeyOwner :=
  match segments with
  | [] => none
  | root :: below =>
    if root = js "data" then
      match below.reverse with
      | [] => none
      | last :: rest => dataOwner last rest
    else if root = js "outputs" then
      (below.getLast?.bind outputFileOwner).map (.model (join (below.take (below.length - 2))))
    else if root = js "definitions-evaluated" then
      (lastStem below).map (.model (join (below.take (below.length - 1))))
    else if root = js "workflow-runs" then runOwner below
    else if root = js "workflows-evaluated" then evaluatedOwner below
    else if root = js "config" then configOwner below
    else if root = js "auto-definitions" then (lastStem below).map .autoDefinition
    else none

/-- The owner an intent's files have. -/
def Intent.owner (intent : Intent) : KeyOwner :=
  match intent.subject with
  | .model ref => .model ref.type ref.id
  | .run ref =>
    if intent.kind = .run .runSnapshotSave ∨ intent.kind = .run .runSnapshotDelete then
      .snapshot ref.runId
    else .run ref.workflowId ref.runId
  | .definition ref => .definition ref.kind ref.name
  | .autoDefinition id => .autoDefinition id
  | .none => .lockfile

/-- A binding that names no file of its own. -/
def BoundKey.Plain (bound : BoundKey) : Prop := bound.fileId = none ∧ bound.fileName = none

variable {model : ModelRef} {segments : List JsString} {binding : KeyBinding}

/-- **Data.**  The end of the path says how many segments the type has. -/
theorem owner_of_dataKey {names : Option (List JsString)} {version : Option Version}
    {only : Option OnlyPart} (h : bindDataKey model segments names version only = some binding) :
    ownerOf segments = some (.model model.type model.id) := by
  unfold bindDataKey at h
  simp only at h
  split at h
  · cases h
  rename_i hroot
  split at h
  · cases h
  rename_i htype
  split at h
  · cases h
  rename_i hid
  have hroot := not_not.mp hroot
  have htype := not_not.mp htype
  have hid := not_not.mp hid
  cases segments with
  | nil => cases hroot
  | cons root below =>
    have hroot : root = js "data" := by simpa using hroot
    rw [List.drop_succ_cons, List.drop_zero] at htype
    rw [Nat.add_comm, List.getElem?_cons_succ] at hid
    rw [Nat.add_comm 1, List.drop_succ_cons] at h
    -- The segments below the root: the type, the id, and what follows it.
    have hbelow : below = split model.type ++
        model.id :: below.drop ((split model.type).length + 1) := by
      conv_lhs => rw [← List.take_append_drop (split model.type).length below, htype]
      rw [List.drop_eq_getElem?_toList_append, hid]
      rfl
    have hread : ∀ last rest, below.reverse = last :: rest →
        ownerOf (root :: below) = dataOwner last rest := by
      intro last rest hreverse
      rw [ownerOf, if_pos hroot, hreverse]
    split at h
    · cases h
    · rename_i name rest hrest
      split at h
      · cases h
      rw [hrest] at hbelow
      split at h
      · rename_i last
        split at h
        · rename_i hlast
          have hreverse : below.reverse =
              last :: name :: model.id :: (split model.type).reverse := by
            rw [hbelow]
            simp
          rw [hread _ _ hreverse, dataOwner, if_pos hlast]
          simp
        · cases h
      · rename_i versionSegment file
        split at h
        · cases h
        split at h
        · cases h
        · rename_i hfile
          have hlast : file ≠ js "latest" := by
            intro heq
            subst heq
            exact hfile ⟨by decide, by decide⟩
          have hreverse : below.reverse =
              file :: versionSegment :: name :: model.id :: (split model.type).reverse := by
            rw [hbelow]
            simp
          rw [hread _ _ hreverse, dataOwner, if_neg hlast]
          simp
      · cases h

section

variable {toLowerCase : JsString → JsString}

/-- A type under a root is what the segments spell. -/
theorem typeUnder_normalized {root : JsString} {below : List JsString} {last : ℕ}
    {type : ModelType} (h : typeUnder toLowerCase (root :: below) 1 last = some type) :
    type.normalized = join (below.take (last - 1)) := by
  unfold typeUnder at h
  split at h
  · cases h
  · rename_i hlast
    have hspelled : ((root :: below).take last).drop 1 = below.take (last - 1) := by
      cases last with
      | zero => omega
      | succ n => simp
    simp only [hspelled] at h
    split at h
    · cases h
    · split at h
      · rename_i hsame
        cases h
        exact hsame
      · cases h

/-- **Outputs.** -/
theorem owner_of_outputKey (h : outputKey toLowerCase model segments = some binding) :
    ownerOf segments = some (.model model.type model.id) := by
  unfold outputKey at h
  split at h
  · rename_i hkey
    obtain ⟨hlength, hroot, htype, hfile⟩ := hkey
    cases segments with
    | nil => cases hroot
    | cons root below =>
      have hroot : root = js "outputs" := by simpa using hroot
      obtain ⟨type, hunder, hnormalized⟩ := Option.map_eq_some_iff.mp htype
      have hspelled := typeUnder_normalized hunder
      have hnot : root ≠ js "data" := by
        rw [hroot]
        decide
      have hcount : (root :: below).length - 2 - 1 = below.length - 2 := by
        rw [List.length_cons]
        omega
      cases hlast : below.getLast? with
      | none =>
        rw [List.getLast?_eq_none_iff] at hlast
        subst hlast
        simp at hlength
      | some file =>
        have hwhole : (root :: below).getLast? = some file := by
          rw [List.getLast?_cons, hlast]
          rfl
        rw [hwhole, Option.map_some, Option.some.injEq, isOutputFileOf, beq_iff_eq] at hfile
        rw [ownerOf, if_neg hnot, if_pos hroot, hlast, Option.bind_some, hfile,
          Option.map_some, ← hnormalized, hspelled, hcount]
  · cases h

variable {bound : BoundKey}

theorem typedFile_stem {root : JsString} {expected : Option JsString} {naming : FileNaming}
    (h : typedFile toLowerCase segments root expected naming = some (.ok bound))
    (hplain : bound.Plain) :
    ∃ below stem type, segments = root :: below ∧ 2 ≤ below.length ∧ lastStem below = some stem ∧
      typeUnder toLowerCase segments 1 (segments.length - 1) = some type ∧
      (∀ e ∈ expected, type.normalized = e) ∧
      ((∃ ids ∈ naming.ids, stem ∈ ids) ∨ ∃ names ∈ naming.names, stem ∈ names) := by
  unfold typedFile at h
  split at h
  · cases h
  rename_i hshape
  rw [not_or, not_lt, not_not] at hshape
  obtain ⟨hlength, hroot⟩ := hshape
  split at h
  · cases h
  rename_i type htype
  split at h
  · cases h
  rename_i hexpected
  split at h
  · cases h
  rename_i stem hstem
  cases segments with
  | nil => cases hroot
  | cons first below =>
    have hroot : first = root := by simpa using hroot
    have hbelow : below ≠ [] := by
      intro hnil
      subst hnil
      simp at hlength
    have hlast : lastStem below = some stem := by
      rw [lastStem]
      rw [List.getLast?_cons] at hstem
      cases hget : below.getLast? with
      | none => exact absurd (List.getLast?_eq_none_iff.mp hget) hbelow
      | some file =>
        rw [hget] at hstem
        exact hstem
    refine ⟨below, stem, type, by rw [hroot], ?_, hlast, htype, ?_, ?_⟩
    · rw [List.length_cons] at hlength
      omega
    · intro e he
      by_contra hne
      exact hexpected ⟨e, he, hne⟩
    · split at h
      · split at h
        · cases h
          cases hplain.1
        · rename_i ids hids
          split at h
          · rename_i hmem
            exact Or.inl ⟨ids, hids, hmem⟩
          · cases h
      · split at h
        · rename_i hnames
          exact Or.inr hnames
        · split at h
          · cases h
            cases hplain.2
          · cases h

/-- **Evaluated definitions.** -/
theorem owner_of_evaluatedKey
    (h : typedFile toLowerCase segments (js "definitions-evaluated") (some model.type)
      { ids := some [model.id], anyName := true } = some (.ok bound)) (hplain : bound.Plain) :
    ownerOf segments = some (.model model.type model.id) := by
  obtain ⟨below, stem, type, rfl, hlength, hstem, htype, hexpected, hnamed⟩ :=
    typedFile_stem h hplain
  have hnormalized := hexpected model.type rfl
  have hspelled := typeUnder_normalized htype
  have hid : stem = model.id := by
    rcases hnamed with ⟨ids, hids, hmem⟩ | ⟨names, hnames, -⟩
    · cases hids
      simpa using hmem
    · cases hnames
  have hcount : (js "definitions-evaluated" :: below).length - 1 - 1 = below.length - 1 := by
    rw [List.length_cons]
    omega
  rw [ownerOf, if_neg (by decide), if_neg (by decide), if_pos rfl, hstem, Option.map_some, hid,
    ← hnormalized, hspelled, hcount]

/-- **Auto-definitions.** -/
theorem owner_of_autoDefinitionKey {id : JsString}
    (h : typedFile toLowerCase segments (js "auto-definitions") none
      { ids := some [id], anyName := true } = some (.ok bound)) (hplain : bound.Plain) :
    ownerOf segments = some (.autoDefinition id) := by
  obtain ⟨below, stem, type, rfl, -, hstem, -, -, hnamed⟩ := typedFile_stem h hplain
  have hid : stem = id := by
    rcases hnamed with ⟨ids, hids, hmem⟩ | ⟨names, hnames, -⟩
    · cases hids
      simpa using hmem
    · cases hnames
  rw [ownerOf, if_neg (by decide), if_neg (by decide), if_neg (by decide), if_neg (by decide),
    if_neg (by decide), if_neg (by decide), if_pos rfl, hstem, Option.map_some, hid]

theorem namedFile_stem {file lead : JsString} {names : List JsString}
    (h : namedFile file lead names = some (.ok bound)) (hplain : bound.Plain) :
    fileStem file lead ∈ names := by
  unfold namedFile at h
  split at h
  · cases h
  · simp only at h
    split at h
    · cases h
      cases hplain.1
    · split at h
      · rename_i hmem
        exact hmem
      · cases h

/-- **Definitions.** -/
theorem owner_of_definitionKey {definition : DefinitionRef}
    (h : definitionKey toLowerCase definition segments [definition.name] = some (.ok bound))
    (hplain : bound.Plain) :
    ownerOf segments = some (.definition definition.kind definition.name) := by
  unfold definitionKey at h
  split at h
  · cases h
  rename_i hroot
  have hroot := not_not.mp hroot
  cases segments with
  | nil => cases hroot
  | cons root below =>
    have hroot : root = js "config" := by simpa using hroot
    have howner : ownerOf (root :: below) = configOwner below := by
      rw [hroot, ownerOf, if_neg (by decide), if_neg (by decide), if_neg (by decide),
        if_neg (by decide), if_neg (by decide), if_pos rfl]
    rw [howner]
    cases hkind : definition.kind with
    | model =>
      rw [hkind] at h
      obtain ⟨rest, stem, type, hbelow, hlength, hstem, -, -, hnamed⟩ := typedFile_stem h hplain
      rw [List.drop_succ_cons, List.drop_zero] at hbelow
      have hname : stem = definition.name := by
        rcases hnamed with ⟨ids, hids, -⟩ | ⟨names, hnames, hmem⟩
        · cases hids
        · cases hnames
          simpa using hmem
      subst hbelow
      cases rest with
      | nil => simp at hlength
      | cons next rest =>
        rw [configOwner, if_neg (by decide), hstem, Option.map_some, hname]
        simp
    | vault =>
      rw [hkind] at h
      obtain ⟨rest, stem, type, -, -, -, -, -, hnamed⟩ := typedFile_stem h hplain
      rcases hnamed with ⟨ids, hids, -⟩ | ⟨names, hnames, -⟩
      · cases hids
      · cases hnames
    | workflow =>
      rw [hkind] at h
      simp only at h
      split at h
      · rename_i first folder file hsegments
        obtain ⟨rfl, rfl⟩ := List.cons.inj hsegments
        split at h
        · rename_i hfolder
          have hmem := namedFile_stem h hplain
          rw [configOwner, if_pos hfolder, List.getLast?_singleton, Option.map_some,
            List.mem_singleton.mp hmem]
          simp
        · cases h
      · cases h

/-- **Evaluated workflows.** -/
theorem owner_of_evaluatedWorkflowKey {definition : DefinitionRef}
    (h : bindSegments.evaluatedWorkflowKey segments definition = some (.ok bound))
    (hplain : bound.Plain) : ownerOf segments = some (.definition .workflow definition.name) := by
  unfold bindSegments.evaluatedWorkflowKey at h
  split at h
  · rename_i root file
    split at h
    · rename_i hroot
      have hmem := namedFile_stem h hplain
      rw [hroot, ownerOf, if_neg (by decide), if_neg (by decide), if_neg (by decide),
        if_neg (by decide), if_pos rfl, evaluatedOwner, List.mem_singleton.mp hmem]
    · cases h
  · cases h

theorem fileStem_append (lead name : JsString) : fileStem (lead ++ name ++ yamlSuffix) lead = name := by
  have hlength : (lead ++ name ++ yamlSuffix).length - yamlSuffix.length = (lead ++ name).length := by
    rw [List.length_append]
    omega
  rw [fileStem, hlength, List.take_left, List.drop_left]

variable {run : RunRef}

/-- **Run records.** -/
theorem owner_of_runKey (h : bindSegments.runKey segments run = some binding) :
    ownerOf segments = some (.run run.workflowId run.runId) := by
  unfold bindSegments.runKey at h
  split at h
  · rename_i hsegments
    rw [hsegments, ownerOf, if_neg (by decide), if_neg (by decide), if_neg (by decide),
      if_pos rfl, runOwner, fileStem_append]
  · cases h

/-- **Step starts.** -/
theorem owner_of_runStartKey (h : bindSegments.runStartKey segments run = some binding) :
    ownerOf segments = some (.run run.workflowId run.runId) := by
  unfold bindSegments.runStartKey at h
  split at h
  · split at h
    · rename_i hkey
      obtain ⟨rfl, rfl, -, rfl, -⟩ := hkey
      rw [ownerOf, if_neg (by decide), if_neg (by decide), if_neg (by decide), if_pos rfl,
        runOwner]
    · cases h
  · cases h

/-- **Run snapshots**, which name the run and not its workflow. -/
theorem owner_of_runSnapshotKey (h : bindSegments.runSnapshotKey segments run = some binding) :
    ownerOf segments = some (.snapshot run.runId) := by
  unfold bindSegments.runSnapshotKey at h
  split at h
  · rename_i hsegments
    rw [hsegments, ownerOf, if_neg (by decide), if_neg (by decide), if_neg (by decide),
      if_neg (by decide), if_pos rfl, evaluatedOwner]
  · cases h

/-- Whether an intent is half of a rename of a definition, which may write the
other name's key. -/
def Intent.RenamesDefinition (intent : Intent) : Prop :=
  intent.kind = .definitionRenameTo ∨ intent.kind = .definitionRenameFrom

/-- Whether an intent is about the snapshot of a run. -/
def Intent.IsRunSnapshot (intent : Intent) (runId : JsString) : Prop :=
  ∃ kind workflowId, intent = .run kind ⟨workflowId, runId⟩ ∧
    (kind = .runSnapshotSave ∨ kind = .runSnapshotDelete)

theorem bindKey_ok {intent : Intent} {opKind : IntentOpKind} {key : RecordKey}
    (h : bindKey toLowerCase intent opKind key = .ok bound) :
    opKindAllowed intent opKind = true ∧
      bindSegments toLowerCase intent (split key.value) = some (.ok bound) := by
  unfold bindKey at h
  split at h
  · rename_i hallowed
    refine ⟨hallowed, ?_⟩
    cases hbind : bindSegments toLowerCase intent (split key.value) with
    | none =>
      rw [hbind] at h
      cases h
    | some binding =>
      rw [hbind, Option.getD_some] at h
      rw [h]
  · cases h

/-- **A bound key is the intent's.** -/
theorem owner_of_bound {intent : Intent} {opKind : IntentOpKind} {key : RecordKey}
    (hformed : intent.WellFormed toLowerCase) (hrename : ¬ intent.RenamesDefinition)
    (h : bindKey toLowerCase intent opKind key = .ok bound) (hplain : bound.Plain) :
    ownerOf (split key.value) = some intent.owner := by
  obtain ⟨-, h⟩ := bindKey_ok h
  cases intent with
  | dataSave model name version | dataAppend model name version | dataDelete model name version
  | dataGc model name version | dataRename model name target => exact owner_of_dataKey h
  | outputSave model outputId | outputDelete model outputId => exact owner_of_outputKey h
  | model kind model =>
    cases kind with
    | evaluatedDefinitionSave | evaluatedDefinitionDelete => exact owner_of_evaluatedKey h hplain
    | _ => exact owner_of_dataKey h
  | run kind run =>
    cases kind with
    | runCreate | runUpdate | runDelete => exact owner_of_runKey h
    | runStartSave | runStartDelete => exact owner_of_runStartKey h
    | runSnapshotSave | runSnapshotDelete => exact owner_of_runSnapshotKey h
  | definition kind definition =>
    cases kind with
    | evaluatedWorkflowSave =>
      have hworkflow := hformed.workflow definition rfl (Or.inl rfl)
      rw [owner_of_evaluatedWorkflowKey h hplain, ← hworkflow]
      rfl
    | evaluatedWorkflowDelete =>
      have hworkflow := hformed.workflow definition rfl (Or.inr rfl)
      rw [owner_of_evaluatedWorkflowKey h hplain, ← hworkflow]
      rfl
    | _ => exact owner_of_definitionKey h hplain
  | definitionRenameTo definition source => exact absurd (Or.inl rfl) hrename
  | definitionRenameFrom definition target => exact absurd (Or.inr rfl) hrename
  | autoDefinitionSave id | autoDefinitionDelete id => exact owner_of_autoDefinitionKey h hplain
  | lockfileWrite =>
    simp only [bindSegments, join_split] at h
    split at h
    · rename_i hkey
      rw [hkey]
      decide
    · cases h

theorem subject_of_owner {first second : Intent} (h : first.owner = second.owner) :
    first.subject = second.subject ∨
      ∃ runId, first.IsRunSnapshot runId ∧ second.IsRunSnapshot runId := by
  have hrun : ∀ {intent : Intent} {ref : RunRef}, intent.subject = .run ref →
      ∃ kind, intent = .run kind ref := by
    intro intent ref hsubject
    cases intent with
    | run kind run =>
      cases hsubject
      exact ⟨kind, rfl⟩
    | _ => cases hsubject
  unfold Intent.owner at h
  cases hfirst : first.subject with
  | model ref =>
    obtain ⟨type, id⟩ := ref
    cases hsecond : second.subject with
    | model ref' =>
      rw [hfirst, hsecond] at h
      obtain ⟨type', id'⟩ := ref'
      cases h
      exact Or.inl rfl
    | run ref' =>
      simp only [hfirst, hsecond] at h
      split at h
      · cases h
      · cases h
    | _ => simp [hfirst, hsecond] at h
  | run ref =>
    cases hsecond : second.subject with
    | run ref' =>
      obtain ⟨kind, rfl⟩ := hrun hfirst
      obtain ⟨kind', rfl⟩ := hrun hsecond
      obtain ⟨workflowId, runId⟩ := ref
      obtain ⟨workflowId', runId'⟩ := ref'
      simp only [Intent.subject, Intent.kind, IntentKind.run.injEq] at h
      split at h
      · rename_i hsnapshot
        split at h
        · rename_i hsnapshot'
          cases h
          exact Or.inr ⟨runId, ⟨kind, workflowId, rfl, hsnapshot⟩,
            ⟨kind', workflowId', rfl, hsnapshot'⟩⟩
        · cases h
      · split at h
        · cases h
        · cases h
          exact Or.inl rfl
    | _ =>
      simp only [hfirst, hsecond] at h
      split at h
      · cases h
      · cases h
  | definition ref =>
    obtain ⟨kind, name⟩ := ref
    cases hsecond : second.subject with
    | definition ref' =>
      rw [hfirst, hsecond] at h
      obtain ⟨kind', name'⟩ := ref'
      cases h
      exact Or.inl rfl
    | run ref' =>
      simp only [hfirst, hsecond] at h
      split at h
      · cases h
      · cases h
    | _ => simp [hfirst, hsecond] at h
  | autoDefinition id =>
    cases hsecond : second.subject with
    | autoDefinition id' =>
      rw [hfirst, hsecond] at h
      cases h
      exact Or.inl rfl
    | run ref' =>
      simp only [hfirst, hsecond] at h
      split at h
      · cases h
      · cases h
    | _ => simp [hfirst, hsecond] at h
  | none =>
    cases hsecond : second.subject with
    | none => exact Or.inl rfl
    | run ref' =>
      simp only [hfirst, hsecond] at h
      split at h
      · cases h
      · cases h
    | _ => simp [hfirst, hsecond] at h

/-- **Key binding isolates aggregates.**  Two accepted intents that are no halves
of a rename and bind one key, by layout alone, have one partition; the snapshots
of one run id are the exception, since their layout names no workflow. -/
theorem key_binding_isolates_aggregates (toLowerCase : JsString → JsString)
    (value₁ value₂ : Json) (intent₁ intent₂ : Intent)
    (haccepted₁ : createIntent toLowerCase value₁ = .ok intent₁)
    (haccepted₂ : createIntent toLowerCase value₂ = .ok intent₂)
    (hrename₁ : ¬ intent₁.RenamesDefinition) (hrename₂ : ¬ intent₂.RenamesDefinition)
    (opKind₁ opKind₂ : IntentOpKind) (key : RecordKey) (bound₁ bound₂ : BoundKey)
    (hbound₁ : bindKey toLowerCase intent₁ opKind₁ key = .ok bound₁)
    (hbound₂ : bindKey toLowerCase intent₂ opKind₂ key = .ok bound₂)
    (hplain₁ : bound₁.Plain) (hplain₂ : bound₂.Plain) :
    (∃ partition, intentPartition toLowerCase intent₁ = .ok partition ∧
        intentPartition toLowerCase intent₂ = .ok partition) ∨
      ∃ runId, intent₁.IsRunSnapshot runId ∧ intent₂.IsRunSnapshot runId := by
  obtain ⟨hformed₁, partition, hpartition⟩ := createIntent_ok haccepted₁
  obtain ⟨hformed₂, -⟩ := createIntent_ok haccepted₂
  have howner₁ := owner_of_bound hformed₁ hrename₁ hbound₁ hplain₁
  have howner₂ := owner_of_bound hformed₂ hrename₂ hbound₂ hplain₂
  have hsame : intent₁.owner = intent₂.owner := Option.some.inj (howner₁.symm.trans howner₂)
  rcases subject_of_owner hsame with hsubject | hsnapshots
  · refine Or.inl ⟨partition, hpartition, ?_⟩
    rw [intentPartition, ← hsubject]
    exact hpartition
  · exact Or.inr hsnapshots

end

/-- The id of a run. -/
def sampleRunId : JsString := js "33333333-3333-4333-8333-333333333333"

/-- The ids of two workflows. -/
def firstWorkflow : JsString := js "11111111-1111-4111-8111-111111111111"

def secondWorkflow : JsString := js "22222222-2222-4222-8222-222222222222"

/-- An intent about a workflow's run, as it is sent. -/
def runIntent (kind : String) (workflowId : JsString) : Json :=
  .obj [(js "kind", .str (js kind)),
    (js "run", .obj [(js "workflowId", .str workflowId), (js "runId", .str sampleRunId)])]

/-- The key of that run's snapshot. -/
def snapshotKey : RecordKey where
  value := js "workflows-evaluated/runs/33333333-3333-4333-8333-333333333333/evaluated-workflow.yaml"
  valid := by decide

/-- **Two workflows bind one snapshot.**  Both intents are accepted and bind the
key without naming a file, and their partitions differ. -/
theorem run_snapshot_binds_for_two_workflows :
    createIntent latinLower (runIntent "run-snapshot.save" firstWorkflow) =
        .ok (.run .runSnapshotSave ⟨firstWorkflow, sampleRunId⟩) ∧
      createIntent latinLower (runIntent "run-snapshot.save" secondWorkflow) =
        .ok (.run .runSnapshotSave ⟨secondWorkflow, sampleRunId⟩) ∧
      bindKey latinLower (.run .runSnapshotSave ⟨firstWorkflow, sampleRunId⟩) .put snapshotKey =
        .ok {} ∧
      bindKey latinLower (.run .runSnapshotSave ⟨secondWorkflow, sampleRunId⟩) .put snapshotKey =
        .ok {} ∧
      intentPartition latinLower (.run .runSnapshotSave ⟨firstWorkflow, sampleRunId⟩) ≠
        intentPartition latinLower (.run .runSnapshotSave ⟨secondWorkflow, sampleRunId⟩) := by
  refine ⟨?_, ?_, ?_, ?_, ?_⟩
  · decide +kernel
  · decide +kernel
  · decide +kernel
  · decide +kernel
  · decide +kernel

/-- The key of that run's record in the first workflow. -/
def runRecordKey : RecordKey where
  value := js "workflow-runs/11111111-1111-4111-8111-111111111111/" ++
    js "workflow-run-33333333-3333-4333-8333-333333333333.yaml"
  valid := by decide

/-- Creating a run's record and updating it are changes of one partition. -/
theorem run_record_binds_in_one_partition :
    ∃ partition,
      intentPartition latinLower (.run .runCreate ⟨firstWorkflow, sampleRunId⟩) =
          .ok partition ∧
        intentPartition latinLower (.run .runUpdate ⟨firstWorkflow, sampleRunId⟩) =
          .ok partition := by
  have hisolated := key_binding_isolates_aggregates latinLower
    (runIntent "run.create" firstWorkflow) (runIntent "run.update" firstWorkflow)
    (.run .runCreate ⟨firstWorkflow, sampleRunId⟩) (.run .runUpdate ⟨firstWorkflow, sampleRunId⟩)
    (by decide +kernel) (by decide +kernel) (by simp [Intent.RenamesDefinition, Intent.kind])
    (by simp [Intent.RenamesDefinition, Intent.kind]) .put .put runRecordKey {} {}
    (by decide +kernel) (by decide +kernel) ⟨rfl, rfl⟩ ⟨rfl, rfl⟩
  rcases hisolated with hpartition | ⟨runId, ⟨kind, workflowId, heq, hkind⟩, -⟩
  · exact hpartition
  · cases heq
    rcases hkind with hkind | hkind
    · cases hkind
    · cases hkind

end Swamp
