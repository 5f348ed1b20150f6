import Mathlib.Data.List.Sort
import Swamp.OrderedMap
import Swamp.PartitionApply

/-!
# The catalog that the commits of a partition leave

`projectCatalog` reads the ops of one commit into changes of the catalog, and
`foldCatalogActions` makes those changes.  Both work through maps of the names
they meet, and both are folds when seen from one name: `Op.onLive` is what an op
does to the live versions of a name, `CatalogAction.onName` what a change does
to its rows and forward.
-/

namespace Swamp

open Js

/-- A version of a data name that is live, with its metadata. -/
structure LiveDataVersion where
  version : Version
  metadata : DataMetadata

/-- One change of the catalog. -/
inductive CatalogAction where
  | upsertVersion (metadata : DataMetadata)
  | removeVersion (name : JsString) (version : Version)
  | removeName (name : JsString)
  | forward (name target : JsString)
  | endForward (name : JsString)

/-- What a commit does to the catalog. -/
structure CatalogProjection where
  actions : List CatalogAction
  live : OrderedMap JsString (List LiveDataVersion)

/-- A version that ends its name and says where the name went. -/
def isRenameMarker (metadata : DataMetadata) : Bool :=
  decide (metadata.lifecycle = some .deleted) && metadata.renamedTo.isSome

/-- The live versions of one name, by version. -/
abbrev LiveMap := OrderedMap Version LiveDataVersion

/-- The loop's variables: the live versions of the names met so far, the changes
so far, and the names to reconcile at the end. -/
structure Projecting where
  live : OrderedMap JsString LiveMap
  actions : List CatalogAction
  reconcile : OrderedMap JsString Unit

/-- Nothing met yet. -/
def Projecting.start : Projecting := ⟨.empty, [], .empty⟩

/-- The live versions of a name: those the loop left, or those from before. -/
def liveOf (liveBefore : JsString → List LiveDataVersion) (live : OrderedMap JsString LiveMap)
    (name : JsString) : LiveMap :=
  (live.get name).getD (.ofList ((liveBefore name).map (fun v => (v.version, v))))

/-- The changes a version makes when it is written: a rename marker takes the
name's rows away and forwards it, any other version is a row. -/
def showVersion (metadata : DataMetadata) : List CatalogAction :=
  match isRenameMarker metadata, metadata.renamedTo with
  | true, some target => [.removeName metadata.name, .forward metadata.name target]
  | _, _ => [.upsertVersion metadata]

/-- The changes that end a name. -/
def endName (name : JsString) : List CatalogAction := [.removeName name, .endForward name]

/-- One op of the loop. -/
def projectOp (liveBefore : JsString → List LiveDataVersion) (st : Projecting) : Op → Projecting
  | .put _ => st
  | .lease _ => st
  | .dataVersion op =>
    let metadata := op.metadata
    let versions := liveOf liveBefore st.live metadata.name
    { st with
      live := st.live.set metadata.name
        (versions.set metadata.version ⟨metadata.version, metadata⟩)
      actions := st.actions ++ showVersion metadata }
  | .tombstone op =>
    match op.intent with
    | .dataDelete _ name (some version) => removeLive st name version
    | .dataGc _ name (some version) => removeLive st name version
    -- An expiry after a versioned tombstone wins; a later versioned tombstone
    -- of the commit marks the name again.
    | .dataGc _ name none =>
      { st with
        actions := st.actions ++ endName name
        reconcile := st.reconcile.delete name }
    | _ => st
where
  removeLive (st : Projecting) (name : JsString) (version : Version) : Projecting :=
    { live := st.live.set name ((liveOf liveBefore st.live name).delete version)
      actions := st.actions ++ [.removeVersion name version]
      reconcile := st.reconcile.set name () }

/-- The ops of a commit. -/
def projectOps (liveBefore : JsString → List LiveDataVersion) (ops : List Op) : Projecting :=
  ops.foldl (projectOp liveBefore) Projecting.start

/-- The highest version of a map. -/
def greatest (versions : LiveMap) : Option LiveDataVersion :=
  versions.values.foldl
    (fun top entry =>
      match top with
      | none => some entry
      | some top => if top.version.val < entry.version.val then some entry else some top)
    none

/-- The changes that bring a name's catalog back to its live versions. -/
def reconcileName (versions : LiveMap) (name : JsString) : List CatalogAction :=
  match greatest versions with
  | none => endName name
  | some top =>
    match isRenameMarker top.metadata, top.metadata.renamedTo with
    | true, some target => [.removeName name, .forward name target]
    | _, _ => [.upsertVersion top.metadata]

/-- Live versions in order of version. -/
def sortLive (versions : List LiveDataVersion) : List LiveDataVersion :=
  versions.insertionSort (fun a b => a.version.val ≤ b.version.val)

/-- `projectCatalog`. -/
def projectCatalog (ops : List Op) (liveBefore : JsString → List LiveDataVersion) :
    CatalogProjection :=
  let st := projectOps liveBefore ops
  { actions :=
      st.actions ++
        st.reconcile.keys.flatMap (fun name => reconcileName (liveOf liveBefore st.live name) name)
    live := st.live.mapValues (fun _ versions => sortLive versions.values) }

/-- The catalog of one name: its rows in order of version, and where it is
forwarded to. -/
structure CatalogNameState where
  rows : List DataMetadata
  forward : Option JsString

/-- A name the catalog does not know. -/
def EMPTY_CATALOG_NAME : CatalogNameState := ⟨[], none⟩

/-- The catalog of a name while changes are made. -/
structure WorkingName where
  rows : OrderedMap Version DataMetadata
  forward : Option JsString

/-- The catalog of a name as the changes find it. -/
def WorkingName.of (prior : CatalogNameState) : WorkingName where
  rows := .ofList (prior.rows.map (fun row => (row.version, row)))
  forward := prior.forward

/-- The name a change is about. -/
def CatalogAction.name : CatalogAction → JsString
  | .upsertVersion metadata => metadata.name
  | .removeVersion name _ => name
  | .removeName name => name
  | .forward name _ => name
  | .endForward name => name

/-- One change, made to the catalog of its name. -/
def CatalogAction.act (state : WorkingName) : CatalogAction → WorkingName
  | .upsertVersion metadata =>
    let latest := !state.rows.keys.any (fun version => metadata.version.val < version.val)
    { rows := state.rows.set metadata.version metadata
      forward := if latest then none else state.forward }
  | .removeVersion _ version => { state with rows := state.rows.delete version }
  | .removeName _ => { state with rows := .empty }
  | .forward _ target => { state with forward := some target }
  | .endForward _ => { state with forward := none }

/-- The catalog of a name: as the changes so far leave it, or from before. -/
def foldCatalogActions.stateOf (before : JsString → CatalogNameState) (working : OrderedMap JsString WorkingName)
    (name : JsString) : WorkingName :=
  (working.get name).getD (.of (before name))

/-- One change of the loop. -/
def foldAction (before : JsString → CatalogNameState)
    (working : OrderedMap JsString WorkingName) (action : CatalogAction) :
    OrderedMap JsString WorkingName :=
  working.set action.name (action.act (foldCatalogActions.stateOf before working action.name))

/-- Rows in order of version. -/
def sortRows (rows : List DataMetadata) : List DataMetadata :=
  rows.insertionSort (fun a b => a.version.val ≤ b.version.val)

/-- `foldCatalogActions`. -/
def foldCatalogActions (actions : List CatalogAction) (before : JsString → CatalogNameState) :
    OrderedMap JsString CatalogNameState :=
  (actions.foldl (foldAction before) .empty).mapValues
    (fun _ state => ⟨sortRows state.rows.values, state.forward⟩)

/-- What an op does to the live versions of a name. -/
def Op.onLive (name : JsString) (versions : LiveMap) : Op → LiveMap
  | .put _ => versions
  | .lease _ => versions
  | .dataVersion op =>
    if op.metadata.name = name then
      versions.set op.metadata.version ⟨op.metadata.version, op.metadata⟩
    else versions
  | .tombstone op =>
    match op.removes with
    | some (target, version) => if target = name then versions.delete version else versions
    | none => versions

/-- The changes an op makes as it is met. -/
def Op.catalogActions : Op → List CatalogAction
  | .put _ => []
  | .lease _ => []
  | .dataVersion op => showVersion op.metadata
  | .tombstone op =>
    match op.intent with
    | .dataDelete _ name (some version) => [.removeVersion name version]
    | .dataGc _ name (some version) => [.removeVersion name version]
    | .dataGc _ name none => endName name
    | _ => []

/-- Whether a name waits to be reconciled once an op is met. -/
def Op.onReconcile (name : JsString) (waits : Bool) : Op → Bool
  | .tombstone op =>
    match op.intent with
    | .dataDelete _ target (some _) => decide (target = name) || waits
    | .dataGc _ target (some _) => decide (target = name) || waits
    | .dataGc _ target none => !decide (target = name) && waits
    | _ => waits
  | _ => waits

section

variable (liveBefore : JsString → List LiveDataVersion)

theorem liveOf_set (live : OrderedMap JsString LiveMap) (target name : JsString)
    (versions : LiveMap) :
    liveOf liveBefore (live.set target versions) name =
      if target = name then versions else liveOf liveBefore live name := by
  unfold liveOf
  rw [OrderedMap.get_set]
  by_cases h : target = name
  · subst h
    simp
  · rw [if_neg (Ne.symm h), if_neg h]

/-- **One op of the projection**, seen from one name. -/
theorem projectOp_at (st : Projecting) (op : Op) (name : JsString) :
    liveOf liveBefore (projectOp liveBefore st op).live name =
        op.onLive name (liveOf liveBefore st.live name) ∧
      (projectOp liveBefore st op).actions = st.actions ++ op.catalogActions ∧
      (projectOp liveBefore st op).reconcile.has name =
        op.onReconcile name (st.reconcile.has name) := by
  have hremove : ∀ (target : JsString) (version : Version),
      liveOf liveBefore (projectOp.removeLive liveBefore st target version).live name =
          (if target = name then (liveOf liveBefore st.live name).delete version
            else liveOf liveBefore st.live name) ∧
        (projectOp.removeLive liveBefore st target version).reconcile.has name =
          (decide (target = name) || st.reconcile.has name) := by
    intro target version
    constructor
    · rw [projectOp.removeLive, liveOf_set]
      split
      · rename_i h
        rw [h]
      · rfl
    · rw [projectOp.removeLive, OrderedMap.has, OrderedMap.get_set, OrderedMap.has]
      by_cases h : name = target
      · simp [h]
      · simp [h, Ne.symm h]
  cases op with
  | put op | lease op => simp [projectOp, Op.onLive, Op.catalogActions, Op.onReconcile]
  | dataVersion op =>
    refine ⟨?_, rfl, rfl⟩
    rw [projectOp, liveOf_set, Op.onLive]
    split
    · rename_i h
      rw [h]
    · rfl
  | tombstone op =>
    cases hintent : op.intent with
    | dataDelete model target version =>
      cases version with
      | none =>
        simp [projectOp, Op.onLive, Op.catalogActions, Op.onReconcile, TombstoneOp.removes,
          hintent]
      | some version =>
        simp only [projectOp, Op.onLive, Op.catalogActions, Op.onReconcile,
          TombstoneOp.removes, hintent]
        exact ⟨(hremove target version).1, rfl, (hremove target version).2⟩
    | dataGc model target version =>
      cases version with
      | none =>
        simp only [projectOp, Op.onLive, Op.catalogActions, Op.onReconcile,
          TombstoneOp.removes, hintent]
        refine ⟨trivial, trivial, ?_⟩
        rw [OrderedMap.has, OrderedMap.get_delete, OrderedMap.has]
        by_cases h : name = target
        · simp [h]
        · simp [h, Ne.symm h]
      | some version =>
        simp only [projectOp, Op.onLive, Op.catalogActions, Op.onReconcile,
          TombstoneOp.removes, hintent]
        exact ⟨(hremove target version).1, rfl, (hremove target version).2⟩
    | _ =>
      simp [projectOp, Op.onLive, Op.catalogActions, Op.onReconcile, TombstoneOp.removes,
        hintent]

end

/-- What a change does to the catalog of a name. -/
def CatalogAction.onName (name : JsString) (state : WorkingName) (action : CatalogAction) :
    WorkingName :=
  if action.name = name then action.act state else state

theorem stateOf_foldAction (before : JsString → CatalogNameState)
    (working : OrderedMap JsString WorkingName) (action : CatalogAction) (name : JsString) :
    foldCatalogActions.stateOf before (foldAction before working action) name =
      action.onName name (foldCatalogActions.stateOf before working name) := by
  unfold foldCatalogActions.stateOf foldAction CatalogAction.onName
  rw [OrderedMap.get_set]
  by_cases h : action.name = name
  · subst h
    simp [foldCatalogActions.stateOf]
  · rw [if_neg (Ne.symm h), if_neg h]

/-- **The catalog of a name**, as a fold over the changes. -/
theorem stateOf_foldl (before : JsString → CatalogNameState) (actions : List CatalogAction)
    (working : OrderedMap JsString WorkingName) (name : JsString) :
    foldCatalogActions.stateOf before (actions.foldl (foldAction before) working) name =
      actions.foldl (CatalogAction.onName name)
        (foldCatalogActions.stateOf before working name) := by
  induction actions generalizing working with
  | nil => rfl
  | cons action actions ih =>
    rw [List.foldl_cons, List.foldl_cons, ih, stateOf_foldAction]

theorem foldl_onName_of_ne {name : JsString} {actions : List CatalogAction}
    (h : ∀ action ∈ actions, action.name ≠ name) (state : WorkingName) :
    actions.foldl (CatalogAction.onName name) state = state := by
  induction actions with
  | nil => rfl
  | cons action actions ih =>
    have hhead : action.onName name state = state := by
      rw [CatalogAction.onName, if_neg (h action List.mem_cons_self)]
    rw [List.foldl_cons, hhead]
    exact ih (fun other hother => h other (List.mem_cons_of_mem _ hother))

theorem foldl_onName_of_eq {name : JsString} {actions : List CatalogAction}
    (h : ∀ action ∈ actions, action.name = name) (state : WorkingName) :
    actions.foldl (CatalogAction.onName name) state = actions.foldl CatalogAction.act state := by
  induction actions generalizing state with
  | nil => rfl
  | cons action actions ih =>
    rw [List.foldl_cons, List.foldl_cons, CatalogAction.onName,
      if_pos (h action List.mem_cons_self)]
    exact ih (fun other hother => h other (List.mem_cons_of_mem _ hother)) _

theorem foldl_onName_flatMap {changes : JsString → List CatalogAction}
    (hown : ∀ target, ∀ action ∈ changes target, action.name = target) {names : List JsString}
    (hnodup : names.Nodup) (name : JsString) (state : WorkingName) :
    (names.flatMap changes).foldl (CatalogAction.onName name) state =
      if name ∈ names then (changes name).foldl CatalogAction.act state else state := by
  induction names generalizing state with
  | nil => rfl
  | cons target names ih =>
    rw [List.nodup_cons] at hnodup
    rw [List.flatMap_cons, List.foldl_append, ih hnodup.2]
    by_cases h : target = name
    · subst h
      rw [if_neg hnodup.1, if_pos List.mem_cons_self, foldl_onName_of_eq (hown target)]
    · have hother : ∀ action ∈ changes target, action.name ≠ name := by
        intro action haction heq
        exact h ((hown target action haction).symm.trans heq)
      rw [foldl_onName_of_ne hother]
      by_cases hmem : name ∈ names
      · rw [if_pos hmem, if_pos (List.mem_cons_of_mem _ hmem)]
      · rw [if_neg hmem, if_neg]
        intro hcons
        rcases List.mem_cons.mp hcons with heq | hmem'
        · exact h heq.symm
        · exact hmem hmem'

end Swamp
