import Swamp.AppendLog
import Swamp.CatalogProjection

/-!
# The catalog agrees with the partition

A partition and the projection of its commits read the same ops for themselves.
`LiveKept` says that the projection's live versions of a name are the
partition's, `CatalogKept` that the catalog shows nothing else.  Inside a commit
a forward may outlive the marker it came from, but then its name waits to be
reconciled; `CatalogKept` carries that as a flag, and the reconciliation at the
end of the commit clears it.
-/

namespace Swamp

open Js

section

variable {A : Type} (ver : A → Version)

/-- The values of a map, in order of version. -/
def inOrder (values : List A) : List A :=
  values.insertionSort (fun a b => (ver a).val ≤ (ver b).val)

/-- A map from its values, each under its version. -/
def byVersion (values : List A) : OrderedMap Version A :=
  .ofList (values.map (fun a => (ver a, a)))

/-- Values of strictly increasing version. -/
def Increasing (values : List A) : Prop := values.Pairwise (fun a b => (ver a).val < (ver b).val)

variable {ver}

/-- Every value of a map stands under its own version. -/
def Keyed (ver : A → Version) (m : OrderedMap Version A) : Prop :=
  ∀ v a, m.get v = some a → ver a = v

theorem Increasing.nodup {values : List A} (h : Increasing ver values) :
    (values.map ver).Nodup := by
  rw [List.Nodup, List.pairwise_map]
  apply h.imp
  intro a b hlt heq
  rw [heq] at hlt
  exact lt_irrefl _ hlt

theorem byVersion_get {values : List A} (h : Increasing ver values) {v : Version} {a : A} :
    (byVersion ver values).get v = some a ↔ a ∈ values ∧ ver a = v := by
  have hnodup : ((values.map (fun a => (ver a, a))).map Prod.fst).Nodup := by
    rw [List.map_map]
    exact h.nodup
  rw [← OrderedMap.mem_entries, byVersion, OrderedMap.entries_ofList hnodup, List.mem_map]
  constructor
  · intro hmem
    obtain ⟨b, hb, heq⟩ := hmem
    obtain ⟨rfl, rfl⟩ := Prod.mk.inj heq
    exact ⟨hb, rfl⟩
  · intro hmem
    exact ⟨a, hmem.1, by rw [hmem.2]⟩

variable {m : OrderedMap Version A}

theorem Keyed.values_nodup (h : Keyed ver m) : (m.values.map ver).Nodup := by
  have hkeys : m.values.map ver = m.entries.map Prod.fst := by
    rw [OrderedMap.values, List.map_map]
    apply List.map_congr_left
    intro entry hentry
    exact h entry.1 entry.2 (OrderedMap.mem_entries.mp hentry)
  rw [hkeys]
  exact m.nodup

theorem Keyed.increasing (h : Keyed ver m) : Increasing ver (inOrder ver m.values) := by
  have hperm : (inOrder ver m.values).Perm m.values := List.perm_insertionSort _ _
  have hsorted : (inOrder ver m.values).Pairwise (fun a b => (ver a).val ≤ (ver b).val) :=
    @List.pairwise_insertionSort _ (fun a b => (ver a).val ≤ (ver b).val) _
      ⟨fun a b => le_total _ _⟩ ⟨fun a b c => le_trans⟩ m.values
  have hdistinct : (inOrder ver m.values).Pairwise (fun a b => ver a ≠ ver b) := by
    rw [← List.pairwise_map (f := ver) (R := (· ≠ ·))]
    exact (hperm.map ver).nodup_iff.mpr h.values_nodup
  apply (hsorted.and hdistinct).imp
  intro a b hab
  exact lt_of_le_of_ne hab.1 (fun heq => hab.2 (Version.ext_val heq))

theorem Keyed.mem_values (h : Keyed ver m) {a : A} : a ∈ m.values ↔ m.get (ver a) = some a := by
  rw [OrderedMap.mem_values]
  constructor
  · intro hmem
    obtain ⟨v, hget⟩ := hmem
    rw [h v a hget]
    exact hget
  · exact fun hget => ⟨_, hget⟩

/-- **A map written out in order reads back as itself.** -/
theorem Keyed.get_inOrder (h : Keyed ver m) (v : Version) :
    (byVersion ver (inOrder ver m.values)).get v = m.get v := by
  apply Option.ext
  intro a
  have hmem : a ∈ inOrder ver m.values ↔ a ∈ m.values :=
    (List.perm_insertionSort _ _).mem_iff
  change (byVersion ver (inOrder ver m.values)).get v = some a ↔ m.get v = some a
  rw [byVersion_get h.increasing, hmem, h.mem_values]
  constructor
  · intro hget
    rw [← hget.2]
    exact hget.1
  · intro hget
    have hv := h v a hget
    rw [hv]
    exact ⟨hget, rfl⟩

end

/-- The projection's live versions of a name are the partition's. -/
structure LiveKept (name : JsString) (versions : LiveMap) (entry : Option DataName) : Prop where
  keyed : Keyed LiveDataVersion.version versions
  own : ∀ v e, versions.get v = some e → e.metadata.version = v ∧ e.metadata.name = name
  live : ∀ n, n ∈ (entry.getD DataName.unwritten).live ↔
    ∃ v : Version, v.val = n ∧ (versions.get v).isSome

variable {name : JsString} {entry : Option DataName}

theorem LiveKept.record {versions : LiveMap} (h : LiveKept name versions entry)
    {metadata : DataMetadata} (hname : metadata.name = name) :
    LiveKept name (versions.set metadata.version ⟨metadata.version, metadata⟩)
      (some ((entry.getD DataName.unwritten).recordVersion metadata.version)) where
  keyed := by
    intro v e hget
    rw [OrderedMap.get_set] at hget
    split at hget
    · rename_i hv
      cases hget
      exact hv.symm
    · exact h.keyed v e hget
  own := by
    intro v e hget
    rw [OrderedMap.get_set] at hget
    split at hget
    · rename_i hv
      cases hget
      exact ⟨hv.symm, hname⟩
    · exact h.own v e hget
  live := by
    intro n
    rw [Option.getD_some, DataName.recordVersion, Finset.mem_insert, h.live]
    constructor
    · intro hn
      rcases hn with rfl | ⟨v, rfl, hv⟩
      · exact ⟨metadata.version, rfl, by simp⟩
      · refine ⟨v, rfl, ?_⟩
        rw [OrderedMap.get_set]
        split
        · rfl
        · exact hv
    · intro hn
      obtain ⟨v, rfl, hv⟩ := hn
      rw [OrderedMap.get_set] at hv
      split at hv
      · rename_i heq
        exact Or.inl (by rw [heq])
      · exact Or.inr ⟨v, rfl, hv⟩

theorem LiveKept.remove {versions : LiveMap} (h : LiveKept name versions entry) (version : Version)
    :
    LiveKept name (versions.delete version)
      (entry.map (fun d => d.removeVersion version)) where
  keyed := by
    intro v e hget
    rw [OrderedMap.get_delete] at hget
    split at hget
    · cases hget
    · exact h.keyed v e hget
  own := by
    intro v e hget
    rw [OrderedMap.get_delete] at hget
    split at hget
    · cases hget
    · exact h.own v e hget
  live := by
    intro n
    have hmem : n ∈ ((entry.map (fun d => d.removeVersion version)).getD DataName.unwritten).live ↔
        n ≠ version.val ∧ n ∈ (entry.getD DataName.unwritten).live := by
      cases entry with
      | none => simp [DataName.unwritten]
      | some d =>
        simp only [Option.map_some, Option.getD_some, DataName.removeVersion]
        split
        · rw [Finset.mem_erase]
        · rename_i hnot
          refine ⟨fun hn => ⟨fun heq => hnot (heq ▸ hn), hn⟩, fun hn => hn.2⟩
    rw [hmem, h.live]
    constructor
    · intro hn
      obtain ⟨hne, v, rfl, hv⟩ := hn
      refine ⟨v, rfl, ?_⟩
      rw [OrderedMap.get_delete, if_neg (fun heq => hne (by rw [heq]))]
      exact hv
    · intro hn
      obtain ⟨v, rfl, hv⟩ := hn
      rw [OrderedMap.get_delete] at hv
      split at hv
      · cases hv
      · rename_i hne
        exact ⟨fun heq => hne (Version.ext_val heq), v, rfl, hv⟩

/-- **One op keeps the live versions of a name the partition's.** -/
theorem LiveKept.step {versions : LiveMap} (h : LiveKept name versions entry) (op : Op) :
    LiveKept name (op.onLive name versions) (op.onName name entry) := by
  cases op with
  | put op | lease op => exact h
  | dataVersion op =>
    simp only [Op.onLive, Op.onName]
    split
    · rename_i hname
      exact h.record hname
    · exact h
  | tombstone op =>
    simp only [Op.onLive, Op.onName]
    cases op.removes with
    | none => exact h
    | some pair =>
      obtain ⟨target, version⟩ := pair
      simp only
      split
      · exact h.remove version
      · exact h

/-- The rows of a name are live versions of it and no markers, it has rows or is
forwarded but not both, and a forward comes from a live marker unless the name
waits to be reconciled. -/
structure CatalogKept (versions : LiveMap) (state : WorkingName) (waits : Bool) : Prop where
  rows : ∀ v row, state.rows.get v = some row →
    versions.get v = some ⟨v, row⟩ ∧ isRenameMarker row = false
  apart : ∀ target, state.forward = some target → ∀ v, state.rows.get v = none
  marked : ∀ target, state.forward = some target → waits = true ∨
    ∃ v e, versions.get v = some e ∧ isRenameMarker e.metadata = true ∧
      e.metadata.renamedTo = some target

/-- Whether a version is shown as a forward or as a row. -/
theorem isRenameMarker_cases (metadata : DataMetadata) :
    (∃ target, isRenameMarker metadata = true ∧ metadata.renamedTo = some target) ∨
      isRenameMarker metadata = false := by
  unfold isRenameMarker
  cases hto : metadata.renamedTo with
  | none => exact Or.inr (by simp)
  | some target =>
    by_cases hdeleted : metadata.lifecycle = some .deleted
    · exact Or.inl ⟨target, by simp [hdeleted], rfl⟩
    · exact Or.inr (by simp [hdeleted])

section

variable {versions next : LiveMap} {state : WorkingName} {waits : Bool}

theorem CatalogKept.forwarded {v : Version} {e : LiveDataVersion} {target : JsString}
    (hget : next.get v = some e) (hmarker : isRenameMarker e.metadata = true)
    (hto : e.metadata.renamedTo = some target) :
    CatalogKept next ⟨.empty, some target⟩ waits where
  rows := by
    intro v row hrow
    cases hrow
  apart := fun _ _ _ => rfl
  marked := by
    intro target' htarget
    cases htarget
    exact Or.inr ⟨v, e, hget, hmarker, hto⟩

/-- A name with neither rows nor a forward. -/
theorem CatalogKept.ended : CatalogKept next ⟨.empty, none⟩ waits where
  rows := by
    intro v row hrow
    cases hrow
  apart := fun _ _ _ => rfl
  marked := by
    intro target htarget
    cases htarget

/-- A name that has no rows is shown as latest by whatever version comes. -/
theorem CatalogKept.upsert_forward (h : CatalogKept versions state waits)
    (metadata : DataMetadata) :
    (CatalogAction.act state (.upsertVersion metadata)).forward = none := by
  rw [CatalogAction.act]
  simp only
  split
  · rfl
  · rename_i hlatest
    cases hforward : state.forward with
    | none => rfl
    | some target =>
      refine absurd ?_ hlatest
      rw [Bool.not_eq_true', List.any_eq_false]
      intro v hv
      rw [OrderedMap.mem_keys, h.apart target hforward v] at hv
      cases hv

theorem CatalogKept.upsert (h : CatalogKept versions state waits) {metadata : DataMetadata}
    (hplain : isRenameMarker metadata = false)
    (hget : next.get metadata.version = some ⟨metadata.version, metadata⟩)
    (hother : ∀ v, v ≠ metadata.version → next.get v = versions.get v) (waits' : Bool) :
    CatalogKept next (CatalogAction.act state (.upsertVersion metadata)) waits' := by
  have hforward := h.upsert_forward metadata
  refine ⟨?_, ?_, ?_⟩
  · intro v row hrow
    rw [CatalogAction.act, OrderedMap.get_set] at hrow
    split at hrow
    · rename_i hv
      cases hrow
      rw [hv]
      exact ⟨hget, hplain⟩
    · rename_i hv
      rw [hother v hv]
      exact h.rows v row hrow
  · intro target htarget
    rw [hforward] at htarget
    cases htarget
  · intro target htarget
    rw [hforward] at htarget
    cases htarget

theorem CatalogKept.removed (h : CatalogKept versions state waits) (name : JsString)
    (version : Version) :
    CatalogKept (versions.delete version)
      (CatalogAction.act state (.removeVersion name version)) true where
  rows := by
    intro v row hrow
    rw [CatalogAction.act, OrderedMap.get_delete] at hrow
    rw [OrderedMap.get_delete]
    split at hrow
    · cases hrow
    · rename_i hv
      rw [if_neg hv]
      exact h.rows v row hrow
  apart := by
    intro target htarget v
    rw [CatalogAction.act, OrderedMap.get_delete, h.apart target htarget v, ite_self]
  marked := fun _ _ => Or.inl rfl

theorem CatalogKept.show (h : CatalogKept versions state waits) (metadata : DataMetadata) :
    CatalogKept (versions.set metadata.version ⟨metadata.version, metadata⟩)
      ((showVersion metadata).foldl CatalogAction.act state) waits := by
  have hget : (versions.set metadata.version ⟨metadata.version, metadata⟩).get metadata.version =
      some ⟨metadata.version, metadata⟩ := OrderedMap.get_set_self _ _ _
  rcases isRenameMarker_cases metadata with ⟨target, hmarker, hto⟩ | hplain
  · rw [showVersion, hmarker, hto]
    exact CatalogKept.forwarded hget hmarker hto
  · rw [showVersion, hplain]
    exact h.upsert hplain hget (fun v hv => OrderedMap.get_set_ne _ _ hv) waits

end

/-- The changes of a written version are its name's. -/
theorem showVersion_name (metadata : DataMetadata) :
    ∀ action ∈ showVersion metadata, action.name = metadata.name := by
  intro action haction
  rcases isRenameMarker_cases metadata with ⟨target, hmarker, hto⟩ | hplain
  · simp only [showVersion, hmarker, hto, List.mem_cons, List.not_mem_nil, or_false] at haction
    rcases haction with rfl | rfl
    · rfl
    · rfl
  · simp only [showVersion, hplain, List.mem_cons, List.not_mem_nil, or_false] at haction
    subst haction
    rfl

theorem endName_name (name : JsString) : ∀ action ∈ endName name, action.name = name := by
  intro action haction
  simp only [endName, List.mem_cons, List.not_mem_nil, or_false] at haction
  rcases haction with rfl | rfl
  · rfl
  · rfl

/-- **One op keeps the catalog of a name to its live versions.** -/
theorem CatalogKept.step {versions : LiveMap} {state : WorkingName} {waits : Bool}
    (h : CatalogKept versions state waits) (name : JsString) (op : Op) :
    CatalogKept (op.onLive name versions)
      (op.catalogActions.foldl (CatalogAction.onName name) state)
      (op.onReconcile name waits) := by
  have hremove : ∀ (target : JsString) (version : Version),
      CatalogKept (if target = name then versions.delete version else versions)
        ([CatalogAction.removeVersion target version].foldl (CatalogAction.onName name) state)
        (decide (target = name) || waits) := by
    intro target version
    by_cases htarget : target = name
    · simp only [htarget, if_true, decide_true, Bool.true_or, List.foldl_cons, List.foldl_nil,
        CatalogAction.onName, CatalogAction.name]
      exact h.removed name version
    · simp only [htarget, if_false, decide_false, Bool.false_or, List.foldl_cons, List.foldl_nil,
        CatalogAction.onName, CatalogAction.name]
      exact h
  cases op with
  | put op | lease op => exact h
  | dataVersion op =>
    simp only [Op.onLive, Op.catalogActions, Op.onReconcile]
    by_cases hname : op.metadata.name = name
    · subst hname
      rw [if_pos rfl, foldl_onName_of_eq (showVersion_name op.metadata)]
      exact h.show op.metadata
    · rw [if_neg hname, foldl_onName_of_ne]
      · exact h
      · intro action haction heq
        exact hname ((showVersion_name op.metadata action haction).symm.trans heq)
  | tombstone op =>
    cases hintent : op.intent with
    | dataDelete model target version =>
      cases version with
      | none =>
        simpa [Op.onLive, Op.catalogActions, Op.onReconcile, TombstoneOp.removes, hintent]
          using h
      | some version =>
        simp only [Op.onLive, Op.catalogActions, Op.onReconcile, TombstoneOp.removes, hintent]
        exact hremove target version
    | dataGc model target version =>
      cases version with
      | none =>
        simp only [Op.onLive, Op.catalogActions, Op.onReconcile, TombstoneOp.removes, hintent]
        by_cases htarget : target = name
        · subst htarget
          rw [foldl_onName_of_eq (endName_name target)]
          exact CatalogKept.ended
        · rw [foldl_onName_of_ne]
          · simpa [htarget] using h
          · intro action haction heq
            exact htarget ((endName_name target action haction).symm.trans heq)
      | some version =>
        simp only [Op.onLive, Op.catalogActions, Op.onReconcile, TombstoneOp.removes, hintent]
        exact hremove target version
    | _ =>
      simpa [Op.onLive, Op.catalogActions, Op.onReconcile, TombstoneOp.removes, hintent] using h

/-- The higher of the version held and another. -/
def higher (top : Option LiveDataVersion) (entry : LiveDataVersion) : Option LiveDataVersion :=
  match top with
  | none => some entry
  | some top => if top.version.val < entry.version.val then some entry else some top

theorem higher_cases (top : Option LiveDataVersion) (entry : LiveDataVersion) :
    higher top entry = some entry ∨ ∃ held, top = some held ∧ higher top entry = some held := by
  cases top with
  | none => exact Or.inl rfl
  | some held =>
    by_cases hlt : held.version.val < entry.version.val
    · exact Or.inl (if_pos hlt)
    · exact Or.inr ⟨held, rfl, if_neg hlt⟩

theorem foldl_higher (values : List LiveDataVersion) (start : Option LiveDataVersion) :
    (∀ top, values.foldl higher start = some top → top ∈ values ∨ start = some top) ∧
      (values.foldl higher start = none → values = []) := by
  induction values generalizing start with
  | nil => exact ⟨fun top htop => Or.inr htop, fun _ => rfl⟩
  | cons entry values ih =>
    rw [List.foldl_cons]
    obtain ⟨hsome, hnone⟩ := ih (higher start entry)
    constructor
    · intro top htop
      cases hsome top htop with
      | inl hmem => exact Or.inl (List.mem_cons_of_mem _ hmem)
      | inr hstart =>
        cases higher_cases start entry with
        | inl hentry =>
          rw [hentry] at hstart
          cases hstart
          exact Or.inl List.mem_cons_self
        | inr hheld =>
          obtain ⟨held, hheld, hsame⟩ := hheld
          rw [hsame] at hstart
          exact Or.inr (hheld.trans hstart)
    · intro hlast
      rw [hnone hlast, List.foldl_nil] at hlast
      cases higher_cases start entry with
      | inl hentry => rw [hentry] at hlast; cases hlast
      | inr hheld =>
        obtain ⟨held, -, hsame⟩ := hheld
        rw [hsame] at hlast
        cases hlast

theorem greatest_spec (versions : LiveMap) :
    (∀ top, greatest versions = some top → top ∈ versions.values) ∧
      (greatest versions = none → versions.values = []) := by
  have heq : greatest versions = versions.values.foldl higher none := rfl
  obtain ⟨hsome, hnone⟩ := foldl_higher versions.values none
  rw [heq]
  exact ⟨fun top htop => (hsome top htop).resolve_right (by simp), hnone⟩

/-- The changes of a reconciliation are its name's. -/
theorem reconcileName_name {versions : LiveMap} (h : LiveKept name versions entry) :
    ∀ action ∈ reconcileName versions name, action.name = name := by
  intro action haction
  unfold reconcileName at haction
  cases htop : greatest versions with
  | none =>
    rw [htop] at haction
    exact endName_name name action haction
  | some top =>
    obtain ⟨v, hget⟩ := OrderedMap.mem_values.mp ((greatest_spec versions).1 top htop)
    rw [htop] at haction
    rcases isRenameMarker_cases top.metadata with ⟨target, hmarker, hto⟩ | hplain
    · simp only [hmarker, hto, List.mem_cons, List.not_mem_nil, or_false] at haction
      rcases haction with rfl | rfl
      · rfl
      · rfl
    · simp only [hplain, List.mem_cons, List.not_mem_nil, or_false] at haction
      subst haction
      exact (h.own v top hget).2

/-- **Reconciling a name clears its wait.** -/
theorem CatalogKept.reconcile {versions : LiveMap} {state : WorkingName} {waits : Bool}
    (hlive : LiveKept name versions entry) (h : CatalogKept versions state waits) :
    CatalogKept versions ((reconcileName versions name).foldl CatalogAction.act state) false := by
  unfold reconcileName
  cases htop : greatest versions with
  | none => exact CatalogKept.ended
  | some top =>
    obtain ⟨v, hget⟩ := OrderedMap.mem_values.mp ((greatest_spec versions).1 top htop)
    rcases isRenameMarker_cases top.metadata with ⟨target, hmarker, hto⟩ | hplain
    · simp only [hmarker, hto]
      exact CatalogKept.forwarded hget hmarker hto
    · simp only [hplain]
      refine h.upsert hplain ?_ (fun _ _ => rfl) false
      have hversion : top.version = v := hlive.keyed v top hget
      have hself : (⟨v, top.metadata⟩ : LiveDataVersion) = top := by
        rw [← hversion]
      rw [(hlive.own v top hget).1, hget, hself]

/-- The live versions and the catalog of a partition, name by name. -/
structure CatalogView where
  live : OrderedMap JsString (List LiveDataVersion)
  catalog : OrderedMap JsString CatalogNameState

namespace CatalogView

/-- Nothing projected yet. -/
def empty : CatalogView := ⟨.empty, .empty⟩

/-- The live versions of a name. -/
def liveVersions (self : CatalogView) (name : JsString) : List LiveDataVersion :=
  (self.live.get name).getD []

/-- The catalog of a name. -/
def catalogName (self : CatalogView) (name : JsString) : CatalogNameState :=
  (self.catalog.get name).getD EMPTY_CATALOG_NAME

/-- Fold one commit: every name's catalog is read as it was before the commit,
then the live versions are written, then the catalog. -/
def foldOps (self : CatalogView) (ops : List Op) : CatalogView :=
  let projection := projectCatalog ops self.liveVersions
  let catalog := foldCatalogActions projection.actions self.catalogName
  { live := self.live.setAll projection.live.entries
    catalog := self.catalog.setAll catalog.entries }

/-- Fold the commits of a log, from the first. -/
def foldLog (log : List Partition.AppendCall) : CatalogView :=
  log.foldl (fun view call => view.foldOps call.commit.ops) empty

/-- The maps a fold starts from, seen from one name. -/
def versionsAt (self : CatalogView) (name : JsString) : LiveMap :=
  liveOf self.liveVersions .empty name

/-- The catalog a fold starts from, seen from one name. -/
def stateAt (self : CatalogView) (name : JsString) : WorkingName :=
  foldCatalogActions.stateOf self.catalogName .empty name

/-- What a view of a partition keeps to at each name. -/
structure Agrees (view : CatalogView) (p : Partition) (name : JsString) : Prop where
  live : LiveKept name (view.versionsAt name) (p.names.lookup name)
  catalog : CatalogKept (view.versionsAt name) (view.stateAt name) false
  increasing : Increasing LiveDataVersion.version (view.liveVersions name)
  rows : Increasing DataMetadata.version (view.catalogName name).rows

variable (self : CatalogView)

theorem agrees_projectOps {p : Partition} (h : self.Agrees p name) (ops : List Op) :
    let st := projectOps self.liveVersions ops
    LiveKept name (liveOf self.liveVersions st.live name)
        (ops.foldl (fun d op => op.onName name d) (p.names.lookup name)) ∧
      CatalogKept (liveOf self.liveVersions st.live name)
        (st.actions.foldl (CatalogAction.onName name) (self.stateAt name))
        (st.reconcile.has name) := by
  suffices hloop : ∀ (st : Projecting) (entry : Option DataName),
      LiveKept name (liveOf self.liveVersions st.live name) entry →
      CatalogKept (liveOf self.liveVersions st.live name)
        (st.actions.foldl (CatalogAction.onName name) (self.stateAt name))
        (st.reconcile.has name) →
      LiveKept name
          (liveOf self.liveVersions (ops.foldl (projectOp self.liveVersions) st).live name)
          (ops.foldl (fun d op => op.onName name d) entry) ∧
        CatalogKept
          (liveOf self.liveVersions (ops.foldl (projectOp self.liveVersions) st).live name)
          ((ops.foldl (projectOp self.liveVersions) st).actions.foldl
            (CatalogAction.onName name) (self.stateAt name))
          ((ops.foldl (projectOp self.liveVersions) st).reconcile.has name) by
    exact hloop Projecting.start _ h.live h.catalog
  induction ops with
  | nil => exact fun st entry hlive hcatalog => ⟨hlive, hcatalog⟩
  | cons op ops ih =>
    intro st entry hlive hcatalog
    obtain ⟨hversions, hactions, hreconcile⟩ := projectOp_at self.liveVersions st op name
    rw [List.foldl_cons, List.foldl_cons]
    apply ih _ _
    · rw [hversions]
      exact hlive.step op
    · rw [hversions, hactions, hreconcile, List.foldl_append]
      exact hcatalog.step name op

theorem liveVersions_foldOps (ops : List Op) (name : JsString) :
    (self.foldOps ops).liveVersions name =
      (((projectOps self.liveVersions ops).live.get name).map
        (fun versions => inOrder LiveDataVersion.version versions.values)).getD
        (self.liveVersions name) := by
  have hget : (self.foldOps ops).live.get name =
      (((projectOps self.liveVersions ops).live.mapValues
        (fun _ versions => sortLive versions.values)).get name).or (self.live.get name) :=
    OrderedMap.get_setAll _ (projectCatalog ops self.liveVersions).live.nodup name
  rw [OrderedMap.get_mapValues] at hget
  rw [liveVersions, hget]
  cases (projectOps self.liveVersions ops).live.get name with
  | none | some versions => rfl

/-- The catalog of a name once a commit is folded. -/
theorem catalogName_foldOps (ops : List Op) (name : JsString) :
    (self.foldOps ops).catalogName name =
      ((((projectCatalog ops self.liveVersions).actions.foldl (foldAction self.catalogName)
          .empty).get name).map
        (fun state => CatalogNameState.mk (inOrder DataMetadata.version state.rows.values)
          state.forward)).getD
        (self.catalogName name) := by
  have hget : (self.foldOps ops).catalog.get name =
      ((foldCatalogActions (projectCatalog ops self.liveVersions).actions self.catalogName).get
        name).or (self.catalog.get name) :=
    OrderedMap.get_setAll _ (foldCatalogActions (projectCatalog ops self.liveVersions).actions
      self.catalogName).nodup name
  rw [foldCatalogActions, OrderedMap.get_mapValues] at hget
  rw [catalogName, hget]
  cases ((projectCatalog ops self.liveVersions).actions.foldl (foldAction self.catalogName)
      .empty).get name with
  | none => rfl
  | some state => rfl

end CatalogView

theorem LiveKept.congr {versions next : LiveMap} (h : LiveKept name versions entry)
    (hget : ∀ v, next.get v = versions.get v) :
    LiveKept name next entry where
  keyed := fun v e hv => h.keyed v e (by rw [← hget, hv])
  own := fun v e hv => h.own v e (by rw [← hget, hv])
  live := by
    intro n
    rw [h.live]
    simp only [hget]

/-- So is what the catalog shows. -/
theorem CatalogKept.congr {versions next : LiveMap} {state shown : WorkingName} {waits : Bool}
    (h : CatalogKept versions state waits) (hget : ∀ v, next.get v = versions.get v)
    (hrows : ∀ v, shown.rows.get v = state.rows.get v) (hforward : shown.forward = state.forward) :
    CatalogKept next shown waits where
  rows := by
    intro v row hrow
    rw [hrows] at hrow
    rw [hget]
    exact h.rows v row hrow
  apart := by
    intro target htarget v
    rw [hforward] at htarget
    rw [hrows]
    exact h.apart target htarget v
  marked := by
    intro target htarget
    rw [hforward] at htarget
    rcases h.marked target htarget with hwaits | ⟨v, e, hv, hmarker, hto⟩
    · exact Or.inl hwaits
    · exact Or.inr ⟨v, e, by rw [hget, hv], hmarker, hto⟩

theorem CatalogKept.keyed {versions : LiveMap} {state : WorkingName} {waits : Bool}
    (h : CatalogKept versions state waits) (hlive : LiveKept name versions entry) :
    Keyed DataMetadata.version state.rows := by
  intro v row hrow
  exact (hlive.own v _ (h.rows v row hrow).1).1

namespace CatalogView

variable {self : CatalogView} {p q : Partition}

/-- The changes of a whole commit keep a name, and leave it waiting no more. -/
theorem agrees_projectCatalog (h : ∀ name, self.Agrees p name) (ops : List Op)
    (name : JsString) :
    CatalogKept (liveOf self.liveVersions (projectOps self.liveVersions ops).live name)
      ((projectCatalog ops self.liveVersions).actions.foldl (CatalogAction.onName name)
        (self.stateAt name)) false := by
  have hkept := fun target => self.agrees_projectOps (h target) ops
  have hown : ∀ target, ∀ action ∈ reconcileName
      (liveOf self.liveVersions (projectOps self.liveVersions ops).live target) target,
      action.name = target := fun target => reconcileName_name (hkept target).1
  have hnodup : (projectOps self.liveVersions ops).reconcile.keys.Nodup :=
    (projectOps self.liveVersions ops).reconcile.nodup
  rw [projectCatalog]
  simp only
  rw [List.foldl_append, foldl_onName_flatMap hown hnodup]
  split
  · exact (hkept name).2.reconcile (hkept name).1
  · rename_i hnot
    have hwaits : (projectOps self.liveVersions ops).reconcile.has name = false := by
      rw [OrderedMap.mem_keys] at hnot
      exact Bool.eq_false_iff.mpr hnot
    have hlast := (hkept name).2
    rw [hwaits] at hlast
    exact hlast

/-- **One commit of the log.** -/
theorem Agrees.foldOps {commit : Commit} {replay : Bool} (h : ∀ name, self.Agrees p name)
    (hlanded : p.Landed commit replay false q) (name : JsString) :
    (self.foldOps commit.ops).Agrees q name := by
  obtain ⟨hlive, -⟩ := self.agrees_projectOps (h name) commit.ops
  have hcatalog := agrees_projectCatalog h commit.ops name
  rw [← hlanded.name_lookup name] at hlive
  -- What is written out in order reads back as the loop left it.
  have hversions : ∀ v, ((self.foldOps commit.ops).versionsAt name).get v =
      (liveOf self.liveVersions (projectOps self.liveVersions commit.ops).live name).get v := by
    intro v
    change (byVersion LiveDataVersion.version ((self.foldOps commit.ops).liveVersions name)).get v
      = _
    rw [liveVersions_foldOps]
    have hkeyed := hlive.keyed
    unfold liveOf at hkeyed ⊢
    cases hget : (projectOps self.liveVersions commit.ops).live.get name with
    | none => rfl
    | some versions =>
      rw [hget] at hkeyed
      exact hkeyed.get_inOrder v
  have hstate : (foldCatalogActions.stateOf self.catalogName
      ((projectCatalog commit.ops self.liveVersions).actions.foldl (foldAction self.catalogName)
        .empty) name) =
      (projectCatalog commit.ops self.liveVersions).actions.foldl (CatalogAction.onName name)
        (self.stateAt name) := stateOf_foldl _ _ _ _
  rw [← hstate] at hcatalog
  have hkeyed := hcatalog.keyed hlive
  refine ⟨hlive.congr hversions, hcatalog.congr hversions ?_ ?_, ?_, ?_⟩
  · intro v
    change (byVersion DataMetadata.version ((self.foldOps commit.ops).catalogName name).rows).get v
      = _
    rw [catalogName_foldOps]
    unfold foldCatalogActions.stateOf at hkeyed ⊢
    cases hget : ((projectCatalog commit.ops self.liveVersions).actions.foldl
        (foldAction self.catalogName) .empty).get name with
    | none => rfl
    | some state =>
      rw [hget] at hkeyed
      exact hkeyed.get_inOrder v
  · change ((self.foldOps commit.ops).catalogName name).forward = _
    rw [catalogName_foldOps]
    unfold foldCatalogActions.stateOf
    cases ((projectCatalog commit.ops self.liveVersions).actions.foldl
        (foldAction self.catalogName) .empty).get name with
    | none => rfl
    | some state => rfl
  · rw [liveVersions_foldOps]
    have hlivekeyed := hlive.keyed
    unfold liveOf at hlivekeyed
    cases hget : (projectOps self.liveVersions commit.ops).live.get name with
    | none => exact (h name).increasing
    | some versions =>
      rw [hget] at hlivekeyed
      exact hlivekeyed.increasing
  · rw [catalogName_foldOps]
    unfold foldCatalogActions.stateOf at hkeyed
    cases hget : ((projectCatalog commit.ops self.liveVersions).actions.foldl
        (foldAction self.catalogName) .empty).get name with
    | none => exact (h name).rows
    | some state =>
      rw [hget] at hkeyed
      exact hkeyed.increasing

theorem agrees_empty (key : PartitionKey) (name : JsString) :
    empty.Agrees (Partition.empty key) name where
  live := by
    refine ⟨?_, ?_, ?_⟩
    · intro v e hget
      cases hget
    · intro v e hget
      cases hget
    · intro n
      simp [Partition.empty, DataName.unwritten, versionsAt, liveOf, liveVersions, empty,
        OrderedMap.ofList]
  catalog := CatalogKept.ended
  increasing := List.Pairwise.nil
  rows := List.Pairwise.nil

/-- **A whole log.** -/
theorem agrees_foldl {log : List Partition.AppendCall} (h : ∀ name, self.Agrees p name)
    (hlog : Partition.LandsAll false p log q) (name : JsString) :
    (log.foldl (fun view call => view.foldOps call.commit.ops) self).Agrees q name := by
  induction log generalizing self p with
  | nil =>
    cases hlog
    exact h name
  | cons call log ih =>
    cases hlog with
    | cons head tail => exact ih (Agrees.foldOps h head) tail

/-- A live version of a view is one its map holds. -/
theorem Agrees.mem_liveVersions (h : self.Agrees p name) {e : LiveDataVersion} :
    e ∈ self.liveVersions name ↔ (self.versionsAt name).get e.version = some e := by
  change _ ↔ (byVersion LiveDataVersion.version (self.liveVersions name)).get e.version = some e
  rw [byVersion_get h.increasing]
  exact ⟨fun hmem => ⟨hmem, rfl⟩, And.left⟩

theorem Agrees.mem_rows (h : self.Agrees p name) {row : DataMetadata} :
    row ∈ (self.catalogName name).rows ↔ (self.stateAt name).rows.get row.version = some row := by
  change _ ↔ (byVersion DataMetadata.version (self.catalogName name).rows).get row.version = some row
  rw [byVersion_get h.rows]
  exact ⟨fun hmem => ⟨hmem, rfl⟩, And.left⟩

theorem Agrees.versions (h : self.Agrees p name) :
    (self.liveVersions name).map (fun e => e.version.val) = p.versions name := by
  have hsorted : ((self.liveVersions name).map (fun e => e.version.val)).Pairwise (· < ·) := by
    rw [List.pairwise_map]
    exact h.increasing
  refine List.Pairwise.eq_of_mem_iff (r := (· < ·)) hsorted (Finset.sortedLT_sort _).pairwise ?_
  intro n
  rw [Partition.versions, Finset.mem_sort, List.mem_map]
  change _ ↔ n ∈ ((p.names.lookup name).getD DataName.unwritten).live
  rw [h.live.live]
  constructor
  · intro hn
    obtain ⟨e, hmem, rfl⟩ := hn
    exact ⟨e.version, rfl, by rw [h.mem_liveVersions.mp hmem]; rfl⟩
  · intro hn
    obtain ⟨v, rfl, hv⟩ := hn
    obtain ⟨e, hget⟩ := Option.isSome_iff_exists.mp hv
    have hversion : e.version = v := h.live.keyed v e hget
    refine ⟨e, h.mem_liveVersions.mpr (by rw [hversion, hget]), by rw [hversion]⟩

/-- **The catalog of an accepted log.**  For every data name, the projected live
versions are the partition's in strictly increasing order, every row is a live
version with its metadata and no rename marker, rows and a forward exclude each
other, and a forward leads where some live rename marker of the name says. -/
theorem catalog_agrees_with_partition (key : PartitionKey) (log : List Partition.AppendCall)
    (p : Partition)
    (hlog : Partition.runCalls Partition.append (Partition.empty key) log =
      (log.map (fun call => .ok (.appended call.commit.seq)), p)) (name : JsString) :
    let view := foldLog log
    (view.liveVersions name).map (fun e => e.version.val) = p.versions name ∧
      (view.liveVersions name).Pairwise (fun a b => a.version.val < b.version.val) ∧
      (∀ row ∈ (view.catalogName name).rows, ⟨row.version, row⟩ ∈ view.liveVersions name) ∧
      ((view.catalogName name).forward.isSome → (view.catalogName name).rows = []) ∧
      (∀ row ∈ (view.catalogName name).rows, isRenameMarker row = false) ∧
      ∀ target, (view.catalogName name).forward = some target →
        ∃ e ∈ view.liveVersions name,
          isRenameMarker e.metadata = true ∧ e.metadata.renamedTo = some target := by
  intro view
  have hlands : Partition.LandsAll false (Partition.empty key) log p :=
    (Partition.landsAll_iff (fun _ _ _ => rfl)).mpr hlog
  have h : view.Agrees p name := agrees_foldl (agrees_empty key) hlands name
  refine ⟨h.versions, h.increasing, ?_, ?_, ?_, ?_⟩
  · intro row hrow
    exact h.mem_liveVersions.mpr (h.catalog.rows _ row (h.mem_rows.mp hrow)).1
  · intro hsome
    obtain ⟨target, hforward⟩ := Option.isSome_iff_exists.mp hsome
    apply List.eq_nil_iff_forall_not_mem.mpr
    intro row hrow
    have hnone := h.catalog.apart target hforward row.version
    rw [h.mem_rows.mp hrow] at hnone
    cases hnone
  · intro row hrow
    exact (h.catalog.rows _ row (h.mem_rows.mp hrow)).2
  · intro target hforward
    rcases h.catalog.marked target hforward with hwaits | ⟨v, e, hget, hmarker, hto⟩
    · cases hwaits
    · have hversion : e.version = v := h.live.keyed v e hget
      exact ⟨e, h.mem_liveVersions.mpr (by rw [hversion, hget]), hmarker, hto⟩

/-- The name `log` is written, then renamed to `notes`. -/
def renamedLog : List Partition.AppendCall :=
  [⟨Partition.sampleCommit 1 Partition.version1.pos Partition.version1.safe (js "t1")
      [.dataVersion Partition.sampleVersionOp], false⟩,
    ⟨Partition.sampleCommit 2 Partition.version2.pos Partition.version2.safe (js "t2")
      [.dataVersion
        { key := Partition.sampleSecondKey
          metadata :=
            { Partition.sampleMetadata Partition.version2 with
              lifecycle := some .deleted
              renamedTo := some (js "notes") } }], false⟩]

/-- A renamed name is forwarded where its marker says. -/
theorem renamed_log_forwarded :
    ((foldLog renamedLog).catalogName (js "log")).forward = some (js "notes") ∧
      ∃ e ∈ (foldLog renamedLog).liveVersions (js "log"),
        isRenameMarker e.metadata = true ∧ e.metadata.renamedTo = some (js "notes") := by
  have hforward : ((foldLog renamedLog).catalogName (js "log")).forward = some (js "notes") := by
    decide
  have hlog := catalog_agrees_with_partition Partition.sampleKey renamedLog _ rfl (js "log")
  exact ⟨hforward, hlog.2.2.2.2.2 (js "notes") hforward⟩

end CatalogView

end Swamp
