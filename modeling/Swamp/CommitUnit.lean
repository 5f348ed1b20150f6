import Mathlib.Data.List.Basic
import Mathlib.Data.List.Nodup
import Swamp.CommitReading

/-!
# Staging in a commit-log unit of work

A unit stages batches of changes.  A flush forms them into groups, a group for
one commit, and appends the groups one after the other.  A stream put is read
only when its group is stored, and a later change of its key that expects
nothing takes its place: it is removed while its group waits, and marked, to be
skipped when it is reached, once its group is being appended.

What a flush does when a group is refused is left out.
-/

namespace Swamp

namespace CommitUnit

/-- Where a change's content comes from: an op that is built, or a put of bytes
or of a stream. -/
inductive Source where
  | built
  | bytes
  | stream
deriving DecidableEq

/-- A staged change, with the op it becomes; `id` tells one staged object from
another, and `fenced` whether a put's `withdrawn` asks for a takeover. -/
structure Change where
  id : ℕ
  partition : PartitionKey
  op : Op
  source : Source
  fenced : Bool
deriving DecidableEq

/-- The key of a change that leaves the same record whatever came before. -/
def supersedingSlot (change : Change) : Option (PartitionKey × RecordKey) :=
  match change.op with
  | .put op => if op.expect = none then some (change.partition, op.key) else none
  | .tombstone op => if op.expect = none then some (change.partition, op.key) else none
  | _ => none

def streamPutSlot (change : Change) : Option (PartitionKey × RecordKey) :=
  match change.source, change.op with
  | .stream, .put op => if op.expect = none then some (change.partition, op.key) else none
  | _, _ => none

/-- A change that a stream put gives way to. -/
def Supersedes (later earlier : Change) : Prop :=
  ∃ slot, supersedingSlot later = some slot ∧ streamPutSlot earlier = some slot

/-- The changes of one commit. -/
structure Group where
  partition : PartitionKey
  txnId : ℕ
  changes : List Change
  formation : ℕ

/-- `runRank`. -/
def Group.isRun (group : Group) : Bool :=
  match group.partition.identity with
  | .run _ _ => true
  | _ => false

/-- What one batch, or a group being formed, holds for a partition. -/
structure Forming where
  partition : PartitionKey
  changes : List Change

/-- One change of a commit. -/
def addChange : List Forming → Change → List Forming
  | [], change => [⟨change.partition, [change]⟩]
  | part :: parts, change =>
    if part.partition = change.partition then
      { part with changes := part.changes ++ [change] } :: parts
    else part :: addChange parts change

/-- A batch's changes by partition, in order of first appearance. -/
def byPartition (batch : List Change) : List Forming := batch.foldl addChange []

/-- Adds a batch's part to the last group of its partition, or to a new one where
that would grow too long. -/
def addPart : List Forming → Forming → List Forming
  | [], part => [part]
  | group :: groups, part =>
    if group.partition = part.partition ∧
        groups.all (fun other => other.partition ≠ part.partition) then
      if group.changes.length + part.changes.length ≤ MAX_COMMIT_OPS then
        { group with changes := group.changes ++ part.changes } :: groups
      else group :: (groups ++ [part])
    else group :: addPart groups part

def formGroups (batches : List (List Change)) (formation txnId : ℕ) : List Group :=
  ((batches.flatMap byPartition).foldl addPart []).mapIdx (fun i group =>
    ⟨group.partition, txnId + i, group.changes, formation⟩)

/-- The state of a unit.  `inFlight` is the group being appended, `stored` the
puts whose content is stored, `superseded` those to skip. -/
structure UnitState where
  staged : List (List Change)
  pending : List Group
  inFlight : Option ℕ
  stored : List ℕ
  superseded : List ℕ
  formations : ℕ
  nextTxn : ℕ

def UnitState.empty : UnitState := ⟨[], [], none, [], [], 0, 0⟩

namespace UnitState

variable (u : UnitState)

/-- The puts of a group that stay in it to be skipped: all those of the key in
the group being appended, and stored ones elsewhere. -/
def marks (slot : PartitionKey × RecordKey) (group : Group) : List ℕ :=
  (group.changes.filter (fun change => streamPutSlot change = some slot &&
    (u.inFlight = some group.txnId || u.stored.contains change.id))).map (·.id)

/-- A group without the unstored puts of a key, none when it held nothing else. -/
def elideGroup (slot : PartitionKey × RecordKey) (group : Group) : Option Group :=
  if u.inFlight = some group.txnId then some group
  else
    let changes := group.changes.filter (fun change =>
      streamPutSlot change ≠ some slot || u.stored.contains change.id)
    if changes.length = group.changes.length then some group
    else if changes = [] then none
    else some { group with changes := changes }

/-- A later put or tombstone of the same key leaves the same record. -/
def elideSupersededBy (change : Change) : UnitState :=
  match supersedingSlot change with
  | none => u
  | some slot =>
    { u with
      staged := u.staged.map (fun batch =>
        batch.filter (fun other => streamPutSlot other ≠ some slot))
      superseded := u.superseded ++ u.pending.flatMap (u.marks slot)
      pending := u.pending.filterMap (u.elideGroup slot) }

/-- Adds a change to the batch being recorded, the last one. -/
def pushLast : List (List Change) → Change → List (List Change)
  | [], change => [[change]]
  | [batch], change => [batch ++ [change]]
  | batch :: batches, change => batch :: pushLast batches change

def recordChange (change : Change) : UnitState :=
  { u.elideSupersededBy change with
    staged := pushLast (u.elideSupersededBy change).staged change }

def record (changes : List Change) : UnitState :=
  if changes = [] then u
  else changes.foldl recordChange { u with staged := u.staged ++ [[]] }

/-- The start of a flush: what is staged is formed into groups, and run
partitions go last. -/
def startFlush : UnitState :=
  let groups := u.pending ++ formGroups u.staged (u.formations + 1) u.nextTxn
  { u with
    pending := groups.filter (fun group => !group.isRun) ++ groups.filter Group.isRun
    staged := []
    formations := u.formations + 1
    nextTxn := u.nextTxn + (formGroups u.staged (u.formations + 1) u.nextTxn).length }

end UnitState

/-- How far the storing of a group has come: the changes left, the ops so far,
and the put whose content is being stored. -/
inductive Storing where
  | next (rest ops : List Change)
  | reading (change : Change) (rest ops : List Change)

/-- Goes on to the next change of the group. -/
def UnitState.storeNext (u : UnitState) (withdrawn : Change → Bool) : Storing → Option Storing
  | .next (change :: rest) ops =>
    if change.source = .built then some (.next rest (ops ++ [change]))
    else if withdrawn change then some (.next rest ops)
    else if !u.stored.contains change.id && u.superseded.contains change.id then
      some (.next rest ops)
    else some (.reading change rest ops)
  | _ => none

/-- The content is stored, or found stored; or it cannot be read any more, which
is no failure for a put that is superseded. -/
def UnitState.storeRead (u : UnitState) (readable : Bool) :
    Storing → Option (UnitState × Storing)
  | .reading change rest ops =>
    if readable then
      some ({ u with stored := change.id :: u.stored }, .next rest (ops ++ [change]))
    else if u.superseded.contains change.id then some (u, .next rest ops)
    else none
  | _ => none

/-- Some part holds a change. -/
def Held (parts : List Forming) (change : Change) : Prop :=
  ∃ part ∈ parts, change ∈ part.changes

/-- A part that is for the partition of its changes, and holds one. -/
def Tidy (part : Forming) : Prop :=
  part.changes ≠ [] ∧ ∀ change ∈ part.changes, change.partition = part.partition

variable {parts : List Forming}

theorem held_addChange {change other : Change} :
    Held (addChange parts change) other ↔ Held parts other ∨ other = change := by
  unfold Held
  induction parts with
  | nil => simp [addChange]
  | cons part parts ih =>
    unfold addChange
    split
    · simp only [List.mem_cons, exists_eq_or_imp, List.mem_append, List.not_mem_nil, or_false]
      grind
    · simp only [List.mem_cons, exists_eq_or_imp, ih]
      grind

theorem tidy_addChange {change : Change} (h : ∀ part ∈ parts, Tidy part) :
    ∀ part ∈ addChange parts change, Tidy part := by
  induction parts with
  | nil =>
    intro part hpart
    cases List.mem_singleton.mp hpart
    exact ⟨List.cons_ne_nil _ _, by simp⟩
  | cons part parts ih =>
    obtain ⟨hpart, hparts⟩ := List.forall_mem_cons.mp h
    unfold addChange
    split
    case isTrue hsame =>
      refine List.forall_mem_cons.mpr ⟨⟨by simp, ?_⟩, hparts⟩
      intro other hother
      cases List.mem_append.mp hother with
      | inl hold => exact hpart.2 other hold
      | inr hnew =>
        cases List.mem_singleton.mp hnew
        exact hsame.symm
    case isFalse => exact List.forall_mem_cons.mpr ⟨hpart, ih hparts⟩

theorem held_byPartition {batch : List Change} {change : Change} :
    Held (byPartition batch) change ↔ change ∈ batch := by
  have hfold : ∀ parts, Held (batch.foldl addChange parts) change ↔
      Held parts change ∨ change ∈ batch := by
    induction batch with
    | nil => simp
    | cons first batch ih =>
      intro parts
      rw [List.foldl_cons, ih, held_addChange, List.mem_cons]
      exact or_assoc
  rw [byPartition, hfold]
  simp [Held]

theorem tidy_byPartition (batch : List Change) : ∀ part ∈ byPartition batch, Tidy part := by
  have hfold : ∀ parts : List Forming, (∀ part ∈ parts, Tidy part) →
      ∀ part ∈ batch.foldl addChange parts, Tidy part := by
    induction batch with
    | nil => exact fun _ h => h
    | cons first batch ih => exact fun parts h => ih _ (tidy_addChange h)
  exact hfold [] (List.forall_mem_nil _)

variable {groups : List Forming}

theorem held_addPart {part : Forming} {change : Change} :
    Held (addPart groups part) change ↔ Held groups change ∨ change ∈ part.changes := by
  unfold Held
  induction groups with
  | nil => simp [addPart]
  | cons group groups ih =>
    unfold addPart
    split
    · split
      · simp only [List.mem_cons, exists_eq_or_imp, List.mem_append]
        grind
      · simp only [List.mem_cons, exists_eq_or_imp, List.mem_append, List.not_mem_nil,
          or_false]
        grind
    · simp only [List.mem_cons, exists_eq_or_imp, ih]
      grind

theorem tidy_addPart {part : Forming} (h : ∀ group ∈ groups, Tidy group) (hpart : Tidy part) :
    ∀ group ∈ addPart groups part, Tidy group := by
  induction groups with
  | nil => exact List.forall_mem_cons.mpr ⟨hpart, h⟩
  | cons group groups ih =>
    obtain ⟨hgroup, hgroups⟩ := List.forall_mem_cons.mp h
    unfold addPart
    split
    case isTrue hsame =>
      split
      case isTrue =>
        refine List.forall_mem_cons.mpr ⟨⟨by simp [hgroup.1], ?_⟩, hgroups⟩
        intro change hchange
        cases List.mem_append.mp hchange with
        | inl hold => exact hgroup.2 change hold
        | inr hnew => exact (hpart.2 change hnew).trans hsame.1.symm
      case isFalse =>
        refine List.forall_mem_cons.mpr ⟨hgroup, List.forall_mem_append.mpr ⟨hgroups, ?_⟩⟩
        exact List.forall_mem_cons.mpr ⟨hpart, List.forall_mem_nil _⟩
    case isFalse => exact List.forall_mem_cons.mpr ⟨hgroup, ih hgroups⟩

theorem held_addParts {change : Change} :
    Held (parts.foldl addPart groups) change ↔ Held groups change ∨ Held parts change := by
  induction parts generalizing groups with
  | nil => simp [Held]
  | cons part parts ih =>
    rw [List.foldl_cons, ih, held_addPart]
    unfold Held
    simp only [List.mem_cons, exists_eq_or_imp]
    exact or_assoc

theorem tidy_addParts (h : ∀ group ∈ groups, Tidy group) (hparts : ∀ part ∈ parts, Tidy part) :
    ∀ group ∈ parts.foldl addPart groups, Tidy group := by
  induction parts generalizing groups with
  | nil => exact h
  | cons part parts ih =>
    obtain ⟨hpart, hrest⟩ := List.forall_mem_cons.mp hparts
    exact ih (tidy_addPart h hpart) hrest

variable {batches : List (List Change)}

theorem held_parts {change : Change} :
    Held (batches.flatMap byPartition) change ↔ change ∈ batches.flatten := by
  constructor
  · intro h
    obtain ⟨part, hpart, hchange⟩ := h
    obtain ⟨batch, hbatch, hpart⟩ := List.mem_flatMap.mp hpart
    exact List.mem_flatten.mpr ⟨batch, hbatch, held_byPartition.mp ⟨part, hpart, hchange⟩⟩
  · intro h
    obtain ⟨batch, hbatch, hchange⟩ := List.mem_flatten.mp h
    obtain ⟨part, hpart, hchange⟩ := held_byPartition.mpr hchange
    exact ⟨part, List.mem_flatMap.mpr ⟨batch, hbatch, hpart⟩, hchange⟩

theorem tidy_parts (batches : List (List Change)) :
    ∀ part ∈ batches.flatMap byPartition, Tidy part := by
  intro part hpart
  obtain ⟨batch, _, hpart⟩ := List.mem_flatMap.mp hpart
  exact tidy_byPartition batch part hpart

variable {group : Group}

/-- What a formed group is. -/
theorem of_mem_formGroups {formation txnId : ℕ} (h : group ∈ formGroups batches formation txnId) :
    group.changes ≠ [] ∧ (∀ change ∈ group.changes, change.partition = group.partition) ∧
      txnId ≤ group.txnId ∧
      group.txnId < txnId + (formGroups batches formation txnId).length := by
  unfold formGroups at h ⊢
  rw [List.length_mapIdx]
  obtain ⟨i, hi, rfl⟩ := List.mem_mapIdx.mp h
  have htidy := tidy_addParts (List.forall_mem_nil Tidy) (tidy_parts batches) _
    (List.getElem_mem hi)
  exact ⟨htidy.1, htidy.2, Nat.le_add_right _ _, Nat.add_lt_add_left hi _⟩

/-- **The groups hold what the batches do.** -/
theorem mem_formGroups {formation txnId : ℕ} {change : Change} :
    (∃ group ∈ formGroups batches formation txnId, change ∈ group.changes) ↔
      change ∈ batches.flatten := by
  rw [← held_parts]
  have hheld := @held_addParts (batches.flatMap byPartition) [] change
  have hempty : ¬ Held [] change := by simp [Held]
  rw [or_iff_right hempty] at hheld
  rw [← hheld]
  unfold formGroups Held
  constructor
  · intro h
    obtain ⟨group, hgroup, hchange⟩ := h
    obtain ⟨i, hi, rfl⟩ := List.mem_mapIdx.mp hgroup
    exact ⟨_, List.getElem_mem hi, hchange⟩
  · intro h
    obtain ⟨part, hpart, hchange⟩ := h
    obtain ⟨i, hi, rfl⟩ := List.getElem_of_mem hpart
    exact ⟨_, List.mem_mapIdx.mpr ⟨i, hi, rfl⟩, hchange⟩

theorem formGroups_nodup (batches : List (List Change)) (formation txnId : ℕ) :
    ((formGroups batches formation txnId).map (·.txnId)).Nodup := by
  unfold formGroups
  rw [List.nodup_iff_injective_getElem]
  intro i j hij
  simp only [List.getElem_map, List.getElem_mapIdx] at hij
  exact Fin.ext (Nat.add_left_cancel hij)

/-- A unit that has a change staged, or in a group to be appended. -/
def UnitState.Holds (u : UnitState) (change : Change) : Prop :=
  change ∈ u.staged.flatten ∨ ∃ group ∈ u.pending, change ∈ group.changes

/-- A change that becomes an op: it was built, or its content is stored. -/
def Change.IsOp (change : Change) (stored : List ℕ) : Prop :=
  change.source = .built ∨ change.id ∈ stored

/-- A group as it was, or with changes removed, while it waits, that are not ops
yet. -/
structure Reduced (inFlight : Option ℕ) (stored : List ℕ) (group reduced : Group) : Prop where
  partition : reduced.partition = group.partition
  txnId : reduced.txnId = group.txnId
  changes : reduced.changes.Sublist group.changes
  inFlight : inFlight = some group.txnId → reduced = group
  ops : ∀ change ∈ group.changes, change.IsOp stored → change ∈ reduced.changes

theorem Reduced.refl (inFlight : Option ℕ) (stored : List ℕ) (group : Group) :
    Reduced inFlight stored group group :=
  ⟨rfl, rfl, List.Sublist.refl _, fun _ => rfl, fun _ h _ => h⟩

theorem Reduced.trans {inFlight : Option ℕ} {stored : List ℕ} {a b c : Group}
    (hab : Reduced inFlight stored a b) (hbc : Reduced inFlight stored b c) :
    Reduced inFlight stored a c where
  partition := hbc.partition.trans hab.partition
  txnId := hbc.txnId.trans hab.txnId
  changes := hbc.changes.trans hab.changes
  inFlight := by
    intro hflight
    rw [hbc.inFlight (hab.txnId ▸ hflight), hab.inFlight hflight]
  ops := fun change hmem hop => hbc.ops change (hab.ops change hmem hop) hop

namespace UnitState

variable {u : UnitState} {slot : PartitionKey × RecordKey} {change other : Change}

theorem not_streamPutSlot_of_built (h : change.source = .built) : streamPutSlot change = none := by
  simp [streamPutSlot, h]

theorem reduced_elideGroup {reduced : Group} (h : u.elideGroup slot group = some reduced) :
    Reduced u.inFlight u.stored group reduced := by
  unfold elideGroup at h
  split at h
  case isTrue =>
    cases h
    exact .refl _ _ _
  case isFalse hwaiting =>
    dsimp only at h
    split at h
    · cases h
      exact .refl _ _ _
    · split at h
      · cases h
      · cases h
        refine ⟨rfl, rfl, List.filter_sublist, fun hflight => absurd hflight hwaiting, ?_⟩
        intro other hother hop
        refine List.mem_filter.mpr ⟨hother, ?_⟩
        cases hop with
        | inl hbuilt => simp [not_streamPutSlot_of_built hbuilt]
        | inr hstored => simp [hstored]

theorem elideGroup_inFlight (h : u.inFlight = some group.txnId) :
    u.elideGroup slot group = some group := if_pos h

/-- What a group loses is of the key. -/
theorem mem_elideGroup (h : other ∈ group.changes) (hslot : streamPutSlot other ≠ some slot) :
    ∃ reduced, u.elideGroup slot group = some reduced ∧ other ∈ reduced.changes := by
  unfold elideGroup
  split
  case isTrue => exact ⟨group, rfl, h⟩
  case isFalse =>
    have hkept : other ∈ group.changes.filter (fun change =>
        streamPutSlot change ≠ some slot || u.stored.contains change.id) :=
      List.mem_filter.mpr ⟨h, by simp [hslot]⟩
    dsimp only
    split
    · exact ⟨group, rfl, h⟩
    · split
      · rename_i hempty
        rw [hempty] at hkept
        cases hkept
      · exact ⟨_, rfl, hkept⟩

theorem elide_fields : (u.elideSupersededBy change).inFlight = u.inFlight ∧
    (u.elideSupersededBy change).stored = u.stored ∧
    (u.elideSupersededBy change).nextTxn = u.nextTxn ∧
    (u.elideSupersededBy change).formations = u.formations := by
  unfold elideSupersededBy
  split
  · exact ⟨rfl, rfl, rfl, rfl⟩
  · exact ⟨rfl, rfl, rfl, rfl⟩

/-- **What a change takes out of a unit, it replaces.** -/
theorem holds_elide (h : u.Holds other) :
    (u.elideSupersededBy change).Holds other ∨ Supersedes change other := by
  unfold elideSupersededBy
  split
  case h_1 => exact Or.inl h
  case h_2 slot hslot =>
  by_cases hother : streamPutSlot other = some slot
  · exact Or.inr ⟨slot, hslot, hother⟩
  apply Or.inl
  cases h with
  | inl hstaged =>
    obtain ⟨batch, hbatch, hmem⟩ := List.mem_flatten.mp hstaged
    refine Or.inl (List.mem_flatten.mpr ⟨_, List.mem_map.mpr ⟨batch, hbatch, rfl⟩, ?_⟩)
    exact List.mem_filter.mpr ⟨hmem, by simp [hother]⟩
  | inr hpending =>
    obtain ⟨group, hgroup, hmem⟩ := hpending
    obtain ⟨reduced, hreduced, hkept⟩ := mem_elideGroup hmem hother
    exact Or.inr ⟨reduced, List.mem_filterMap.mpr ⟨group, hgroup, hreduced⟩, hkept⟩

theorem mem_pending_elide {reduced : Group}
    (h : reduced ∈ (u.elideSupersededBy change).pending) :
    ∃ group ∈ u.pending, Reduced u.inFlight u.stored group reduced := by
  unfold elideSupersededBy at h
  split at h
  case h_1 => exact ⟨reduced, h, .refl _ _ _⟩
  case h_2 =>
    obtain ⟨group, hgroup, hreduced⟩ := List.mem_filterMap.mp h
    exact ⟨group, hgroup, reduced_elideGroup hreduced⟩

theorem mem_staged_elide (h : other ∈ (u.elideSupersededBy change).staged.flatten) :
    other ∈ u.staged.flatten := by
  unfold elideSupersededBy at h
  split at h
  case h_1 => exact h
  case h_2 =>
    obtain ⟨kept, hkept, hmem⟩ := List.mem_flatten.mp h
    obtain ⟨batch, hbatch, rfl⟩ := List.mem_map.mp hkept
    exact List.mem_flatten.mpr ⟨batch, hbatch, List.mem_of_mem_filter hmem⟩

theorem inFlight_elide (hgroup : group ∈ u.pending) (hflight : u.inFlight = some group.txnId) :
    group ∈ (u.elideSupersededBy change).pending := by
  unfold elideSupersededBy
  split
  case h_1 => exact hgroup
  case h_2 => exact List.mem_filterMap.mpr ⟨group, hgroup, elideGroup_inFlight hflight⟩

theorem txnIds_elide :
    ((u.elideSupersededBy change).pending.map (·.txnId)).Sublist (u.pending.map (·.txnId)) := by
  unfold elideSupersededBy
  split
  case h_1 => exact List.Sublist.refl _
  case h_2 slot _ =>
    induction u.pending with
    | nil => exact List.Sublist.refl _
    | cons group groups ih =>
      rw [List.filterMap_cons]
      split
      · exact ih.cons _
      · rename_i reduced hreduced
        rw [List.map_cons, List.map_cons, (reduced_elideGroup hreduced).txnId]
        exact ih.cons_cons _

/-- Only puts that are replaced are marked. -/
theorem mem_superseded_elide {id : ℕ} (h : id ∈ (u.elideSupersededBy change).superseded) :
    id ∈ u.superseded ∨ ∃ other, (∃ group ∈ u.pending, other ∈ group.changes) ∧
      other.id = id ∧ Supersedes change other := by
  unfold elideSupersededBy at h
  split at h
  case h_1 => exact Or.inl h
  case h_2 slot hslot =>
    apply (List.mem_append.mp h).imp_right
    intro hmarked
    obtain ⟨group, hgroup, hid⟩ := List.mem_flatMap.mp hmarked
    obtain ⟨other, hother, rfl⟩ := List.mem_map.mp hid
    obtain ⟨hmem, hset⟩ := List.mem_filter.mp hother
    have hslots : streamPutSlot other = some slot := by
      simp only [Bool.and_eq_true, decide_eq_true_eq] at hset
      exact hset.1
    exact ⟨other, ⟨group, hgroup, hmem⟩, rfl, slot, hslot, hslots⟩

theorem mem_pushLast :
    other ∈ (pushLast batches change).flatten ↔ other ∈ batches.flatten ∨ other = change := by
  fun_induction pushLast batches change with
  | case1 | case2 => simp
  | case3 batch batches change _ ih => simp [ih, or_assoc]

theorem holds_recordChange (h : u.Holds other) :
    (u.recordChange change).Holds other ∨ Supersedes change other := by
  apply (holds_elide h).imp_left
  intro hheld
  exact hheld.imp_left (fun hstaged => mem_pushLast.mpr (Or.inl hstaged))

theorem recordChange_holds : (u.recordChange change).Holds change :=
  Or.inl (mem_pushLast.mpr (Or.inr rfl))

variable {changes : List Change}

theorem holds_recordChanges (h : u.Holds other) :
    (changes.foldl recordChange u).Holds other ∨
      ∃ change ∈ changes, Supersedes change other := by
  induction changes generalizing u with
  | nil => exact Or.inl h
  | cons change changes ih =>
    cases holds_recordChange h with
    | inr hsupersedes => exact Or.inr ⟨change, List.mem_cons_self, hsupersedes⟩
    | inl hheld =>
      apply (ih hheld).imp_right
      intro hlater
      obtain ⟨later, hmem, hsupersedes⟩ := hlater
      exact ⟨later, List.mem_cons_of_mem _ hmem, hsupersedes⟩

theorem recordChanges_holds (h : other ∈ changes)
    (hids : changes.Pairwise (fun first second => first.id < second.id)) :
    (changes.foldl recordChange u).Holds other ∨
      ∃ change ∈ changes, other.id < change.id ∧ Supersedes change other := by
  induction changes generalizing u with
  | nil => cases h
  | cons change changes ih =>
    obtain ⟨hfirst, hrest⟩ := List.pairwise_cons.mp hids
    cases List.mem_cons.mp h with
    | inl hsame =>
      cases hsame
      apply (holds_recordChanges recordChange_holds).imp_right
      intro hlater
      obtain ⟨later, hmem, hsupersedes⟩ := hlater
      exact ⟨later, List.mem_cons_of_mem _ hmem, hfirst later hmem, hsupersedes⟩
    | inr hmem =>
      apply (ih hmem hrest).imp_right
      intro hlater
      obtain ⟨later, hmem, hsupersedes⟩ := hlater
      exact ⟨later, List.mem_cons_of_mem _ hmem, hsupersedes⟩

/-- What recording changes does to the rest of a unit. -/
structure Recorded (u u' : UnitState) (changes : List Change) : Prop where
  inFlight : u'.inFlight = u.inFlight
  stored : u'.stored = u.stored
  nextTxn : u'.nextTxn = u.nextTxn
  staged : ∀ change ∈ u'.staged.flatten, change ∈ u.staged.flatten ∨ change ∈ changes
  pending : ∀ reduced ∈ u'.pending, ∃ group ∈ u.pending,
    Reduced u.inFlight u.stored group reduced
  appended : ∀ group ∈ u.pending, u.inFlight = some group.txnId → group ∈ u'.pending
  txnIds : (u'.pending.map (·.txnId)).Sublist (u.pending.map (·.txnId))
  superseded : ∀ id ∈ u'.superseded, id ∈ u.superseded ∨
    ∃ other, (∃ group ∈ u.pending, other ∈ group.changes) ∧ other.id = id ∧
      ∃ change ∈ changes, Supersedes change other

theorem recorded_recordChange : Recorded u (u.recordChange change) [change] where
  inFlight := elide_fields.1
  stored := elide_fields.2.1
  nextTxn := elide_fields.2.2.1
  staged := by
    intro other hother
    cases mem_pushLast.mp hother with
    | inl hstaged => exact Or.inl (mem_staged_elide hstaged)
    | inr hsame => exact Or.inr (List.mem_singleton.mpr hsame)
  pending := fun _ h => mem_pending_elide h
  appended := fun _ hgroup hflight => inFlight_elide hgroup hflight
  txnIds := txnIds_elide
  superseded := by
    intro id hid
    apply (mem_superseded_elide hid).imp_right
    intro hmarked
    obtain ⟨other, hwaiting, hid, hsupersedes⟩ := hmarked
    exact ⟨other, hwaiting, hid, change, List.mem_cons_self, hsupersedes⟩

theorem Recorded.holds {u' : UnitState} (h : Recorded u u' changes) (hheld : u'.Holds other) :
    u.Holds other ∨ other ∈ changes := by
  cases hheld with
  | inl hstaged => exact (h.staged other hstaged).imp_left Or.inl
  | inr hpending =>
    obtain ⟨reduced, hreduced, hmem⟩ := hpending
    obtain ⟨group, hgroup, hof⟩ := h.pending reduced hreduced
    exact Or.inl (Or.inr ⟨group, hgroup, hof.changes.subset hmem⟩)

theorem Recorded.cons {u' u'' : UnitState} (hfirst : Recorded u u' [change])
    (hrest : Recorded u' u'' changes) :
    Recorded u u'' (change :: changes) where
  inFlight := hrest.inFlight.trans hfirst.inFlight
  stored := hrest.stored.trans hfirst.stored
  nextTxn := hrest.nextTxn.trans hfirst.nextTxn
  staged := by
    intro other hother
    cases hrest.staged other hother with
    | inl hearlier =>
      exact (hfirst.staged other hearlier).imp_right (fun h => by
        cases List.mem_singleton.mp h
        exact List.mem_cons_self)
    | inr hmem => exact Or.inr (List.mem_cons_of_mem _ hmem)
  pending := by
    intro reduced hreduced
    obtain ⟨middle, hmiddle, hsecond⟩ := hrest.pending reduced hreduced
    obtain ⟨group, hgroup, hof⟩ := hfirst.pending middle hmiddle
    rw [hfirst.inFlight, hfirst.stored] at hsecond
    exact ⟨group, hgroup, hof.trans hsecond⟩
  appended := fun group hgroup hflight =>
    hrest.appended group (hfirst.appended group hgroup hflight) (hfirst.inFlight ▸ hflight)
  txnIds := hrest.txnIds.trans hfirst.txnIds
  superseded := by
    intro id hid
    cases hrest.superseded id hid with
    | inl hearlier =>
      apply (hfirst.superseded id hearlier).imp_right
      intro hmarked
      obtain ⟨other, hwaiting, hid, later, hlater, hsupersedes⟩ := hmarked
      cases List.mem_singleton.mp hlater
      exact ⟨other, hwaiting, hid, change, List.mem_cons_self, hsupersedes⟩
    | inr hmarked =>
      obtain ⟨other, hwaiting, hid, later, hlater, hsupersedes⟩ := hmarked
      obtain ⟨reduced, hreduced, hmem⟩ := hwaiting
      obtain ⟨group, hgroup, hof⟩ := hfirst.pending reduced hreduced
      exact Or.inr ⟨other, ⟨group, hgroup, hof.changes.subset hmem⟩, hid, later,
        List.mem_cons_of_mem _ hlater, hsupersedes⟩

theorem Recorded.refl : Recorded u u [] where
  inFlight := rfl
  stored := rfl
  nextTxn := rfl
  staged := fun _ h => Or.inl h
  pending := fun group h => ⟨group, h, .refl _ _ _⟩
  appended := fun _ h _ => h
  txnIds := List.Sublist.refl _
  superseded := fun _ h => Or.inl h

theorem recorded_recordChanges (changes : List Change) :
    Recorded u (changes.foldl recordChange u) changes := by
  induction changes generalizing u with
  | nil => exact .refl
  | cons change changes ih => exact recorded_recordChange.cons ih

/-- **What recording does.** -/
theorem recorded_record (changes : List Change) : Recorded u (u.record changes) changes := by
  unfold record
  split
  case isTrue hempty =>
    rw [hempty]
    exact .refl
  case isFalse =>
    have hbegun := recorded_recordChanges (u := { u with staged := u.staged ++ [[]] }) changes
    exact
      { hbegun with
        staged := fun other hother => (hbegun.staged other hother).imp_left (by simp) }

theorem holds_record (h : u.Holds other) :
    (u.record changes).Holds other ∨ ∃ change ∈ changes, Supersedes change other := by
  unfold record
  split
  case isTrue => exact Or.inl h
  case isFalse => exact holds_recordChanges (h.imp_left (by simp))

theorem record_holds (h : other ∈ changes)
    (hids : changes.Pairwise (fun first second => first.id < second.id)) :
    (u.record changes).Holds other ∨
      ∃ change ∈ changes, other.id < change.id ∧ Supersedes change other := by
  unfold record
  split
  case isTrue hempty =>
    rw [hempty] at h
    cases h
  case isFalse => exact recordChanges_holds h hids

theorem mem_startFlush : group ∈ u.startFlush.pending ↔
    group ∈ u.pending ∨ group ∈ formGroups u.staged (u.formations + 1) u.nextTxn := by
  simp only [startFlush, List.mem_append, List.mem_filter]
  cases group.isRun <;> simp

theorem holds_startFlush (h : u.Holds other) : u.startFlush.Holds other := by
  apply Or.inr
  cases h with
  | inl hstaged =>
    obtain ⟨group, hgroup, hmem⟩ := mem_formGroups.mpr hstaged
    exact ⟨group, mem_startFlush.mpr (Or.inr hgroup), hmem⟩
  | inr hpending =>
    obtain ⟨group, hgroup, hmem⟩ := hpending
    exact ⟨group, mem_startFlush.mpr (Or.inl hgroup), hmem⟩

theorem startFlush_nodup (hnodup : (u.pending.map (·.txnId)).Nodup)
    (hbound : ∀ group ∈ u.pending, group.txnId < u.nextTxn) :
    (u.startFlush.pending.map (·.txnId)).Nodup := by
  have hall : ((u.pending ++ formGroups u.staged (u.formations + 1) u.nextTxn).map
      (·.txnId)).Nodup := by
    rw [List.map_append, List.nodup_append]
    refine ⟨hnodup, formGroups_nodup _ _ _, ?_⟩
    intro old hold new hnew
    obtain ⟨group, hgroup, rfl⟩ := List.mem_map.mp hold
    obtain ⟨formed, hformed, rfl⟩ := List.mem_map.mp hnew
    have hlow := (of_mem_formGroups hformed).2.2.1
    have hhigh := hbound group hgroup
    omega
  unfold startFlush
  dsimp only
  refine (List.Perm.nodup_iff (List.Perm.map _ ?_)).mpr hall
  have hsplit := List.filter_append_perm Group.isRun
    (u.pending ++ formGroups u.staged (u.formations + 1) u.nextTxn)
  exact List.perm_append_comm.trans hsplit

end UnitState

end CommitUnit

end Swamp
