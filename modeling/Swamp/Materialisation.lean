import Swamp.Ops

/-!
# Which partition's put a file shows

One record key can be written by several partitions, and a catch-up applies a
partition's commits ahead of the feed, so the changes of a key arrive in many
orders.  `decideFile` lets the file follow feed positions rather than arrival:
a put writes only over an older one, and a tombstone removes only the put of
its own partition.
-/

namespace Swamp

open Js

/-- A record key's change: the put it holds from here on, or none. -/
structure KeyChange where
  key : RecordKey
  put : Option PutOp

/-- The change an op makes to a record key. -/
def Op.keyChange : Op → Option KeyChange
  | .put op => some ⟨op.key, some op⟩
  | .tombstone op => some ⟨op.key, none⟩
  | .dataVersion _ => none
  | .lease _ => none

/-- Set a key's change: at its first insertion, whatever is set later. -/
def setChange (changes : List KeyChange) (change : KeyChange) : List KeyChange :=
  if changes.any (fun c => c.key == change.key) then
    changes.map (fun c => if c.key = change.key then change else c)
  else changes ++ [change]

/-- `finalKeyStates`: removals first, in first-touched order, then writes, since
a removal can only clear the way for a write. -/
def finalKeyStates (commit : Commit) : List KeyChange :=
  let all := (commit.ops.filterMap Op.keyChange).foldl setChange []
  all.filter (fun change => change.put.isNone) ++ all.filter (fun change => change.put.isSome)

/-- The put a file shows: the partition it is of, its feed position, and whether
the file is still there. -/
structure FileOwnership where
  owner : JsString
  mark : ℕ
  present : Bool
deriving DecidableEq

/-- What becomes of a file. -/
inductive FileDecision where
  | keep
  | remove (next : Option FileOwnership)
  | write (next : FileOwnership)

/-- `decideFile`.  A tombstone keeps the mark, so that an older put of another
partition cannot bring the file back. -/
def decideFile (before : Option FileOwnership) (owner : JsString) (position : ℕ) (isPut : Bool) :
    FileDecision :=
  if !isPut then
    match before with
    | some own =>
      if !(own.present && own.owner == owner) then .keep
      else .remove (some { own with present := false })
    | none => .remove none
  else
    match before with
    | some own => if position ≤ own.mark then .keep else .write ⟨owner, position, true⟩
    | none => .write ⟨owner, position, true⟩

/-- Where a key's path meets a file or a directory. -/
inductive PathConflict where
  | underFile
  | directory
deriving DecidableEq

/-- The text of the first segments of a key. -/
def leading (segments : List JsString) (i : ℕ) : JsString := join (segments.take i)

/-- `lexicalConflict`. -/
def lexicalConflict (key : JsString) (isPresentFile hasPresentFileUnder : JsString → Bool) :
    Option PathConflict :=
  let segments := split key
  if (List.range' 1 (segments.length - 1)).any (fun i => isPresentFile (leading segments i)) then
    some .underFile
  else if hasPresentFileUnder key then some .directory
  else none

/-- A change of one record key. -/
structure FileChange where
  owner : JsString
  position : ℕ
  isPut : Bool
deriving DecidableEq

/-- The ownership after a change. -/
def follow (before : Option FileOwnership) (change : FileChange) : Option FileOwnership :=
  match decideFile before change.owner change.position change.isPut with
  | .keep => before
  | .remove next => next
  | .write next => some next

/-- The ownership after changes, from none. -/
def materialise (changes : List FileChange) : Option FileOwnership := changes.foldl follow none

/-- Whether the file is there. -/
def isPresent (own : Option FileOwnership) : Bool :=
  match own with
  | some o => o.present
  | none => false

/-- Each partition's changes stand in the order of their positions. -/
def InPartitionOrder (changes : List FileChange) : Prop :=
  changes.Pairwise (fun a b => a.owner = b.owner → a.position < b.position)

/-- A put no other put is past. -/
def IsTopPut (changes : List FileChange) (top : FileChange) : Prop :=
  top ∈ changes ∧ top.isPut = true ∧
    ∀ put ∈ changes, put.isPut = true → put.position ≤ top.position

/-- A put's own partition removed the key after it. -/
def RemovedLater (changes : List FileChange) (put : FileChange) : Prop :=
  ∃ tombstone ∈ changes, tombstone.isPut = false ∧ tombstone.owner = put.owner ∧
    put.position < tombstone.position

/-- What an ownership says of the changes that led to it. -/
inductive Shows (changes : List FileChange) : Option FileOwnership → Prop
  | nothing (h : ∀ change ∈ changes, change.isPut = false) : Shows changes none
  | put (top : FileChange) (present : Bool) (htop : IsTopPut changes top)
      (hpresent : present = true ↔ ¬ RemovedLater changes top) :
      Shows changes (some ⟨top.owner, top.position, present⟩)

variable {changes : List FileChange}

theorem removedLater_snoc {put change : FileChange} :
    RemovedLater (changes ++ [change]) put ↔
      RemovedLater changes put ∨
        (change.isPut = false ∧ change.owner = put.owner ∧ put.position < change.position) := by
  unfold RemovedLater
  grind

theorem isTopPut_snoc_of_le {top change : FileChange} (h : IsTopPut changes top)
    (hle : change.isPut = true → change.position ≤ top.position) :
    IsTopPut (changes ++ [change]) top := by
  unfold IsTopPut at h ⊢
  grind

/-- **One more change.**  When its partition's earlier changes are at lower
positions, the ownership after it says the same of the changes with it. -/
theorem Shows.follow {own : Option FileOwnership} (h : Shows changes own) (change : FileChange)
    (hlater : ∀ c ∈ changes, c.owner = change.owner → c.position < change.position) :
    Shows (changes ++ [change]) (Swamp.follow own change) := by
  have hfresh : ¬ RemovedLater (changes ++ [change]) change := by
    rw [removedLater_snoc]
    intro hremoved
    rcases hremoved with ⟨tombstone, hmem, -, howner, hlt⟩ | ⟨-, -, hlt⟩
    · exact absurd (hlater tombstone hmem howner) (Nat.not_lt.mpr hlt.le)
    · exact absurd hlt (Nat.lt_irrefl _)
  cases h with
  | nothing hnone =>
    cases hput : change.isPut with
    | false =>
      have hnext : Swamp.follow none change = none := by
        simp [Swamp.follow, decideFile, hput]
      rw [hnext]
      apply Shows.nothing
      intro c hc
      rcases List.mem_append.mp hc with hc | hc
      · exact hnone c hc
      · rw [List.mem_singleton.mp hc]
        exact hput
    | true =>
      have hnext : Swamp.follow none change = some ⟨change.owner, change.position, true⟩ := by
        simp [Swamp.follow, decideFile, hput]
      rw [hnext]
      refine Shows.put change true ⟨by simp, hput, ?_⟩ (iff_of_true rfl hfresh)
      intro put hmem hisPut
      rcases List.mem_append.mp hmem with hmem | hmem
      · rw [hnone put hmem] at hisPut
        cases hisPut
      · rw [List.mem_singleton.mp hmem]
  | put top present htop hpresent =>
    cases hput : change.isPut with
    | true =>
      by_cases hle : change.position ≤ top.position
      · have hnext : Swamp.follow (some ⟨top.owner, top.position, present⟩) change =
            some ⟨top.owner, top.position, present⟩ := by
          simp [Swamp.follow, decideFile, hput, hle]
        rw [hnext]
        refine Shows.put top present (isTopPut_snoc_of_le htop (fun _ => hle)) ?_
        rw [hpresent, removedLater_snoc]
        simp [hput]
      · have hnext : Swamp.follow (some ⟨top.owner, top.position, present⟩) change =
            some ⟨change.owner, change.position, true⟩ := by
          simp [Swamp.follow, decideFile, hput, hle]
        rw [hnext]
        refine Shows.put change true ⟨by simp, hput, ?_⟩ (iff_of_true rfl hfresh)
        intro put hmem hisPut
        rcases List.mem_append.mp hmem with hmem | hmem
        · exact le_trans (htop.2.2 put hmem hisPut) (Nat.le_of_not_le hle)
        · rw [List.mem_singleton.mp hmem]
    | false =>
      have htop' : IsTopPut (changes ++ [change]) top :=
        isTopPut_snoc_of_le htop (fun h => by rw [hput] at h; cases h)
      by_cases hremoves : present = true ∧ top.owner = change.owner
      · -- The tombstone is of the shown put's partition, hence later in the feed.
        have hnext : Swamp.follow (some ⟨top.owner, top.position, present⟩) change =
            some ⟨top.owner, top.position, false⟩ := by
          simp [Swamp.follow, decideFile, hput, hremoves.1, hremoves.2]
        rw [hnext]
        apply Shows.put top false htop'
        have hafter : RemovedLater (changes ++ [change]) top :=
          removedLater_snoc.mpr
            (Or.inr ⟨hput, hremoves.2.symm, hlater top htop.1 hremoves.2⟩)
        simp [hafter]
      · have hnext : Swamp.follow (some ⟨top.owner, top.position, present⟩) change =
            some ⟨top.owner, top.position, present⟩ := by
          by_cases howner : top.owner = change.owner
          · have habsent : present = false :=
              Bool.eq_false_iff.mpr (fun hp => hremoves ⟨hp, howner⟩)
            simp [Swamp.follow, decideFile, hput, habsent]
          · simp [Swamp.follow, decideFile, hput, howner]
        rw [hnext]
        apply Shows.put top present htop'
        rw [hpresent, removedLater_snoc]
        by_cases howner : top.owner = change.owner
        · have hremoved : RemovedLater changes top := by
            by_contra hnot
            exact hremoves ⟨hpresent.mpr hnot, howner⟩
          simp [hremoved]
        · have hother : change.owner ≠ top.owner := fun heq => howner heq.symm
          simp [hother]

theorem shows_materialise (h : InPartitionOrder changes) : Shows changes (materialise changes) := by
  induction changes using List.reverseRecOn with
  | nil => exact Shows.nothing (by simp)
  | append_singleton changes change ih =>
    have hsplit := List.pairwise_append.mp h
    have hfold : materialise (changes ++ [change]) = follow (materialise changes) change := by
      simp [materialise]
    rw [hfold]
    apply (ih hsplit.1).follow change
    intro c hc howner
    exact hsplit.2.2 c hc change (List.mem_singleton.mpr rfl) howner

/-- Changes at distinct positions have one top put. -/
theorem IsTopPut.unique {a b : FileChange} (hdistinct : (changes.map FileChange.position).Nodup)
    (ha : IsTopPut changes a) (hb : IsTopPut changes b) : a = b := by
  have hposition : a.position = b.position :=
    le_antisymm (hb.2.2 a ha.1 ha.2.1) (ha.2.2 b hb.1 hb.2.1)
  exact List.inj_on_of_nodup_map hdistinct ha.1 hb.1 hposition

theorem Shows.unique {a b : List FileChange} {own own' : Option FileOwnership}
    (hdistinct : (a.map FileChange.position).Nodup) (hmem : ∀ change, change ∈ a ↔ change ∈ b)
    (ha : Shows a own) (hb : Shows b own') : own = own' := by
  cases ha with
  | nothing hnone =>
    cases hb with
    | nothing => rfl
    | put top present htop =>
      have hput := hnone top ((hmem top).mpr htop.1)
      rw [htop.2.1] at hput
      cases hput
  | put top present htop hpresent =>
    cases hb with
    | nothing hnone =>
      have hput := hnone top ((hmem top).mp htop.1)
      rw [htop.2.1] at hput
      cases hput
    | put top' present' htop' hpresent' =>
      have htopA : IsTopPut a top' := by simpa only [IsTopPut, hmem] using htop'
      obtain rfl := htop.unique hdistinct htopA
      have hiff : present = true ↔ present' = true := by
        rw [hpresent, hpresent']
        simp only [RemovedLater, hmem]
      rw [Bool.eq_iff_iff.mpr hiff]

/-- **Materialisation is confluent.**  Interleavings of the same changes that
keep each partition's own order end with the same file: that of the highest
put, present exactly when its partition removed it no later. -/
theorem materialisation_confluent {a b : List FileChange} (hperm : a.Perm b)
    (hdistinct : (a.map FileChange.position).Nodup) (ha : InPartitionOrder a)
    (hb : InPartitionOrder b) :
    isPresent (materialise a) = isPresent (materialise b) ∧
      (isPresent (materialise a) = true → materialise a = materialise b) ∧
      (∀ top, IsTopPut a top →
        (isPresent (materialise a) = true ↔ ¬ RemovedLater a top) ∧
        (isPresent (materialise a) = true →
          materialise a = some ⟨top.owner, top.position, true⟩)) ∧
      ((∀ change ∈ a, change.isPut = false) → isPresent (materialise a) = false) := by
  have hshows := shows_materialise ha
  have hsame : materialise a = materialise b :=
    hshows.unique hdistinct (fun change => hperm.mem_iff) (shows_materialise hb)
  refine ⟨congrArg isPresent hsame, fun _ => hsame, ?_, ?_⟩
  · intro top htop
    generalize materialise a = own at hshows
    cases hshows with
    | nothing hnone =>
      have hput := hnone top htop.1
      rw [htop.2.1] at hput
      cases hput
    | put top' present htop' hpresent =>
      obtain rfl := htop'.unique hdistinct htop
      refine ⟨hpresent, ?_⟩
      intro h
      have htrue : present = true := h
      rw [htrue]
  · intro hnone
    generalize materialise a = own at hshows
    cases hshows with
    | nothing => rfl
    | put top present htop =>
      have hput := hnone top htop.1
      rw [htop.2.1] at hput
      cases hput

/-- Two partitions write the key and the first removes it again: whichever is
applied ahead, the second's put stays. -/
theorem later_put_stays :
    materialise
        [⟨js "a", 1, true⟩, ⟨js "a", 3, false⟩, ⟨js "b", 2, true⟩] =
      some ⟨js "b", 2, true⟩ ∧
      materialise [⟨js "b", 2, true⟩, ⟨js "a", 1, true⟩, ⟨js "a", 3, false⟩] =
        some ⟨js "b", 2, true⟩ := by
  have hfirst : materialise [⟨js "b", 2, true⟩, ⟨js "a", 1, true⟩, ⟨js "a", 3, false⟩] =
      some ⟨js "b", 2, true⟩ := by decide
  have hperm : ([⟨js "b", 2, true⟩, ⟨js "a", 1, true⟩, ⟨js "a", 3, false⟩] :
      List FileChange).Perm [⟨js "a", 1, true⟩, ⟨js "a", 3, false⟩, ⟨js "b", 2, true⟩] := by decide
  have hconfluent := materialisation_confluent hperm (by decide)
    (by unfold InPartitionOrder; decide) (by unfold InPartitionOrder; decide)
  refine ⟨?_, hfirst⟩
  rw [← hconfluent.2.1 (by decide)]
  exact hfirst

end Swamp
