import Mathlib.Control.Monad.Basic
import Mathlib.Data.Finset.Sort
import Swamp.MapOverlay
import Swamp.Ops

/-!
# One partition of the commit log

A partition holds the records its commits left, the versions of each data name
and the fences it has seen.  `apply` is the one way its log grows: `append` for
the writer that owns the log, `appendObserved` for a follower whose copy of it
may have holes.

A refusal is a throw, and a throw keeps the state of the moment: that a refused
commit leaves the partition as it was is a theorem about the overlays
(`apply_outcome`), not a property of the error type.  `apply_outcome` and
`apply_of_landed` say together what `apply` does, and every later proof uses
these two and the step lemma of `stageOp`.
-/

namespace Swamp

open Js MapOverlay

/-- Why a partition refuses a commit.  The two further reasons of the source are
raised by serve and by the writer, never here. -/
inductive CommitRejection where
  | partitionMismatch
  | seqGap
  | staleFence
  | staleLease
  | unfenced
  | expectFailed
  | versionLive
  | versionReused

/-- A refusal: its reason, its text and, where one record is at fault, its
key. -/
structure CommitRejectedError where
  reason : CommitRejection
  message : JsString
  key : Option RecordKey := none

/-- What `append` answers when it does not throw. -/
inductive AppendResult where
  | appended (seq : ℕ)
  | duplicate

/-- The versions of one data name. -/
structure DataName where
  live : Finset ℕ
  highWater : ℕ
  removed : VersionRanges

/-- A name never written. -/
def DataName.unwritten : DataName := ⟨∅, 0, VersionRanges.EMPTY⟩

/-- The entry once a version is recorded. -/
def DataName.recordVersion (entry : DataName) (version : Version) : DataName where
  live := insert version.val entry.live
  highWater := max entry.highWater version.val
  removed := entry.removed.delete version.val

/-- The entry once a version is removed; one that is not live changes
nothing. -/
def DataName.removeVersion (entry : DataName) (version : Version) : DataName :=
  if version.val ∈ entry.live then
    { entry with live := entry.live.erase version.val, removed := entry.removed.add version }
  else entry

/-- A name and version as one text. -/
def nameVersion (name : JsString) (version : ℕ) : JsString :=
  decimal version ++ [unit ':'] ++ name

/-- The state of a partition. -/
structure Partition where
  key : PartitionKey
  seq : ℕ
  highestFence : Option Fence
  leaseFence : Option Fence
  leaseHolder : Option JsString
  txnIds : Finset JsString
  priorTxn : JsString → Bool
  records : Finmap (fun _ : RecordKey => Sha256)
  names : Finmap (fun _ : JsString => DataName)

namespace Partition

/-- `Partition.empty`. -/
def empty (key : PartitionKey) : Partition where
  key := key
  seq := 0
  highestFence := none
  leaseFence := none
  leaseHolder := none
  txnIds := ∅
  priorTxn := fun _ => false
  records := ∅
  names := ∅

/-- Whether a commit of this txnId landed before. -/
def hasTxn (self : Partition) (txnId : JsString) : Bool :=
  decide (txnId ∈ self.txnIds) || self.priorTxn txnId

/-- The digest of a key's record. -/
def record (self : Partition) (key : RecordKey) : Option Sha256 := self.records.lookup key

/-- The entry of a name, that of an unwritten one when it has none. -/
def nameEntry (self : Partition) (name : JsString) : DataName :=
  (self.names.lookup name).getD DataName.unwritten

/-- The live versions of a name. -/
def live (self : Partition) (name : JsString) : Finset ℕ := (self.nameEntry name).live

/-- `versions`: the live versions of a name, in order. -/
def versions (self : Partition) (name : JsString) : List ℕ := (self.live name).sort

/-- The highest version a name ever recorded. -/
def highWater (self : Partition) (name : JsString) : ℕ := (self.nameEntry name).highWater

/-- The removed versions of a name. -/
def removed (self : Partition) (name : JsString) : VersionRanges := (self.nameEntry name).removed

/-- The latest version of a name: its highest live one. -/
def latest (self : Partition) (name : JsString) : Option ℕ :=
  if h : (self.live name).Nonempty then some ((self.live name).max' h) else none

end Partition

/-- The changes of a commit, staged over a partition. -/
structure Staged where
  records : AList (fun _ : RecordKey => Option Sha256)
  names : AList (fun _ : JsString => DataName)
  leaseFence : Option Fence
  leaseHolder : Option JsString
  appended : Finset JsString

namespace Partition

/-- Nothing staged yet. -/
def stage (self : Partition) : Staged where
  records := ∅
  names := ∅
  leaseFence := self.leaseFence
  leaseHolder := self.leaseHolder
  appended := ∅

/-- The record of a key as the staged changes leave it. -/
def current (self : Partition) (staged : Staged) (key : RecordKey) : Option Sha256 :=
  (staged.records.lookup key).getD (self.records.lookup key)

/-- The entry of a name as the staged changes leave it. -/
def dataName (self : Partition) (staged : Staged) (name : JsString) : DataName :=
  (staged.names.lookup name).getD (self.nameEntry name)

/-- Whether a name has an entry, staged or not. -/
def hasName (self : Partition) (staged : Staged) (name : JsString) : Bool :=
  (staged.names.lookup name).isSome || (self.names.lookup name).isSome

/-- The refusal of a record that is not what its op expects. -/
def expectFailed (self : Partition) (key : RecordKey) (expected : JsString) :
    CommitRejectedError where
  reason := .expectFailed
  message :=
    js "Record " ++ key.value ++ js " in partition " ++ self.key.value ++ js " is not " ++ expected
  key := some key

/-- The permissions after a put: a `data.append` lets one data version of its
commit be recorded again. -/
def permissionsAfterPut (staged : Staged) (op : PutOp) : Finset JsString :=
  match op.appends with
  | some (name, version) => insert (nameVersion name version.val) staged.appended
  | none => staged.appended

/-- The staged changes after a put. -/
def afterPut (staged : Staged) (op : PutOp) : Staged :=
  { staged with
    records := staged.records.insert op.key (some op.sha256)
    appended := permissionsAfterPut staged op }

/-- Stage a put. -/
def stagePut (self : Partition) (observed : Bool) (staged : Staged) (op : PutOp) :
    Except CommitRejectedError Staged :=
  let existing := self.current staged op.key
  match observed, op.expect with
  | false, some .absent =>
    if existing.isSome then .error (self.expectFailed op.key (js "absent"))
    else .ok (afterPut staged op)
  | false, some (.sha256 digest) =>
    if existing ≠ some digest then
      .error (self.expectFailed op.key (js "sha256 " ++ digest.value))
    else .ok (afterPut staged op)
  | _, _ => .ok (afterPut staged op)

/-- The names overlay after a removal.  A name never written has no versions to
remove and is left out. -/
def removeVersion (self : Partition) (staged : Staged) (name : JsString) (version : Version) :
    AList (fun _ : JsString => DataName) :=
  if self.hasName staged name then
    staged.names.insert name ((self.dataName staged name).removeVersion version)
  else staged.names

/-- The staged changes after a tombstone. -/
def afterTombstone (self : Partition) (staged : Staged) (op : TombstoneOp) : Staged :=
  { staged with
    records := staged.records.insert op.key none
    names :=
      match op.removes with
      | some (name, version) => self.removeVersion staged name version
      | none => staged.names }

/-- Stage a tombstone. -/
def stageTombstone (self : Partition) (observed : Bool) (staged : Staged) (op : TombstoneOp) :
    Except CommitRejectedError Staged :=
  let existing := self.current staged op.key
  match observed, op.expect with
  | false, some .present =>
    if existing = none then .error (self.expectFailed op.key (js "present"))
    else .ok (self.afterTombstone staged op)
  | false, some (.sha256 digest) =>
    if existing ≠ some digest then
      .error (self.expectFailed op.key (js "sha256 " ++ digest.value))
    else .ok (self.afterTombstone staged op)
  | _, _ => .ok (self.afterTombstone staged op)

/-- The refusal of a version that is live. -/
def versionLive (name : JsString) (version : ℕ) : CommitRejectedError where
  reason := .versionLive
  message :=
    js "Data " ++ name ++ js " version " ++ decimal version ++
      js " is already live; only an append re-records it"

/-- The refusal of a version that was removed. -/
def versionReused (name : JsString) (version : ℕ) : CommitRejectedError where
  reason := .versionReused
  message :=
    js "Data " ++ name ++ js " version " ++ decimal version ++
      js " was removed; it is never recorded again"

/-- Whether a data version is one its name holds live, which the writer's own
log refuses without a permission. -/
def asksLive (self : Partition) (observed : Bool) (staged : Staged) (op : DataVersionOp) : Bool :=
  !observed &&
    decide (op.metadata.version.val ∈ (self.dataName staged op.metadata.name).live)

/-- Whether a data version is one its name removed, which the writer's own log
refuses without a permission unless it is replayed. -/
def asksReused (self : Partition) (replay observed : Bool) (staged : Staged)
    (op : DataVersionOp) : Bool :=
  !observed && !replay &&
    !decide (op.metadata.version.val ∈ (self.dataName staged op.metadata.name).live) &&
    (self.dataName staged op.metadata.name).removed.has op.metadata.version.val

/-- The staged changes after a data version.  A permission is consumed only by
a check that asks for one. -/
def afterDataVersion (self : Partition) (replay observed : Bool) (staged : Staged)
    (op : DataVersionOp) : Staged :=
  { staged with
    names :=
      staged.names.insert op.metadata.name
        ((self.dataName staged op.metadata.name).recordVersion op.metadata.version)
    appended :=
      if self.asksLive observed staged op || self.asksReused replay observed staged op then
        staged.appended.erase (nameVersion op.metadata.name op.metadata.version.val)
      else staged.appended }

/-- Stage a data version. -/
def stageDataVersion (self : Partition) (replay observed : Bool) (staged : Staged)
    (op : DataVersionOp) : Except CommitRejectedError Staged :=
  let name := op.metadata.name
  let version := op.metadata.version.val
  if self.asksLive observed staged op ∧ nameVersion name version ∉ staged.appended then
    .error (versionLive name version)
  else if self.asksReused replay observed staged op ∧
      nameVersion name version ∉ staged.appended then
    .error (versionReused name version)
  else .ok (self.afterDataVersion replay observed staged op)

/-- The staged changes after a lease. -/
def afterLease (staged : Staged) (op : LeaseOp) : Staged :=
  { staged with leaseFence := some op.fence, leaseHolder := some op.holder }

/-- Stage a lease. -/
def stageLease (self : Partition) (staged : Staged) (op : LeaseOp) :
    Except CommitRejectedError Staged :=
  match staged.leaseFence with
  | some held =>
    if op.fence.val < held.val then
      .error
        { reason := .staleLease
          message :=
            js "Lease fence " ++ decimal op.fence.val ++ js " is below partition " ++
              self.key.value ++ js "'s lease fence " ++ decimal held.val }
    else .ok (afterLease staged op)
  | none => .ok (afterLease staged op)

/-- Stage one op. -/
def stageOp (self : Partition) (replay observed : Bool) (staged : Staged) :
    Op → Except CommitRejectedError Staged
  | .put op => self.stagePut observed staged op
  | .tombstone op => self.stageTombstone observed staged op
  | .dataVersion op => self.stageDataVersion replay observed staged op
  | .lease op => self.stageLease staged op

/-- Stage the ops of a commit in order. -/
def stageOps (self : Partition) (replay observed : Bool) (ops : List Op) (staged : Staged) :
    Except CommitRejectedError Staged :=
  ops.foldlM (self.stageOp replay observed) staged

/-- The seq a commit must carry: the next one, or any later one when
observed. -/
def checkSeq (self : Partition) (observed : Bool) (seq : ℕ) : Except CommitRejectedError Unit :=
  if observed then
    if seq ≤ self.seq then
      .error
        { reason := .seqGap
          message :=
            js "Partition " ++ self.key.value ++ js " is at seq " ++ decimal self.seq ++
              js "; it accepts only a later seq, not " ++ decimal seq }
    else .ok ()
  else if seq ≠ self.seq + 1 then
    .error
      { reason := .seqGap
        message :=
          js "Partition " ++ self.key.value ++ js " is at seq " ++ decimal self.seq ++
            js "; it accepts only " ++ decimal (self.seq + 1) ++ js ", not " ++ decimal seq }
  else .ok ()

/-- The highest fence once a fence is seen; a lower one is stale. -/
def raiseFence (self : Partition) (highest : Option Fence) (fence : Fence) :
    Except CommitRejectedError Fence :=
  match highest with
  | some held =>
    if fence.val < held.val then
      .error
        { reason := .staleFence
          message :=
            js "Fence " ++ decimal fence.val ++ js " is below partition " ++ self.key.value ++
              js "'s highest fence " ++ decimal held.val }
    else .ok fence
  | none => .ok fence

/-- The highest fence a commit leaves.  Once a fence was seen, a commit without
one is refused. -/
def commitFence (self : Partition) (fence : Option Fence) :
    Except CommitRejectedError (Option Fence) :=
  match fence, self.highestFence with
  | some f, highest => (self.raiseFence highest f).map some
  | none, some held =>
    .error
      { reason := .unfenced
        message :=
          js "Partition " ++ self.key.value ++ js " has seen fence " ++ decimal held.val ++
            js "; a commit without a fence is refused" }
  | none, none => .ok none

/-- A computation that changes a partition and may refuse.  What it changed
before a refusal stays changed. -/
abbrev PartitionM := ExceptT CommitRejectedError (StateM Partition)

/-- Apply a commit to the partition as the call finds it.  The txnId is looked up
before the seq is checked, so the retry of a landed commit is a no-op. -/
def applyTo (self : Partition) (commit : Commit) (replay observed : Bool) :
    PartitionM AppendResult := do
  if commit.partition.equals self.key then
    if self.hasTxn commit.txnId then
      return .duplicate
    else
      ExceptT.mk (pure (self.checkSeq observed commit.seq))
      let fence ← ExceptT.mk (pure (self.commitFence commit.fence))
      let staged ← ExceptT.mk (pure (self.stageOps replay observed commit.ops self.stage))
      modify fun p => { p with records := writeBack staged.records p.records }
      modify fun p => { p with names := writeAll staged.names p.names }
      modify fun p => { p with seq := commit.seq }
      modify fun p => { p with txnIds := insert commit.txnId p.txnIds }
      modify fun p => { p with highestFence := fence }
      modify fun p => { p with leaseFence := staged.leaseFence }
      modify fun p => { p with leaseHolder := staged.leaseHolder }
      return .appended commit.seq
  else
    throw
      { reason := .partitionMismatch
        message :=
          js "Commit for " ++ commit.partition.value ++ js " sent to partition " ++
            self.key.value }

/-- Apply a commit. -/
def apply (commit : Commit) (replay observed : Bool) : PartitionM AppendResult := do
  applyTo (← get) commit replay observed

/-- The answer of a call, and the partition after it. -/
abbrev Outcome := Except CommitRejectedError AppendResult × Partition

/-- `append`: the next commit of the partition's own log. -/
def append (self : Partition) (commit : Commit) (replay : Bool) : Outcome :=
  (apply commit replay false).run self

/-- `appendObserved`: a later commit of a log that may have holes. -/
def appendObserved (self : Partition) (commit : Commit) (replay : Bool) : Outcome :=
  (apply commit replay true).run self

/-- The entry of a name once a dropped version of it is kept: the mark is
raised, and a version that is not live counts as removed. -/
def retainVersion (entry : DataName) (version : Version) : Bool × DataName :=
  let raised : DataName := { entry with highWater := max entry.highWater version.val }
  if version.val ∈ entry.live ∨ version.val ∈ entry.removed then
    (decide (entry.highWater < version.val), raised)
  else (true, { raised with removed := raised.removed.add version })

/-- `retainDroppedVersions`: whether anything changed, and the partition
after. -/
def retainDroppedVersions (self : Partition) (name : JsString) (versions : List Version) :
    Bool × Partition :=
  versions.foldl
    (fun (changed, p) version =>
      let (raised, entry) := retainVersion (p.nameEntry name) version
      (changed || raised, { p with names := p.names.insert name entry }))
    (false, self)

/-- The entry of a name once the marks of a later state are kept. -/
def retainEntry (entry theirs : DataName) : Bool × DataName :=
  let union := entry.removed.union theirs.removed
  let removed := entry.live.sort.foldl VersionRanges.delete union
  (decide (entry.highWater < theirs.highWater) || !removed.equals entry.removed,
    { live := entry.live
      highWater := max entry.highWater theirs.highWater
      removed := removed })

/-- `retainVersionsOf`: whether anything changed, and the partition after. -/
def retainVersionsOf (self later : Partition) : Bool × Partition :=
  (sortedEntries later.names).foldl
    (fun (changed, p) (name, theirs) =>
      let (raised, entry) := retainEntry (p.nameEntry name) theirs
      (changed || raised, { p with names := p.names.insert name entry }))
    (false, self)

end Partition

end Swamp
