import Swamp.CompactedBase

/-!
# High-water marks and truncation

A mark names the last commit of the store at some moment.  `truncateAfter` takes
the store back to it: the commits past the mark are removed with the references
they counted, and each partition they touched gets the head and the snapshot its
remaining commits give.  One thing is not undone: the data versions the removed
commits recorded stay out of reach of later writes, in a snapshot at the new
head.
-/

namespace Swamp

open Js ReferenceCounts

/-- The commit a mark names. -/
structure MarkCommit where
  address : Address
  seq : ℕ
  txnId : JsString
deriving DecidableEq

/-- `HighWaterMark`: a cursor of the store, and the commit at it. -/
structure StoreHighWaterMark where
  cursor : ℕ
  commit : Option MarkCommit

/-- How a store stands against a mark. -/
inductive MarkCheck where
  | compactedPast
  | mismatch
  | «match»

/-- What a row says to a mark. -/
def CommitRow.markCommit (row : CommitRow) : MarkCommit :=
  ⟨row.address, row.commit.seq, row.commit.txnId⟩

namespace CommitsDb

variable (db : CommitsDb)

/-- Whether the store holds the commit a mark names, stored at the mark's cursor
or, at the compaction point, compacted. -/
def holdsMark (mark : StoreHighWaterMark) (commit : MarkCommit) : Bool :=
  match db.commits.find? (fun row => row.cursor = mark.cursor) with
  | some row => row.markCommit = commit
  | none =>
    decide (mark.cursor ≤ db.point) &&
      decide ((db.compactedTxns.find?
        (fun txn => txn.address = commit.address ∧ txn.txnId = commit.txnId)).map
          CompactedTxn.seq = some commit.seq)

/-- The rows past a cursor. -/
def rowsPast (cursor : ℕ) : List CommitRow := db.commits.filter (fun row => cursor < row.cursor)

/-- The lowest seq of a partition among rows. -/
def firstSeq (rows : List CommitRow) (a : Address) : Option ℕ :=
  ((rows.filter (fun row => row.address = a)).map (fun row => row.commit.seq)).min?

/-- Whether a partition with rows past the mark was compacted and has its only
snapshot past the mark too. -/
def unrebuildable (mark : StoreHighWaterMark) : Bool :=
  let past := db.rowsPast mark.cursor
  past.any (fun row =>
    match firstSeq past row.address, db.snapshots.lookup row.address,
      db.base.compactedPartitions.lookup row.address with
    | some first, some snapshot, some _ => decide (first ≤ snapshot.seq)
    | _, _, _ => false)

/-- `#checkMark`. -/
def checkMark (mark : StoreHighWaterMark) : MarkCheck :=
  if mark.cursor < db.point then .compactedPast
  else if mark.commit.any (fun commit => !db.holdsMark mark commit) then .mismatch
  else if db.point < mark.cursor ∧ ¬ db.commits.any (fun row => mark.cursor ≤ row.cursor) then
    .mismatch
  else if db.unrebuildable mark then .compactedPast
  else .match

end CommitsDb

/-- The data version an op records. -/
def Op.records : Op → Option (JsString × Version)
  | .dataVersion op => some (op.metadata.name, op.metadata.version)
  | _ => none

/-- `droppedVersions`: the data versions that commits recorded in one partition,
by name. -/
def droppedVersions (commits : List Commit) (a : Address) : OrderedMap JsString (List Version) :=
  ((commits.filter (fun commit => commit.address = a)).flatMap
    (fun commit => commit.ops.filterMap Op.records)).foldl
      (fun versions recorded =>
        versions.set recorded.1 ((versions.get recorded.1).getD [] ++ [recorded.2]))
      .empty

/-- Keep the dropped versions of each name, and say whether that changed
anything. -/
def retainDropped (p : Partition) (dropped : OrderedMap JsString (List Version)) :
    Bool × Partition :=
  dropped.entries.foldl
    (fun (retained, p) (name, versions) =>
      let (changed, next) := p.retainDroppedVersions name versions
      (retained || changed, next))
    (false, p)

/-- Each touched partition with its first removed commit, in the order they are
met. -/
def touchedBy (rows : List CommitRow) : OrderedMap Address Commit :=
  rows.foldl
    (fun touched row => if touched.has row.address then touched
      else touched.set row.address row.commit)
    .empty

/-- What truncation writes for a touched partition. -/
structure TruncatedHead where
  address : Address
  state : Partition
  snapshot : Option SnapshotRow

/-- Keep what a snapshot past the new head holds of versions that an earlier
truncation retained, and say whether that changed anything. -/
def retainLater (key : PartitionKey) (keep : ℕ) (stored : Option SnapshotRow) (p : Partition) :
    Except StoreError (Bool × Partition) :=
  match stored with
  | none => .ok (false, p)
  | some row =>
    if keep < row.seq then
      match Partition.restore key row.body (fun _ => false) with
      | .error e => .error (.snapshotUnreadable e)
      | .ok later => .ok (p.retainVersionsOf later)
    else .ok (false, p)

namespace CommitsDb

variable (db : CommitsDb)

/-- The snapshot a truncated partition gets: one at the new head when versions
were retained, which a replay of the kept commits would not keep; else, in place
of one past the new head, the one the appends up to the head wrote last. -/
def truncatedSnapshot (options : StoreOptions) (first : Commit) (keep : ℕ)
    (stored : Option SnapshotRow) (retained : Bool) (rebuilt : Partition) :
    Except StoreError (Option SnapshotRow) :=
  let past := stored.any (fun row => keep < row.seq)
  let at_ := keep - keep % options.snapshotInterval
  if retained then .ok (some ⟨keep, rebuilt.snapshot.toJson⟩)
  else if past ∧ 0 < at_ then
    if at_ = keep then .ok (some ⟨at_, rebuilt.snapshot.toJson⟩)
    else
      (db.rebuild first.ns first.partition at_).map
        (fun state => some ⟨at_, state.partition.snapshot.toJson⟩)
  else .ok none

/-- A touched partition, rebuilt at its new head with the versions the removed
commits recorded. -/
def truncatePartition (options : StoreOptions) (commits : List Commit) (first : Commit) :
    Except StoreError TruncatedHead := do
  let a := first.address
  let keep := first.seq - 1
  let rebuilt ← db.rebuild first.ns first.partition keep
  if rebuilt.partition.seq ≠ keep then
    .error (.partitionChanged first.partition.value)
  else
    let stored := db.snapshots.lookup a
    let dropped := retainDropped rebuilt.partition (droppedVersions commits a)
    let later ← retainLater first.partition keep stored dropped.2
    let snapshot ←
      db.truncatedSnapshot options first keep stored (dropped.1 || later.1) later.2
    return ⟨a, later.2, snapshot⟩

/-- Write a touched partition's head and snapshot. -/
def writeTruncated (head : TruncatedHead) : CommitsDb :=
  let heads :=
    if head.state.seq = 0 ∧ db.compactedSeq head.address = 0 then db.heads.erase head.address
    else db.heads.insert head.address ⟨head.state.seq, head.state.highestFence⟩
  let kept := match db.snapshots.lookup head.address with
    | some row => if head.state.seq < row.seq then db.snapshots.erase head.address else db.snapshots
    | none => db.snapshots
  let snapshots := match head.snapshot with
    | some row => kept.insert head.address row
    | none => kept
  { db with heads, snapshots }

/-- The transaction of a truncation: the references of the removed commits, their
rows, and the heads. -/
def truncateRows (mark : StoreHighWaterMark) (now : ℤ) (rows : List CommitRow)
    (heads : List TruncatedHead) : Except StoreError CommitsDb := do
  let batch ← rows.foldlM
    (fun batch row => batch.releaseAll row.address row.commit.chunkRefs) (BaseBatch.begin db now)
  let db := { batch.db with
    commits := batch.db.commits.filter (fun row => ¬ mark.cursor < row.cursor) }
  return heads.foldl CommitsDb.writeTruncated db

end CommitsDb

/-- `#truncate`: how many commits were removed.  The cached state of a touched
partition goes once its transaction has begun, whether it ends well or not. -/
def CommitStore.truncateAfter (self : CommitStore) (options : StoreOptions) (mark : StoreHighWaterMark)
    (now : ℤ) (commitFails : Bool) : Except StoreError ℕ × CommitStore :=
  match self.db.checkMark mark with
  | .compactedPast => (.error .truncateCompactedPast, self)
  | .mismatch => (.error .truncateMismatch, self)
  | .match =>
    let rows := self.db.rowsPast mark.cursor
    let commits := rows.map CommitRow.commit
    match (touchedBy rows).values.mapM (self.db.truncatePartition options commits) with
    | .error e => (.error e, self)
    | .ok heads =>
      let forgotten := self.forgetAll (heads.map TruncatedHead.address)
      match self.db.truncateRows mark now rows heads with
      | .error e => (.error e, forgotten)
      | .ok db =>
        if commitFails then (.error .commitFailed, forgotten)
        else (.ok rows.length, { forgotten with db })

end Swamp
