import Swamp.CatalogProjection
import Swamp.Materialisation
import Swamp.PartitionSnapshot
import Swamp.ReferenceCounts

/-!
# The SQLite commit store: its tables and its appends

`commits.db` holds the commits in feed order, one head and at most one snapshot
for each partition, the count of references to each chunk, and what compaction
has folded away.  A transaction is a function from the tables to the tables or
to an error, so that what an error leaves is what was there before.  A cached
partition is not in the tables: it is changed before the transaction ends, and a
rollback does not take the change back.

This is the writer's store, not a follower's copy.  A row's body is the text of
its commit, which reads back as the commit it was written from, so the row holds
the commit itself; the queries page their results, which no reader sees.
-/

namespace Swamp

open Js ReferenceCounts

/-- A namespace and the text of a partition's key. -/
abbrev Address := JsString × JsString

/-- The partition a commit is for. -/
def Commit.address (commit : Commit) : Address := (commit.ns, commit.partition.value)

/-- A row of `commits`. -/
structure CommitRow where
  cursor : ℕ
  commit : Commit

/-- The partition a row is of. -/
def CommitRow.address (row : CommitRow) : Address := row.commit.address

/-- A row of `partition_heads`. -/
structure HeadRow where
  seq : ℕ
  highestFence : Option Fence

/-- A row of `partition_snapshots`. -/
structure SnapshotRow where
  seq : ℕ
  body : Json

/-- A row of `compacted_txns`. -/
structure CompactedTxn where
  address : Address
  txnId : JsString
  seq : ℕ

/-- A row of `compacted_txn_times`. -/
structure CompactedTxnTime where
  address : Address
  txnId : JsString
  committedAt : ℤ

/-- A row of `released_chunks`. -/
structure ReleasedChunk where
  ns : JsString
  sha256 : Sha256
  releasedAt : ℤ

/-- A row of `base_records`. -/
structure BaseRecord where
  sha256 : Sha256
  content : PutContent
  access : Option FileAccess

/-- The tables of the compacted base.  The rows of a data name stand together, a
name without rows has no entry. -/
structure BaseTables where
  records : Finmap (fun _ : Address × RecordKey => BaseRecord)
  versions : Finmap (fun _ : Address × JsString => List LiveDataVersion)
  catalog : Finmap (fun _ : Address × JsString => List Version)
  forwards : Finmap (fun _ : Address × JsString => JsString)
  files : Finmap (fun _ : JsString × JsString => FileOwnership)
  compactedPartitions : Finmap (fun _ : Address => ℕ)

/-- The tables of `commits.db`.  Commits stand in order of cursor, and
`sequence` is the last cursor ever assigned. -/
structure CommitsDb where
  commits : List CommitRow
  sequence : ℕ
  heads : Finmap (fun _ : Address => HeadRow)
  snapshots : Finmap (fun _ : Address => SnapshotRow)
  chunkRefs : Counter (JsString × Sha256)
  chunkPartitions : Counter (JsString × Sha256 × JsString)
  point : ℕ
  pointCommit : Option (Address × JsString)
  compactedTxns : List CompactedTxn
  compactedTxnTimes : List CompactedTxnTime
  base : BaseTables
  releasedChunks : List ReleasedChunk
  writerFence : Option ℕ

/-- A base nothing was folded into. -/
def BaseTables.empty : BaseTables := ⟨∅, ∅, ∅, ∅, ∅, ∅⟩

/-- A store that was just created. -/
def CommitsDb.empty : CommitsDb where
  commits := []
  sequence := 0
  heads := ∅
  snapshots := ∅
  chunkRefs := ∅
  chunkPartitions := ∅
  point := 0
  pointCommit := none
  compactedTxns := []
  compactedTxnTimes := []
  base := .empty
  releasedChunks := []
  writerFence := none

/-- What is wrong with a partition's rows. -/
inductive CorruptDetail where
  | headBesideCommits (headSeq last : ℕ)
  | txnNotStored (txnId : JsString)
  | snapshotInvalid (error : SnapshotError)
  | snapshotSeq (row held : ℕ)
  | commitRefused (error : CommitRejectedError)
  | repeatsTxn (txnId : JsString)
  | headBehind (headSeq : ℕ)

/-- Why the store refuses or fails. -/
inductive StoreError where
  | rejected (error : CommitRejectedError)
  | writerFenced (fence : Option ℕ) (stored : ℕ)
  | corrupt (address : Address) (seq : ℕ) (detail : CorruptDetail)
  | uniqueConstraint
  | afterAppendWrites
  | commitFailed
  | partitionChanged (partition : JsString)
  | noReference (sha256 : Sha256) (ns : JsString)
  | catalogRowNotLive (name : JsString) (version : Version)
  | aborted
  | snapshotUnreadable (error : SnapshotError)
  | truncateMismatch
  | truncateCompactedPast

/-- Whether an error is a partition's refusal, which leaves the partition as it
was. -/
def StoreError.isRejection : StoreError → Bool
  | .rejected _ => true
  | _ => false

/-- `chunkHashes`: the parts of a blob, or the blob itself. -/
def BlobRef.chunkHashes (blob : BlobRef) : List Sha256 :=
  match blob.parts with
  | none => [blob.sha256]
  | some parts => parts.map BlobPart.sha256

/-- The members of a `Set`, in the order they were first added. -/
def distinct (hashes : List Sha256) : List Sha256 :=
  (OrderedMap.ofList (hashes.map (fun sha => (sha, ())))).keys

/-- The chunks an op names: those of a put's blob. -/
def Op.chunkHashes : Op → List Sha256
  | .put op =>
    match op.content with
    | .blob ref => ref.chunkHashes
    | .inline _ _ => []
  | _ => []

/-- `chunkRefs`: each chunk once, however often the commit names it. -/
def Commit.chunkRefs (commit : Commit) : List Sha256 := distinct (commit.ops.flatMap Op.chunkHashes)

namespace CommitsDb

variable (db : CommitsDb)

/-- The rows of a partition, in order of cursor. -/
def rowsOf (a : Address) : List CommitRow := db.commits.filter (fun row => row.address = a)

/-- The head of a partition, 0 without a row. -/
def headSeq (a : Address) : ℕ :=
  match db.heads.lookup a with
  | some head => head.seq
  | none => 0

/-- The seq a txnId landed at, stored or compacted. -/
def txnSeq (a : Address) (txnId : JsString) : Option ℕ :=
  match (db.rowsOf a).find? (fun row => row.commit.txnId = txnId) with
  | some row => some row.commit.seq
  | none =>
    (db.compactedTxns.find? (fun row => row.address = a ∧ row.txnId = txnId)).map CompactedTxn.seq

/-- Whether a txnId landed at or below a seq, stored or compacted. -/
def txnUpTo (a : Address) (upTo : ℕ) (txnId : JsString) : Bool :=
  (db.rowsOf a).any (fun row => row.commit.txnId = txnId ∧ row.commit.seq ≤ upTo) ||
    db.compactedTxns.any (fun row => row.address = a ∧ row.txnId = txnId ∧ row.seq ≤ upTo)

/-- A partition's compacted seq, 0 when none of its commits was compacted. -/
def compactedSeq (a : Address) : ℕ :=
  match db.base.compactedPartitions.lookup a with
  | some seq => seq
  | none => 0

/-- A partition's last stored seq, or its compacted one. -/
def maxSeq (a : Address) : ℕ :=
  ((db.rowsOf a).map (fun row => row.commit.seq)).foldl max (db.compactedSeq a)

/-- The commits of a partition from a seq on, in order of seq. -/
def commitsFrom (a : Address) (fromSeq : ℕ) : List Commit :=
  (((db.rowsOf a).map CommitRow.commit).filter (fun commit => fromSeq ≤ commit.seq)).insertionSort
    (fun c d => c.seq ≤ d.seq)

/-- Refuse a writer whose fence is below the store's, or that has none once the
store has one. -/
def checkWriterFence (fence : Option ℕ) : Except StoreError Unit :=
  match db.writerFence with
  | none => .ok ()
  | some stored =>
    match fence with
    | none => .error (.writerFenced none stored)
    | some f => if f < stored then .error (.writerFenced (some f) stored) else .ok ()

/-- Insert a commit's row at the next cursor.  A partition stores a seq and a
txnId once. -/
def insertCommit (commit : Commit) : Except StoreError CommitsDb :=
  if (db.rowsOf commit.address).any
      (fun row => row.commit.seq = commit.seq ∨ row.commit.txnId = commit.txnId) then
    .error .uniqueConstraint
  else
    .ok { db with
      commits := db.commits ++ [⟨db.sequence + 1, commit⟩]
      sequence := db.sequence + 1 }

/-- Count one more reference of a partition to a chunk. -/
def takeRef (a : Address) (sha256 : Sha256) : CommitsDb :=
  { db with
    chunkRefs := take db.chunkRefs (a.1, sha256)
    chunkPartitions := take db.chunkPartitions (a.1, sha256, a.2) }

/-- Count one more reference to each chunk of a list. -/
def takeRefs (a : Address) (hashes : List Sha256) : CommitsDb :=
  hashes.foldl (fun db sha256 => db.takeRef a sha256) db

/-- Write a partition's head. -/
def upsertHead (a : Address) (head : HeadRow) : CommitsDb :=
  { db with heads := db.heads.insert a head }

/-- Write a partition's snapshot. -/
def upsertSnapshot (a : Address) (row : SnapshotRow) : CommitsDb :=
  { db with snapshots := db.snapshots.insert a row }

end CommitsDb

/-- A partition in memory.  One restored from a snapshot looks the txnIds at or
below the snapshot's seq up in the tables, whenever it is asked. -/
structure CachedPartition where
  partition : Partition
  upTo : Option ℕ

/-- The partition as the tables stand: the txnIds it does not hold are looked up
now. -/
def CachedPartition.view (cached : CachedPartition) (db : CommitsDb) (a : Address) : Partition :=
  match cached.upTo with
  | none => cached.partition
  | some upTo => { cached.partition with priorTxn := db.txnUpTo a upTo }

/-- The options a store is opened with. -/
structure StoreOptions where
  cachedPartitions : ℕ
  snapshotInterval : ℕ
  boundTxnIds : Bool
  cached_pos : 1 ≤ cachedPartitions
  interval_pos : 1 ≤ snapshotInterval

/-- An open store: its tables and its cache, least recently used first. -/
structure CommitStore where
  db : CommitsDb
  cache : OrderedMap Address CachedPartition

/-- A partition restored from a stored snapshot. -/
def CommitsDb.restoreSnapshot (db : CommitsDb) (ns : JsString) (key : PartitionKey)
    (snapshot : SnapshotRow) : Except SnapshotError CachedPartition :=
  (Partition.restore key snapshot.body (db.txnUpTo (ns, key.value) snapshot.seq)).map
    (fun partition => ⟨partition, some snapshot.seq⟩)

/-- Replay stored commits, up to a seq.  Whether they were all replayed is told
beside the partition. -/
def replayCommits (a : Address) (upTo : ℕ) (p : Partition) :
    List Commit → Except StoreError (Bool × Partition)
  | [] => .ok (true, p)
  | commit :: rest =>
    if upTo < commit.seq then .ok (false, p)
    else
      match p.append commit true with
      | (.error e, _) => .error (.corrupt a commit.seq (.commitRefused e))
      | (.ok .duplicate, _) => .error (.corrupt a commit.seq (.repeatsTxn commit.txnId))
      | (.ok (.appended _), next) => replayCommits a upTo next rest

/-- The snapshot a rebuild up to a seq starts from: none that is past it. -/
def CommitsDb.usableSnapshot (db : CommitsDb) (a : Address) (upTo : ℕ) : Option SnapshotRow :=
  (db.snapshots.lookup a).filter (fun row => row.seq ≤ upTo)

/-- Where a rebuild starts: at the snapshot, or empty. -/
def CommitsDb.rebuildStart (db : CommitsDb) (ns : JsString) (key : PartitionKey) (upTo : ℕ) :
    Except StoreError CachedPartition :=
  match db.usableSnapshot (ns, key.value) upTo with
  | none => .ok ⟨Partition.empty key, none⟩
  | some row =>
    match db.restoreSnapshot ns key row with
    | .error e => .error (.corrupt (ns, key.value) row.seq (.snapshotInvalid e))
    | .ok restored =>
      if restored.partition.seq ≠ row.seq then
        .error (.corrupt (ns, key.value) row.seq (.snapshotSeq row.seq restored.partition.seq))
      else .ok restored

/-- `#rebuild`: the latest snapshot, and the commits after it up to a seq.  The
head is checked only when no commit is left over. -/
def CommitsDb.rebuild (db : CommitsDb) (ns : JsString) (key : PartitionKey) (upTo : ℕ) :
    Except StoreError CachedPartition := do
  let a : Address := (ns, key.value)
  let start ← db.rebuildStart ns key upTo
  let (all, p) ← replayCommits a upTo start.partition
    (db.commitsFrom a (start.partition.seq + 1))
  if all ∧ db.headSeq a < p.seq then
    .error (.corrupt a p.seq (.headBehind (db.headSeq a)))
  else .ok { start with partition := p }

namespace CommitStore

variable (self : CommitStore)

/-- Drop a partition from the cache. -/
def forget (a : Address) : CommitStore := { self with cache := self.cache.delete a }

/-- A partition held in the cache is changed where it stands. -/
def mutate (a : Address) (cached : CachedPartition) : CommitStore :=
  if self.cache.has a then { self with cache := self.cache.set a cached } else self

/-- Put a rebuilt partition in the cache; the least recently used one goes when
there are too many. -/
def remember (options : StoreOptions) (a : Address) (cached : CachedPartition) : CommitStore :=
  let cache := self.cache.set a cached
  if options.cachedPartitions < cache.entries.length then
    match cache.keys with
    | oldest :: _ => { self with cache := cache.delete oldest }
    | [] => { self with cache }
  else { self with cache }

/-- `#partition`: from the cache, then the most recently used one, or rebuilt. -/
def partition (options : StoreOptions) (ns : JsString) (key : PartitionKey) :
    Except StoreError CachedPartition × CommitStore :=
  let a : Address := (ns, key.value)
  match self.cache.get a with
  | some cached => (.ok cached, { self with cache := (self.cache.delete a).set a cached })
  | none =>
    match self.db.rebuild ns key maxSafeInteger with
    | .error e => (.error e, self)
    | .ok cached => (.ok cached, self.remember options a cached)

end CommitStore

/-- What an append answers. -/
inductive StoreResult where
  | appended (seq : ℕ)
  | duplicate (seq : ℕ)

/-- What one commit does inside a transaction when it throws nothing: it finds
the partition stale, is known already, or writes its rows. -/
inductive Applied where
  | stale
  | duplicate (seq : ℕ)
  | written (seq : ℕ) (db : CommitsDb) (snapshot : Option SnapshotRow)

/-- `#snapshotDue`: on the multiples of the interval. -/
def snapshotDue (options : StoreOptions) (seq : ℕ) : Bool :=
  seq % options.snapshotInterval == 0

/-- A partition's snapshot as a row. -/
def Partition.snapshotRow (p : Partition) : SnapshotRow := ⟨p.seq, p.snapshot.toJson⟩

/-- The rows of a commit its partition has taken: the commit, its references,
the head and, where one is due, the snapshot. -/
def CommitsDb.writeCommit (options : StoreOptions) (db : CommitsDb) (commit : Commit)
    (taken : Partition) : Except StoreError (CommitsDb × Option SnapshotRow) := do
  let a := commit.address
  db.checkWriterFence (commit.fence.map Fence.val)
  let db ← db.insertCommit commit
  let db := (db.takeRefs a commit.chunkRefs).upsertHead a ⟨taken.seq, taken.highestFence⟩
  if snapshotDue options taken.seq then
    return (db.upsertSnapshot a taken.snapshotRow, some taken.snapshotRow)
  else return (db, none)

/-- `#applyInTransaction`.  The partition is told apart from the outcome: it may
have taken a commit whose rows then fail. -/
def applyInTransaction (options : StoreOptions) (db : CommitsDb) (commit : Commit)
    (cached : CachedPartition) (retried fails : Bool) :
    Except StoreError Applied × CachedPartition :=
  let a := commit.address
  let p := cached.view db a
  if db.headSeq a ≠ p.seq then
    if retried ∧ db.maxSeq a ≠ db.headSeq a then
      (.error (.corrupt a (db.headSeq a) (.headBesideCommits (db.headSeq a) (db.maxSeq a))), cached)
    else (.ok .stale, cached)
  else
    match p.append commit false with
    | (.error e, after) => (.error (.rejected e), { cached with partition := after })
    | (.ok .duplicate, after) =>
      match db.txnSeq a commit.txnId with
      | none =>
        (.error (.corrupt a after.seq (.txnNotStored commit.txnId)),
          { cached with partition := after })
      | some seq => (.ok (.duplicate seq), { cached with partition := after })
    | (.ok (.appended seq), after) =>
      match db.writeCommit options commit after with
      | .error e => (.error e, { cached with partition := after })
      | .ok (next, snapshot) =>
        if fails then (.error .afterAppendWrites, { cached with partition := after })
        else (.ok (.written seq next snapshot), { cached with partition := after })

/-- An append in the queue.  `fails` tells of one whose transaction fails once its
rows are written. -/
structure PendingAppend where
  commit : Commit
  fails : Bool

/-- `#restoreFromSnapshot`: once a snapshot is committed, the cached partition is
replaced by one restored from it, unless it has moved on or is not cached. -/
def CommitStore.restoreFromSnapshot (self : CommitStore) (options : StoreOptions) (commit : Commit)
    (snapshot : SnapshotRow) : CommitStore :=
  let a := commit.address
  if options.boundTxnIds then
    match self.cache.get a with
    | none => self
    | some cached =>
      if cached.partition.seq ≠ snapshot.seq then self
      else
        match self.db.restoreSnapshot commit.ns commit.partition snapshot with
        | .ok restored => { self with cache := self.cache.set a restored }
        | .error _ => self.forget a
  else self

/-- One try of `#append`: `none` when the partition was stale. -/
def CommitStore.tryAppend (self : CommitStore) (options : StoreOptions) (entry : PendingAppend)
    (retried commitFails : Bool) : Except StoreError (Option StoreResult) × CommitStore :=
  let commit := entry.commit
  let a := commit.address
  match self.partition options commit.ns commit.partition with
  | (.error e, self) => (.error e, self)
  | (.ok cached, self) =>
    match applyInTransaction options self.db commit cached retried entry.fails with
    | (.error e, after) =>
      (.error e, if e.isRejection then self.mutate a after else self.forget a)
    | (.ok .stale, after) => (.ok none, self.mutate a after)
    | (.ok (.duplicate seq), after) => (.ok (some (.duplicate seq)), self.mutate a after)
    | (.ok (.written seq db snapshot), after) =>
      if commitFails then (.error .commitFailed, self.forget a)
      else
        let self := { self.mutate a after with db }
        (.ok (some (.appended seq)),
          match snapshot with
          | some row => self.restoreFromSnapshot options commit row
          | none => self)

/-- `#append`: a stale partition is rebuilt and tried once more. -/
def CommitStore.append (self : CommitStore) (options : StoreOptions) (entry : PendingAppend)
    (retried commitFails : Bool) : Except StoreError StoreResult × CommitStore :=
  let a := entry.commit.address
  match self.tryAppend options entry retried commitFails with
  | (.error e, self) => (.error e, self)
  | (.ok (some result), self) => (.ok result, self)
  | (.ok none, self) =>
    let self := self.forget a
    if retried then (.error (.partitionChanged entry.commit.partition.value), self)
    else
      match self.tryAppend options entry true commitFails with
      | (.error e, self) => (.error e, self)
      | (.ok (some result), self) => (.ok result, self)
      | (.ok none, self) =>
        (.error (.partitionChanged entry.commit.partition.value), self.forget a)

/-- An append with what it settled to. -/
abbrev Settled := PendingAppend × Except StoreError StoreResult

/-- What a group transaction meets: whether the wait is over at each of its
commits, and whether its end fails, or that of the retry of a stale commit. -/
structure GroupClock where
  late : ℕ → Bool
  commitFails : Bool
  retryFails : Bool

/-- The commits a group transaction takes, their partitions, those whose
rebuild failed, and the commits left for the next one. -/
structure Gathered where
  store : CommitStore
  partitions : OrderedMap Address CachedPartition
  batch : List PendingAppend
  rejected : List Settled
  rest : List PendingAppend

/-- Take commits into a group's batch, each partition rebuilt once, until the
wait is over. -/
def gather (options : StoreOptions) (clock : GroupClock) :
    ℕ → List PendingAppend → Gathered → Gathered
  | _, [], g => g
  | i, entry :: entries, g =>
    if g.batch ≠ [] ∧ clock.late i then { g with rest := entry :: entries }
    else
      let a := entry.commit.address
      match g.partitions.get a with
      | some _ => gather options clock (i + 1) entries { g with batch := g.batch ++ [entry] }
      | none =>
        match g.store.partition options entry.commit.ns entry.commit.partition with
        | (.error e, store) =>
          gather options clock (i + 1) entries
            { g with store, rejected := g.rejected ++ [(entry, .error e)] }
        | (.ok cached, store) =>
          gather options clock (i + 1) entries
            { g with
              store
              partitions := g.partitions.set a cached
              batch := g.batch ++ [entry] }

/-- A group transaction under way: its tables, the partitions it changes, what
its commits settle to, the snapshots it wrote, the partitions to drop from the
cache, the commit that found its partition stale, and the commits not tried. -/
structure GroupRun where
  db : CommitsDb
  partitions : OrderedMap Address CachedPartition
  settled : List Settled
  snapshots : List (Commit × SnapshotRow)
  dropped : List Address
  stale : Option PendingAppend
  rest : List PendingAppend

/-- The partition a batch's commit was gathered with. -/
def GroupRun.partitionOf (run : GroupRun) (commit : Commit) : CachedPartition :=
  (run.partitions.get commit.address).getD ⟨Partition.empty commit.partition, none⟩

/-- The commits of a batch, each in a savepoint of its own.  A commit that leaves
its partition in doubt ends the group. -/
def runBatch (options : StoreOptions) : List PendingAppend → GroupRun → GroupRun
  | [], run => run
  | entry :: rest, run =>
    let commit := entry.commit
    let a := commit.address
    match applyInTransaction options run.db commit (run.partitionOf commit) false entry.fails with
    | (.error e, after) =>
      let run := { run with
        partitions := run.partitions.set a after
        settled := run.settled ++ [(entry, .error e)] }
      if e.isRejection then runBatch options rest run
      else { run with dropped := run.dropped ++ [a], rest }
    | (.ok .stale, after) =>
      { run with partitions := run.partitions.set a after, stale := some entry, rest }
    | (.ok (.duplicate seq), after) =>
      runBatch options rest { run with
        partitions := run.partitions.set a after
        settled := run.settled ++ [(entry, .ok (.duplicate seq))] }
    | (.ok (.written seq db snapshot), after) =>
      runBatch options rest { run with
        db
        partitions := run.partitions.set a after
        settled := run.settled ++ [(entry, .ok (.appended seq))]
        snapshots := run.snapshots ++ snapshot.toList.map (fun row => (commit, row)) }

/-- Change every cached partition a group changed. -/
def CommitStore.mutateAll (self : CommitStore) (entries : List (Address × CachedPartition)) :
    CommitStore :=
  entries.foldl (fun self entry => self.mutate entry.1 entry.2) self

/-- Drop several partitions from the cache. -/
def CommitStore.forgetAll (self : CommitStore) (addresses : List Address) : CommitStore :=
  addresses.foldl CommitStore.forget self

/-- `#appendGroup`: what the group's commits settle to, the commits left for the
next transaction, and the store after it. -/
def CommitStore.appendGroup (self : CommitStore) (options : StoreOptions) (clock : GroupClock)
    (entries : List PendingAppend) : List Settled × List PendingAppend × CommitStore :=
  let gathered := gather options clock 0 entries ⟨self, .empty, [], [], []⟩
  let run := runBatch options gathered.batch
    ⟨gathered.store.db, gathered.partitions, [], [], [], none, []⟩
  let tried := gathered.batch.take (gathered.batch.length - run.rest.length)
  if clock.commitFails then
    (gathered.rejected ++ tried.map (fun entry => (entry, .error .commitFailed)),
      run.rest ++ gathered.rest,
      gathered.store.forgetAll (gathered.batch.map (fun entry => entry.commit.address)))
  else
    let store := ({ gathered.store with db := run.db }.mutateAll run.partitions.entries).forgetAll
      run.dropped
    let store := run.snapshots.foldl
      (fun store written => store.restoreFromSnapshot options written.1 written.2) store
    match run.stale with
    | none => (gathered.rejected ++ run.settled, run.rest ++ gathered.rest, store)
    | some entry =>
      let (result, store) :=
        (store.forget entry.commit.address).append options entry true clock.retryFails
      (gathered.rejected ++ run.settled ++ [(entry, result)], run.rest ++ gathered.rest, store)

/-- `#drain`: a group of one is appended alone, a larger one goes in
transactions.  Each transaction settles a commit at least, so the group's length
is fuel enough. -/
def CommitStore.drain (self : CommitStore) (options : StoreOptions) (clock : ℕ → GroupClock) :
    ℕ → List PendingAppend → List Settled × CommitStore
  | 0, _ => ([], self)
  | _, [] => ([], self)
  | n + 1, [entry] =>
    let (result, store) := self.append options entry false (clock n).commitFails
    ([(entry, result)], store)
  | n + 1, entries =>
    let (settled, rest, store) := self.appendGroup options (clock n) entries
    let (later, store) := store.drain options clock n rest
    (settled ++ later, store)

/-- `raiseWriterFence`. -/
def CommitStore.raiseWriterFence (self : CommitStore) (fence : ℕ) :
    Except StoreError Unit × CommitStore :=
  match self.db.checkWriterFence (some fence) with
  | .error e => (.error e, self)
  | .ok () =>
    match self.db.writerFence with
    | some stored =>
      if stored < fence then (.ok (), { self with db := { self.db with writerFence := fence } })
      else (.ok (), self)
    | none => (.ok (), { self with db := { self.db with writerFence := fence } })

end Swamp
