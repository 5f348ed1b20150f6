import Swamp.CommitStore

/-!
# History compaction: folding commits into the base

Compaction takes the oldest commits of the feed, batch by batch, folds each into
the base — its records, live versions, catalog and file ownerships — and deletes
it.  A batch is one transaction.  It reads the live versions and the catalog of a
name once and keeps what it read or wrote, since a batch folds many commits of a
few names.
-/

namespace Swamp

open Js ReferenceCounts

/-- A batch under way: the tables, its time, how many chunks it released, and
the live versions and catalog it has read or written. -/
structure BaseBatch where
  db : CommitsDb
  now : ℤ
  released : ℕ
  versions : OrderedMap (Address × JsString) (List LiveDataVersion)
  catalog : OrderedMap (Address × JsString) CatalogNameState

/-- `begin`. -/
def BaseBatch.begin (db : CommitsDb) (now : ℤ) : BaseBatch := ⟨db, now, 0, .empty, .empty⟩

/-- The base's tables, changed. -/
def CommitsDb.withBase (db : CommitsDb) (base : BaseTables) : CommitsDb := { db with base }

/-- The distinct chunks of a put's content, none when it is inline. -/
def PutContent.distinctChunks : PutContent → List Sha256
  | .blob ref => distinct ref.chunkHashes
  | .inline _ _ => []

namespace BaseBatch

variable (self : BaseBatch)

/-- The count of one partition's references less one; a missing row stops
nothing. -/
def dropPartitionRef (table : Counter (JsString × Sha256 × JsString))
    (k : JsString × Sha256 × JsString) : Counter (JsString × Sha256 × JsString) :=
  match drop table k with
  | some (_, next) => next
  | none => table

/-- Write a chunk's release. -/
def upsertReleased (table : List ReleasedChunk) (chunk : ReleasedChunk) : List ReleasedChunk :=
  table.filter (fun row => ¬ (row.ns = chunk.ns ∧ row.sha256 = chunk.sha256)) ++ [chunk]

/-- `#release`: drop one reference of a partition.  A chunk no longer named is
released. -/
def release (a : Address) (sha256 : Sha256) : Except StoreError BaseBatch :=
  let partitions := dropPartitionRef self.db.chunkPartitions (a.1, sha256, a.2)
  match drop self.db.chunkRefs (a.1, sha256) with
  | none => .error (.noReference sha256 a.1)
  | some (left, refs) =>
    if 0 < left then
      .ok { self with db := { self.db with chunkRefs := refs, chunkPartitions := partitions } }
    else
      .ok { self with
        db := { self.db with
          chunkRefs := refs
          chunkPartitions := partitions
          releasedChunks := upsertReleased self.db.releasedChunks ⟨a.1, sha256, self.now⟩ }
        released := self.released + 1 }

/-- Drop one reference to each chunk of a list. -/
def releaseAll (a : Address) (hashes : List Sha256) : Except StoreError BaseBatch :=
  hashes.foldlM (fun batch sha256 => batch.release a sha256) self

/-- The chunks a base record names, none when there is no record. -/
def recordChunks (a : Address) (key : RecordKey) : List Sha256 :=
  match self.db.base.records.lookup (a, key) with
  | some record => record.content.distinctChunks
  | none => []

/-- `putRecord`.  The new content is counted before the old is dropped, so that a
chunk both name never reaches zero. -/
def putRecord (a : Address) (key : RecordKey) (record : BaseRecord) :
    Except StoreError BaseBatch :=
  let before := self.recordChunks a key
  let db := self.db.takeRefs a record.content.distinctChunks
  let base := { db.base with records := db.base.records.insert (a, key) record }
  { self with db := db.withBase base }.releaseAll a before

/-- `deleteRecord`. -/
def deleteRecord (a : Address) (key : RecordKey) : Except StoreError BaseBatch :=
  let before := self.recordChunks a key
  let base := { self.db.base with records := self.db.base.records.erase (a, key) }
  { self with db := self.db.withBase base }.releaseAll a before

/-- The live versions of a name as the table has them, in order of version. -/
def readVersions (db : CommitsDb) (name : Address × JsString) : List LiveDataVersion :=
  (sortLive ((db.base.versions.lookup name).getD [])).map
    (fun row => ⟨row.metadata.version, row.metadata⟩)

/-- `liveVersions`: kept in the batch, or read. -/
def liveVersions (name : Address × JsString) : List LiveDataVersion :=
  (self.versions.get name).getD (readVersions self.db name)

/-- `setLiveVersions`: the table takes each version once. -/
def setLiveVersions (name : Address × JsString) (versions : List LiveDataVersion) :
    Except StoreError BaseBatch :=
  if (versions.map LiveDataVersion.version).Nodup then
    let table := self.db.base.versions
    let base := { self.db.base with
      versions := if versions = [] then table.erase name else table.insert name versions }
    .ok { self with db := self.db.withBase base, versions := self.versions.set name versions }
  else .error .uniqueConstraint

/-- The metadata of a version, from the live versions' table. -/
def versionMetadata (db : CommitsDb) (name : Address × JsString) (version : Version) :
    Option DataMetadata :=
  (((db.base.versions.lookup name).getD []).find? (fun row => row.version = version)).map
    LiveDataVersion.metadata

/-- The catalog of a name as the tables have it.  A row takes its metadata from
the live versions, and one that is not live is an error. -/
def readCatalog (db : CommitsDb) (name : Address × JsString) :
    Except StoreError CatalogNameState := do
  let versions := ((db.base.catalog.lookup name).getD []).insertionSort
    (fun a b => a.val ≤ b.val)
  let rows ← versions.mapM (fun version =>
    match versionMetadata db name version with
    | some metadata => Except.ok metadata
    | none => .error (.catalogRowNotLive name.2 version))
  return ⟨rows, db.base.forwards.lookup name⟩

/-- `catalogName`: kept in the batch, or read. -/
def catalogName (name : Address × JsString) : Except StoreError CatalogNameState :=
  match self.catalog.get name with
  | some state => .ok state
  | none => readCatalog self.db name

/-- Keep the live versions of a name that were read. -/
def keepVersions (name : Address × JsString) : BaseBatch :=
  { self with versions := self.versions.set name (self.liveVersions name) }

/-- Whether a catalog row is a live version's metadata. -/
def rowIsLive (live : List LiveDataVersion) (row : DataMetadata) : Bool :=
  ((OrderedMap.ofList (live.map (fun v => (v.version, v.metadata)))).get row.version) = some row

/-- The table of forwards with a name's forward written. -/
def writeForward (table : Finmap (fun _ : Address × JsString => JsString))
    (name : Address × JsString) (forward : Option JsString) :
    Finmap (fun _ : Address × JsString => JsString) :=
  match forward with
  | none => table.erase name
  | some target => table.insert name target

/-- `setCatalogName`: refuses a row that is not the live version. -/
def setCatalogName (name : Address × JsString) (state : CatalogNameState) :
    Except StoreError BaseBatch :=
  match state.rows.find? (fun row => !rowIsLive (self.liveVersions name) row) with
  | some row => .error (.catalogRowNotLive name.2 row.version)
  | none =>
    let versions := state.rows.map DataMetadata.version
    if versions.Nodup then
      let table := self.db.base.catalog
      let base := { self.db.base with
        catalog := if versions = [] then table.erase name else table.insert name versions
        forwards := writeForward self.db.base.forwards name state.forward }
      let kept := self.keepVersions name
      .ok { kept with db := self.db.withBase base, catalog := self.catalog.set name state }
    else .error .uniqueConstraint

end BaseBatch

/-- The directories a datastore syncs that a checkout materialises. -/
def MATERIALISED_SUBDIRS : List JsString :=
  [js "auto-definitions", js "definitions-evaluated", js "workflows-evaluated", js "config",
    js "data", js "outputs", js "workflow-runs"]

/-- An ASCII letter in lower case. -/
def asciiLower (u : CodeUnit) : CodeUnit :=
  if 65 ≤ u.val ∧ u.val ≤ 90 then Fin.ofNat 65536 (u.val + 32) else u

/-- The units a dot does not match. -/
def dotSkips (u : CodeUnit) : Bool :=
  u.val == 10 || u.val == 13 || u.val == 0x2028 || u.val == 0x2029

/-- The file name of a catalog database, whatever its case. -/
def isCatalogDatabase (name : JsString) : Bool :=
  let lower := name.map asciiLower
  let lead := js "_catalog"
  [js ".db", js ".db-wal", js ".db-shm", js ".db-journal"].any (fun ending =>
    let rest := lower.drop lead.length
    lead.isPrefixOf lower && ending.isSuffixOf rest &&
      (rest.take (rest.length - ending.length)).all (fun u => !dotSkips u))

/-- Why a key has no file. -/
inductive LexicalRefusal where
  | notSynced (segment : JsString)
  | catalogDatabase

/-- `lexicalRefusal`. -/
def lexicalRefusal (key : JsString) (subdirs : List JsString) : Option LexicalRefusal :=
  let segments := split key
  let first := segments.headD []
  if first ∉ subdirs then some (.notSynced first)
  else if isCatalogDatabase (segments.getLastD []) then some .catalogDatabase
  else none

/-- The file ownerships of one store, by namespace and key. -/
abbrev FileTable := Finmap (fun _ : JsString × JsString => FileOwnership)

/-- Whether a key is a present file. -/
def FileTable.isPresent (files : FileTable) (ns key : JsString) : Bool :=
  match files.lookup (ns, key) with
  | some own => own.present
  | none => false

/-- `hasPresentFileUnder`: keys under `key/` sort between `key/` and `key0`. -/
def FileTable.hasPresentFileUnder (files : FileTable) (ns key : JsString) : Bool :=
  files.any (fun row own =>
    row.1 = ns ∧ key ++ [unit '/'] < row.2 ∧ row.2 < key ++ [unit '0'] ∧ own.present)

/-- The ownerships after one change of a key.  A put that meets a conflict is
skipped; under a file a tombstone has nothing to remove. -/
def FileTable.foldChange (files : FileTable) (subdirs : List JsString) (a : Address)
    (position : ℕ) (key : JsString) (isPut : Bool) : FileTable :=
  match lexicalRefusal key subdirs with
  | some _ => files
  | none =>
    let conflict := lexicalConflict key (files.isPresent a.1) (files.hasPresentFileUnder a.1)
    if conflict = some .underFile ∨ (conflict = some .directory ∧ isPut) then files
    else
      match decideFile (files.lookup (a.1, key)) a.2 position isPut with
      | .keep => files
      | .remove none => files
      | .remove (some next) => files.insert (a.1, key) next
      | .write next => files.insert (a.1, key) next

namespace BaseBatch

variable (self : BaseBatch)

/-- The base's tables once the file of a key is decided. -/
def foldFile (subdirs : List JsString) (a : Address) (position : ℕ) (change : KeyChange) :
    BaseBatch :=
  let files :=
    FileTable.foldChange self.db.base.files subdirs a position change.key.value change.put.isSome
  { self with db := self.db.withBase { self.db.base with files } }

/-- One change of a commit: the record, then the file. -/
def foldChange (subdirs : List JsString) (a : Address) (position : ℕ) (change : KeyChange) :
    Except StoreError BaseBatch := do
  let next ← match change.put with
    | none => self.deleteRecord a change.key
    | some put => self.putRecord a change.key ⟨put.sha256, put.content, put.access⟩
  return next.foldFile subdirs a position change

/-- The catalog of every name a commit's changes are about, read before any of
them is written. -/
def readCatalogs (a : Address) (names : List JsString) :
    Except StoreError (JsString → CatalogNameState) :=
  (names.mapM (fun name => (self.catalogName (a, name)).map (fun state => (name, state)))).map
    (fun states name => ((OrderedMap.ofList states).get name).getD EMPTY_CATALOG_NAME)

/-- `foldCommit`. -/
def foldCommit (subdirs : List JsString) (row : CommitRow) : Except StoreError BaseBatch := do
  let commit := row.commit
  let a := commit.address
  let batch ← (finalKeyStates commit).foldlM
    (fun batch change => batch.foldChange subdirs a row.cursor change) self
  let projection := projectCatalog commit.ops (fun name => batch.liveVersions (a, name))
  let before ← batch.readCatalogs a (projection.actions.map CatalogAction.name)
  let catalog := foldCatalogActions projection.actions before
  let batch ← projection.live.entries.foldlM
    (fun batch entry => batch.setLiveVersions (a, entry.1) entry.2) batch
  let batch ← catalog.entries.foldlM
    (fun batch entry => batch.setCatalogName (a, entry.1) entry.2) batch
  let base := { batch.db.base with
    compactedPartitions := batch.db.base.compactedPartitions.insert a commit.seq }
  return { batch with db := batch.db.withBase base }

/-- `compactCommit`: the txnId moves to `compacted_txns`, the references the
commit counted are dropped, and its row is deleted. -/
def compactCommit (committedAt : JsString → Option ℤ) (row : CommitRow) :
    Except StoreError BaseBatch := do
  let commit := row.commit
  let a := commit.address
  if self.db.compactedTxns.any (fun txn => txn.address = a ∧ txn.txnId = commit.txnId) then
    .error .uniqueConstraint
  else
    let time : CompactedTxnTime := ⟨a, commit.txnId, (committedAt commit.atTime).getD self.now⟩
    let times := self.db.compactedTxnTimes.filter
      (fun txn => ¬ (txn.address = a ∧ txn.txnId = commit.txnId))
    let moved := { self.db with
      compactedTxns := self.db.compactedTxns ++ [⟨a, commit.txnId, commit.seq⟩]
      compactedTxnTimes := times ++ [time] }
    let batch ← { self with db := moved }.releaseAll a commit.chunkRefs
    return { batch with
      db := { batch.db with
        commits := batch.db.commits.filter (fun stored => stored.cursor ≠ row.cursor) } }

end BaseBatch

/-- What a compaction is asked and what it meets.  `committedAt` reads a commit's
instant; `aborted`, `clock` and `beforeCommitFails` are told by the number of the
batch. -/
structure CompactHistoryOptions where
  batchSize : ℕ
  batch_pos : 1 ≤ batchSize
  fence : Option ℕ
  pruneTxnsBefore : Option ℤ
  releasedRetentionMs : ℤ
  committedAt : JsString → Option ℤ
  clock : ℕ → ℤ
  aborted : ℕ → Bool
  beforeCommitFails : ℕ → Bool

namespace CommitsDb

variable (db : CommitsDb)

/-- `setPoint`. -/
def setPoint (row : CommitRow) : CommitsDb :=
  { db with point := row.cursor, pointCommit := some (row.address, row.commit.txnId) }

/-- `finish`: forgets chunks released before an instant. -/
def pruneReleased (before : ℤ) : CommitsDb :=
  { db with releasedChunks := db.releasedChunks.filter (fun row => before ≤ row.releasedAt) }

/-- Whether a txnId is one that pruning forgets. -/
def isOldTxn (before : ℤ) (a : Address) (txnId : JsString) : Bool :=
  db.compactedTxnTimes.any
      (fun time => time.address = a ∧ time.txnId = txnId ∧ time.committedAt < before) &&
    decide (db.pointCommit ≠ some (a, txnId))

/-- `pruneTxns`: forgets the txnIds of old compacted commits, except the
point's. -/
def pruneTxns (before : ℤ) : CommitsDb :=
  { db with
    compactedTxns := db.compactedTxns.filter (fun txn => ¬ db.isOldTxn before txn.address txn.txnId)
    compactedTxnTimes := db.compactedTxnTimes.filter
      (fun time => ¬ db.isOldTxn before time.address time.txnId) }

/-- Each partition's last commit in a batch, in the order the partitions are
met. -/
def lastCommits (rows : List CommitRow) : OrderedMap Address Commit :=
  rows.foldl (fun last row => last.set row.address row.commit) .empty

/-- Whether a partition's snapshot is at a seq or past it. -/
def snapshotCovers (a : Address) (seq : ℕ) : Bool :=
  (db.snapshots.lookup a).any (fun row => seq ≤ row.seq)

/-- The snapshot a partition needs once its commits up to this one are gone, when
its latest is older. -/
def neededSnapshot (commit : Commit) : Except StoreError (Option (Address × SnapshotRow)) :=
  let a := commit.address
  if db.snapshotCovers a commit.seq then .ok none
  else
    match db.rebuild commit.ns commit.partition commit.seq with
    | .error e => .error e
    | .ok rebuilt =>
      if rebuilt.partition.seq ≠ commit.seq then
        .error (.partitionChanged commit.partition.value)
      else .ok (some (a, ⟨commit.seq, rebuilt.partition.snapshot.toJson⟩))

/-- The transaction of one batch. -/
def compactBatch (options : CompactHistoryOptions) (n : ℕ) (rows : List CommitRow)
    (last : CommitRow) (snapshots : List (Address × SnapshotRow)) :
    Except StoreError (ℕ × CommitsDb) := do
  db.checkWriterFence options.fence
  let batch ← rows.foldlM (fun batch row => batch.foldCommit MATERIALISED_SUBDIRS row)
    (BaseBatch.begin db (options.clock n))
  let batch ← rows.foldlM (fun batch row => batch.compactCommit options.committedAt row) batch
  let db := snapshots.foldl (fun db row => db.upsertSnapshot row.1 row.2) batch.db
  let db := (db.setPoint last).pruneReleased (options.clock n - options.releasedRetentionMs)
  let db := match options.pruneTxnsBefore with
    | some before => db.pruneTxns before
    | none => db
  if options.beforeCommitFails n then .error .commitFailed else return (batch.released, db)

/-- The rows of the next batch: those past the point and up to the target, the
oldest first. -/
def nextBatch (target limit : ℕ) : List CommitRow :=
  (db.commits.filter (fun row => db.point < row.cursor ∧ row.cursor ≤ target)).take limit

end CommitsDb

/-- What a compaction did. -/
structure CompactionReport where
  point : ℕ
  compacted : ℕ
  batches : ℕ
  released : ℕ
  prunedTxns : ℕ

/-- The loop of `#compact`.  Every batch deletes a row at least, so the number of
rows is fuel enough. -/
def CommitStore.compactLoop (options : CompactHistoryOptions) (target : ℕ) :
    ℕ → CompactionReport → CommitStore → Except StoreError CompactionReport × CommitStore
  | 0, report, self => (.ok { report with point := self.db.point }, self)
  | fuel + 1, report, self =>
    let n := report.batches
    if options.aborted n then (.error .aborted, self)
    else
      let rows := self.db.nextBatch target options.batchSize
      match rows.getLast? with
      | none => (.ok { report with point := self.db.point }, self)
      | some last =>
        match (CommitsDb.lastCommits rows).values.mapM self.db.neededSnapshot with
        | .error e => (.error e, self)
        | .ok snapshots =>
          match self.db.compactBatch options n rows last snapshots.reduceOption with
          | .error e => (.error e, { self with cache := .empty })
          | .ok (released, db) =>
            let pruned := self.db.compactedTxns.length + rows.length -
              db.compactedTxns.length
            compactLoop options target fuel
              { report with
                compacted := report.compacted + rows.length
                batches := n + 1
                released := report.released + released
                prunedTxns := report.prunedTxns + pruned }
              { self with db }

/-- The highest cursor stored, 0 when none is. -/
def CommitsDb.lastCursor (db : CommitsDb) : ℕ :=
  match db.commits.getLast? with
  | some row => row.cursor
  | none => 0

/-- `compactHistory`: never past the last cursor assigned. -/
def CommitStore.compactHistory (self : CommitStore) (options : CompactHistoryOptions)
    (through : ℕ) : Except StoreError CompactionReport × CommitStore :=
  self.compactLoop options (min through self.db.lastCursor) (self.db.commits.length + 1)
    ⟨self.db.point, 0, 0, 0, 0⟩

/-- `referencedChunks`: the hashes that are counted, or were released since. -/
def CommitsDb.referencedChunks (db : CommitsDb) (ns : JsString) (hashes : List Sha256)
    (releasedSince : Option ℤ) : List Sha256 :=
  hashes.filter (fun sha256 =>
    (db.chunkRefs.lookup (ns, sha256)).isSome ||
      db.releasedChunks.any (fun row =>
        row.ns = ns ∧ row.sha256 = sha256 ∧ ∀ since ∈ releasedSince, since ≤ row.releasedAt))

end Swamp
