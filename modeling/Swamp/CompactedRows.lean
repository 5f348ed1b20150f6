import Mathlib.Data.List.ReduceOption
import Swamp.CachedPartitions
import Swamp.ChunkReferences
import Swamp.ExceptRules

/-!
# The rows a compaction leaves

A batch of a compaction takes the oldest rows of the feed away.  Of each
partition among them the txnIds move to their own table, the compacted seq
becomes that of its last row of the batch, and a snapshot that starts there is
written where the latest one is older.  What the rows of a partition stand for
stays, but for the txnIds that pruning forgets.
-/

namespace Swamp

open Js Swamp.Partition ExceptTriples ExceptRules

/-- Any error at all. -/
def AnyError (_ : StoreError) : Prop := True

/-- A batch that only the base and the counts of chunks set apart, the compacted
seqs left as they were. -/
def KeepsSeqs (before after : BaseBatch) : Prop :=
  OnlyBase before after ∧
    after.db.base.compactedPartitions = before.db.base.compactedPartitions

theorem KeepsSeqs.refl (b : BaseBatch) : KeepsSeqs b b := ⟨OnlyBase.refl b, rfl⟩

theorem KeepsSeqs.trans {a b c : BaseBatch} (hab : KeepsSeqs a b) (hbc : KeepsSeqs b c) :
    KeepsSeqs a c := ⟨hab.1.trans hbc.1, hbc.2.trans hab.2⟩

theorem OnlyRefs.keepsSeqs {a b : BaseBatch} (h : OnlyRefs a b) : KeepsSeqs a b := by
  refine ⟨h.onlyBase, ?_⟩
  obtain ⟨refs, partitions, chunks, released, rfl⟩ := h
  rfl

theorem release_onlyRefs (b : BaseBatch) (a : Address) (sha256 : Sha256) :
    Ends AnyError (OnlyRefs b) (b.release a sha256) := by
  unfold BaseBatch.release
  simp only
  split
  · exact trivial
  · rename_i left refs _
    split
    · exact ⟨refs, _, b.db.releasedChunks, b.released, rfl⟩
    · exact ⟨refs, _, _, b.released + 1, rfl⟩

theorem releaseAll_onlyRefs (b : BaseBatch) (a : Address) (hashes : List Sha256) :
    Ends AnyError (OnlyRefs b) (b.releaseAll a hashes) := by
  unfold BaseBatch.releaseAll
  refine Ends.foldlM (I := fun _ => OnlyRefs b) (OnlyRefs.refl b) ?_
  intro sha256 rest mid hmid
  exact (release_onlyRefs mid a sha256).mono (fun _ => hmid.trans)

theorem putRecord_keepsSeqs (b : BaseBatch) (a : Address) (key : RecordKey) (record : BaseRecord) :
    Ends AnyError (KeepsSeqs b) (b.putRecord a key record) := by
  unfold BaseBatch.putRecord
  simp only
  obtain ⟨refs, partitions, heq⟩ := takeRefs_frame b.db a record.content.distinctChunks
  rw [heq]
  refine (releaseAll_onlyRefs _ a _).mono (fun next hnext => ?_)
  refine KeepsSeqs.trans ⟨⟨{ b.db.base with
    records := b.db.base.records.insert (a, key) record }, refs, partitions, b.db.releasedChunks,
    b.released, b.versions, b.catalog, rfl⟩, rfl⟩ hnext.keepsSeqs

theorem deleteRecord_keepsSeqs (b : BaseBatch) (a : Address) (key : RecordKey) :
    Ends AnyError (KeepsSeqs b) (b.deleteRecord a key) := by
  unfold BaseBatch.deleteRecord
  simp only
  refine (releaseAll_onlyRefs _ a _).mono (fun next hnext => ?_)
  refine KeepsSeqs.trans ⟨⟨{ b.db.base with
    records := b.db.base.records.erase (a, key) }, b.db.chunkRefs, b.db.chunkPartitions,
    b.db.releasedChunks, b.released, b.versions, b.catalog, rfl⟩, rfl⟩ hnext.keepsSeqs

/-- A base with the same compacted seqs put in. -/
theorem keepsSeqs_of_base (b : BaseBatch) (base : BaseTables)
    (versions : OrderedMap (Address × JsString) (List LiveDataVersion))
    (catalog : OrderedMap (Address × JsString) CatalogNameState)
    (hseqs : base.compactedPartitions = b.db.base.compactedPartitions) :
    KeepsSeqs b { b with db := b.db.withBase base, versions := versions, catalog := catalog } :=
  ⟨⟨base, b.db.chunkRefs, b.db.chunkPartitions, b.db.releasedChunks, b.released, versions, catalog,
    rfl⟩, hseqs⟩

theorem foldChange_keepsSeqs (b : BaseBatch) (subdirs : List JsString) (a : Address) (position : ℕ)
    (change : KeyChange) : Ends AnyError (KeepsSeqs b) (b.foldChange subdirs a position change) := by
  have hfile : ∀ mid : BaseBatch, KeepsSeqs b mid →
      KeepsSeqs b (mid.foldFile subdirs a position change) := by
    intro mid hmid
    exact hmid.trans (keepsSeqs_of_base mid _ mid.versions mid.catalog rfl)
  unfold BaseBatch.foldChange
  cases change.put with
  | none => exact (deleteRecord_keepsSeqs b a change.key).bind hfile
  | some put => exact (putRecord_keepsSeqs b a change.key _).bind hfile

theorem setLiveVersions_keepsSeqs (b : BaseBatch) (name : Address × JsString)
    (versions : List LiveDataVersion) :
    Ends AnyError (KeepsSeqs b) (b.setLiveVersions name versions) := by
  unfold BaseBatch.setLiveVersions
  split
  · exact keepsSeqs_of_base b _ _ b.catalog rfl
  · exact trivial

theorem setCatalogName_keepsSeqs (b : BaseBatch) (name : Address × JsString)
    (state : CatalogNameState) : Ends AnyError (KeepsSeqs b) (b.setCatalogName name state) := by
  unfold BaseBatch.setCatalogName
  split
  · exact trivial
  · simp only
    split
    · exact keepsSeqs_of_base b _ _ _ rfl
    · exact trivial

theorem anyError {α : Type} (x : Except StoreError α) : Ends AnyError (fun _ => True) x := by
  cases x with
  | error e | ok a => exact trivial

/-- **A commit folded into the base** makes its seq the partition's compacted
one. -/
theorem foldCommit_seqs (b : BaseBatch) (subdirs : List JsString) (row : CommitRow) :
    Ends AnyError (fun next => OnlyBase b next ∧ next.db.base.compactedPartitions =
      b.db.base.compactedPartitions.insert row.address row.commit.seq)
      (b.foldCommit subdirs row) := by
  unfold BaseBatch.foldCommit
  simp only
  refine (Ends.foldlM (I := fun _ => KeepsSeqs b) (KeepsSeqs.refl b) ?_).bind
    (fun mid hmid => ?_)
  · intro change rest mid hmid
    exact (foldChange_keepsSeqs mid subdirs _ _ change).mono (fun _ => hmid.trans)
  · refine (anyError _).bind (fun before _ => ?_)
    refine (Ends.foldlM (I := fun _ => KeepsSeqs b) hmid ?_).bind (fun live hlive => ?_)
    · intro entry rest mid hmid
      exact (setLiveVersions_keepsSeqs mid _ _).mono (fun _ => hmid.trans)
    · refine (Ends.foldlM (I := fun _ => KeepsSeqs b) hlive ?_).bind (fun last hlast => ?_)
      · intro entry rest mid hmid
        exact (setCatalogName_keepsSeqs mid _ _).mono (fun _ => hmid.trans)
      · refine ⟨hlast.1.trans ⟨_, last.db.chunkRefs, last.db.chunkPartitions,
          last.db.releasedChunks, last.released, last.versions, last.catalog, rfl⟩, ?_⟩
        change last.db.base.compactedPartitions.insert _ _ = _
        rw [hlast.2]
        rfl

/-- The txnId of a row as its table of compacted ones has it. -/
def CommitRow.txn (row : CommitRow) : CompactedTxn :=
  ⟨row.address, row.commit.txnId, row.commit.seq⟩

/-- The compacted seq of a partition once some rows are compacted. -/
def seqAfter (rows : List CommitRow) (a : Address) (seq : ℕ) : ℕ :=
  match (rows.filter (fun row => row.address = a)).getLast? with
  | some row => row.commit.seq
  | none => seq

theorem seqAfter_append (rows : List CommitRow) (row : CommitRow) (a : Address) (seq : ℕ) :
    seqAfter (rows ++ [row]) a seq =
      if row.address = a then row.commit.seq else seqAfter rows a seq := by
  unfold seqAfter
  rw [List.filter_append]
  by_cases h : row.address = a
  · simp [h]
  · simp [h]

/-- The tables a batch leaves, of rows that were compacted and snapshots that were
written. -/
structure LeftBy (db : CommitsDb) (rows : List CommitRow) (last : CommitRow)
    (snapshots : List (Address × SnapshotRow)) (next : CommitsDb) : Prop where
  commits : next.commits =
    db.commits.filter (fun stored => stored.cursor ∉ rows.map CommitRow.cursor)
  sequence : next.sequence = db.sequence
  point : next.point = last.cursor
  heads : next.heads = db.heads
  seqs : ∀ a, next.compactedSeq a = seqAfter rows a (db.compactedSeq a)
  txns : ∃ old : Address → JsString → Bool, next.compactedTxns =
    (db.compactedTxns ++ rows.map CommitRow.txn).filter
      (fun txn => !old txn.address txn.txnId)
  snapshots : next.snapshots =
    (snapshots.foldl (fun db row => db.upsertSnapshot row.1 row.2) db).snapshots

/-- **A commit deleted**: its txnId moves, its row goes. -/
theorem compactCommit_rows (b : BaseBatch) (committedAt : JsString → Option ℤ) (row : CommitRow) :
    Ends AnyError (fun next => ∃ refs partitions chunks times released, next = { b with
        db := { b.db with
          commits := b.db.commits.filter (fun stored => stored.cursor ≠ row.cursor)
          compactedTxns := b.db.compactedTxns ++ [row.txn]
          compactedTxnTimes := times
          chunkRefs := refs
          chunkPartitions := partitions
          releasedChunks := chunks }
        released := released })
      (b.compactCommit committedAt row) := by
  unfold BaseBatch.compactCommit
  simp only
  split
  · exact trivial
  · refine (releaseAll_onlyRefs _ _ _).bind (fun next hnext => ?_)
    obtain ⟨refs, partitions, chunks, released, rfl⟩ := hnext
    exact ⟨refs, partitions, chunks, _, released, rfl⟩

/-- Snapshots written one after the other. -/
theorem upsertSnapshots_frame (snapshots : List (Address × SnapshotRow)) (db : CommitsDb) :
    snapshots.foldl (fun db row => db.upsertSnapshot row.1 row.2) db =
      { db with snapshots :=
        (snapshots.foldl (fun db row => db.upsertSnapshot row.1 row.2) db).snapshots } := by
  induction snapshots generalizing db with
  | nil => rfl
  | cons row snapshots ih => rw [List.foldl_cons, ih]; rfl

theorem upsertSnapshots_snapshots (snapshots : List (Address × SnapshotRow)) (db other : CommitsDb)
    (h : db.snapshots = other.snapshots) :
    (snapshots.foldl (fun db row => db.upsertSnapshot row.1 row.2) db).snapshots =
      (snapshots.foldl (fun db row => db.upsertSnapshot row.1 row.2) other).snapshots := by
  induction snapshots generalizing db other with
  | nil => exact h
  | cons row snapshots ih =>
    apply ih _ _
    simp only [CommitsDb.upsertSnapshot, h]

/-- Pruning goes by a txnId and its partition. -/
theorem pruneTxns_txns (db : CommitsDb) (before : ℤ) : (db.pruneTxns before).compactedTxns =
    db.compactedTxns.filter (fun txn => !db.isOldTxn before txn.address txn.txnId) := by
  simp only [CommitsDb.pruneTxns, decide_not, Bool.decide_eq_true]

/-- **The tables a batch leaves.** -/
theorem compactBatch_rows {db next : CommitsDb} {options : CompactHistoryOptions} {n released : ℕ}
    {rows : List CommitRow} {last : CommitRow} {snapshots : List (Address × SnapshotRow)}
    (h : db.compactBatch options n rows last snapshots = .ok (released, next)) :
    LeftBy db rows last snapshots next := by
  unfold CommitsDb.compactBatch at h
  obtain ⟨_, -, hfenced⟩ := bind_ok h
  obtain ⟨folded, hfold, hrest⟩ := bind_ok hfenced
  obtain ⟨deleted, hdelete, hlast⟩ := bind_ok hrest
  -- The base takes every row's seq, in order.
  have hfolded : OnlyBase (BaseBatch.begin db (options.clock n)) folded ∧
      ∀ a, folded.db.compactedSeq a = seqAfter rows a (db.compactedSeq a) := by
    refine foldlM_ok hfold ?_ ?_ (P := fun before (b : BaseBatch) =>
      OnlyBase (BaseBatch.begin db (options.clock n)) b ∧
        ∀ a, b.db.compactedSeq a = seqAfter before a (db.compactedSeq a))
    · exact ⟨OnlyBase.refl _, fun _ => rfl⟩
    · intro before row rest b next _ hb hnext
      obtain ⟨honly, hseqs⟩ := (foldCommit_seqs b MATERIALISED_SUBDIRS row).of_ok hnext
      refine ⟨hb.1.trans honly, ?_⟩
      intro a
      rw [seqAfter_append]
      unfold CommitsDb.compactedSeq
      rw [hseqs]
      by_cases ha : row.address = a
      · rw [if_pos ha, ← ha, Finmap.lookup_insert]
      · rw [if_neg ha, Finmap.lookup_insert_of_ne _ (Ne.symm ha)]
        exact hb.2 a
  obtain ⟨⟨base, refs, partitions, chunks, count, versions, catalog, rfl⟩, hseqs⟩ := hfolded
  -- The rows go, and their txnIds move, in order.
  have hdeleted : ∃ refs partitions chunks times, deleted.db = { db with
      base := base
      commits := db.commits.filter (fun stored => stored.cursor ∉ rows.map CommitRow.cursor)
      compactedTxns := db.compactedTxns ++ rows.map CommitRow.txn
      compactedTxnTimes := times
      chunkRefs := refs
      chunkPartitions := partitions
      releasedChunks := chunks } := by
    refine foldlM_ok hdelete ?_ ?_ (P := fun before (b : BaseBatch) =>
      ∃ refs partitions chunks times, b.db = { db with
        base := base
        commits := db.commits.filter (fun stored => stored.cursor ∉ before.map CommitRow.cursor)
        compactedTxns := db.compactedTxns ++ before.map CommitRow.txn
        compactedTxnTimes := times
        chunkRefs := refs
        chunkPartitions := partitions
        releasedChunks := chunks })
    · refine ⟨refs, partitions, chunks, db.compactedTxnTimes, ?_⟩
      simp [BaseBatch.begin]
    · intro before row rest b next _ hb hnext
      obtain ⟨_, _, _, _, hb⟩ := hb
      obtain ⟨refs, partitions, chunks, times, count, rfl⟩ :=
        (compactCommit_rows b options.committedAt row).of_ok hnext
      refine ⟨refs, partitions, chunks, times, ?_⟩
      simp only [hb, List.map_append, List.map_cons, List.map_nil, List.append_assoc,
        List.filter_filter]
      congr 1
      apply List.filter_congr
      intro stored _
      rw [Bool.eq_iff_iff]
      simp only [Bool.and_eq_true, decide_eq_true_eq, List.mem_append, List.mem_singleton, not_or]
      exact and_comm
  obtain ⟨refs, partitions, chunks, times, hdb⟩ := hdeleted
  have hsnapshots := upsertSnapshots_snapshots snapshots deleted.db db (by rw [hdb])
  have hwritten := upsertSnapshots_frame snapshots deleted.db
  rw [hsnapshots, hdb] at hwritten
  simp only [hdb, hwritten] at hlast
  split at hlast
  · cases hlast
  · cases hlast
    cases hprune : options.pruneTxnsBefore with
    | none =>
      refine ⟨rfl, rfl, rfl, rfl, hseqs, ⟨fun _ _ => false, ?_⟩, rfl⟩
      simp [CommitsDb.pruneReleased, CommitsDb.setPoint]
    | some before =>
      exact ⟨rfl, rfl, rfl, rfl, hseqs, ⟨_, pruneTxns_txns _ before⟩, rfl⟩

variable {a : Address}

theorem upsertSnapshots_kept {snapshots : List (Address × SnapshotRow)}
    (h : ∀ entry ∈ snapshots, entry.1 ≠ a) (db : CommitsDb) :
    (snapshots.foldl (fun db row => db.upsertSnapshot row.1 row.2) db).snapshots.lookup a =
      db.snapshots.lookup a := by
  induction snapshots generalizing db with
  | nil => rfl
  | cons entry snapshots ih =>
    rw [List.foldl_cons, ih (fun other hother => h other (List.mem_cons_of_mem _ hother))]
    exact Finmap.lookup_insert_of_ne _ (h entry List.mem_cons_self).symm

theorem upsertSnapshots_written {row : SnapshotRow} {snapshots : List (Address × SnapshotRow)}
    (hmem : (a, row) ∈ snapshots) (h : ∀ entry ∈ snapshots, entry.1 = a → entry.2 = row)
    (db : CommitsDb) :
    (snapshots.foldl (fun db row => db.upsertSnapshot row.1 row.2) db).snapshots.lookup a =
      some row := by
  induction snapshots using List.reverseRecOn with
  | nil => cases hmem
  | append_singleton snapshots entry ih =>
    rw [List.foldl_append, List.foldl_cons, List.foldl_nil]
    by_cases ha : entry.1 = a
    · have hrow := h entry (List.mem_append_right _ List.mem_cons_self) ha
      simp only [CommitsDb.upsertSnapshot, ha, hrow]
      exact Finmap.lookup_insert _
    · have hlast : (a, row) ∈ snapshots := by
        rcases List.mem_append.mp hmem with hmem | hmem
        · exact hmem
        · rw [List.mem_singleton] at hmem
          rw [← hmem] at ha
          exact absurd rfl ha
      rw [← ih hlast (fun other hother => h other (List.mem_append_left _ hother))]
      exact Finmap.lookup_insert_of_ne _ (Ne.symm ha)

/-- A batch's last commit of each partition. -/
theorem lastCommits_get (rows : List CommitRow) (a : Address) :
    (CommitsDb.lastCommits rows).get a =
      (rows.filter (fun row => row.address = a)).getLast?.map CommitRow.commit := by
  unfold CommitsDb.lastCommits
  induction rows using List.reverseRecOn with
  | nil => rfl
  | append_singleton rows row ih =>
    rw [List.foldl_append, List.foldl_cons, List.foldl_nil, OrderedMap.get_set, List.filter_append]
    by_cases h : row.address = a
    · simp [h]
    · have hne : ¬ a = row.address := fun heq => h heq.symm
      simp [h, hne, ih]

theorem lastCommits_address {rows : List CommitRow} {commit : Commit}
    (h : (CommitsDb.lastCommits rows).get a = some commit) : commit.address = a := by
  rw [lastCommits_get, Option.map_eq_some_iff] at h
  obtain ⟨row, hrow, rfl⟩ := h
  have hmem := List.mem_of_getLast? hrow
  exact of_decide_eq_true (List.mem_filter.mp hmem).2

/-- The snapshot of a partition after a batch: the one before it, where that
covers the rows compacted, or the partition's state at the last of them. -/
inductive CoveredBy (db : CommitsDb) (rows : List CommitRow) (next : CommitsDb) (a : Address) : Prop
  | untouched (hrows : rows.filter (fun row => row.address = a) = [])
      (hkept : next.snapshots.lookup a = db.snapshots.lookup a)
  | kept (row : CommitRow) (hlast : (rows.filter (fun row => row.address = a)).getLast? = some row)
      (hcovers : db.snapshotCovers a row.commit.seq = true)
      (hkept : next.snapshots.lookup a = db.snapshots.lookup a)
  | written (row : CommitRow) (rebuilt : CachedPartition)
      (hlast : (rows.filter (fun row => row.address = a)).getLast? = some row)
      (hcovers : db.snapshotCovers a row.commit.seq = false)
      (hrebuild : db.rebuild row.commit.ns row.commit.partition row.commit.seq = .ok rebuilt)
      (hseq : rebuilt.partition.seq = row.commit.seq)
      (hwritten : next.snapshots.lookup a =
        some ⟨row.commit.seq, rebuilt.partition.snapshot.toJson⟩)

/-- **Every partition of a batch has its snapshot.** -/
theorem coveredBy_of_needed {db next : CommitsDb} {rows : List CommitRow} {last : CommitRow}
    {needed : List (Option (Address × SnapshotRow))}
    (hneeded : (CommitsDb.lastCommits rows).values.mapM db.neededSnapshot = .ok needed)
    (hleft : LeftBy db rows last needed.reduceOption next) (a : Address) :
    CoveredBy db rows next a := by
  -- What was written for the partition comes from its last commit.
  have hfrom : ∀ entry ∈ needed.reduceOption, entry.1 = a → ∃ commit,
      (CommitsDb.lastCommits rows).get a = some commit ∧
        db.neededSnapshot commit = .ok (some entry) := by
    intro entry hentry ha
    obtain ⟨commit, hcommit, hsnapshot⟩ := mem_mapM hneeded (List.reduceOption_mem_iff.mp hentry)
    obtain ⟨other, hother⟩ := OrderedMap.mem_values.mp hcommit
    refine ⟨commit, ?_, hsnapshot⟩
    have haddress : entry.1 = commit.address := by
      unfold CommitsDb.neededSnapshot at hsnapshot
      simp only at hsnapshot
      split at hsnapshot
      · cases hsnapshot
      · split at hsnapshot
        · cases hsnapshot
        · split at hsnapshot
          · cases hsnapshot
          · cases hsnapshot
            rfl
    rw [← ha, haddress, lastCommits_address hother]
    exact hother
  have hsnapshots := congrArg (Finmap.lookup a) hleft.snapshots
  cases hlast : (rows.filter (fun row => row.address = a)).getLast? with
  | none =>
    have hnil := List.getLast?_eq_none_iff.mp hlast
    apply CoveredBy.untouched hnil
    rw [hsnapshots, upsertSnapshots_kept]
    intro entry hentry ha
    obtain ⟨commit, hcommit, -⟩ := hfrom entry hentry ha
    rw [lastCommits_get, hlast] at hcommit
    cases hcommit
  | some row =>
    have hget : (CommitsDb.lastCommits rows).get a = some row.commit := by
      rw [lastCommits_get, hlast]
      rfl
    have haddress := lastCommits_address hget
    obtain ⟨snapshot, hmem, hsnapshot⟩ :=
      mapM_of_mem hneeded (OrderedMap.mem_values.mpr ⟨a, hget⟩)
    have hown : ∀ entry ∈ needed.reduceOption, entry.1 = a → snapshot = some entry := by
      intro entry hentry ha
      obtain ⟨commit, hcommit, hentry'⟩ := hfrom entry hentry ha
      rw [hget] at hcommit
      cases hcommit
      rw [hsnapshot] at hentry'
      cases hentry'
      rfl
    unfold CommitsDb.neededSnapshot at hsnapshot
    simp only [haddress] at hsnapshot
    split at hsnapshot
    · rename_i hcovers
      cases hsnapshot
      apply CoveredBy.kept row hlast hcovers
      rw [hsnapshots, upsertSnapshots_kept]
      intro entry hentry ha
      cases hown entry hentry ha
    · rename_i hcovers
      split at hsnapshot
      · cases hsnapshot
      · rename_i rebuilt hrebuild
        split at hsnapshot
        · cases hsnapshot
        · rename_i hseq
          cases hsnapshot
          refine CoveredBy.written row rebuilt hlast (Bool.eq_false_iff.mpr hcovers) hrebuild
            (not_not.mp hseq) ?_
          rw [hsnapshots]
          refine upsertSnapshots_written (List.reduceOption_mem_iff.mpr hmem) ?_ db
          intro entry hentry ha
          cases hown entry hentry ha
          rfl

/-- The commits of a partition among some rows. -/
def commitsAmong (rows : List CommitRow) (a : Address) : List Commit :=
  (rows.filter (fun row => row.address = a)).map CommitRow.commit

section

variable {db next : CommitsDb} {rows rest : List CommitRow} {last : CommitRow}
  {snapshots : List (Address × SnapshotRow)}

theorem LeftBy.commits_eq (h : LeftBy db rows last snapshots next) (hsplit : db.commits = rows ++ rest)
    (hcursors : (db.commits.map CommitRow.cursor).Nodup) : next.commits = rest := by
  rw [hsplit, List.map_append, List.nodup_append] at hcursors
  rw [h.commits, hsplit, List.filter_append]
  have hnone : rows.filter (fun stored => stored.cursor ∉ rows.map CommitRow.cursor) = [] := by
    apply List.filter_eq_nil_iff.mpr
    intro row hrow
    have hmem : row.cursor ∈ rows.map CommitRow.cursor := List.mem_map.mpr ⟨row, hrow, rfl⟩
    simpa using hmem
  have hall : rest.filter (fun stored => stored.cursor ∉ rows.map CommitRow.cursor) = rest := by
    apply List.filter_eq_self.mpr
    intro row hrow
    apply decide_eq_true
    intro hmem
    exact hcursors.2.2 _ hmem _ (List.mem_map.mpr ⟨row, hrow, rfl⟩) rfl
  rw [hnone, hall, List.nil_append]

theorem commitsOf_split (hsplit : db.commits = rows ++ rest) (a : Address) :
    db.commitsOf a = commitsAmong rows a ++ commitsAmong rest a := by
  unfold CommitsDb.commitsOf CommitsDb.rowsOf commitsAmong
  rw [hsplit, List.filter_append, List.map_append]

variable {p : Partition}

/-- The compacted seq moves past the compacted rows. -/
theorem Standing.seqAfter_eq (hp : Standing db a p) (hsplit : db.commits = rows ++ rest) :
    seqAfter rows a (db.compactedSeq a) =
      db.compactedSeq a + (commitsAmong rows a).length := by
  have hseqs := hp.seqs
  rw [commitsOf_split hsplit, List.map_append, List.length_append, ← List.range'_append_1] at hseqs
  have hfirst : (commitsAmong rows a).map Commit.seq =
      List.range' (db.compactedSeq a + 1) (commitsAmong rows a).length :=
    (List.append_inj hseqs (by simp)).1
  unfold seqAfter
  cases hlast : (rows.filter (fun row => row.address = a)).getLast? with
  | none =>
    have hnil := List.getLast?_eq_none_iff.mp hlast
    simp only [commitsAmong, hnil, List.map_nil, List.length_nil, Nat.add_zero]
  | some row =>
    have hseq : ((commitsAmong rows a).map Commit.seq).getLast? = some row.commit.seq := by
      simp only [commitsAmong, List.getLast?_map, hlast, Option.map_some]
    have hpos : 0 < (commitsAmong rows a).length := by
      rw [commitsAmong, List.length_map]
      exact List.length_pos_of_mem (List.mem_of_getLast? hlast)
    rw [hfirst, List.getLast?_range', if_neg (by omega)] at hseq
    have hvalue := Option.some.inj hseq
    simp only
    omega

/-- The compacted commits are at or below the new compacted seq, the others past it. -/
theorem Standing.compact_seqs (hp : Standing db a p) (hleft : LeftBy db rows last snapshots next)
    (hsplit : db.commits = rows ++ rest) :
    next.compactedSeq a = db.compactedSeq a + (commitsAmong rows a).length ∧
      (∀ c ∈ commitsAmong rows a, db.compactedSeq a < c.seq ∧ c.seq ≤ next.compactedSeq a) ∧
      (commitsAmong rest a).map Commit.seq =
        List.range' (next.compactedSeq a + 1) (commitsAmong rest a).length := by
  have hcompacted : next.compactedSeq a =
      db.compactedSeq a + (commitsAmong rows a).length := by
    rw [hleft.seqs, hp.seqAfter_eq hsplit]
  have hseqs := hp.seqs
  rw [commitsOf_split hsplit a, List.map_append, List.length_append,
    ← List.range'_append_1] at hseqs
  obtain ⟨hfirst, hrest⟩ := List.append_inj hseqs (by simp)
  refine ⟨hcompacted, fun c hc => ?_, ?_⟩
  · have hmem : c.seq ∈ (commitsAmong rows a).map Commit.seq := List.mem_map.mpr ⟨c, hc, rfl⟩
    rw [hfirst, List.mem_range'_1] at hmem
    omega
  · rw [hrest, hcompacted, Nat.add_right_comm]

/-- The kept txnIds are at or below the new compacted seq and none is stored. -/
theorem Standing.compact_txns (hp : Standing db a p) (hleft : LeftBy db rows last snapshots next)
    (hsplit : db.commits = rows ++ rest) :
    ∀ txn ∈ next.compactedTxns, txn.address = a → 0 < txn.seq ∧
      txn.seq ≤ next.compactedSeq a ∧ txn.txnId ∉ (commitsAmong rest a).map Commit.txnId := by
  obtain ⟨hcompacted, hbelow, -⟩ := hp.compact_seqs hleft hsplit
  intro txn htxn haddr
  obtain ⟨old, htxns⟩ := hleft.txns
  rw [htxns] at htxn
  rcases List.mem_append.mp (List.mem_filter.mp htxn).1 with hmem | hmem
  · obtain ⟨hpos, hle, hnot⟩ := hp.compacted txn hmem haddr
    rw [commitsOf_split hsplit a, List.map_append, List.mem_append, not_or] at hnot
    exact ⟨hpos, by omega, hnot.2⟩
  · obtain ⟨row, hrow, rfl⟩ := List.mem_map.mp hmem
    have hrowAddress : row.address = a := haddr
    have hmem : row.commit ∈ commitsAmong rows a :=
      List.mem_map.mpr ⟨row, List.mem_filter.mpr ⟨hrow, by simpa using hrowAddress⟩, rfl⟩
    have hseq := hbelow _ hmem
    have hdistinct := hp.distinct
    rw [commitsOf_split hsplit a, List.map_append, List.nodup_append] at hdistinct
    refine ⟨Nat.zero_lt_of_lt hseq.1, hseq.2, fun hagain => ?_⟩
    exact hdistinct.2.2 _ (List.mem_map.mpr ⟨_, hmem, rfl⟩) _ hagain rfl

/-- **What the rows of a partition stand for stays** when the oldest of them are
compacted, but for txnIds that are forgotten. -/
theorem Standing.compact (hp : Standing db a p) (hleft : LeftBy db rows last snapshots next)
    (hcovered : CoveredBy db rows next a) (hsplit : db.commits = rows ++ rest)
    (hcursors : (db.commits.map CommitRow.cursor).Nodup) :
    ∃ q, Standing next a q ∧ p.SameState q ∧ q.key = p.key := by
  have hcommits : next.commitsOf a = commitsAmong rest a := by
    unfold CommitsDb.commitsOf CommitsDb.rowsOf commitsAmong
    rw [hleft.commits_eq hsplit hcursors]
  have hof := commitsOf_split hsplit a
  obtain ⟨hcompacted, hbelow, hseqs⟩ := hp.compact_seqs hleft hsplit
  have hpast : ∀ seq, next.compactedSeq a ≤ seq →
      next.commitsPast a seq = db.commitsPast a seq := by
    intro seq hseq
    unfold CommitsDb.commitsPast
    have hnone : (commitsAmong rows a).filter (fun c => seq < c.seq) = [] := by
      apply List.filter_eq_nil_iff.mpr
      intro c hc
      have := (hbelow c hc).2
      simp only [decide_eq_true_eq]
      omega
    rw [hcommits, hof, List.filter_append, hnone, List.nil_append]
  have hnextSeqs : (next.commitsOf a).map Commit.seq =
      List.range' (next.compactedSeq a + 1) (next.commitsOf a).length := by
    rw [hcommits]
    exact hseqs
  have hnextDistinct : ((next.commitsOf a).map Commit.txnId).Nodup := by
    have hdistinct := hp.distinct
    rw [hof, List.map_append, List.nodup_append] at hdistinct
    rw [hcommits]
    exact hdistinct.2.1
  have hnextTxns : ∀ txn ∈ next.compactedTxns, txn.address = a → 0 < txn.seq ∧
      txn.seq ≤ next.compactedSeq a ∧ txn.txnId ∉ (next.commitsOf a).map Commit.txnId := by
    rw [hcommits]
    exact hp.compact_txns hleft hsplit
  have hhead : HeadOf (next.heads.lookup a) p := by
    rw [hleft.heads]
    exact hp.head
  have hlength : next.compactedSeq a + (next.commitsOf a).length =
      db.compactedSeq a + (db.commitsOf a).length := by
    rw [hcommits, hof, List.length_append, hcompacted, Nat.add_assoc]
  obtain ⟨s, hs, hlow, hhigh, hreplays⟩ := hp.start
  -- A start at the new compacted seq or past it serves as it did.
  have hkeptStart : next.snapshots.lookup a = db.snapshots.lookup a → next.compactedSeq a ≤ s.seq →
      ∃ q, Standing next a q ∧ p.SameState q ∧ q.key = p.key := by
    intro hkept hle
    refine standing_of_replays hnextSeqs hnextDistinct hnextTxns hs.key hs.sound ?_ hle
      (hlength ▸ hhigh) ?_ hhead
    · rw [hkept]
      exact hs.row.imp (fun h => ⟨h.1, h.2.state⟩) id
    · rw [hpast s.seq hle]
      exact hreplays
  cases hcovered with
  | untouched hrows hkept =>
    apply hkeptStart hkept
    rw [hcompacted]
    simpa [commitsAmong, hrows] using hlow
  | kept row hlast hcovers hkept =>
    apply hkeptStart hkept
    have hseq : next.compactedSeq a = row.commit.seq := by
      rw [hleft.seqs]
      simp only [seqAfter, hlast]
    rw [hseq]
    unfold CommitsDb.snapshotCovers at hcovers
    rcases hs.row with ⟨hnone, -⟩ | hsome
    · rw [hnone] at hcovers
      cases hcovers
    · rw [hsome] at hcovers
      simpa [Partition.snapshotRow] using hcovers
  | written row rebuilt hlast hcovers hrebuild hseq hwritten =>
    have hnextSeq : next.compactedSeq a = row.commit.seq := by
      rw [hleft.seqs]
      simp only [seqAfter, hlast]
    have haddress : (row.commit.ns, row.commit.partition.value) = a :=
      of_decide_eq_true (List.mem_filter.mp (List.mem_of_getLast? hlast)).2
    have hle : s.seq ≤ row.commit.seq := by
      unfold CommitsDb.snapshotCovers at hcovers
      rcases hs.row with ⟨-, hempty⟩ | hsome
      · have hzero : 0 = s.seq := hempty.state.seq
        omega
      · rw [hsome] at hcovers
        simp only [Option.any_some, Partition.snapshotRow, decide_eq_false_iff_not] at hcovers
        omega
    subst haddress
    obtain ⟨m, cached, hm, hlater, hrebuild', halike, -, -⟩ := hp.rebuild_upTo hs hreplays hle
    rw [hrebuild] at hrebuild'
    cases hrebuild'
    have hmseq : m.seq = row.commit.seq := halike.state.seq.trans hseq
    refine standing_of_replays (s := m) hnextSeqs hnextDistinct hnextTxns ?_ (hm.sound hs.sound)
      (Or.inr ?_) (by omega) ?_ ?_ hhead
    · rw [hm.key]
      exact hs.key
    · rw [hwritten, Partition.snapshotRow, halike.snapshot, hmseq]
    · rw [hlength, ← hp.seq_eq, hlater.next_seq]
      exact Nat.le_add_right _ _
    · rw [hpast m.seq (by omega)]
      have hfilter : db.commitsPast (row.commit.ns, row.commit.partition.value) m.seq =
          (db.commitsPast (row.commit.ns, row.commit.partition.value) s.seq).filter
            (fun c => row.commit.seq < c.seq) := by
        unfold CommitsDb.commitsPast
        rw [List.filter_filter, hmseq]
        apply List.filter_congr
        intro c _
        rw [Bool.eq_iff_iff]
        simp only [decide_eq_true_eq, Bool.and_eq_true]
        omega
      rw [hfilter]
      exact hlater

/-- Compaction makes no txnId known. -/
theorem LeftBy.knew {txnId : JsString} (hleft : LeftBy db rows last snapshots next)
    (hsplit : db.commits = rows ++ rest) (hcursors : (db.commits.map CommitRow.cursor).Nodup)
    (hknows : next.Knows a txnId) : db.Knows a txnId := by
  rcases hknows with hstored | ⟨txn, htxn, haddr, hid⟩
  · apply Or.inl
    rw [commitsOf_split hsplit, List.map_append]
    apply List.mem_append_right _
    unfold CommitsDb.commitsOf CommitsDb.rowsOf at hstored
    rw [hleft.commits_eq hsplit hcursors] at hstored
    exact hstored
  · obtain ⟨old, htxns⟩ := hleft.txns
    rw [htxns] at htxn
    rcases List.mem_append.mp (List.mem_filter.mp htxn).1 with hmem | hmem
    · exact Or.inr ⟨txn, hmem, haddr, hid⟩
    · obtain ⟨row, hrow, rfl⟩ := List.mem_map.mp hmem
      apply Or.inl
      rw [commitsOf_split hsplit, List.map_append]
      refine List.mem_append_left _ (List.mem_map.mpr ⟨row.commit, ?_, hid⟩)
      exact List.mem_map.mpr ⟨row, List.mem_filter.mpr ⟨hrow, decide_eq_true haddr⟩, rfl⟩

theorem LeftBy.txnUpTo {txnId : JsString} {n : ℕ} (hleft : LeftBy db rows last snapshots next)
    (hp : Standing db a p) (hsplit : db.commits = rows ++ rest)
    (hcursors : (db.commits.map CommitRow.cursor).Nodup) (hknows : next.Knows a txnId)
    (hfound : db.txnUpTo a n txnId = true) : next.txnUpTo a n txnId = true := by
  have hof := commitsOf_split hsplit a
  have hnext : next.commitsOf a = commitsAmong rest a := by
    unfold CommitsDb.commitsOf CommitsDb.rowsOf commitsAmong
    rw [hleft.commits_eq hsplit hcursors]
  obtain ⟨old, htxns⟩ := hleft.txns
  rw [txnUpTo_iff] at hfound ⊢
  rcases hfound with ⟨c, hc, hid, hle⟩ | ⟨txn, htxn, haddr, hid, hle⟩
  · -- The commit that has it is stored still, or was moved.
    rcases hknows with hstored | ⟨txn, htxn, haddr, hid'⟩
    · obtain ⟨d, hd, hdid⟩ := List.mem_map.mp hstored
      have hdOld : d ∈ db.commitsOf a := by
        rw [hof]
        exact List.mem_append_right _ (hnext ▸ hd)
      have hsame := List.inj_on_of_nodup_map hp.distinct hdOld hc (hdid.trans hid.symm)
      subst hsame
      exact Or.inl ⟨d, hd, hid, hle⟩
    · rw [htxns] at htxn
      rcases List.mem_append.mp (List.mem_filter.mp htxn).1 with hmem | hmem
      · have hnot := (hp.compacted txn hmem haddr).2.2
        exact absurd (List.mem_map.mpr ⟨c, hc, hid.trans hid'.symm⟩) hnot
      · obtain ⟨row, hrow, rfl⟩ := List.mem_map.mp hmem
        have hrowOld : row.commit ∈ db.commitsOf a := by
          rw [hof]
          exact List.mem_append_left _ (List.mem_map.mpr
            ⟨row, List.mem_filter.mpr ⟨hrow, decide_eq_true haddr⟩, rfl⟩)
        have hsame := List.inj_on_of_nodup_map hp.distinct hrowOld hc (hid'.trans hid.symm)
        refine Or.inr ⟨row.txn, ?_, haddr, hid', ?_⟩
        · rw [htxns]
          exact htxn
        · rw [← hsame] at hle
          exact hle
  · -- It was compacted before, and was not pruned.
    rcases hknows with hstored | ⟨other, hother, haddr', hid'⟩
    · have hnot := (hp.compacted txn htxn haddr).2.2
      refine absurd ?_ hnot
      rw [hof, List.map_append, hid]
      exact List.mem_append_right _ (hnext ▸ hstored)
    · rw [htxns] at hother
      refine Or.inr ⟨txn, ?_, haddr, hid, hle⟩
      rw [htxns]
      refine List.mem_filter.mpr ⟨List.mem_append_left _ htxn, ?_⟩
      have hkept := (List.mem_filter.mp hother).2
      rw [haddr', hid'] at hkept
      rw [haddr, hid]
      exact hkept

/-- A cached partition of which nothing is said but that it knows what the rows
know. -/
def anything (_ : JsString) : Prop := True

/-- **A cached partition outlives a batch.** -/
theorem Mirrors.compact {cached : CachedPartition} (h : Mirrors anything db a cached p)
    (hleft : LeftBy db rows last snapshots next) (hcovered : CoveredBy db rows next a)
    (hsplit : db.commits = rows ++ rest) (hcursors : (db.commits.map CommitRow.cursor).Nodup) :
    ∃ q, Mirrors anything next a cached q := by
  obtain ⟨q, hq, hstate, hkey⟩ := h.standing.compact hleft hcovered hsplit hcursors
  have hview : (cached.view next a).key = (cached.view db a).key ∧
      (cached.view db a).SameState (cached.view next a) := by
    unfold CachedPartition.view
    cases cached.upTo with
    | none => exact ⟨rfl, SameState.refl _⟩
    | some n => exact ⟨rfl, ⟨rfl, rfl, rfl, rfl, rfl, rfl⟩⟩
  refine ⟨q, hq, ⟨?_, ?_, fun _ hF => absurd trivial hF⟩, ?_, ?_⟩
  · rw [hview.1, hkey]
    exact h.alike.key
  · exact (hstate.symm.trans h.alike.state).trans hview.2
  · intro txnId htxn
    have hknows := (hq.hasTxn_iff txnId).mp htxn
    have hheld := h.knows txnId
      ((h.standing.hasTxn_iff txnId).mpr (hleft.knew hsplit hcursors hknows))
    unfold CachedPartition.view at hheld ⊢
    cases hupTo : cached.upTo with
    | none =>
      rw [hupTo] at hheld
      exact hheld
    | some n =>
      rw [hupTo] at hheld
      simp only [Partition.hasTxn, Bool.or_eq_true] at hheld ⊢
      exact hheld.imp id (hleft.txnUpTo h.standing hsplit hcursors hknows)
  · intro n hn
    rw [← hstate.seq]
    exact h.upTo n hn

end

/-- The rows stand in order of cursor, past the compaction point and at or below
the last cursor assigned. -/
structure CommitsDb.InOrder (db : CommitsDb) : Prop where
  cursors : (db.commits.map CommitRow.cursor).Pairwise (· < ·)
  past : ∀ row ∈ db.commits, db.point < row.cursor
  assigned : ∀ row ∈ db.commits, row.cursor ≤ db.sequence
  reached : db.point ≤ db.sequence

theorem CommitsDb.InOrder.nodup {db : CommitsDb} (h : db.InOrder) :
    (db.commits.map CommitRow.cursor).Nodup :=
  h.cursors.imp (fun hlt => Nat.ne_of_lt hlt)

theorem CommitsDb.InOrder.ordered {db : CommitsDb} (h : db.InOrder) :
    db.commits.Pairwise (fun row other => row.cursor < other.cursor) :=
  List.pairwise_map.mp h.cursors

/-- A batch takes the oldest rows. -/
theorem nextBatch_split {db : CommitsDb} (h : db.InOrder) (target limit : ℕ) :
    ∃ rest, db.commits = db.nextBatch target limit ++ rest := by
  have hfilter : db.commits.filter (fun row => db.point < row.cursor ∧ row.cursor ≤ target) =
      db.commits.filter (fun row => row.cursor ≤ target) := by
    apply List.filter_congr
    intro row hrow
    simp [h.past row hrow]
  unfold CommitsDb.nextBatch
  rw [hfilter]
  refine ⟨(db.commits.filter (fun row => row.cursor ≤ target)).drop limit ++
    db.commits.filter (fun row => target < row.cursor), ?_⟩
  rw [← List.append_assoc, List.take_append_drop]
  exact filter_split CommitRow.cursor h.ordered target

theorem LeftBy.inOrder {db next : CommitsDb} {rows rest : List CommitRow} {last : CommitRow}
    {snapshots : List (Address × SnapshotRow)} (h : db.InOrder)
    (hleft : LeftBy db rows last snapshots next) (hsplit : db.commits = rows ++ rest)
    (hlast : rows.getLast? = some last) : next.InOrder := by
  have hcommits := hleft.commits_eq hsplit h.nodup
  have hmem : ∀ row ∈ rest, row ∈ db.commits := by
    intro row hrow
    rw [hsplit]
    exact List.mem_append_right _ hrow
  have hcursors := h.cursors
  rw [hsplit, List.map_append, List.pairwise_append] at hcursors
  refine ⟨?_, ?_, ?_, ?_⟩
  · rw [hcommits]
    exact hcursors.2.1
  · intro row hrow
    rw [hcommits] at hrow
    rw [hleft.point]
    exact hcursors.2.2 _ (List.mem_map.mpr ⟨last, List.mem_of_getLast? hlast, rfl⟩) _
      (List.mem_map.mpr ⟨row, hrow, rfl⟩)
  · intro row hrow
    rw [hcommits] at hrow
    rw [hleft.sequence]
    exact h.assigned row (hmem row hrow)
  · rw [hleft.sequence, hleft.point]
    apply h.assigned last
    rw [hsplit]
    exact List.mem_append_left _ (List.mem_of_getLast? hlast)

end Swamp
