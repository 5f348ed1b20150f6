import Mathlib.Logic.Relation
import Swamp.Truncation

/-!
# Runs of the commit store

A run is any sequence of calls on a store that was just created: groups of
appends, compactions, truncations, a raised writer fence, a partition read into
the cache, and closing and opening again.  `drain_wrote` says all that the
tables can go through while a group is appended: rows of commits are written, one
commit after the other, and nothing else.
-/

namespace Swamp

open Js

/-- A call on the store. -/
inductive StoreCall where
  | appends (clock : ℕ → GroupClock) (entries : List PendingAppend)
  | raiseWriterFence (fence : ℕ)
  | compactHistory (options : CompactHistoryOptions) (through : ℕ)
  | truncateAfter (mark : StoreHighWaterMark) (now : ℤ) (commitFails : Bool)
  | readPartition (ns : JsString) (key : PartitionKey)
  | reopen

namespace CommitStore

/-- A store that was just created. -/
def created : CommitStore := ⟨CommitsDb.empty, .empty⟩

/-- A whole group of appends. -/
def appends (self : CommitStore) (options : StoreOptions) (clock : ℕ → GroupClock)
    (entries : List PendingAppend) : List Settled × CommitStore :=
  self.drain options clock entries.length entries

/-- The store after a call. -/
def call (options : StoreOptions) (self : CommitStore) : StoreCall → CommitStore
  | .appends clock entries => (self.appends options clock entries).2
  | .raiseWriterFence fence => (self.raiseWriterFence fence).2
  | .compactHistory compaction through => (self.compactHistory compaction through).2
  | .truncateAfter mark now commitFails => (self.truncateAfter options mark now commitFails).2
  | .readPartition ns key => (self.partition options ns key).2
  | .reopen => { self with cache := .empty }

/-- The store after a run. -/
def run (options : StoreOptions) (calls : List StoreCall) : CommitStore :=
  calls.foldl (call options) created

variable (self : CommitStore)

@[simp] theorem forget_db (a : Address) : (self.forget a).db = self.db := rfl

@[simp] theorem mutate_db (a : Address) (cached : CachedPartition) :
    (self.mutate a cached).db = self.db := by
  unfold mutate
  split
  · rfl
  · rfl

@[simp] theorem remember_db (options : StoreOptions) (a : Address) (cached : CachedPartition) :
    (self.remember options a cached).db = self.db := by
  unfold remember
  simp only
  split
  · split
    · rfl
    · rfl
  · rfl

@[simp] theorem partition_db (options : StoreOptions) (ns : JsString) (key : PartitionKey) :
    (self.partition options ns key).2.db = self.db := by
  unfold partition
  simp only
  split
  · rfl
  · split
    · rfl
    · exact remember_db self options _ _

@[simp] theorem restoreFromSnapshot_db (options : StoreOptions) (commit : Commit)
    (snapshot : SnapshotRow) : (self.restoreFromSnapshot options commit snapshot).db = self.db := by
  unfold restoreFromSnapshot
  simp only
  split
  · split
    · rfl
    · split
      · rfl
      · split
        · rfl
        · rfl
  · rfl

@[simp] theorem mutateAll_db (entries : List (Address × CachedPartition)) :
    (self.mutateAll entries).db = self.db := by
  unfold mutateAll
  induction entries generalizing self with
  | nil => rfl
  | cons entry entries ih => rw [List.foldl_cons, ih, mutate_db]

@[simp] theorem forgetAll_db (addresses : List Address) :
    (self.forgetAll addresses).db = self.db := by
  unfold forgetAll
  induction addresses generalizing self with
  | nil => rfl
  | cons a addresses ih => rw [List.foldl_cons, ih, forget_db]

theorem restoreAll_db (options : StoreOptions) (written : List (Commit × SnapshotRow)) :
    (written.foldl (fun store w => store.restoreFromSnapshot options w.1 w.2) self).db =
      self.db := by
  induction written generalizing self with
  | nil => rfl
  | cons w written ih => rw [List.foldl_cons, ih, restoreFromSnapshot_db]

end CommitStore

/-- Counting references changes the two tables of counts. -/
theorem takeRefs_frame (db : CommitsDb) (a : Address) (hashes : List Sha256) :
    ∃ refs partitions, db.takeRefs a hashes =
      { db with chunkRefs := refs, chunkPartitions := partitions } := by
  unfold CommitsDb.takeRefs
  induction hashes using List.reverseRecOn with
  | nil => exact ⟨_, _, rfl⟩
  | append_singleton hashes sha256 ih =>
    obtain ⟨refs, partitions, heq⟩ := ih
    rw [List.foldl_append, heq]
    exact ⟨_, _, rfl⟩

/-- The tables with a commit's rows written. -/
def CommitsDb.withCommit (options : StoreOptions) (db : CommitsDb) (commit : Commit)
    (taken : Partition) : CommitsDb :=
  { db with
    commits := db.commits ++ [⟨db.sequence + 1, commit⟩]
    sequence := db.sequence + 1
    chunkRefs := (db.takeRefs commit.address commit.chunkRefs).chunkRefs
    chunkPartitions := (db.takeRefs commit.address commit.chunkRefs).chunkPartitions
    heads := db.heads.insert commit.address ⟨taken.seq, taken.highestFence⟩
    snapshots :=
      if snapshotDue options taken.seq then db.snapshots.insert commit.address taken.snapshotRow
      else db.snapshots }

/-- The row a commit would repeat: one of its partition with its seq or its
txnId. -/
def CommitsDb.repeats (db : CommitsDb) (commit : Commit) : Bool :=
  (db.rowsOf commit.address).any
    (fun row => row.commit.seq = commit.seq ∨ row.commit.txnId = commit.txnId)

theorem takeRefs_insert (db : CommitsDb) (a : Address) (hashes : List Sha256)
    (rows : List CommitRow) (n : ℕ) :
    { db with commits := rows, sequence := n }.takeRefs a hashes =
      { db.takeRefs a hashes with commits := rows, sequence := n } := by
  unfold CommitsDb.takeRefs
  induction hashes using List.reverseRecOn with
  | nil => rfl
  | append_singleton hashes sha256 ih =>
    rw [List.foldl_append, List.foldl_append, ih]
    rfl

/-- **The rows of a commit**: refused by the writer fence, or as a repetition, or
written. -/
theorem writeCommit_eq (options : StoreOptions) (db : CommitsDb) (commit : Commit)
    (taken : Partition) :
    db.writeCommit options commit taken =
      match db.checkWriterFence (commit.fence.map Fence.val) with
      | .error e => .error e
      | .ok () =>
        if db.repeats commit then .error .uniqueConstraint
        else .ok (db.withCommit options commit taken,
          if snapshotDue options taken.seq then some taken.snapshotRow else none) := by
  unfold CommitsDb.writeCommit
  cases db.checkWriterFence (commit.fence.map Fence.val) with
  | error e => rfl
  | ok u =>
    unfold CommitsDb.insertCommit CommitsDb.repeats
    simp only [bind, Except.bind]
    split
    · rename_i h
      split at h
      · cases h
        rename_i hrepeats
        simp only [hrepeats, if_true]
      · cases h
    · rename_i next h
      split at h
      · cases h
      · cases h
        rename_i hrepeats
        rw [takeRefs_insert]
        obtain ⟨refs, partitions, heq⟩ := takeRefs_frame db commit.address commit.chunkRefs
        simp only [hrepeats, CommitsDb.withCommit, heq]
        split
        · rfl
        · rfl

/-- One commit's rows were written. -/
def Wrote (options : StoreOptions) (db next : CommitsDb) : Prop :=
  ∃ commit taken snapshot, db.writeCommit options commit taken = .ok (next, snapshot)

/-- Rows of commits were written, one commit after the other. -/
abbrev WroteAll (options : StoreOptions) : CommitsDb → CommitsDb → Prop :=
  Relation.ReflTransGen (Wrote options)

variable {options : StoreOptions}

theorem applyInTransaction_written {db next : CommitsDb} {commit : Commit}
    {cached after : CachedPartition} {retried fails : Bool} {seq : ℕ}
    {snapshot : Option SnapshotRow}
    (h : applyInTransaction options db commit cached retried fails =
      (.ok (.written seq next snapshot), after)) : Wrote options db next := by
  unfold applyInTransaction at h
  simp only at h
  split at h
  · split at h
    · cases h
    · cases h
  · split at h
    · cases h
    · split at h
      · cases h
      · cases h
    · split at h
      · cases h
      · rename_i written snapshot' hwrite
        split at h
        · cases h
        · cases h
          exact ⟨commit, _, _, hwrite⟩

namespace CommitStore

variable {self : CommitStore}

theorem tryAppend_wrote (entry : PendingAppend) (retried commitFails : Bool) :
    WroteAll options self.db (self.tryAppend options entry retried commitFails).2.db := by
  have hdb := partition_db self options entry.commit.ns entry.commit.partition
  unfold tryAppend
  simp only
  split
  · rename_i heq
    rw [heq] at hdb
    rw [hdb]
  · rename_i store heq
    rw [heq] at hdb
    simp only at hdb
    rw [← hdb]
    split
    · split
      · rw [mutate_db]
      · rw [forget_db]
    · rw [mutate_db]
    · rw [mutate_db]
    · rename_i happly
      split
      · rw [forget_db]
      · have hwrote := Relation.ReflTransGen.single (applyInTransaction_written happly)
        split
        · rw [restoreFromSnapshot_db]
          exact hwrote
        · exact hwrote

theorem append_wrote (entry : PendingAppend) (retried commitFails : Bool) :
    WroteAll options self.db (self.append options entry retried commitFails).2.db := by
  have hfirst := @tryAppend_wrote options self entry retried commitFails
  unfold append
  simp only
  split
  · rename_i heq
    rw [heq] at hfirst
    exact hfirst
  · rename_i heq
    rw [heq] at hfirst
    exact hfirst
  · rename_i store heq
    rw [heq] at hfirst
    split
    · exact hfirst
    · have hsecond := @tryAppend_wrote options (store.forget entry.commit.address) entry true
        commitFails
      split
      · rename_i hagain
        rw [hagain] at hsecond
        exact hfirst.trans hsecond
      · rename_i hagain
        rw [hagain] at hsecond
        exact hfirst.trans hsecond
      · rename_i hagain
        rw [hagain] at hsecond
        exact hfirst.trans hsecond

end CommitStore

theorem gather_db (clock : GroupClock) (entries : List PendingAppend) (i : ℕ) (g : Gathered) :
    (gather options clock i entries g).store.db = g.store.db := by
  induction entries generalizing i g with
  | nil => rfl
  | cons entry entries ih =>
    unfold gather
    split
    · rfl
    · simp only
      split
      · exact ih _ _
      · have hdb := g.store.partition_db options entry.commit.ns entry.commit.partition
        split
        · rename_i heq
          rw [heq] at hdb
          rw [ih]
          exact hdb
        · rename_i heq
          rw [heq] at hdb
          rw [ih]
          exact hdb

theorem runBatch_wrote (entries : List PendingAppend) (run : GroupRun) {db : CommitsDb}
    (hdb : run.db = db) : WroteAll options db (runBatch options entries run).db := by
  subst hdb
  induction entries generalizing run with
  | nil => exact Relation.ReflTransGen.refl
  | cons entry entries ih =>
    have hrest : ∀ (next : GroupRun) (db : CommitsDb), next.db = db →
        WroteAll options db (runBatch options entries next).db := by
      intro next db hdb
      subst hdb
      exact ih next
    unfold runBatch
    simp only
    split
    · split
      · exact hrest _ _ rfl
      · exact Relation.ReflTransGen.refl
    · exact Relation.ReflTransGen.refl
    · exact hrest _ _ rfl
    · rename_i happly
      exact Relation.ReflTransGen.head (applyInTransaction_written happly) (hrest _ _ rfl)

namespace CommitStore

variable {self : CommitStore}

theorem appendGroup_wrote (clock : GroupClock) (entries : List PendingAppend) :
    WroteAll options self.db (self.appendGroup options clock entries).2.2.db := by
  have hgather := @gather_db options clock entries 0 ⟨self, .empty, [], [], []⟩
  have hbatch := @runBatch_wrote options
    (gather options clock 0 entries ⟨self, .empty, [], [], []⟩).batch
    ⟨(gather options clock 0 entries ⟨self, .empty, [], [], []⟩).store.db,
      (gather options clock 0 entries ⟨self, .empty, [], [], []⟩).partitions, [], [], [], none, []⟩
    self.db hgather
  unfold appendGroup
  simp only
  split
  · rw [forgetAll_db, hgather]
  · split
    · rw [restoreAll_db, forgetAll_db, mutateAll_db]
      exact hbatch
    · refine Relation.ReflTransGen.trans ?_ (append_wrote _ true clock.retryFails)
      rw [forget_db, restoreAll_db, forgetAll_db, mutateAll_db]
      exact hbatch

/-- **What a drained group does to the tables**: rows of commits are written. -/
theorem drain_wrote (clock : ℕ → GroupClock) (n : ℕ) (entries : List PendingAppend) :
    WroteAll options self.db (self.drain options clock n entries).2.db := by
  induction n generalizing self entries with
  | zero =>
    unfold drain
    exact Relation.ReflTransGen.refl
  | succ n ih =>
    match entries with
    | [] =>
      unfold drain
      exact Relation.ReflTransGen.refl
    | [entry] =>
      rw [drain]
      exact append_wrote entry false _
    | first :: second :: rest =>
      rw [drain]
      · exact (appendGroup_wrote (clock n) (first :: second :: rest)).trans (ih _)
      · simp
      · simp

end CommitStore

end Swamp
