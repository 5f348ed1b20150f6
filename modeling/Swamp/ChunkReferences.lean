import Swamp.ExceptTriples
import Swamp.StoreRuns

/-!
# The chunk counts are exact

`chunk_refs` counts, for each chunk of a namespace, the stored commits and the
base records that name it, and `chunk_partitions` counts the same for each
partition.  A transaction moves them in steps: it counts what it is about to
store, stores it, and drops what it no longer needs.  `Balance` is what holds
between the steps: the counts are those of the rows, plus the references that are
pending, counted without a row to show for it.
-/

namespace Swamp

open Js ReferenceCounts ExceptTriples

/-- The partitions of a namespace. -/
def inNamespace (ns : JsString) (a : Address) : Bool := a.1 = ns

/-- One partition. -/
def inPartition (ns partition : JsString) (a : Address) : Bool := a = (ns, partition)

/-- The stored commits of some partitions that name a chunk. -/
def commitsNaming (at_ : Address → Bool) (sha256 : Sha256) (rows : List CommitRow) : ℕ :=
  rows.countP (fun row => at_ row.address && decide (sha256 ∈ row.commit.chunkRefs))

/-- The base records of some partitions that name a chunk. -/
def recordsNaming (at_ : Address → Bool) (sha256 : Sha256)
    (records : Finmap (fun _ : Address × RecordKey => BaseRecord)) : ℕ :=
  rowsWhere (fun k record => at_ k.1 && decide (sha256 ∈ record.content.distinctChunks)) records

/-- The references of some partitions to a chunk that are pending. -/
def pendingNaming (at_ : Address → Bool) (sha256 : Sha256) (pending : List (Address × Sha256)) :
    ℕ :=
  pending.countP (fun ref => at_ ref.1 && decide (ref.2 = sha256))

/-- References of one partition. -/
def refsTo (a : Address) (hashes : List Sha256) : List (Address × Sha256) :=
  hashes.map (fun sha256 => (a, sha256))

theorem distinct_nodup (hashes : List Sha256) : (distinct hashes).Nodup :=
  (OrderedMap.ofList (hashes.map (fun sha256 => (sha256, ())))).nodup

theorem chunkRefs_nodup (commit : Commit) : commit.chunkRefs.Nodup := distinct_nodup _

theorem distinctChunks_nodup (content : PutContent) : content.distinctChunks.Nodup := by
  cases content with
  | blob ref => exact distinct_nodup _
  | inline text digest => exact List.nodup_nil

/-- Of distinct references, a chunk's is there or not. -/
theorem pendingNaming_refsTo (at_ : Address → Bool) (sha256 : Sha256) (a : Address)
    {hashes : List Sha256} (h : hashes.Nodup) :
    pendingNaming at_ sha256 (refsTo a hashes) =
      if at_ a && decide (sha256 ∈ hashes) then 1 else 0 := by
  unfold pendingNaming refsTo
  rw [List.countP_map]
  cases hat : at_ a with
  | false => simp [Function.comp_def, hat]
  | true =>
    have hcount : List.countP
        ((fun ref : Address × Sha256 => at_ ref.1 && decide (ref.2 = sha256)) ∘
          fun sha => (a, sha)) hashes = hashes.count sha256 := by
      unfold List.count
      apply List.countP_congr
      intro sha _
      simp [hat]
    rw [hcount, List.Nodup.count h]
    simp

theorem pendingNaming_append (at_ : Address → Bool) (sha256 : Sha256)
    (a b : List (Address × Sha256)) :
    pendingNaming at_ sha256 (a ++ b) = pendingNaming at_ sha256 a + pendingNaming at_ sha256 b :=
  List.countP_append

/-- The rows and pending references that name a chunk. -/
def namings (rows : List CommitRow) (records : Finmap (fun _ : Address × RecordKey => BaseRecord))
    (pending : List (Address × Sha256)) (at_ : Address → Bool) (sha256 : Sha256) : ℕ :=
  commitsNaming at_ sha256 rows + recordsNaming at_ sha256 records +
    pendingNaming at_ sha256 pending

/-- The counts are those of the rows and of the pending references. -/
structure Balance (rows : List CommitRow)
    (records : Finmap (fun _ : Address × RecordKey => BaseRecord))
    (refs : Counter (JsString × Sha256)) (partitions : Counter (JsString × Sha256 × JsString))
    (pending : List (Address × Sha256)) : Prop where
  refs : Exact refs (fun k => namings rows records pending (inNamespace k.1) k.2)
  partitions :
    Exact partitions (fun k => namings rows records pending (inPartition k.1 k.2.2) k.2.1)

variable {sha256 : Sha256}

section

variable {rows rows' : List CommitRow}
  {records records' : Finmap (fun _ : Address × RecordKey => BaseRecord)}
  {refs : Counter (JsString × Sha256)} {partitions : Counter (JsString × Sha256 × JsString)}
  {pending pending' : List (Address × Sha256)}

theorem Balance.move (h : Balance rows records refs partitions pending)
    (hsame : ∀ at_ sha256, namings rows records pending at_ sha256 =
      namings rows' records' pending' at_ sha256) :
    Balance rows' records' refs partitions pending' where
  refs := h.refs.congr (fun _ => hsame _ _)
  partitions := h.partitions.congr (fun _ => hsame _ _)

theorem namings_cons (a : Address) (sha256 : Sha256) (at_ : Address → Bool) (sha : Sha256) :
    namings rows records ((a, sha256) :: pending) at_ sha =
      namings rows records pending at_ sha + if at_ a && decide (sha256 = sha) then 1 else 0 := by
  unfold namings pendingNaming
  rw [List.countP_cons]
  exact (Nat.add_assoc _ _ _).symm

theorem inNamespace_and (a : Address) (sha256 : Sha256) (k : JsString × Sha256) :
    (inNamespace k.1 a && decide (sha256 = k.2)) = decide ((a.1, sha256) = k) := by
  obtain ⟨ns, sha⟩ := k
  simp [inNamespace]

theorem inPartition_and (a : Address) (sha256 : Sha256) (k : JsString × Sha256 × JsString) :
    (inPartition k.1 k.2.2 a && decide (sha256 = k.2.1)) = decide ((a.1, sha256, a.2) = k) := by
  obtain ⟨ns, sha, partition⟩ := k
  obtain ⟨ns', partition'⟩ := a
  simp only [inPartition, Prod.mk.injEq]
  grind

/-- A pending reference, seen from the two tables. -/
theorem balance_cons {a : Address} :
    Balance rows records refs partitions ((a, sha256) :: pending) ↔
      Exact refs (fun k => namings rows records pending (inNamespace k.1) k.2 +
          if (a.1, sha256) = k then 1 else 0) ∧
        Exact partitions (fun k => namings rows records pending (inPartition k.1 k.2.2) k.2.1 +
          if (a.1, sha256, a.2) = k then 1 else 0) := by
  have hrefs : ∀ k : JsString × Sha256,
      namings rows records ((a, sha256) :: pending) (inNamespace k.1) k.2 =
        namings rows records pending (inNamespace k.1) k.2 +
          if (a.1, sha256) = k then 1 else 0 := by
    intro k
    rw [namings_cons, inNamespace_and]
    simp
  have hpartitions : ∀ k : JsString × Sha256 × JsString,
      namings rows records ((a, sha256) :: pending) (inPartition k.1 k.2.2) k.2.1 =
        namings rows records pending (inPartition k.1 k.2.2) k.2.1 +
          if (a.1, sha256, a.2) = k then 1 else 0 := by
    intro k
    rw [namings_cons, inPartition_and]
    simp
  constructor
  · intro h
    exact ⟨h.refs.congr hrefs, h.partitions.congr hpartitions⟩
  · intro h
    exact ⟨h.1.congr (fun k => (hrefs k).symm), h.2.congr (fun k => (hpartitions k).symm)⟩

end

/-- The balance of a store's tables. -/
def CommitsDb.Balanced (db : CommitsDb) (pending : List (Address × Sha256)) : Prop :=
  Balance db.commits db.base.records db.chunkRefs db.chunkPartitions pending

variable {rows : List CommitRow}
  {records : Finmap (fun _ : Address × RecordKey => BaseRecord)}
  {pending : List (Address × Sha256)}

variable {db : CommitsDb}

/-- **One reference counted** is pending until its row stands. -/
theorem takeRef_balanced (a : Address) (sha256 : Sha256)
    (h : Balance rows records db.chunkRefs db.chunkPartitions pending) :
    Balance rows records (db.takeRef a sha256).chunkRefs (db.takeRef a sha256).chunkPartitions
      ((a, sha256) :: pending) :=
  balance_cons.mpr ⟨h.refs.take _, h.partitions.take _⟩

theorem takeRefs_balanced (a : Address) (hashes : List Sha256)
    (h : Balance rows records db.chunkRefs db.chunkPartitions pending) :
    Balance rows records (db.takeRefs a hashes).chunkRefs (db.takeRefs a hashes).chunkPartitions
      (refsTo a hashes ++ pending) := by
  unfold CommitsDb.takeRefs
  induction hashes generalizing db pending with
  | nil => exact h
  | cons sha256 hashes ih =>
    apply (ih (takeRef_balanced a sha256 h)).move
    intro at_ sha
    have hswap : pendingNaming at_ sha (refsTo a hashes ++ (a, sha256) :: pending) =
        pendingNaming at_ sha ((a, sha256) :: (refsTo a hashes ++ pending)) :=
      (List.perm_middle).countP_eq _
    unfold namings
    rw [hswap]
    rfl

/-- Two batches differ in the counts of chunks only. -/
def OnlyRefs (before after : BaseBatch) : Prop :=
  ∃ refs partitions chunks released, after =
    { before with
      db := { before.db with
        chunkRefs := refs
        chunkPartitions := partitions
        releasedChunks := chunks }
      released := released }

theorem OnlyRefs.refl (b : BaseBatch) : OnlyRefs b b :=
  ⟨b.db.chunkRefs, b.db.chunkPartitions, b.db.releasedChunks, b.released, rfl⟩

variable {a b c : BaseBatch}

theorem OnlyRefs.trans (hab : OnlyRefs a b) (hbc : OnlyRefs b c) : OnlyRefs a c := by
  obtain ⟨_, _, _, _, rfl⟩ := hab
  obtain ⟨refs, partitions, chunks, released, rfl⟩ := hbc
  exact ⟨refs, partitions, chunks, released, rfl⟩

/-- A batch's counts balance some rows. -/
def BaseBatch.Balances (b : BaseBatch) (rows : List CommitRow)
    (records : Finmap (fun _ : Address × RecordKey => BaseRecord))
    (pending : List (Address × Sha256)) : Prop :=
  Balance rows records b.db.chunkRefs b.db.chunkPartitions pending

/-- **Dropping a pending reference meets its row.** -/
theorem release_balanced {a : Address} (h : b.Balances rows records ((a, sha256) :: pending)) :
    ∃ next, b.release a sha256 = .ok next ∧ OnlyRefs b next ∧
      next.Balances rows records pending := by
  obtain ⟨hrefs, hpartitions⟩ := balance_cons.mp h
  obtain ⟨refs, hdrop, hrefs⟩ := hrefs.drop
  obtain ⟨partitions, hdropPartition, hpartitions⟩ := hpartitions.drop
  have hown : BaseBatch.dropPartitionRef b.db.chunkPartitions (a.1, sha256, a.2) = partitions := by
    unfold BaseBatch.dropPartitionRef
    rw [hdropPartition]
  unfold BaseBatch.release
  simp only [hown, hdrop]
  split
  · exact ⟨_, rfl, ⟨refs, partitions, b.db.releasedChunks, b.released, rfl⟩, hrefs, hpartitions⟩
  · exact ⟨_, rfl, ⟨refs, partitions, _, b.released + 1, rfl⟩, hrefs, hpartitions⟩

/-- Dropping all of a list of pending references. -/
theorem releaseAll_balanced {a : Address} {hashes : List Sha256}
    (h : b.Balances rows records (refsTo a hashes ++ pending)) :
    ∃ next, b.releaseAll a hashes = .ok next ∧ OnlyRefs b next ∧
      next.Balances rows records pending := by
  induction hashes generalizing b with
  | nil => exact ⟨b, rfl, OnlyRefs.refl b, h⟩
  | cons sha256 hashes ih =>
    obtain ⟨mid, hmid, honly, hbalance⟩ := release_balanced h
    obtain ⟨next, hnext, honly', hlast⟩ := ih hbalance
    refine ⟨next, ?_, honly.trans honly', hlast⟩
    unfold BaseBatch.releaseAll at hnext ⊢
    rw [List.foldlM_cons, hmid]
    exact hnext

/-- Not the error of a missing count. -/
def NotMissing (e : StoreError) : Prop := ∀ sha256 ns, e ≠ .noReference sha256 ns

/-- A batch that only the base and the counts of chunks set apart. -/
def OnlyBase (before after : BaseBatch) : Prop :=
  ∃ base refs partitions chunks released versions catalog, after =
    { before with
      db := { before.db with
        base := base
        chunkRefs := refs
        chunkPartitions := partitions
        releasedChunks := chunks }
      released := released
      versions := versions
      catalog := catalog }

theorem OnlyBase.refl (b : BaseBatch) : OnlyBase b b :=
  ⟨b.db.base, b.db.chunkRefs, b.db.chunkPartitions, b.db.releasedChunks, b.released, b.versions,
    b.catalog, rfl⟩

theorem OnlyBase.trans (hab : OnlyBase a b) (hbc : OnlyBase b c) : OnlyBase a c := by
  obtain ⟨_, _, _, _, _, _, _, rfl⟩ := hab
  obtain ⟨base, refs, partitions, chunks, released, versions, catalog, rfl⟩ := hbc
  exact ⟨base, refs, partitions, chunks, released, versions, catalog, rfl⟩

theorem OnlyRefs.onlyBase (h : OnlyRefs a b) : OnlyBase a b := by
  obtain ⟨refs, partitions, chunks, released, rfl⟩ := h
  exact ⟨a.db.base, refs, partitions, chunks, released, a.versions, a.catalog, rfl⟩

/-- The batch stays balanced and keeps the commits. -/
def StaysBalanced (before after : BaseBatch) : Prop := OnlyBase before after ∧ after.db.Balanced []

theorem StaysBalanced.trans (hab : StaysBalanced a b) (hbc : StaysBalanced b c) :
    StaysBalanced a c := ⟨hab.1.trans hbc.1, hbc.2⟩

theorem StaysBalanced.of_base (h : b.db.Balanced []) (base : BaseTables)
    (versions : OrderedMap (Address × JsString) (List LiveDataVersion))
    (catalog : OrderedMap (Address × JsString) CatalogNameState)
    (hrecords : base.records = b.db.base.records) :
    StaysBalanced b { b with db := b.db.withBase base, versions := versions, catalog := catalog } := by
  refine ⟨⟨base, b.db.chunkRefs, b.db.chunkPartitions, b.db.releasedChunks, b.released, versions,
    catalog, rfl⟩, ?_⟩
  unfold CommitsDb.Balanced CommitsDb.withBase
  simp only [hrecords]
  exact h

/-- A record's references are those its row counts. -/
theorem rowCount_recordChunks (b : BaseBatch) (at_ : Address → Bool) (sha256 : Sha256)
    (a : Address) (key : RecordKey) :
    rowCount (fun (k : Address × RecordKey) (record : BaseRecord) =>
        at_ k.1 && decide (sha256 ∈ record.content.distinctChunks)) (a, key)
        (b.db.base.records.lookup (a, key)) =
      pendingNaming at_ sha256 (refsTo a (b.recordChunks a key)) := by
  unfold BaseBatch.recordChunks
  cases b.db.base.records.lookup (a, key) with
  | none => rfl
  | some record =>
    simp only
    rw [pendingNaming_refsTo at_ sha256 a (distinctChunks_nodup record.content)]
    rfl

/-- **A put of a base record** keeps the balance. -/
theorem putRecord_balanced (h : b.db.Balanced []) (a : Address) (key : RecordKey)
    (record : BaseRecord) : ∃ next, b.putRecord a key record = .ok next ∧ StaysBalanced b next := by
  have htaken := takeRefs_balanced a record.content.distinctChunks h
  obtain ⟨refs, partitions, heq⟩ := takeRefs_frame b.db a record.content.distinctChunks
  unfold BaseBatch.putRecord
  simp only
  rw [heq] at htaken ⊢
  have hbalance : Balance b.db.commits (b.db.base.records.insert (a, key) record) refs partitions
      (refsTo a (b.recordChunks a key) ++ []) := by
    apply htaken.move
    intro at_ sha256
    have hinsert := rowsWhere_insert
      (fun (k : Address × RecordKey) (record : BaseRecord) =>
        at_ k.1 && decide (sha256 ∈ record.content.distinctChunks)) b.db.base.records (a, key) record
    rw [rowCount_recordChunks] at hinsert
    have hnew : rowCount (fun (k : Address × RecordKey) (record : BaseRecord) =>
        at_ k.1 && decide (sha256 ∈ record.content.distinctChunks)) (a, key) (some record) =
          pendingNaming at_ sha256 (refsTo a record.content.distinctChunks) := by
      rw [pendingNaming_refsTo at_ sha256 a (distinctChunks_nodup record.content)]
      rfl
    rw [hnew] at hinsert
    unfold namings recordsNaming
    simp only [List.append_nil]
    omega
  obtain ⟨next, hnext, honly, hlast⟩ := releaseAll_balanced (b := { b with
    db := CommitsDb.withBase { b.db with chunkRefs := refs, chunkPartitions := partitions }
      { b.db.base with records := b.db.base.records.insert (a, key) record } }) hbalance
  refine ⟨next, hnext, ?_⟩
  obtain ⟨refs', partitions', chunks, released, rfl⟩ := honly
  exact ⟨⟨_, refs', partitions', chunks, released, b.versions, b.catalog, rfl⟩, hlast⟩

/-- **A removal of a base record** keeps the balance. -/
theorem deleteRecord_balanced (h : b.db.Balanced []) (a : Address) (key : RecordKey) :
    ∃ next, b.deleteRecord a key = .ok next ∧ StaysBalanced b next := by
  have hbalance : Balance b.db.commits (b.db.base.records.erase (a, key)) b.db.chunkRefs
      b.db.chunkPartitions (refsTo a (b.recordChunks a key) ++ []) := by
    apply Balance.move h
    intro at_ sha256
    have herase := rowsWhere_erase
      (fun (k : Address × RecordKey) (record : BaseRecord) =>
        at_ k.1 && decide (sha256 ∈ record.content.distinctChunks)) b.db.base.records (a, key)
    rw [rowCount_recordChunks] at herase
    unfold namings recordsNaming
    rw [List.append_nil]
    simp only [pendingNaming, List.countP_nil]
    unfold pendingNaming at herase
    omega
  obtain ⟨next, hnext, honly, hlast⟩ := releaseAll_balanced (b := { b with
    db := b.db.withBase { b.db.base with records := b.db.base.records.erase (a, key) } }) hbalance
  refine ⟨next, hnext, ?_⟩
  obtain ⟨refs', partitions', chunks, released, rfl⟩ := honly
  exact ⟨⟨_, refs', partitions', chunks, released, b.versions, b.catalog, rfl⟩, hlast⟩

/-- One change of a commit keeps the balance. -/
theorem foldChange_balanced (h : b.db.Balanced []) (subdirs : List JsString) (a : Address)
    (position : ℕ) (change : KeyChange) :
    ∃ next, b.foldChange subdirs a position change = .ok next ∧ StaysBalanced b next := by
  have hfile : ∀ mid : BaseBatch, StaysBalanced b mid →
      StaysBalanced b (mid.foldFile subdirs a position change) := by
    intro mid hmid
    exact hmid.trans (StaysBalanced.of_base hmid.2 _ mid.versions mid.catalog rfl)
  unfold BaseBatch.foldChange
  cases change.put with
  | none =>
    obtain ⟨mid, hmid, hstays⟩ := deleteRecord_balanced h a change.key
    exact ⟨_, by simp only [hmid]; rfl, hfile mid hstays⟩
  | some put =>
    obtain ⟨mid, hmid, hstays⟩ := putRecord_balanced h a change.key
      ⟨put.sha256, put.content, put.access⟩
    exact ⟨_, by simp only [hmid]; rfl, hfile mid hstays⟩

theorem setLiveVersions_balanced (h : b.db.Balanced []) (name : Address × JsString)
    (versions : List LiveDataVersion) :
    Ends NotMissing (StaysBalanced b) (b.setLiveVersions name versions) := by
  unfold BaseBatch.setLiveVersions
  split
  · exact StaysBalanced.of_base h _ _ b.catalog rfl
  · exact fun _ _ heq => by cases heq

theorem setCatalogName_balanced (h : b.db.Balanced []) (name : Address × JsString)
    (state : CatalogNameState) :
    Ends NotMissing (StaysBalanced b) (b.setCatalogName name state) := by
  unfold BaseBatch.setCatalogName
  split
  · exact fun _ _ heq => by cases heq
  · simp only
    split
    · exact StaysBalanced.of_base h _ _ _ rfl
    · exact fun _ _ heq => by cases heq

theorem catalogName_notMissing (b : BaseBatch) (name : Address × JsString) :
    Ends NotMissing (fun _ => True) (b.catalogName name) := by
  unfold BaseBatch.catalogName
  split
  · exact trivial
  · unfold BaseBatch.readCatalog
    refine Ends.bind (Ends.mapM ?_) (fun _ _ => trivial)
    intro version _
    split
    · exact trivial
    · exact fun _ _ heq => by cases heq

/-- **Folding a commit keeps the balance**, whatever else it may meet. -/
theorem foldCommit_balanced (h : b.db.Balanced []) (subdirs : List JsString) (row : CommitRow) :
    Ends NotMissing (StaysBalanced b) (b.foldCommit subdirs row) := by
  have hself : StaysBalanced b b := ⟨OnlyBase.refl b, h⟩
  unfold BaseBatch.foldCommit
  refine (Ends.foldlM (I := fun _ => StaysBalanced b) hself ?_).bind (fun batch hbatch => ?_)
  · intro change rest batch hbatch
    obtain ⟨next, hnext, hstays⟩ := foldChange_balanced hbatch.2 subdirs row.commit.address
      row.cursor change
    rw [hnext]
    exact hbatch.trans hstays
  · refine Ends.bind (P := fun _ => True) ?_ (fun before _ => ?_)
    · exact Ends.map (Ends.mapM (fun name _ =>
        (catalogName_notMissing batch _).map (fun _ _ => trivial))) (fun _ _ => trivial)
    · refine (Ends.foldlM (I := fun _ => StaysBalanced b) hbatch ?_).bind (fun live hlive => ?_)
      · intro entry rest mid hmid
        exact (setLiveVersions_balanced hmid.2 _ _).mono (fun _ => hmid.trans)
      · refine (Ends.foldlM (I := fun _ => StaysBalanced b) hlive ?_).bind (fun last hlast => ?_)
        · intro entry rest mid hmid
          exact (setCatalogName_balanced hmid.2 _ _).mono (fun _ => hmid.trans)
        · exact hlast.trans (StaysBalanced.of_base hlast.2 _ last.versions last.catalog rfl)

/-- The references a row counted. -/
def CommitRow.refs (row : CommitRow) : List (Address × Sha256) :=
  refsTo row.address row.commit.chunkRefs

theorem commitsNaming_cons (at_ : Address → Bool) (sha256 : Sha256) (row : CommitRow)
    (rows : List CommitRow) :
    commitsNaming at_ sha256 (row :: rows) =
      commitsNaming at_ sha256 rows + pendingNaming at_ sha256 row.refs := by
  unfold CommitRow.refs
  rw [pendingNaming_refsTo at_ sha256 row.address (chunkRefs_nodup row.commit)]
  exact List.countP_cons

theorem commitsNaming_append (at_ : Address → Bool) (sha256 : Sha256) (a b : List CommitRow) :
    commitsNaming at_ sha256 (a ++ b) = commitsNaming at_ sha256 a + commitsNaming at_ sha256 b :=
  List.countP_append

theorem commitsNaming_delete (at_ : Address → Bool) (sha256 : Sha256) {rows : List CommitRow}
    (hcursors : (rows.map CommitRow.cursor).Nodup) {row : CommitRow} (hrow : row ∈ rows) :
    commitsNaming at_ sha256 rows =
      commitsNaming at_ sha256 (rows.filter (fun stored => stored.cursor ≠ row.cursor)) +
        pendingNaming at_ sha256 row.refs := by
  induction rows with
  | nil => cases hrow
  | cons first rows ih =>
    rw [List.map_cons, List.nodup_cons] at hcursors
    rcases List.mem_cons.mp hrow with rfl | hmem
    · have hrest : rows.filter (fun stored => stored.cursor ≠ row.cursor) = rows := by
        apply List.filter_eq_self.mpr
        intro stored hstored
        have hne : stored.cursor ≠ row.cursor := by
          intro heq
          exact hcursors.1 (heq ▸ List.mem_map.mpr ⟨stored, hstored, rfl⟩)
        simpa using hne
      rw [commitsNaming_cons, List.filter_cons_of_neg (by simp), hrest]
    · have hne : first.cursor ≠ row.cursor := by
        intro heq
        exact hcursors.1 (heq ▸ List.mem_map.mpr ⟨row, hmem, rfl⟩)
      rw [List.filter_cons_of_pos (by simpa using hne), commitsNaming_cons, commitsNaming_cons,
        ih hcursors.2 hmem]
      omega

/-- What a batch that deletes commits keeps: the balance, and rows with distinct
cursors among which the rows still to delete stand. -/
structure Deleting (b : BaseBatch) (rows : List CommitRow) : Prop where
  balanced : b.db.Balanced []
  distinct : (b.db.commits.map CommitRow.cursor).Nodup
  toDelete : (rows.map CommitRow.cursor).Nodup
  stored : ∀ row ∈ rows, row ∈ b.db.commits

/-- **Deleting a folded commit keeps the balance.** -/
theorem compactCommit_balanced {row : CommitRow} {rest : List CommitRow}
    (h : Deleting b (row :: rest)) (committedAt : JsString → Option ℤ) :
    Ends NotMissing
      (fun next => Deleting next rest ∧ next.db.sequence = b.db.sequence ∧
        next.db.commits = b.db.commits.filter (fun stored => stored.cursor ≠ row.cursor))
      (b.compactCommit committedAt row) := by
  have hmove : Balance (b.db.commits.filter (fun stored => stored.cursor ≠ row.cursor))
      b.db.base.records b.db.chunkRefs b.db.chunkPartitions (row.refs ++ []) := by
    apply h.balanced.move
    intro at_ sha256
    unfold namings
    rw [commitsNaming_delete at_ sha256 h.distinct (h.stored row List.mem_cons_self),
      List.append_nil]
    simp only [pendingNaming, List.countP_nil]
    omega
  have hdelete := h.toDelete
  rw [List.map_cons, List.nodup_cons] at hdelete
  unfold BaseBatch.compactCommit
  simp only
  split
  · exact fun _ _ heq => by cases heq
  · obtain ⟨next, hnext, ⟨refs, partitions, chunks, released, rfl⟩, hlast⟩ :=
      releaseAll_balanced (b := { b with
        db := { b.db with
          compactedTxns := b.db.compactedTxns ++
            [⟨row.commit.address, row.commit.txnId, row.commit.seq⟩]
          compactedTxnTimes := b.db.compactedTxnTimes.filter
              (fun txn => ¬ (txn.address = row.commit.address ∧ txn.txnId = row.commit.txnId)) ++
            [⟨row.commit.address, row.commit.txnId,
              (committedAt row.commit.atTime).getD b.now⟩] } }) hmove
    simp only [CommitRow.address] at hnext
    rw [hnext]
    refine ⟨⟨hlast, ?_, hdelete.2, ?_⟩, rfl, rfl⟩
    · exact h.distinct.sublist (List.filter_sublist.map _)
    · intro other hother
      have hne : other.cursor ≠ row.cursor := by
        intro heq
        exact hdelete.1 (heq ▸ List.mem_map.mpr ⟨other, hother, rfl⟩)
      exact List.mem_filter.mpr
        ⟨h.stored other (List.mem_cons_of_mem _ hother), by simpa using hne⟩

/-- What the tables keep to between transactions. -/
structure CommitsDb.Counts (db : CommitsDb) : Prop where
  balanced : db.Balanced []
  cursors : (db.commits.map CommitRow.cursor).Pairwise (· < ·)
  assigned : ∀ row ∈ db.commits, row.cursor ≤ db.sequence

theorem CommitsDb.Counts.distinct (h : db.Counts) : (db.commits.map CommitRow.cursor).Nodup :=
  h.cursors.imp (fun hlt => Nat.ne_of_lt hlt)

theorem counts_empty : CommitsDb.empty.Counts where
  balanced := ⟨Exact.empty, Exact.empty⟩
  cursors := List.Pairwise.nil
  assigned := by simp [CommitsDb.empty]

variable {next : CommitsDb}

/-- Fewer rows keep their order. -/
theorem CommitsDb.Counts.of_sublist (h : db.Counts) (hbalanced : next.Balanced [])
    (hrows : next.commits.Sublist db.commits) (hsequence : next.sequence = db.sequence) :
    next.Counts where
  balanced := hbalanced
  cursors := h.cursors.sublist (hrows.map _)
  assigned := by
    intro row hrow
    rw [hsequence]
    exact h.assigned row (hrows.subset hrow)

variable {options : StoreOptions}

/-- A row after the last one keeps the order. -/
theorem cursors_append {commits : List CommitRow} {row : CommitRow}
    (h : (commits.map CommitRow.cursor).Pairwise (· < ·))
    (hlast : ∀ other ∈ commits, other.cursor < row.cursor) :
    ((commits ++ [row]).map CommitRow.cursor).Pairwise (· < ·) := by
  rw [List.map_append, List.pairwise_append]
  refine ⟨h, by simp, ?_⟩
  intro cursor hcursor other hother
  obtain ⟨before, hbefore, rfl⟩ := List.mem_map.mp hcursor
  rw [List.map_singleton, List.mem_singleton] at hother
  subst hother
  exact hlast before hbefore

/-- **The rows of an append.** -/
theorem Wrote.counts (hwrote : Wrote options db next) (h : db.Counts) : next.Counts := by
  obtain ⟨commit, taken, snapshot, hwrite⟩ := hwrote
  rw [writeCommit_eq] at hwrite
  split at hwrite
  · cases hwrite
  · split at hwrite
    · cases hwrite
    · cases hwrite
      refine ⟨?_, ?_, ?_⟩
      · apply Balance.move (takeRefs_balanced commit.address commit.chunkRefs h.balanced)
        intro at_ sha256
        change namings db.commits db.base.records _ at_ sha256 =
          namings (db.commits ++ [(⟨db.sequence + 1, commit⟩ : CommitRow)]) db.base.records [] at_
            sha256
        unfold namings
        rw [List.append_nil, commitsNaming_append, commitsNaming_cons]
        simp only [commitsNaming, pendingNaming, CommitRow.refs, CommitRow.address,
          List.countP_nil]
        omega
      · change ((db.commits ++ [(⟨db.sequence + 1, commit⟩ : CommitRow)]).map
          CommitRow.cursor).Pairwise (· < ·)
        exact cursors_append h.cursors (fun row hrow => Nat.lt_succ_of_le (h.assigned row hrow))
      · intro row hrow
        change row.cursor ≤ db.sequence + 1
        rcases List.mem_append.mp hrow with hold | hnew
        · exact Nat.le_succ_of_le (h.assigned row hold)
        · rw [List.mem_singleton] at hnew
          subst hnew
          exact le_refl _

theorem WroteAll.counts (hwrote : WroteAll options db next) (h : db.Counts) : next.Counts := by
  induction hwrote with
  | refl => exact h
  | tail _ hlast ih => exact hlast.counts ih

/-- **A batch of a compaction.** -/
theorem compactBatch_counts (h : db.Counts) (options : CompactHistoryOptions) (n : ℕ)
    {rows : List CommitRow} (hrows : rows.Sublist db.commits) (last : CommitRow)
    (snapshots : List (Address × SnapshotRow)) :
    Ends NotMissing (fun out => out.2.Counts) (db.compactBatch options n rows last snapshots) := by
  have hsnapshots : ∀ (snapshots : List (Address × SnapshotRow)) (mid : CommitsDb), mid.Counts →
      (snapshots.foldl (fun db row => db.upsertSnapshot row.1 row.2) mid).Counts := by
    intro snapshots
    induction snapshots with
    | nil => exact fun mid hmid => hmid
    | cons row snapshots ih => exact fun mid hmid => ih _ ⟨hmid.balanced, hmid.cursors, hmid.assigned⟩
  unfold CommitsDb.compactBatch
  refine Ends.bind (P := fun _ => True) ?_ (fun _ _ => ?_)
  · unfold CommitsDb.checkWriterFence
    split
    · exact trivial
    · split
      · exact fun _ _ heq => by cases heq
      · split
        · exact fun _ _ heq => by cases heq
        · exact trivial
  · refine (Ends.foldlM (I := fun _ => StaysBalanced (BaseBatch.begin db (options.clock n)))
      ⟨OnlyBase.refl _, h.balanced⟩ ?_).bind (fun folded hfolded => ?_)
    · intro row rest mid hmid
      exact (foldCommit_balanced hmid.2 _ row).mono (fun _ => hmid.trans)
    · obtain ⟨⟨base, refs, partitions, chunks, released, versions, catalog, rfl⟩, hbalanced⟩ :=
        hfolded
      have hstart : Deleting { BaseBatch.begin db (options.clock n) with
          db := { db with
            base := base, chunkRefs := refs, chunkPartitions := partitions,
            releasedChunks := chunks }
          released := released, versions := versions, catalog := catalog } rows :=
        ⟨hbalanced, h.distinct, h.distinct.sublist (hrows.map _), fun row hrow =>
          hrows.subset hrow⟩
      refine (Ends.foldlM (I := fun rest (b : BaseBatch) => Deleting b rest ∧
        b.db.sequence = db.sequence ∧ b.db.commits.Sublist db.commits)
        ⟨hstart, rfl, List.Sublist.refl _⟩ ?_).bind (fun deleted hdeleted => ?_)
      · intro row rest b hb
        apply (compactCommit_balanced hb.1 options.committedAt).mono
        intro next hnext
        refine ⟨hnext.1, hnext.2.1.trans hb.2.1, ?_⟩
        rw [hnext.2.2]
        exact List.filter_sublist.trans hb.2.2
      · have hcounts : deleted.db.Counts :=
          h.of_sublist hdeleted.1.balanced hdeleted.2.2 hdeleted.2.1
        have hwritten := hsnapshots snapshots deleted.db hcounts
        simp only
        split
        · exact fun _ _ heq => by cases heq
        · cases options.pruneTxnsBefore with
          | none | some before => exact ⟨hwritten.balanced, hwritten.cursors, hwritten.assigned⟩

theorem rebuild_notMissing (db : CommitsDb) (ns : JsString) (key : PartitionKey) (upTo : ℕ) :
    Ends NotMissing (fun _ => True) (db.rebuild ns key upTo) := by
  have hreplay : ∀ (commits : List Commit) (p : Partition),
      Ends NotMissing (fun _ => True) (replayCommits (ns, key.value) upTo p commits) := by
    intro commits
    induction commits with
    | nil => exact fun _ => trivial
    | cons commit commits ih =>
      intro p
      unfold replayCommits
      split
      · exact trivial
      · split
        · exact fun _ _ heq => by cases heq
        · exact fun _ _ heq => by cases heq
        · exact ih _
  unfold CommitsDb.rebuild
  refine Ends.bind (P := fun _ => True) ?_ (fun start _ => ?_)
  · unfold CommitsDb.rebuildStart
    split
    · exact trivial
    · split
      · exact fun _ _ heq => by cases heq
      · split
        · exact fun _ _ heq => by cases heq
        · exact trivial
  · refine (hreplay _ _).bind (fun replayed _ => ?_)
    simp only
    split
    · exact fun _ _ heq => by cases heq
    · exact trivial

theorem neededSnapshot_notMissing (db : CommitsDb) (commit : Commit) :
    Ends NotMissing (fun _ => True) (db.neededSnapshot commit) := by
  unfold CommitsDb.neededSnapshot
  simp only
  split
  · exact trivial
  · split
    · rename_i heq
      exact (rebuild_notMissing db commit.ns commit.partition commit.seq).of_error heq
    · split
      · exact fun _ _ heq => by cases heq
      · exact trivial

variable {store : CommitStore}

/-- **A whole compaction**, interrupted or not. -/
theorem compactLoop_counts (options : CompactHistoryOptions) (target fuel : ℕ)
    (report : CompactionReport) (h : store.db.Counts) :
    Ends NotMissing (fun _ => True) (store.compactLoop options target fuel report).1 ∧
      (store.compactLoop options target fuel report).2.db.Counts := by
  induction fuel generalizing report store with
  | zero => exact ⟨trivial, h⟩
  | succ fuel ih =>
    unfold CommitStore.compactLoop
    simp only
    split
    · exact ⟨by simp [Ends, NotMissing], h⟩
    · split
      · exact ⟨trivial, h⟩
      · split
        · rename_i heq
          refine ⟨?_, h⟩
          exact (Ends.mapM (fun commit _ => neededSnapshot_notMissing store.db commit)).of_error
            heq
        · have hrows : (store.db.nextBatch target options.batchSize).Sublist store.db.commits :=
            (List.take_sublist _ _).trans List.filter_sublist
          rename_i last _ _ snapshots _
          have hbatch := compactBatch_counts h options report.batches hrows last
            snapshots.reduceOption
          split
          · rename_i heq
            exact ⟨hbatch.of_error heq, h⟩
          · rename_i heq
            exact ih _ (hbatch.of_ok heq)

theorem truncatePartition_notMissing (db : CommitsDb) (options : StoreOptions)
    (commits : List Commit) (first : Commit) :
    Ends NotMissing (fun _ => True) (db.truncatePartition options commits first) := by
  unfold CommitsDb.truncatePartition
  apply (rebuild_notMissing db first.ns first.partition (first.seq - 1)).bind
  intro rebuilt _
  split
  · exact fun _ _ heq => by cases heq
  · refine Ends.bind (P := fun _ => True) ?_ (fun later _ => ?_)
    · unfold retainLater
      split
      · exact trivial
      · split
        · split
          · exact fun _ _ heq => by cases heq
          · exact trivial
        · exact trivial
    · refine Ends.bind (P := fun _ => True) ?_ (fun _ _ => trivial)
      unfold CommitsDb.truncatedSnapshot
      simp only
      split
      · exact trivial
      · split
        · split
          · exact trivial
          · exact (rebuild_notMissing db _ _ _).map (fun _ _ => trivial)
        · exact trivial

theorem writeTruncated_frame (db : CommitsDb) (heads : List TruncatedHead) :
    ∃ headRows snapshots, heads.foldl CommitsDb.writeTruncated db =
      { db with heads := headRows, snapshots := snapshots } := by
  induction heads using List.reverseRecOn with
  | nil => exact ⟨_, _, rfl⟩
  | append_singleton heads head ih =>
    obtain ⟨headRows, snapshots, heq⟩ := ih
    rw [List.foldl_append, heq]
    exact ⟨_, _, rfl⟩

theorem pendingNaming_refs (at_ : Address → Bool) (sha256 : Sha256) (rows : List CommitRow) :
    pendingNaming at_ sha256 (rows.flatMap CommitRow.refs) = commitsNaming at_ sha256 rows := by
  induction rows with
  | nil => rfl
  | cons row rows ih =>
    rw [List.flatMap_cons, pendingNaming_append, commitsNaming_cons, ih]
    omega

/-- **A truncation's transaction.** -/
theorem truncateRows_counts (h : db.Counts) (mark : StoreHighWaterMark) (now : ℤ)
    (heads : List TruncatedHead) :
    ∃ next, db.truncateRows mark now (db.rowsPast mark.cursor) heads = .ok next ∧ next.Counts := by
  have hkept : Balance (db.commits.filter (fun row => ¬ mark.cursor < row.cursor)) db.base.records
      db.chunkRefs db.chunkPartitions ((db.rowsPast mark.cursor).flatMap CommitRow.refs) := by
    apply h.balanced.move
    intro at_ sha256
    unfold namings
    rw [pendingNaming_refs]
    have hsplit : commitsNaming at_ sha256 db.commits =
        commitsNaming at_ sha256 (db.rowsPast mark.cursor) +
          commitsNaming at_ sha256 (db.commits.filter (fun row => ¬ mark.cursor < row.cursor)) := by
      unfold commitsNaming CommitsDb.rowsPast
      have hperm := List.filter_append_perm (fun row : CommitRow => decide (mark.cursor < row.cursor))
        db.commits
      rw [← hperm.countP_eq, List.countP_append]
      simp only [← decide_not]
    rw [hsplit]
    simp only [pendingNaming, List.countP_nil]
    omega
  have hfold : ∀ (rows : List CommitRow) (b : BaseBatch)
      (_ : b.Balances (db.commits.filter (fun row => ¬ mark.cursor < row.cursor)) db.base.records
        (rows.flatMap CommitRow.refs)),
      ∃ next, rows.foldlM (fun batch row => batch.releaseAll row.address row.commit.chunkRefs) b =
          .ok next ∧ OnlyRefs b next ∧
        next.Balances (db.commits.filter (fun row => ¬ mark.cursor < row.cursor)) db.base.records
          [] := by
    intro rows
    induction rows with
    | nil => exact fun b hb => ⟨b, rfl, OnlyRefs.refl b, hb⟩
    | cons row rows ih =>
      intro b hb
      have hfirst : b.Balances (db.commits.filter (fun row => ¬ mark.cursor < row.cursor))
          db.base.records
          (refsTo row.address row.commit.chunkRefs ++ rows.flatMap CommitRow.refs) := hb
      obtain ⟨mid, hmid, honly, hbalance⟩ := releaseAll_balanced hfirst
      obtain ⟨next, hnext, honly', hlast⟩ := ih mid hbalance
      refine ⟨next, ?_, honly.trans honly', hlast⟩
      rw [List.foldlM_cons, hmid]
      exact hnext
  obtain ⟨batch, hbatch, ⟨refs, partitions, chunks, released, rfl⟩, hlast⟩ :=
    hfold (db.rowsPast mark.cursor) (BaseBatch.begin db now) hkept
  unfold CommitsDb.truncateRows
  rw [hbatch]
  refine ⟨_, rfl, ?_⟩
  obtain ⟨headRows, snapshots, heq⟩ := writeTruncated_frame
    { (BaseBatch.begin db now).db with
      chunkRefs := refs
      chunkPartitions := partitions
      releasedChunks := chunks
      commits := db.commits.filter (fun row => ¬ mark.cursor < row.cursor) } heads
  simp only [BaseBatch.begin] at heq ⊢
  rw [heq]
  exact h.of_sublist hlast List.filter_sublist rfl

theorem truncateAfter_counts (h : store.db.Counts) (options : StoreOptions)
    (mark : StoreHighWaterMark) (now : ℤ) (commitFails : Bool) :
    Ends NotMissing (fun _ => True) (store.truncateAfter options mark now commitFails).1 ∧
      (store.truncateAfter options mark now commitFails).2.db.Counts := by
  unfold CommitStore.truncateAfter
  split
  · exact ⟨by simp [Ends, NotMissing], h⟩
  · exact ⟨by simp [Ends, NotMissing], h⟩
  · simp only
    split
    · rename_i heq
      exact ⟨(Ends.mapM (fun first _ =>
        truncatePartition_notMissing store.db options _ first)).of_error heq, h⟩
    · rename_i heads _
      obtain ⟨next, hnext, hcounts⟩ := truncateRows_counts h mark now heads
      rw [hnext]
      simp only
      split
      · exact ⟨by simp [Ends, NotMissing], by rw [CommitStore.forgetAll_db]; exact h⟩
      · exact ⟨trivial, hcounts⟩

/-- **Every call keeps the counts.** -/
theorem call_counts (h : store.db.Counts) (call : StoreCall) :
    (store.call options call).db.Counts := by
  cases call with
  | appends clock entries => exact (CommitStore.drain_wrote clock _ entries).counts h
  | compactHistory compaction through => exact (compactLoop_counts compaction _ _ _ h).2
  | truncateAfter mark now commitFails => exact (truncateAfter_counts h options mark now commitFails).2
  | readPartition ns key =>
    change (store.partition options ns key).2.db.Counts
    rw [CommitStore.partition_db]
    exact h
  | reopen => exact h
  | raiseWriterFence fence =>
    change (store.raiseWriterFence fence).2.db.Counts
    unfold CommitStore.raiseWriterFence
    split
    · exact h
    · split
      · split
        · exact ⟨h.balanced, h.cursors, h.assigned⟩
        · exact h
      · exact ⟨h.balanced, h.cursors, h.assigned⟩

theorem run_counts (options : StoreOptions) (calls : List StoreCall) :
    (CommitStore.run options calls).db.Counts := by
  unfold CommitStore.run
  induction calls using List.reverseRecOn with
  | nil => exact counts_empty
  | append_singleton calls call ih =>
    rw [List.foldl_append]
    exact call_counts ih call

/-- A stored commit or a base record of some partitions names a chunk. -/
def CommitsDb.Named (db : CommitsDb) (at_ : Address → Bool) (sha256 : Sha256) : Prop :=
  (∃ row ∈ db.commits, at_ row.address = true ∧ sha256 ∈ row.commit.chunkRefs) ∨
    ∃ a key record, db.base.records.lookup (a, key) = some record ∧ at_ a = true ∧
      sha256 ∈ record.content.distinctChunks

/-- How many stored commits and base records of some partitions name a chunk. -/
def CommitsDb.timesNamed (db : CommitsDb) (at_ : Address → Bool) (sha256 : Sha256) : ℕ :=
  commitsNaming at_ sha256 db.commits + recordsNaming at_ sha256 db.base.records

theorem timesNamed_pos (db : CommitsDb) (at_ : Address → Bool) (sha256 : Sha256) :
    0 < db.timesNamed at_ sha256 ↔ db.Named at_ sha256 := by
  have hcommits : 0 < commitsNaming at_ sha256 db.commits ↔
      ∃ row ∈ db.commits, at_ row.address = true ∧ sha256 ∈ row.commit.chunkRefs := by
    unfold commitsNaming
    rw [List.countP_pos_iff]
    simp
  have hrecords : 0 < recordsNaming at_ sha256 db.base.records ↔
      ∃ a key record, db.base.records.lookup (a, key) = some record ∧ at_ a = true ∧
        sha256 ∈ record.content.distinctChunks := by
    unfold recordsNaming
    rw [rowsWhere_pos]
    simp
  unfold CommitsDb.timesNamed CommitsDb.Named
  rw [← hcommits, ← hrecords]
  omega

/-- A table of exact counts, seen at one chunk. -/
theorem lookup_of_named {K : Type} [DecidableEq K] {table : Counter K} {k : K}
    {at_ : Address → Bool}
    (h : table.lookup k = if namings db.commits db.base.records [] at_ sha256 = 0 then none
      else some (namings db.commits db.base.records [] at_ sha256)) :
    (db.Named at_ sha256 → table.lookup k = some (db.timesNamed at_ sha256)) ∧
      (¬ db.Named at_ sha256 → table.lookup k = none) := by
  have hsame : namings db.commits db.base.records [] at_ sha256 = db.timesNamed at_ sha256 := rfl
  rw [hsame] at h
  rw [← timesNamed_pos]
  constructor
  · intro hpos
    rw [h, if_neg (Nat.ne_of_gt hpos)]
  · intro hzero
    rw [h, if_pos (Nat.eq_zero_of_not_pos hzero)]

/-- **Chunk reference counts are exact**, after any run.  `chunk_refs` has a row
exactly for the chunks that the stored commits and the base records of a namespace
name, with their number, and `chunk_partitions` the same for each partition; no
compaction and no truncation meets a missing row; and no chunk still named is left
out of the referenced ones. -/
theorem chunk_references_exact (options : StoreOptions) (calls : List StoreCall) :
    let store := CommitStore.run options calls
    let db := store.db
    (∀ ns sha256,
        (db.Named (inNamespace ns) sha256 →
            db.chunkRefs.lookup (ns, sha256) = some (db.timesNamed (inNamespace ns) sha256)) ∧
          (¬ db.Named (inNamespace ns) sha256 → db.chunkRefs.lookup (ns, sha256) = none)) ∧
      (∀ ns sha256 partition,
        (db.Named (inPartition ns partition) sha256 →
            db.chunkPartitions.lookup (ns, sha256, partition) =
              some (db.timesNamed (inPartition ns partition) sha256)) ∧
          (¬ db.Named (inPartition ns partition) sha256 →
            db.chunkPartitions.lookup (ns, sha256, partition) = none)) ∧
      (∀ compaction through sha256 ns,
        (store.compactHistory compaction through).1 ≠ .error (.noReference sha256 ns)) ∧
      (∀ mark now commitFails sha256 ns,
        (store.truncateAfter options mark now commitFails).1 ≠
          .error (.noReference sha256 ns)) ∧
      ∀ ns hashes releasedSince sha256, sha256 ∈ hashes → db.Named (inNamespace ns) sha256 →
        sha256 ∈ db.referencedChunks ns hashes releasedSince := by
  have hcounts := run_counts options calls
  have hrefs := fun ns sha256 => lookup_of_named (hcounts.balanced.refs (ns, sha256))
  refine ⟨hrefs, ?_, ?_, ?_, ?_⟩
  · exact fun ns sha256 partition =>
      lookup_of_named (hcounts.balanced.partitions (ns, sha256, partition))
  · intro compaction through sha256 ns heq
    exact (compactLoop_counts compaction _ _ _ hcounts).1.of_error heq sha256 ns rfl
  · intro mark now commitFails sha256 ns heq
    exact (truncateAfter_counts hcounts options mark now commitFails).1.of_error heq sha256 ns rfl
  · intro ns hashes releasedSince sha256 hmem hnamed
    unfold CommitsDb.referencedChunks
    rw [List.mem_filter, (hrefs ns sha256).1 hnamed]
    exact ⟨hmem, rfl⟩

end Swamp
