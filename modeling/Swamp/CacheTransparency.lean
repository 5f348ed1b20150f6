import Swamp.PartitionHistory
import Swamp.StoreUpkeep

/-!
# Is the partition cache seen?

One store goes through a sequence of calls with nobody else writing; another one,
which holds the same rows, is closed and opened again before every call.  Pruning
forgets old txnIds in the tables, but not in a partition that was cached before it:
an append that repeats such a txnId is told apart (`CommitStore.Forgot`), since the
cached partition finds it a duplicate of which the tables know nothing.  Nothing
else is seen of the cache.
-/

namespace Swamp

open Js Swamp.Partition ExceptTriples ExceptRules

/-- A call of a store's only user, who waits for each answer. -/
inductive SoloCall where
  | append (entry : PendingAppend) (commitFails : Bool)
  | raiseWriterFence (fence : ℕ)
  | truncateAfter (mark : StoreHighWaterMark) (now : ℤ) (commitFails : Bool)
  | compactHistory (compaction : CompactHistoryOptions) (through : ℕ)

/-- What a call settles to. -/
inductive SoloAnswer where
  | appended (result : Except StoreError StoreResult)
  | raised (result : Except StoreError Unit)
  | truncated (result : Except StoreError ℕ)
  | compacted (result : Except StoreError CompactionReport)

namespace CommitStore

/-- A call, and the store after it. -/
def answer (options : StoreOptions) (self : CommitStore) : SoloCall → SoloAnswer × CommitStore
  | .append entry commitFails =>
    let (result, next) := self.append options entry false commitFails
    (.appended result, next)
  | .raiseWriterFence fence =>
    let (result, next) := self.raiseWriterFence fence
    (.raised result, next)
  | .truncateAfter mark now commitFails =>
    let (result, next) := self.truncateAfter options mark now commitFails
    (.truncated result, next)
  | .compactHistory compaction through =>
    let (result, next) := self.compactHistory compaction through
    (.compacted result, next)

/-- The store closed and opened again. -/
def reopened (self : CommitStore) : CommitStore := { self with cache := .empty }

/-- A sequence of calls, something done to the store before each of them. -/
def answers (options : StoreOptions) (before : CommitStore → CommitStore) :
    CommitStore → List SoloCall → List SoloAnswer × CommitStore
  | self, [] => ([], self)
  | self, call :: calls =>
    let (first, next) := (before self).answer options call
    let (later, last) := answers options before next calls
    (first :: later, last)

/-- A txnId of a partition that its cached copy knows, and the tables do not. -/
def forgotten (self : CommitStore) (a : Address) (txnId : JsString) : Prop :=
  ∃ cached, self.cache.get a = some cached ∧ (cached.view self.db a).hasTxn txnId = true ∧
    self.db.txnSeq a txnId = none

/-- The cached partition of a commit knows its txnId, and the tables do not. -/
def Forgot (self : CommitStore) (commit : Commit) : Prop :=
  self.forgotten commit.address commit.txnId

end CommitStore

variable {options : StoreOptions} {store : CommitStore}

theorem knows_of_txnSeq {db : CommitsDb} {a : Address} {txnId : JsString}
    (h : db.txnSeq a txnId ≠ none) : db.Knows a txnId := by
  by_contra hknows
  exact h (txnSeq_none hknows)

/-- What a cached partition holds beside the rows is what was forgotten. -/
theorem Upkept.forgotten (h : Upkept anyTxn store) : Upkept store.forgotten store := by
  refine ⟨h.order, h.stands, fun a cached hget => ?_⟩
  obtain ⟨p, hp⟩ := h.cached a cached hget
  refine ⟨p, hp.standing, ⟨hp.alike.key, hp.alike.state, ?_⟩, hp.knows, hp.upTo⟩
  intro txnId htxn
  rw [Bool.eq_iff_iff]
  constructor
  · intro hheld
    rw [hp.standing.hasTxn_iff]
    exact knows_of_txnSeq (fun hnone => htxn ⟨cached, hget, hheld, hnone⟩)
  · exact hp.knows txnId

variable (options) in
/-- **An append whose txnId the cache alone knows** is answered by a corruption
error. -/
theorem append_forgot (h : Upkept anyTxn store) {entry : PendingAppend}
    (hforgot : store.Forgot entry.commit) (commitFails : Bool) :
    ∃ seq, (store.append options entry false commitFails).1 =
      .error (.corrupt entry.commit.address seq (.txnNotStored entry.commit.txnId)) := by
  obtain ⟨cached, hget, hheld, hnone⟩ := hforgot
  obtain ⟨p, hp⟩ := h.cached _ _ hget
  have hkey : entry.commit.partition.equals
      (cached.view store.db entry.commit.address).key = true := by
    have hvalue : (cached.view store.db entry.commit.address).key.value =
        entry.commit.partition.value := hp.alike.key.trans hp.standing.key
    simp [PartitionKey.equals, hvalue]
  have happend : (cached.view store.db entry.commit.address).append entry.commit false =
      (.ok .duplicate, cached.view store.db entry.commit.address) := by
    unfold Partition.append
    rw [apply_run, hkey, hheld]
    rfl
  have hpartition : store.partition options entry.commit.ns entry.commit.partition =
      (.ok cached, { store with
        cache := (store.cache.delete entry.commit.address).set entry.commit.address cached }) := by
    have hget' : store.cache.get (entry.commit.ns, entry.commit.partition.value) = some cached :=
      hget
    unfold CommitStore.partition
    simp only [hget']
    rfl
  unfold CommitStore.append CommitStore.tryAppend
  simp only [hpartition]
  rw [applyInTransaction_eq false entry.fails hp.head, happend]
  simp only [hnone]
  exact ⟨_, rfl⟩

variable (options) in
theorem appendRows_stored {db : CommitsDb} (hstands : db.Stands) (entry : PendingAppend)
    (commitFails : Bool) (seq : ℕ) :
    (db.appendRows options entry commitFails).1 ≠
      .error (.corrupt entry.commit.address seq (.txnNotStored entry.commit.txnId)) := by
  obtain ⟨p, hp⟩ := hstands entry.commit.ns entry.commit.partition
  obtain ⟨rebuilt, hrebuild, hmirrors⟩ := hp.rebuild_mirrors
  have hmirrors' : Mirrors nothing db entry.commit.address rebuilt p := hmirrors
  unfold CommitsDb.appendRows
  rw [hrebuild]
  simp only
  rw [applyInTransaction_eq false entry.fails hmirrors'.head]
  rcases apply_outcome (rebuilt.view db entry.commit.address) entry.commit false false with
    ⟨e, he⟩ | ⟨hdup, -, htxn⟩ | ⟨after, happ, -⟩
  · simp only [Partition.append, he]
    exact fun heq => by cases heq
  · -- A duplicate is of a txnId that the rows have.
    have hknown : db.Knows entry.commit.address entry.commit.txnId := by
      rw [← hmirrors'.standing.hasTxn_iff,
        ← hmirrors'.alike.hasTxn entry.commit.txnId (fun hfalse => hfalse)]
      exact htxn
    obtain ⟨landed, hlanded⟩ := Option.isSome_iff_exists.mp (txnSeq_isSome hknown)
    simp only [Partition.append, hdup, hlanded]
    exact fun heq => by cases heq
  · simp only [Partition.append, happ]
    cases hwrite : db.writeCommit options entry.commit after with
    | error e =>
      rcases writeCommit_error hwrite with ⟨fence, stored, rfl⟩ | rfl
      · exact fun heq => by cases heq
      · exact fun heq => by cases heq
    | ok written =>
      by_cases hfails : entry.fails = true
      · simp only [hfails, if_true]
        exact fun heq => by cases heq
      · simp only [hfails, Bool.false_eq_true, if_false, CommitsDb.settle]
        split
        · exact fun heq => by cases heq
        · exact fun heq => by cases heq

variable (options) in
/-- **A call on an open store** upkeeps it. -/
theorem answer_upkept (h : Upkept anyTxn store) (call : SoloCall) :
    Upkept anyTxn (store.answer options call).2 := by
  cases call with
  | append entry commitFails => exact append_upkept _ h entry false commitFails
  | raiseWriterFence fence => exact raiseWriterFence_upkept fence h
  | truncateAfter mark now commitFails => exact truncateAfter_upkept mark now commitFails h
  | compactHistory compaction through => exact compactHistory_upkept compaction through h

/-- Whether a call appends a commit whose txnId the cache alone knows. -/
def SoloCall.Forgotten (call : SoloCall) (store : CommitStore) : Prop :=
  ∃ entry commitFails, call = .append entry commitFails ∧ store.Forgot entry.commit

variable (options) in
/-- **One call on both stores.**  It is told apart exactly when it is such an
append. -/
theorem answer_seen (h : Upkept anyTxn store) {other : CommitStore}
    (hdb : other.db = store.db) (call : SoloCall) :
    ((store.answer options call).1 = (other.reopened.answer options call).1 →
        ¬ call.Forgotten store) ∧
      (¬ call.Forgotten store →
        (store.answer options call).1 = (other.reopened.answer options call).1 ∧
          (other.reopened.answer options call).2.db = (store.answer options call).2.db) := by
  have hother : Upkept (fun a txnId => ¬ True) other.reopened :=
    upkept_opened (hdb ▸ h.order) (hdb ▸ h.stands)
  have hsame : other.reopened.db = store.db := hdb
  cases call with
  | append entry commitFails =>
    obtain ⟨hanswer, hrows⟩ := append_rows options hother entry (by simp) false
      commitFails
    rw [hsame] at hanswer hrows
    constructor
    · intro hagree hforgotten
      obtain ⟨_, _, heq, hforgot⟩ := hforgotten
      cases heq
      obtain ⟨seq, hcorrupt⟩ := append_forgot options h hforgot commitFails
      apply appendRows_stored options h.stands entry commitFails seq
      rw [← hanswer, ← hcorrupt]
      exact (SoloAnswer.appended.inj hagree).symm
    · intro hnot
      have hforgot : ¬ store.Forgot entry.commit :=
        fun hforgot => hnot ⟨entry, commitFails, rfl, hforgot⟩
      obtain ⟨hanswer', hrows'⟩ := append_rows options h.forgotten entry
        hforgot false commitFails
      exact ⟨congrArg SoloAnswer.appended (hanswer'.trans hanswer.symm),
        hrows.trans hrows'.symm⟩
  | raiseWriterFence fence =>
    have hagree := raiseWriterFence_rows fence hsame
    refine ⟨fun _ hforgotten => ?_, fun _ => ⟨congrArg SoloAnswer.raised hagree.1.symm, hagree.2⟩⟩
    obtain ⟨_, _, heq, -⟩ := hforgotten
    cases heq
  | truncateAfter mark now commitFails =>
    have hagree := truncateAfter_rows options mark now commitFails hsame
    refine ⟨fun _ hforgotten => ?_,
      fun _ => ⟨congrArg SoloAnswer.truncated hagree.1.symm, hagree.2⟩⟩
    obtain ⟨_, _, heq, -⟩ := hforgotten
    cases heq
  | compactHistory compaction through =>
    have hagree : (other.reopened.compactHistory compaction through).1 =
          (store.compactHistory compaction through).1 ∧
        (other.reopened.compactHistory compaction through).2.db =
          (store.compactHistory compaction through).2.db := by
      unfold CommitStore.compactHistory
      rw [hsame]
      exact compactLoop_rows compaction _ _ _ hsame
    refine ⟨fun _ hforgotten => ?_,
      fun _ => ⟨congrArg SoloAnswer.compacted hagree.1.symm, hagree.2⟩⟩
    obtain ⟨_, _, heq, -⟩ := hforgotten
    cases heq

theorem upkept_created : Upkept anyTxn CommitStore.created := by
  refine upkept_opened ⟨List.Pairwise.nil, by simp [CommitsDb.empty], by simp [CommitsDb.empty],
    le_refl _⟩ ?_
  intro ns key
  refine ⟨Partition.empty key, ⟨rfl, List.nodup_nil, by simp [CommitsDb.empty], ?_, ?_⟩⟩
  · refine ⟨Partition.empty key, ⟨rfl, empty_sound key, ?_, ?_⟩, le_refl _, le_refl _,
      Replays.nil _⟩
    · intro txnId
      rfl
    · exact Or.inl ⟨rfl, Alike.refl _ _⟩
  · exact Or.inl ⟨rfl, rfl⟩

/-- The runs agree on from any two stores with the same rows. -/
theorem answers_seen_iff (h : Upkept anyTxn store) {other : CommitStore}
    (hdb : other.db = store.db) (calls : List SoloCall) :
    ((store.answers options id calls).1 = (other.answers options CommitStore.reopened calls).1 ∧
        (store.answers options id calls).2.db =
          (other.answers options CommitStore.reopened calls).2.db) ↔
      ∀ before call after, calls = before ++ call :: after →
        ¬ call.Forgotten (store.answers options id before).2 := by
  induction calls generalizing store other with
  | nil =>
    refine ⟨fun _ before call after heq => ?_, fun _ => ⟨rfl, hdb.symm⟩⟩
    cases before <;> cases heq
  | cons call calls ih =>
    obtain ⟨hapart, hagree⟩ := answer_seen options h hdb call
    have hnext := answer_upkept options h call
    simp only [CommitStore.answers, List.cons.injEq, id_eq]
    constructor
    · intro hboth
      obtain ⟨⟨hanswer, hanswers⟩, hrows⟩ := hboth
      have hfirst := hapart hanswer
      have hlater := (ih hnext (hagree hfirst).2).mp ⟨hanswers, hrows⟩
      intro before other' after heq
      cases before with
      | nil =>
        cases heq
        exact hfirst
      | cons first before =>
        cases heq
        exact hlater before other' after rfl
    · intro hnot
      have hfirst := hnot [] call calls rfl
      have hlater := (ih hnext (hagree hfirst).2).mpr
        (fun before other' after heq => hnot (call :: before) other' after (by rw [heq]; rfl))
      exact ⟨⟨(hagree hfirst).1, hlater.1⟩, hlater.2⟩

/-- **When the cache is not seen.**  The answers of a store's calls, and its rows
at the end, are those of a store that is closed and opened again before every call,
exactly when no append repeats a txnId that the cached copy of its partition still
knows and the tables, which pruning made forget it, do not. -/
theorem cache_seen_iff (options : StoreOptions) (calls : List SoloCall) :
    ((CommitStore.created.answers options id calls).1 =
          (CommitStore.created.answers options CommitStore.reopened calls).1 ∧
        (CommitStore.created.answers options id calls).2.db =
          (CommitStore.created.answers options CommitStore.reopened calls).2.db) ↔
      ∀ before entry commitFails after, calls = before ++ .append entry commitFails :: after →
        ¬ (CommitStore.created.answers options id before).2.Forgot entry.commit := by
  rw [answers_seen_iff upkept_created rfl]
  constructor
  · intro h before entry commitFails after heq hforgot
    exact h before _ after heq ⟨entry, commitFails, rfl, hforgot⟩
  · intro h before call after heq hforgotten
    obtain ⟨entry, commitFails, hcall, hforgot⟩ := hforgotten
    subst hcall
    exact h before entry commitFails after heq hforgot

/-- The options of a small store. -/
def smallOptions : StoreOptions := ⟨10, 100, true, by decide, by decide⟩

/-- A compaction that forgets every txnId but the point's. -/
def pruningCompaction : CompactHistoryOptions where
  batchSize := 10
  batch_pos := by decide
  fence := none
  pruneTxnsBefore := some 10
  releasedRetentionMs := 0
  committedAt := fun _ => some 0
  clock := fun _ => 20
  aborted := fun _ => false
  beforeCommitFails := fun _ => false

/-- Two commits land and are compacted, and the txnId of the first comes again. -/
def prunedRetry : List SoloCall :=
  [.append ⟨sampleCommit 1 version1.pos version1.safe (js "t1") [], false⟩ false,
    .append ⟨sampleCommit 2 version2.pos version2.safe (js "t2") [], false⟩ false,
    .compactHistory pruningCompaction 2,
    .append ⟨sampleCommit 3 version3.pos version3.safe (js "t1") [], false⟩ false]

/-- Whether an answer is that a txnId is not stored. -/
def SoloAnswer.isLostTxn : SoloAnswer → Bool
  | .appended (.error (.corrupt _ _ (.txnNotStored _))) => true
  | _ => false

/-- **The cache is seen**: the retry is a corruption error on the open store, and
lands on one that is opened for it. -/
theorem pruned_retry_seen :
    (CommitStore.created.answers smallOptions id prunedRetry).1 ≠
        (CommitStore.created.answers smallOptions CommitStore.reopened prunedRetry).1 ∧
      (CommitStore.created.answers smallOptions id prunedRetry).1.map SoloAnswer.isLostTxn =
        [false, false, false, true] ∧
      (CommitStore.created.answers smallOptions CommitStore.reopened prunedRetry).1.map
        SoloAnswer.isLostTxn = [false, false, false, false] := by
  have hopen : (CommitStore.created.answers smallOptions id prunedRetry).1.map
      SoloAnswer.isLostTxn = [false, false, false, true] := by decide +kernel
  have hreopened : (CommitStore.created.answers smallOptions CommitStore.reopened
      prunedRetry).1.map SoloAnswer.isLostTxn = [false, false, false, false] := by decide +kernel
  refine ⟨fun heq => ?_, hopen, hreopened⟩
  rw [heq, hreopened] at hopen
  cases hopen

end Swamp
