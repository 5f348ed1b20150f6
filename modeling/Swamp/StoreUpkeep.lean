import Swamp.TruncatedRows

/-!
# An open store between its calls

`Upkept F store` is what every call on a store leaves true: the rows stand in
order and stand for a state of each partition, and what is cached mirrors them, but
for txnIds that pruning has forgotten (`F`).  `appendRows` is an append without a
cache, on the rows alone: an open store appends as its rows do.
-/

namespace Swamp

open Js Swamp.Partition ExceptTriples ExceptRules

/-- What holds of an open store between its calls. -/
structure Upkept (F : Address → JsString → Prop) (store : CommitStore) : Prop where
  order : store.db.InOrder
  stands : store.db.Stands
  cached : ∀ a cached, store.cache.get a = some cached → ∃ p, Mirrors (F a) store.db a cached p

variable {F : Address → JsString → Prop} {options : StoreOptions} {store : CommitStore}

variable {db : CommitsDb}

/-- A store that was just opened. -/
theorem upkept_opened (horder : db.InOrder) (hstands : db.Stands) : Upkept F ⟨db, .empty⟩ :=
  ⟨horder, hstands, fun a cached hget => by cases hget⟩

theorem Upkept.forget (h : Upkept F store) (a : Address) : Upkept F (store.forget a) := by
  refine ⟨h.order, h.stands, fun other cached hget => ?_⟩
  have hdelete := OrderedMap.get_delete store.cache a other
  unfold CommitStore.forget at hget
  simp only at hget
  rw [hdelete] at hget
  split at hget
  · cases hget
  · exact h.cached other cached hget

theorem Upkept.forgetAll (h : Upkept F store) (addresses : List Address) :
    Upkept F (store.forgetAll addresses) := by
  unfold CommitStore.forgetAll
  induction addresses generalizing store with
  | nil => exact h
  | cons a addresses ih => exact ih (h.forget a)

theorem get_forgetAll (store : CommitStore) (addresses : List Address) (a : Address) :
    (store.forgetAll addresses).cache.get a =
      if a ∈ addresses then none else store.cache.get a := by
  unfold CommitStore.forgetAll
  induction addresses generalizing store with
  | nil => rfl
  | cons first addresses ih =>
    rw [List.foldl_cons, ih]
    simp only [CommitStore.forget, OrderedMap.get_delete, List.mem_cons]
    by_cases hmem : a ∈ addresses
    · simp [hmem]
    · by_cases heq : a = first
      · simp [heq]
      · simp [hmem, heq]

variable {a : Address} {cached : CachedPartition} {p : Partition}

/-- A cache that takes a mirror in. -/
theorem Upkept.set (h : Upkept F store) (hcached : Mirrors (F a) store.db a cached p) :
    Upkept F { store with cache := store.cache.set a cached } := by
  refine ⟨h.order, h.stands, fun other held hget => ?_⟩
  simp only [OrderedMap.get_set] at hget
  split at hget
  · rename_i heq
    cases hget
    rw [heq]
    exact ⟨p, hcached⟩
  · exact h.cached other held hget

theorem Upkept.mutate (h : Upkept F store) (hcached : Mirrors (F a) store.db a cached p) :
    Upkept F (store.mutate a cached) := by
  unfold CommitStore.mutate
  split
  · exact h.set hcached
  · exact h

theorem Upkept.remember (h : Upkept F store) (hcached : Mirrors (F a) store.db a cached p) :
    Upkept F (store.remember options a cached) := by
  unfold CommitStore.remember
  simp only
  split
  · split
    · exact (h.set hcached).forget _
    · exact h.set hcached
  · exact h.set hcached

variable (options) in
/-- **A partition of an open store** is there, and mirrors the rows. -/
theorem Upkept.partition (h : Upkept F store) (ns : JsString) (key : PartitionKey) :
    ∃ cached self p, store.partition options ns key = (.ok cached, self) ∧ self.db = store.db ∧
      Upkept F self ∧ Mirrors (F (ns, key.value)) store.db (ns, key.value) cached p := by
  have hdb := store.partition_db options ns key
  unfold CommitStore.partition at hdb ⊢
  simp only at hdb ⊢
  cases hget : store.cache.get (ns, key.value) with
  | some cached =>
    obtain ⟨p, hp⟩ := h.cached _ _ hget
    refine ⟨cached, _, p, rfl, rfl, ?_, hp⟩
    have hforgotten := h.forget (ns, key.value)
    exact hforgotten.set hp
  | none =>
    obtain ⟨p, hp⟩ := h.stands ns key
    obtain ⟨cached, hrebuild, hmirrors⟩ := hp.rebuild_mirrors
    rw [hrebuild]
    have hmirrors' := hmirrors.mono (G := F (ns, key.value)) (fun _ hfalse => hfalse.elim)
    refine ⟨cached, _, p, rfl, ?_, h.remember hmirrors', hmirrors'⟩
    exact CommitStore.remember_db store options _ _

/-- The rows of a commit keep the order. -/
theorem withCommit_inOrder (h : db.InOrder) (commit : Commit) (taken : Partition) :
    (db.withCommit options commit taken).InOrder := by
  refine ⟨?_, ?_, ?_, Nat.le_succ_of_le h.reached⟩
  · change ((db.commits ++ [(⟨db.sequence + 1, commit⟩ : CommitRow)]).map
      CommitRow.cursor).Pairwise (· < ·)
    exact cursors_append h.cursors (fun row hrow => Nat.lt_succ_of_le (h.assigned row hrow))
  · intro row hrow
    rcases List.mem_append.mp hrow with hold | hnew
    · exact h.past row hold
    · rw [List.mem_singleton] at hnew
      subst hnew
      exact Nat.lt_succ_of_le h.reached
  · intro row hrow
    rcases List.mem_append.mp hrow with hold | hnew
    · exact Nat.le_succ_of_le (h.assigned row hold)
    · rw [List.mem_singleton] at hnew
      subst hnew
      exact le_refl _

/-- What one commit in a transaction settles an append to, and the rows after
it. -/
def CommitsDb.settle (db : CommitsDb) (key : PartitionKey) (commitFails : Bool) :
    Except StoreError Applied → Except StoreError StoreResult × CommitsDb
  | .error e => (.error e, db)
  | .ok .stale => (.error (.partitionChanged key.value), db)
  | .ok (.duplicate seq) => (.ok (.duplicate seq), db)
  | .ok (.written seq next _) =>
    if commitFails then (.error .commitFailed, db) else (.ok (.appended seq), next)

/-- An append on the rows alone: the partition is rebuilt for it, and nothing is
kept of it but its rows. -/
def CommitsDb.appendRows (options : StoreOptions) (db : CommitsDb) (entry : PendingAppend)
    (commitFails : Bool) : Except StoreError StoreResult × CommitsDb :=
  match db.rebuild entry.commit.ns entry.commit.partition maxSafeInteger with
  | .error e => (.error e, db)
  | .ok rebuilt =>
    db.settle entry.commit.partition commitFails
      (applyInTransaction options db entry.commit rebuilt false entry.fails).1

variable (options) in
/-- **An append on the rows is one with any mirror** of the partition. -/
theorem appendRows_eq (entry : PendingAppend) {G : JsString → Prop}
    (h : Mirrors G db entry.commit.address cached p) (hG : ¬ G entry.commit.txnId)
    (retried commitFails : Bool) :
    db.appendRows options entry commitFails = db.settle entry.commit.partition commitFails
      (applyInTransaction options db entry.commit cached retried entry.fails).1 := by
  have hstanding : Standing db (entry.commit.ns, entry.commit.partition.value) p := h.standing
  obtain ⟨rebuilt, hrebuild, hrebuilt⟩ := hstanding.rebuild_mirrors
  have haddress : (entry.commit.ns, entry.commit.partition.value) = entry.commit.address := rfl
  rw [haddress] at hrebuilt
  have halike : Alike G (rebuilt.view db entry.commit.address)
      (cached.view db entry.commit.address) :=
    (hrebuilt.alike.symm.mono (fun _ hfalse => hfalse.elim)).trans h.alike
  have hretried : applyInTransaction options db entry.commit cached retried entry.fails =
      applyInTransaction options db entry.commit cached false entry.fails :=
    (applyInTransaction_eq retried entry.fails h.head).trans
      (applyInTransaction_eq false entry.fails h.head).symm
  unfold CommitsDb.appendRows
  rw [hrebuild, hretried]
  simp only
  rw [apply_alike halike hrebuilt.head hG false entry.fails]

theorem Upkept.written (h : Upkept F store) {commit : Commit} {next : Partition}
    {after : CachedPartition} (hp : Standing store.db commit.address p)
    (hland : p.Landed commit false false next)
    (hafter : Mirrors (F commit.address) (store.db.withCommit options commit next) commit.address
      after next) :
    Upkept F { store.mutate commit.address after with
      db := store.db.withCommit options commit next } := by
  refine ⟨withCommit_inOrder h.order commit next, h.stands.written hp hland, ?_⟩
  intro a cached hget
  by_cases ha : a = commit.address
  · subst ha
    unfold CommitStore.mutate at hget
    simp only at hget
    split at hget
    · rw [OrderedMap.get_set_self] at hget
      cases hget
      exact ⟨next, hafter⟩
    · rename_i hhas
      unfold OrderedMap.has at hhas
      rw [hget] at hhas
      exact absurd rfl hhas
  · have hold : store.cache.get a = some cached := by
      unfold CommitStore.mutate at hget
      simp only at hget
      split at hget
      · rwa [OrderedMap.get_set_ne _ _ ha] at hget
      · exact hget
    obtain ⟨q, hq⟩ := h.cached a cached hold
    exact ⟨q, hq.sameRows (withCommit_sameRows (Ne.symm ha))⟩

theorem restoreSnapshot_mirrors (ns : JsString) (key : PartitionKey)
    (h : Standing db (ns, key.value) p) :
    ∃ restored, db.restoreSnapshot ns key p.snapshotRow = .ok restored ∧
      Mirrors nothing db (ns, key.value) restored p := by
  have hsound : ({ p with key := key } : Partition).Sound :=
    ⟨h.sound.seq_safe, h.sound.holder_ne, h.sound.holder_fence, h.sound.names⟩
  have hbody : ({ p with key := key } : Partition).snapshot = p.snapshot := by
    have hkey : key.value = p.key.value := h.key.symm
    simp only [Partition.snapshot, hkey]
  have hrestore := restore_snapshot hsound (db.txnUpTo (ns, key.value) p.seq)
  rw [hbody] at hrestore
  simp only [CommitsDb.restoreSnapshot, Partition.snapshotRow, hrestore, Except.map]
  have htxns : ∀ txnId, (CachedPartition.view ⟨{ p with
      key := key, txnIds := ∅, priorTxn := db.txnUpTo (ns, key.value) p.seq }, some p.seq⟩ db
      (ns, key.value)).hasTxn txnId = p.hasTxn txnId := by
    intro txnId
    rw [h.hasTxn_eq]
    simp [CachedPartition.view, Partition.hasTxn]
  refine ⟨_, rfl, h, ⟨h.key.symm, ⟨rfl, rfl, rfl, rfl, rfl, rfl⟩, fun txnId _ => htxns txnId⟩, ?_, ?_⟩
  · exact fun txnId htxn => (htxns txnId).trans htxn
  · intro n hn
    cases hn
    exact le_refl _

/-- **A cached partition replaced by its snapshot** still mirrors the rows. -/
theorem Upkept.restoreFromSnapshot (h : Upkept F store) {commit : Commit} {row : SnapshotRow}
    (hp : Standing store.db commit.address p) (hrow : row.seq = p.seq → row = p.snapshotRow) :
    Upkept F (store.restoreFromSnapshot options commit row) := by
  unfold CommitStore.restoreFromSnapshot
  simp only
  split
  · cases hget : store.cache.get commit.address with
    | none => exact h
    | some cached =>
      simp only
      split
      · exact h
      · rename_i hseq
        obtain ⟨q, hq⟩ := h.cached _ _ hget
        have hcachedSeq : cached.partition.seq = p.seq := by
          have hview : (cached.view store.db commit.address).seq = cached.partition.seq := by
            unfold CachedPartition.view
            split
            · rfl
            · rfl
          rw [← hview, ← hq.alike.state.seq]
          exact (hq.standing.unique hp).state.seq
        obtain ⟨restored, hrestored, hmirrors⟩ :=
          restoreSnapshot_mirrors commit.ns commit.partition hp
        rw [hrow ((not_not.mp hseq).symm.trans hcachedSeq), hrestored]
        exact h.set (hmirrors.mono (fun _ hfalse => hfalse.elim))
  · exact h

variable (options) in
theorem tryAppend_upkept (h : Upkept F store) (entry : PendingAppend) (retried commitFails : Bool) :
    Upkept F (store.tryAppend options entry retried commitFails).2 ∧
      (store.tryAppend options entry retried commitFails).1 ≠ .ok none := by
  obtain ⟨cached, self, p, hpartition, hdb, hself, hcached⟩ :=
    h.partition options entry.commit.ns entry.commit.partition
  have hmirrors := apply_mirrors options entry.commit hcached retried
    entry.fails
  unfold CommitStore.tryAppend
  simp only [hpartition, hdb]
  generalize applyInTransaction options store.db entry.commit cached retried entry.fails =
    outcome at hmirrors
  cases hmirrors with
  | @failed e after hafter =>
    refine ⟨?_, fun heq => by cases heq⟩
    simp only
    split
    · rename_i hrejection
      exact hself.mutate (hdb ▸ hafter hrejection)
    · exact hself.forget _
  | @duplicate seq after hafter =>
    exact ⟨hself.mutate (hdb ▸ hafter), fun heq => by cases heq⟩
  | @written next after hland hafter =>
    simp only
    split
    · exact ⟨hself.forget _, fun heq => by cases heq⟩
    · have hstanding : Standing self.db entry.commit.address p := hdb ▸ hcached.standing
      have hkept := hself.written hstanding hland (hdb ▸ hafter)
      rw [hdb] at hkept
      refine ⟨?_, fun heq => by cases heq⟩
      split
      · rename_i row hrow
        apply hkept.restoreFromSnapshot (hcached.standing.written hland)
        intro _
        split at hrow
        · exact (Option.some.inj hrow).symm
        · cases hrow
      · exact hkept

variable (options) in
theorem tryAppend_rows (h : Upkept F store) (entry : PendingAppend)
    (hF : ¬ F entry.commit.address entry.commit.txnId) (retried commitFails : Bool) :
    (store.tryAppend options entry retried commitFails).1 =
        (store.db.appendRows options entry commitFails).1.map some ∧
      (store.tryAppend options entry retried commitFails).2.db =
        (store.db.appendRows options entry commitFails).2 := by
  obtain ⟨cached, self, p, hpartition, hdb, hself, hcached⟩ :=
    h.partition options entry.commit.ns entry.commit.partition
  rw [appendRows_eq options entry hcached hF retried commitFails]
  have hmirrors := apply_mirrors options entry.commit hcached retried
    entry.fails
  unfold CommitStore.tryAppend
  simp only [hpartition, hdb]
  generalize applyInTransaction options store.db entry.commit cached retried entry.fails =
    outcome at hmirrors
  cases hmirrors with
  | @failed e after hafter =>
    refine ⟨rfl, ?_⟩
    simp only
    split
    · rw [CommitStore.mutate_db, hdb]
      rfl
    · rw [CommitStore.forget_db, hdb]
      rfl
  | @duplicate seq after hafter =>
    refine ⟨rfl, ?_⟩
    simp only
    rw [CommitStore.mutate_db, hdb]
    rfl
  | @written next after hland hafter =>
    unfold CommitsDb.settle
    simp only
    split
    · refine ⟨rfl, ?_⟩
      simp only
      rw [CommitStore.forget_db, hdb]
    · refine ⟨rfl, ?_⟩
      simp only
      split
      · rw [CommitStore.restoreFromSnapshot_db]
      · rfl

variable (options) in
/-- **An append** upkeeps the store. -/
theorem append_upkept (h : Upkept F store) (entry : PendingAppend) (retried commitFails : Bool) :
    Upkept F (store.append options entry retried commitFails).2 := by
  obtain ⟨hkept, hstale⟩ := tryAppend_upkept options h entry retried commitFails
  unfold CommitStore.append
  simp only
  cases htry : store.tryAppend options entry retried commitFails with
  | mk answer self =>
    rw [htry] at hkept hstale
    simp only at hkept hstale ⊢
    cases answer with
    | error e => exact hkept
    | ok result =>
      cases result with
      | none => exact absurd rfl hstale
      | some result => exact hkept

variable (options) in
/-- **An append through the cache** answers as the rows do, and leaves the same
rows. -/
theorem append_rows (h : Upkept F store) (entry : PendingAppend)
    (hF : ¬ F entry.commit.address entry.commit.txnId) (retried commitFails : Bool) :
    (store.append options entry retried commitFails).1 =
        (store.db.appendRows options entry commitFails).1 ∧
      (store.append options entry retried commitFails).2.db =
        (store.db.appendRows options entry commitFails).2 := by
  obtain ⟨hanswer, hdb⟩ := tryAppend_rows options h entry hF retried commitFails
  unfold CommitStore.append
  simp only
  cases htry : store.tryAppend options entry retried commitFails with
  | mk answer self =>
    rw [htry] at hanswer hdb
    simp only at hanswer hdb
    rw [hanswer]
    cases hrows : (store.db.appendRows options entry commitFails).1 with
    | error e | ok result => exact ⟨rfl, hdb⟩

/-- Nothing is said of the txnIds that a cached partition holds beside those of
the rows. -/
def anyTxn (_ : Address) : JsString → Prop := anything

/-- **A compaction** upkeeps the store. -/
theorem compactLoop_upkept (compaction : CompactHistoryOptions) (target fuel : ℕ)
    (report : CompactionReport) (h : Upkept anyTxn store) :
    Upkept anyTxn (store.compactLoop compaction target fuel report).2 := by
  induction fuel generalizing report store with
  | zero => exact h
  | succ fuel ih =>
    unfold CommitStore.compactLoop
    simp only
    split
    · exact h
    · split
      · exact h
      · rename_i last hlast
        split
        · exact h
        · rename_i needed hneeded
          split
          · exact upkept_opened h.order h.stands
          · rename_i released next hbatch
            apply ih _
            have hleft := compactBatch_rows hbatch
            obtain ⟨rest, hsplit⟩ := nextBatch_split h.order target compaction.batchSize
            have hcovered := coveredBy_of_needed hneeded hleft
            refine ⟨hleft.inOrder h.order hsplit hlast, ?_, ?_⟩
            · intro ns key
              obtain ⟨p, hp⟩ := h.stands ns key
              obtain ⟨q, hq, -⟩ := hp.compact hleft (hcovered _) hsplit h.order.nodup
              exact ⟨q, hq⟩
            · intro a cached hget
              obtain ⟨p, hp⟩ := h.cached a cached hget
              exact hp.compact hleft (hcovered a) hsplit h.order.nodup

theorem compactHistory_upkept (compaction : CompactHistoryOptions) (through : ℕ)
    (h : Upkept anyTxn store) : Upkept anyTxn (store.compactHistory compaction through).2 :=
  compactLoop_upkept compaction _ _ _ h

variable {other : CommitStore}

/-- **A compaction does not read the cache.** -/
theorem compactLoop_rows (compaction : CompactHistoryOptions) (target fuel : ℕ)
    (report : CompactionReport) {store : CommitStore} (h : other.db = store.db) :
    (other.compactLoop compaction target fuel report).1 =
        (store.compactLoop compaction target fuel report).1 ∧
      (other.compactLoop compaction target fuel report).2.db =
        (store.compactLoop compaction target fuel report).2.db := by
  induction fuel generalizing report store other with
  | zero =>
    unfold CommitStore.compactLoop
    exact ⟨by rw [h], h⟩
  | succ fuel ih =>
    unfold CommitStore.compactLoop
    simp only [h]
    split
    · exact ⟨rfl, h⟩
    · split
      · exact ⟨rfl, h⟩
      · split
        · exact ⟨rfl, h⟩
        · split
          · exact ⟨rfl, rfl⟩
          · exact ih _ rfl

/-- **A truncation** upkeeps the store. -/
theorem truncateAfter_upkept (mark : StoreHighWaterMark) (now : ℤ) (commitFails : Bool)
    (h : Upkept anyTxn store) :
    Upkept anyTxn (store.truncateAfter options mark now commitFails).2 := by
  unfold CommitStore.truncateAfter
  split
  · exact h
  · exact h
  · rename_i hmark
    simp only
    split
    · exact h
    · rename_i heads hheads
      obtain ⟨hdistinct, hown, hcover⟩ := heads_of_touched hheads
      have hforgotten := h.forgetAll (heads.map TruncatedHead.address)
      split
      · exact hforgotten
      · rename_i next hnext
        split
        · exact hforgotten
        · have hrows := truncateRows_rows hnext
          have huntouched : ∀ a, (∀ head ∈ heads, head.address ≠ a) → SameRows a store.db next := by
            intro a ha
            refine hrows.untouched ?_ ha
            intro row hrow haddress
            by_contra hlt
            obtain ⟨head, hhead, heq⟩ := hcover row
              (List.mem_filter.mpr ⟨hrow, decide_eq_true (Nat.lt_of_not_le hlt)⟩)
            exact ha head hhead (heq.trans haddress)
          refine ⟨?_, ?_, ?_⟩
          · refine ⟨?_, ?_, ?_, ?_⟩
            · rw [hrows.commits]
              exact h.order.cursors.sublist (List.filter_sublist.map _)
            · intro row hrow
              rw [hrows.commits] at hrow
              rw [hrows.point]
              exact h.order.past row (List.mem_filter.mp hrow).1
            · intro row hrow
              rw [hrows.commits] at hrow
              rw [hrows.sequence]
              exact h.order.assigned row (List.mem_filter.mp hrow).1
            · rw [hrows.point, hrows.sequence]
              exact h.order.reached
          · intro ns key
            obtain ⟨p, hp⟩ := h.stands ns key
            by_cases htouched : ∃ head ∈ heads, head.address = (ns, key.value)
            · obtain ⟨head, hhead, haddress⟩ := htouched
              obtain ⟨first, hfirst, hfirstAddress, hpart⟩ := hown head hhead
              rw [← haddress] at hp ⊢
              obtain ⟨hstored, hto⟩ := hrows.touched h.order hp hhead hdistinct hfirst
              rw [← hfirstAddress] at hp hstored hto ⊢
              exact truncatePartition_stands hp hstored hpart hto
            · exact ⟨p, hp.sameRows (huntouched _ (fun head hhead heq =>
                htouched ⟨head, hhead, heq⟩))⟩
          · intro a cached hget
            have hleft := get_forgetAll store (heads.map TruncatedHead.address) a
            simp only at hget
            rw [hleft] at hget
            split at hget
            · cases hget
            · rename_i hnot
              obtain ⟨p, hp⟩ := h.cached a cached hget
              exact ⟨p, hp.sameRows (huntouched a (fun head hhead heq =>
                hnot (List.mem_map.mpr ⟨head, hhead, heq⟩)))⟩

variable (options) in
/-- **A truncation does not read the cache.** -/
theorem truncateAfter_rows (mark : StoreHighWaterMark) (now : ℤ) (commitFails : Bool)
    {store : CommitStore} (h : other.db = store.db) :
    (other.truncateAfter options mark now commitFails).1 =
        (store.truncateAfter options mark now commitFails).1 ∧
      (other.truncateAfter options mark now commitFails).2.db =
        (store.truncateAfter options mark now commitFails).2.db := by
  unfold CommitStore.truncateAfter
  simp only [h]
  split
  · exact ⟨rfl, h⟩
  · exact ⟨rfl, h⟩
  · split
    · exact ⟨rfl, h⟩
    · split
      · exact ⟨rfl, by rw [CommitStore.forgetAll_db, CommitStore.forgetAll_db, h]⟩
      · split
        · exact ⟨rfl, by rw [CommitStore.forgetAll_db, CommitStore.forgetAll_db, h]⟩
        · exact ⟨rfl, rfl⟩

theorem raiseWriterFence_upkept (fence : ℕ) (h : Upkept F store) :
    Upkept F (store.raiseWriterFence fence).2 := by
  have hsame : ∀ fence, Upkept F { store with db := { store.db with writerFence := some fence } } := by
    intro fence
    refine ⟨⟨h.order.cursors, h.order.past, h.order.assigned, h.order.reached⟩, ?_, ?_⟩
    · intro ns key
      obtain ⟨p, hp⟩ := h.stands ns key
      exact ⟨p, hp.sameRows ⟨rfl, rfl, fun _ _ => Iff.rfl, rfl, rfl⟩⟩
    · intro a cached hget
      obtain ⟨p, hp⟩ := h.cached a cached hget
      exact ⟨p, hp.sameRows ⟨rfl, rfl, fun _ _ => Iff.rfl, rfl, rfl⟩⟩
  unfold CommitStore.raiseWriterFence
  split
  · exact h
  · split
    · split
      · exact hsame fence
      · exact h
    · exact hsame fence

theorem raiseWriterFence_rows (fence : ℕ) {store : CommitStore} (h : other.db = store.db) :
    (other.raiseWriterFence fence).1 = (store.raiseWriterFence fence).1 ∧
      (other.raiseWriterFence fence).2.db = (store.raiseWriterFence fence).2.db := by
  unfold CommitStore.raiseWriterFence
  rw [h]
  split
  · exact ⟨rfl, h⟩
  · split
    · split
      · exact ⟨rfl, rfl⟩
      · exact ⟨rfl, h⟩
    · exact ⟨rfl, rfl⟩

end Swamp
