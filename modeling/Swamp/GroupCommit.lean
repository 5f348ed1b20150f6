import Swamp.CacheTransparency

/-!
# Group commit

Appends that are queued together share a transaction.  Their partitions are
gathered first and changed in memory, each commit has a savepoint of its own, a
failure that leaves a partition in doubt ends the group, and what is cached is
brought up to date once the transaction has ended.  A group settles its appends, and
leaves the rows, as the same appends one after the other would on the rows alone.
-/

namespace Swamp

open Js Swamp.Partition

/-- Appends one after the other, on the rows alone. -/
def CommitsDb.appendEach (options : StoreOptions) :
    CommitsDb → List PendingAppend → List Settled × CommitsDb
  | db, [] => ([], db)
  | db, entry :: entries =>
    let (result, next) := db.appendRows options entry false
    let (later, last) := appendEach options next entries
    ((entry, result) :: later, last)

theorem appendEach_append (options : StoreOptions) (db : CommitsDb)
    (before after : List PendingAppend) :
    db.appendEach options (before ++ after) =
      ((db.appendEach options before).1 ++
          ((db.appendEach options before).2.appendEach options after).1,
        ((db.appendEach options before).2.appendEach options after).2) := by
  induction before generalizing db with
  | nil => rfl
  | cons entry before ih =>
    simp only [List.cons_append, CommitsDb.appendEach, ih]

/-- Appends one after the other, each alone. -/
def CommitStore.appendAlone (options : StoreOptions) :
    CommitStore → List PendingAppend → List Settled × CommitStore
  | self, [] => ([], self)
  | self, entry :: entries =>
    let (result, next) := self.append options entry false false
    let (later, last) := appendAlone options next entries
    ((entry, result) :: later, last)

variable {F : Address → JsString → Prop} {options : StoreOptions} {store : CommitStore}

/-- None of the appends repeats a forgotten txnId. -/
def NoneForgotten (F : Address → JsString → Prop) (entries : List PendingAppend) : Prop :=
  ∀ entry ∈ entries, ¬ F entry.commit.address entry.commit.txnId

variable {entries : List PendingAppend}

variable (options) in
/-- **Appends alone** settle as the rows do. -/
theorem appendAlone_rows (h : Upkept F store) (hentries : NoneForgotten F entries) :
    (store.appendAlone options entries).1 = (store.db.appendEach options entries).1 ∧
      (store.appendAlone options entries).2.db = (store.db.appendEach options entries).2 ∧
      Upkept F (store.appendAlone options entries).2 := by
  induction entries generalizing store with
  | nil => exact ⟨rfl, rfl, h⟩
  | cons entry entries ih =>
    have hfirst := hentries entry List.mem_cons_self
    obtain ⟨hanswer, hdb⟩ := append_rows options h entry hfirst false false
    have hnext := append_upkept options h entry false false
    obtain ⟨hlater, hlast, hkept⟩ :=
      ih hnext (fun other hother => hentries other (List.mem_cons_of_mem _ hother))
    rw [hdb] at hlater hlast
    simp only [CommitStore.appendAlone, CommitsDb.appendEach, hanswer, hlater, hlast]
    exact ⟨trivial, trivial, hkept⟩

/-- What is gathered for a group: mirrors of its partitions, and no append that
failed. -/
structure GatheredOk (F : Address → JsString → Prop) (db : CommitsDb) (g : Gathered) : Prop where
  upkept : Upkept F g.store
  tables : g.store.db = db
  mirrors : ∀ a cached, g.partitions.get a = some cached → ∃ p, Mirrors (F a) db a cached p
  known : ∀ entry ∈ g.batch, (g.partitions.get entry.commit.address).isSome
  rejected : g.rejected = []

variable (options) in
/-- **Gathering** takes the appends in order, and one of them at least. -/
theorem gather_ok (clock : GroupClock) (entries : List PendingAppend) (i : ℕ) {db : CommitsDb}
    {g : Gathered} (h : GatheredOk F db g) (hrest : g.rest = []) :
    GatheredOk F db (gather options clock i entries g) ∧
      (gather options clock i entries g).batch ++ (gather options clock i entries g).rest =
        g.batch ++ entries ∧
      (g.batch ++ entries ≠ [] → (gather options clock i entries g).batch ≠ []) := by
  induction entries generalizing i g with
  | nil =>
    refine ⟨h, ?_, ?_⟩
    · rw [gather, hrest]
    · rw [gather, List.append_nil]
      exact id
  | cons entry entries ih =>
    rw [gather]
    split
    · rename_i hlate
      exact ⟨⟨h.upkept, h.tables, h.mirrors, h.known, h.rejected⟩, rfl, fun _ => hlate.1⟩
    · simp only
      -- Whichever partition the append meets, it joins the batch.
      have hjoin : ∀ next : Gathered, GatheredOk F db next → next.rest = [] →
          next.batch = g.batch ++ [entry] →
          GatheredOk F db (gather options clock (i + 1) entries next) ∧
            (gather options clock (i + 1) entries next).batch ++
              (gather options clock (i + 1) entries next).rest = g.batch ++ entry :: entries ∧
            (g.batch ++ entry :: entries ≠ [] →
              (gather options clock (i + 1) entries next).batch ≠ []) := by
        intro next hnext hnextRest hbatch
        obtain ⟨hok, hsplit, hsome⟩ := ih (i + 1) hnext hnextRest
        rw [hbatch] at hsplit hsome
        refine ⟨hok, ?_, fun _ => hsome (by simp)⟩
        rw [hsplit, List.append_assoc]
        rfl
      split
      · rename_i cached hget
        refine hjoin _ ⟨h.upkept, h.tables, h.mirrors, ?_, h.rejected⟩ hrest rfl
        intro other hother
        rcases List.mem_append.mp hother with hold | hnew
        · exact h.known other hold
        · rw [List.mem_singleton.mp hnew, hget]
          rfl
      · rename_i hnone
        obtain ⟨cached, self, p, hpartition, hdb, hself, hcached⟩ :=
          h.upkept.partition options entry.commit.ns entry.commit.partition
        rw [hpartition]
        simp only
        refine hjoin _ ⟨hself, hdb.trans h.tables, ?_, ?_, h.rejected⟩ hrest rfl
        · intro a other hget
          simp only [OrderedMap.get_set] at hget
          split at hget
          · rename_i heq
            cases hget
            rw [heq]
            exact ⟨p, h.tables ▸ hcached⟩
          · exact h.mirrors a other hget
        · intro other hother
          simp only [OrderedMap.get_set]
          split
          · rfl
          · rcases List.mem_append.mp hother with hold | hnew
            · exact h.known other hold
            · rename_i hne
              rw [List.mem_singleton.mp hnew] at hne
              exact absurd rfl hne

/-- A snapshot that was written of a partition: it is the state the rows stand for,
or an earlier one. -/
def SnapshotOf (db : CommitsDb) (a : Address) (row : SnapshotRow) : Prop :=
  ∃ p, Standing db a p ∧ row.seq ≤ p.seq ∧ (row.seq = p.seq → row = p.snapshotRow)

variable {a : Address} {p : Partition}

theorem SnapshotOf.written {db : CommitsDb} {row : SnapshotRow} {commit : Commit} {next : Partition}
    (h : SnapshotOf db a row) (hp : Standing db commit.address p)
    (hland : p.Landed commit false false next) :
    SnapshotOf (db.withCommit options commit next) a row := by
  obtain ⟨q, hq, hle, hsame⟩ := h
  by_cases ha : commit.address = a
  · subst ha
    have hseq := (hq.unique hp).state.seq
    have hnext : next.seq = p.seq + 1 := hland.next_seq.trans hland.seq
    exact ⟨next, hp.written hland, by omega, fun heq => by omega⟩
  · exact ⟨q, hq.sameRows (withCommit_sameRows ha), hle, hsame⟩

/-- A group transaction under way: its rows stand, its partitions mirror them but
those in doubt, and what is cached of the others does too. -/
structure RunOk (F : Address → JsString → Prop) (store : CommitStore) (run : GroupRun) : Prop where
  order : run.db.InOrder
  stands : run.db.Stands
  mirrors : ∀ a cached, run.partitions.get a = some cached → a ∉ run.dropped →
    ∃ p, Mirrors (F a) run.db a cached p
  others : ∀ a cached, store.cache.get a = some cached → run.partitions.get a = none →
    ∃ p, Mirrors (F a) run.db a cached p
  snapshots : ∀ w ∈ run.snapshots, SnapshotOf run.db w.1.address w.2

variable {run : GroupRun}

theorem RunOk.replace (h : RunOk F store run) {after : CachedPartition}
    (hafter : Mirrors (F a) run.db a after p) (settled : List Settled)
    (stale : Option PendingAppend) (rest : List PendingAppend) :
    RunOk F store { run with
      partitions := run.partitions.set a after
      settled := settled
      stale := stale
      rest := rest } := by
  refine ⟨h.order, h.stands, ?_, ?_, h.snapshots⟩
  · intro b cached hget hdropped
    simp only [OrderedMap.get_set] at hget
    split at hget
    · rename_i heq
      cases hget
      rw [heq]
      exact ⟨p, hafter⟩
    · exact h.mirrors b cached hget hdropped
  · intro b cached hget hnone
    simp only [OrderedMap.get_set] at hnone
    split at hnone
    · cases hnone
    · exact h.others b cached hget hnone

theorem RunOk.drop (h : RunOk F store run) (after : CachedPartition) (settled : List Settled)
    (rest : List PendingAppend) :
    RunOk F store { run with
      partitions := run.partitions.set a after
      settled := settled
      dropped := run.dropped ++ [a]
      rest := rest } := by
  refine ⟨h.order, h.stands, ?_, ?_, h.snapshots⟩
  · intro b cached hget hdropped
    simp only [List.mem_append, List.mem_singleton, not_or] at hdropped
    simp only [OrderedMap.get_set, if_neg hdropped.2] at hget
    exact h.mirrors b cached hget hdropped.1
  · intro b cached hget hnone
    simp only [OrderedMap.get_set] at hnone
    split at hnone
    · cases hnone
    · exact h.others b cached hget hnone

/-- A commit's rows are written. -/
theorem RunOk.write (h : RunOk F store run) {commit : Commit} {after : CachedPartition}
    {next : Partition} (hp : Standing run.db commit.address p)
    (hland : p.Landed commit false false next)
    (hafter : Mirrors (F commit.address) (run.db.withCommit options commit next) commit.address
      after next) (settled : List Settled) :
    RunOk F store { run with
      db := run.db.withCommit options commit next
      partitions := run.partitions.set commit.address after
      settled := settled
      snapshots := run.snapshots ++
        (if snapshotDue options next.seq then some next.snapshotRow else none).toList.map
          (fun row => (commit, row)) } := by
  refine ⟨withCommit_inOrder h.order commit next, h.stands.written hp hland, ?_, ?_, ?_⟩
  · intro b cached hget hdropped
    simp only [OrderedMap.get_set] at hget
    split at hget
    · rename_i heq
      cases hget
      rw [heq]
      exact ⟨next, hafter⟩
    · rename_i hne
      obtain ⟨q, hq⟩ := h.mirrors b cached hget hdropped
      exact ⟨q, hq.sameRows (withCommit_sameRows (Ne.symm hne))⟩
  · intro b cached hget hnone
    simp only [OrderedMap.get_set] at hnone
    split at hnone
    · cases hnone
    · rename_i hne
      obtain ⟨q, hq⟩ := h.others b cached hget hnone
      exact ⟨q, hq.sameRows (withCommit_sameRows (Ne.symm hne))⟩
  · intro w hw
    rcases List.mem_append.mp hw with hold | hnew
    · exact (h.snapshots w hold).written hp hland
    · obtain ⟨row, hrow, rfl⟩ := List.mem_map.mp hnew
      have hsome := Option.mem_toList.mp hrow
      split at hsome
      · cases hsome
        exact ⟨next, hp.written hland, le_refl _, fun _ => rfl⟩
      · cases hsome

/-- What a batch leaves of a run: the appends it settled, in order, one of them at
least, none of them stale, as the rows alone would. -/
structure BatchOk (F : Address → JsString → Prop) (options : StoreOptions) (store : CommitStore)
    (entries : List PendingAppend) (run last : GroupRun) : Prop where
  ok : RunOk F store last
  fresh : last.stale = none
  settled : ∃ processed, entries = processed ++ last.rest ∧ (entries ≠ [] → processed ≠ []) ∧
    (NoneForgotten F entries →
      last.settled = run.settled ++ (run.db.appendEach options processed).1 ∧
        last.db = (run.db.appendEach options processed).2)

/-- The rest of a batch after its first append. -/
theorem BatchOk.cons {entry : PendingAppend} {mid last : GroupRun}
    (h : BatchOk F options store entries mid last)
    (hfirst : ¬ F entry.commit.address entry.commit.txnId →
      ∃ result, run.db.appendRows options entry false = (result, mid.db) ∧
        mid.settled = run.settled ++ [(entry, result)]) :
    BatchOk F options store (entry :: entries) run last := by
  obtain ⟨processed, hsplit, -, hrows⟩ := h.settled
  refine ⟨h.ok, h.fresh, entry :: processed, by rw [hsplit]; rfl, fun _ => by simp, ?_⟩
  intro hnone
  obtain ⟨result, happend, hsettled⟩ := hfirst (hnone entry List.mem_cons_self)
  obtain ⟨hlast, hdb⟩ := hrows (fun other hother => hnone other (List.mem_cons_of_mem _ hother))
  rw [hlast, hdb, hsettled]
  simp only [CommitsDb.appendEach, happend, List.append_assoc, List.cons_append, List.nil_append]
  exact ⟨trivial, trivial⟩

variable (options) in
/-- **The commits of a batch**, one savepoint after the other. -/
theorem runBatch_ok (entries : List PendingAppend) (h : RunOk F store run)
    (hdropped : run.dropped = []) (hrest : run.rest = []) (hstale : run.stale = none)
    (hknown : ∀ entry ∈ entries, (run.partitions.get entry.commit.address).isSome) :
    BatchOk F options store entries run (runBatch options entries run) := by
  induction entries generalizing run with
  | nil =>
    rw [runBatch]
    refine ⟨h, hstale, [], by rw [hrest]; rfl, fun hne => absurd rfl hne, fun _ => ?_⟩
    exact ⟨by simp [CommitsDb.appendEach], rfl⟩
  | cons entry entries ih =>
    obtain ⟨cached, hcached⟩ :=
      Option.isSome_iff_exists.mp (hknown entry List.mem_cons_self)
    have hof : run.partitionOf entry.commit = cached := by
      unfold GroupRun.partitionOf
      rw [hcached]
      rfl
    obtain ⟨p, hp⟩ := h.mirrors _ cached hcached (by simp [hdropped])
    have hmirrors := apply_mirrors options entry.commit hp false
      entry.fails
    have hrows := fun hF => appendRows_eq options entry hp hF false false
    have hothers : ∀ after : CachedPartition, ∀ other ∈ entries,
        ((run.partitions.set entry.commit.address after).get other.commit.address).isSome := by
      intro after other hother
      rw [OrderedMap.get_set]
      split
      · rfl
      · exact hknown other (List.mem_cons_of_mem _ hother)
    rw [runBatch]
    simp only [hof]
    generalize applyInTransaction options run.db entry.commit cached false entry.fails =
      outcome at hmirrors hrows
    cases hmirrors with
    | @failed e after hafter =>
      simp only
      split
      · rename_i hrejection
        refine (ih (h.replace (hafter hrejection) _ _ _)
          hdropped hrest hstale (hothers after)).cons ?_
        intro hF
        exact ⟨.error e, hrows hF, rfl⟩
      · refine ⟨h.drop after _ _, hstale, [entry], rfl, fun _ => by simp, ?_⟩
        intro hnone
        have happend := hrows (hnone entry List.mem_cons_self)
        simp only [CommitsDb.appendEach, happend, CommitsDb.settle]
        exact ⟨trivial, trivial⟩
    | @duplicate seq after hafter =>
      refine (ih (h.replace hafter _ _ _)
        hdropped hrest hstale (hothers after)).cons ?_
      intro hF
      exact ⟨.ok (.duplicate seq), hrows hF, rfl⟩
    | @written next after hland hafter =>
      refine (ih (h.write hp.standing hland hafter _) hdropped hrest hstale
        (hothers after)).cons ?_
      intro hF
      exact ⟨.ok (.appended entry.commit.seq), hrows hF, rfl⟩

theorem get_mutate (store : CommitStore) (b a : Address) (cached : CachedPartition) :
    (store.mutate b cached).cache.get a =
      (store.cache.get a).map (fun old => if a = b then cached else old) := by
  unfold CommitStore.mutate OrderedMap.has
  cases hb : store.cache.get b with
  | none =>
    simp only [Option.isSome_none, Bool.false_eq_true, if_false]
    by_cases ha : a = b
    · rw [ha, hb]
      rfl
    · simp [ha]
  | some old =>
    simp only [Option.isSome_some, if_true, OrderedMap.get_set]
    by_cases ha : a = b
    · rw [ha, hb]
      simp
    · simp [ha]

theorem get_mutateAll (store : CommitStore) (m : OrderedMap Address CachedPartition)
    (a : Address) :
    (store.mutateAll m.entries).cache.get a =
      (store.cache.get a).map (fun old => (m.get a).getD old) := by
  have hgeneral : ∀ (entries : List (Address × CachedPartition))
      (hkeys : (entries.map Prod.fst).Nodup) (store : CommitStore),
      (store.mutateAll entries).cache.get a =
        (store.cache.get a).map
          (fun old => ((⟨entries, hkeys⟩ : OrderedMap Address CachedPartition).get a).getD old) := by
    intro entries
    induction entries with
    | nil =>
      intro _ store
      simp [CommitStore.mutateAll, OrderedMap.get]
    | cons entry entries ih =>
      intro hkeys store
      obtain ⟨b, cached⟩ := entry
      have hrest := (List.nodup_cons.mp hkeys).2
      have hget : (⟨(b, cached) :: entries, hkeys⟩ : OrderedMap Address CachedPartition).get a =
          if a = b then some cached
          else (⟨entries, hrest⟩ : OrderedMap Address CachedPartition).get a :=
        OrderedMap.lookup_cons_eq a b cached entries
      have hfold : store.mutateAll ((b, cached) :: entries) =
          (store.mutate b cached).mutateAll entries := rfl
      rw [hfold, ih hrest, get_mutate, Option.map_map, hget]
      congr 1
      funext old
      simp only [Function.comp]
      by_cases ha : a = b
      · -- The keys of a map are distinct: no later entry is of this partition.
        have hnone : (⟨entries, hrest⟩ : OrderedMap Address CachedPartition).get a = none := by
          rw [← Option.not_isSome_iff_eq_none, ← OrderedMap.mem_keys, ha]
          exact (List.nodup_cons.mp hkeys).1
        rw [hnone, if_pos ha, if_pos ha]
        rfl
      · rw [if_neg ha, if_neg ha]
  exact hgeneral m.entries m.nodup store

/-- **The store after a group's transaction**: its cache mirrors the rows. -/
theorem RunOk.committed (h : RunOk F store run) :
    Upkept F (({ store with db := run.db }.mutateAll run.partitions.entries).forgetAll
      run.dropped) := by
  refine ⟨?_, ?_, ?_⟩
  · rw [CommitStore.forgetAll_db, CommitStore.mutateAll_db]
    exact h.order
  · rw [CommitStore.forgetAll_db, CommitStore.mutateAll_db]
    exact h.stands
  · intro a cached hget
    rw [CommitStore.forgetAll_db, CommitStore.mutateAll_db]
    rw [get_forgetAll] at hget
    split at hget
    · cases hget
    · rename_i hdropped
      rw [get_mutateAll, Option.map_eq_some_iff] at hget
      obtain ⟨old, hold, hcached⟩ := hget
      cases hchanged : run.partitions.get a with
      | none =>
        rw [hchanged] at hcached
        cases hcached
        exact h.others a _ hold hchanged
      | some changed =>
        rw [hchanged] at hcached
        cases hcached
        exact h.mirrors a _ hchanged hdropped

theorem restoreAll_upkept (h : Upkept F store) {written : List (Commit × SnapshotRow)}
    (hwritten : ∀ w ∈ written, SnapshotOf store.db w.1.address w.2) :
    Upkept F (written.foldl
      (fun store w => store.restoreFromSnapshot options w.1 w.2) store) := by
  induction written generalizing store with
  | nil => exact h
  | cons w written ih =>
    obtain ⟨p, hp, -, hsame⟩ := hwritten w List.mem_cons_self
    apply ih (h.restoreFromSnapshot hp hsame)
    intro other hother
    rw [CommitStore.restoreFromSnapshot_db]
    exact hwritten other (List.mem_cons_of_mem _ hother)

variable (options) in
/-- **A group's transaction.**  Whatever its clock, it upkeeps the store; when its
end does not fail, it settles its first appends, one of them at least, as the rows
alone would. -/
theorem appendGroup_ok (h : Upkept F store) (clock : GroupClock) (entries : List PendingAppend)
    (hentries : entries ≠ []) :
    Upkept F (store.appendGroup options clock entries).2.2 ∧
      (clock.commitFails = false → ∃ processed, processed ≠ [] ∧
        entries = processed ++ (store.appendGroup options clock entries).2.1 ∧
        (NoneForgotten F entries →
          (store.appendGroup options clock entries).1 =
              (store.db.appendEach options processed).1 ∧
            (store.appendGroup options clock entries).2.2.db =
              (store.db.appendEach options processed).2)) := by
  have hstart : GatheredOk F store.db ⟨store, .empty, [], [], []⟩ :=
    ⟨h, rfl, fun _ _ hget => (Option.some_ne_none _ hget.symm).elim,
      fun _ hentry => (List.not_mem_nil hentry).elim, rfl⟩
  obtain ⟨hgathered, hsplit, hsome⟩ := gather_ok options clock entries 0 hstart rfl
  unfold CommitStore.appendGroup
  simp only
  generalize gather options clock 0 entries ⟨store, .empty, [], [], []⟩ = gathered
    at hgathered hsplit hsome ⊢
  have hrun : RunOk F gathered.store
      ⟨gathered.store.db, gathered.partitions, [], [], [], none, []⟩ := by
    refine ⟨hgathered.upkept.order, hgathered.upkept.stands, ?_, ?_, ?_⟩
    · intro a cached hget _
      rw [hgathered.tables]
      exact hgathered.mirrors a cached hget
    · intro a cached hget _
      exact hgathered.upkept.cached a cached hget
    · intro w hw
      cases hw
  have hbatch := runBatch_ok options gathered.batch hrun rfl rfl rfl
    hgathered.known
  generalize runBatch options gathered.batch
    ⟨gathered.store.db, gathered.partitions, [], [], [], none, []⟩ = run at hbatch ⊢
  obtain ⟨hok, hfresh, processed, hprocessed, hsomeProcessed, hrows⟩ := hbatch
  split
  · rename_i hfails
    refine ⟨hgathered.upkept.forgetAll _, fun hnot => ?_⟩
    rw [hnot] at hfails
    cases hfails
  · rw [hfresh]
    simp only
    have hcommitted := hok.committed
    have hrestored : Upkept F (run.snapshots.foldl
        (fun store w => store.restoreFromSnapshot options w.1 w.2)
        (({ gathered.store with db := run.db }.mutateAll run.partitions.entries).forgetAll
          run.dropped)) := by
      apply restoreAll_upkept hcommitted
      rw [CommitStore.forgetAll_db, CommitStore.mutateAll_db]
      exact hok.snapshots
    refine ⟨hrestored, fun _ => ⟨processed, ?_, ?_, ?_⟩⟩
    · refine hsomeProcessed (hsome ?_)
      simpa using hentries
    · rw [List.nil_append] at hsplit
      rw [← hsplit, ← List.append_assoc, ← hprocessed]
    · intro hnone
      obtain ⟨hsettled, hdb⟩ := hrows (fun entry hentry => hnone entry
        (by rw [← List.nil_append entries, ← hsplit]; exact List.mem_append_left _ hentry))
      rw [CommitStore.restoreAll_db, CommitStore.forgetAll_db, CommitStore.mutateAll_db, hsettled,
        hdb, hgathered.tables, hgathered.rejected]
      exact ⟨rfl, rfl⟩

variable (options) in
/-- **A drained group**, whatever its clock, upkeeps the store. -/
theorem drain_upkept (h : Upkept F store) (clock : ℕ → GroupClock) (n : ℕ)
    (entries : List PendingAppend) : Upkept F (store.drain options clock n entries).2 := by
  induction n generalizing store entries with
  | zero =>
    unfold CommitStore.drain
    exact h
  | succ n ih =>
    cases entries with
    | nil =>
      unfold CommitStore.drain
      exact h
    | cons first rest =>
      cases rest with
      | nil =>
        rw [CommitStore.drain]
        exact append_upkept _ h first false _
      | cons second rest =>
        rw [CommitStore.drain]
        · exact ih (appendGroup_ok _ h (clock n) _ (by simp)).1 _
        · simp
        · simp

variable (options) in
/-- **A drained group settles as the rows alone would**, when no transaction's end
fails. -/
theorem drain_rows (h : Upkept F store) {clock : ℕ → GroupClock}
    (hclock : ∀ n, (clock n).commitFails = false) {n : ℕ} (hfuel : entries.length ≤ n)
    (hnone : NoneForgotten F entries) :
    (store.drain options clock n entries).1 = (store.db.appendEach options entries).1 ∧
      (store.drain options clock n entries).2.db = (store.db.appendEach options entries).2 := by
  induction n generalizing store entries with
  | zero =>
    have hnil : entries = [] := List.length_eq_zero_iff.mp (Nat.le_zero.mp hfuel)
    subst hnil
    unfold CommitStore.drain
    exact ⟨rfl, rfl⟩
  | succ n ih =>
    cases entries with
    | nil =>
      unfold CommitStore.drain
      exact ⟨rfl, rfl⟩
    | cons first rest =>
      cases rest with
      | nil =>
        obtain ⟨hanswer, hdb⟩ := append_rows options h first
          (hnone first List.mem_cons_self) false false
        rw [CommitStore.drain]
        simp only [hclock, CommitsDb.appendEach, hanswer, hdb]
        exact ⟨trivial, trivial⟩
      | cons second rest =>
        rw [CommitStore.drain]
        · obtain ⟨hkept, hgroup⟩ := appendGroup_ok options h (clock n)
            (first :: second :: rest) (by simp)
          obtain ⟨processed, hne, hsplit, hrows⟩ := hgroup (hclock n)
          obtain ⟨hsettled, hdb⟩ := hrows hnone
          have hpos := List.length_pos_of_ne_nil hne
          have hlength := congrArg List.length hsplit
          rw [List.length_append] at hlength
          have hwaiting : ∀ entry ∈
              (store.appendGroup options (clock n) (first :: second :: rest)).2.1,
              ¬ F entry.commit.address entry.commit.txnId := fun entry hentry =>
            hnone entry (by rw [hsplit]; exact List.mem_append_right _ hentry)
          obtain ⟨hlater, hlast⟩ := ih hkept (by omega) hwaiting
          rw [hdb] at hlater hlast
          have heach := appendEach_append options store.db processed
            (store.appendGroup options (clock n) (first :: second :: rest)).2.1
          rw [← hsplit] at heach
          simp only [hsettled, hlater, hlast, heach]
          exact ⟨trivial, trivial⟩
        · simp
        · simp

/-- **Every call upkeeps the store.** -/
theorem call_upkept (h : Upkept anyTxn store) (call : StoreCall) :
    Upkept anyTxn (store.call options call) := by
  cases call with
  | appends clock entries => exact drain_upkept _ h clock _ entries
  | raiseWriterFence fence => exact raiseWriterFence_upkept fence h
  | compactHistory compaction through => exact compactHistory_upkept compaction through h
  | truncateAfter mark now commitFails => exact truncateAfter_upkept mark now commitFails h
  | readPartition ns key =>
    obtain ⟨cached, self, p, hpartition, -, hself, -⟩ := h.partition options ns key
    change Upkept anyTxn (store.partition options ns key).2
    rw [hpartition]
    exact hself
  | reopen => exact upkept_opened h.order h.stands

/-- **Every store that a run reaches is upkept.** -/
theorem run_upkept (options : StoreOptions) (calls : List StoreCall) :
    Upkept anyTxn (CommitStore.run options calls) := by
  unfold CommitStore.run
  induction calls using List.reverseRecOn with
  | nil => exact upkept_created
  | append_singleton calls call ih =>
    rw [List.foldl_append]
    exact call_upkept ih call

/-- Groups of appends, one after the other. -/
def CommitStore.appendGroups (options : StoreOptions) :
    CommitStore → List ((ℕ → GroupClock) × List PendingAppend) → List Settled × CommitStore
  | self, [] => ([], self)
  | self, group :: groups =>
    let (settled, next) := self.appends options group.1 group.2
    let (later, last) := appendGroups options next groups
    (settled ++ later, last)

variable (options) in
theorem appendGroups_rows (h : Upkept F store)
    {groups : List ((ℕ → GroupClock) × List PendingAppend)}
    (hcommits : ∀ group ∈ groups, ∀ n, (group.1 n).commitFails = false)
    (hnone : ∀ group ∈ groups, NoneForgotten F group.2) :
    (store.appendGroups options groups).1 =
        (store.db.appendEach options (groups.flatMap Prod.snd)).1 ∧
      (store.appendGroups options groups).2.db =
        (store.db.appendEach options (groups.flatMap Prod.snd)).2 ∧
      Upkept F (store.appendGroups options groups).2 := by
  induction groups generalizing store with
  | nil => exact ⟨rfl, rfl, h⟩
  | cons group groups ih =>
    obtain ⟨hsettled, hdb⟩ := drain_rows options h
      (hcommits group List.mem_cons_self) (le_refl group.2.length)
      (hnone group List.mem_cons_self)
    have hnext := drain_upkept options h group.1 group.2.length group.2
    obtain ⟨hlater, hlast, hkept⟩ := ih hnext
      (fun other hother => hcommits other (List.mem_cons_of_mem _ hother))
      (fun other hother => hnone other (List.mem_cons_of_mem _ hother))
    rw [hdb] at hlater hlast
    rw [List.flatMap_cons, appendEach_append]
    simp only [CommitStore.appendGroups, CommitStore.appends, hsettled, hlater, hlast]
    exact ⟨trivial, trivial, hkept⟩

/-- Every cached partition is what a rebuild gives. -/
def CommitStore.CacheRebuilds (self : CommitStore) : Prop :=
  ∀ (ns : JsString) (key : PartitionKey) (cached : CachedPartition),
    self.cache.get (ns, key.value) = some cached →
      ∃ rebuilt, self.db.rebuild ns key maxSafeInteger = .ok rebuilt ∧
        rebuilt.partition.SameState cached.partition ∧
        ∀ txnId, (cached.view self.db (ns, key.value)).hasTxn txnId =
          (rebuilt.view self.db (ns, key.value)).hasTxn txnId

/-- No cached partition knows a txnId that the tables do not. -/
def CommitStore.NothingForgotten (self : CommitStore) : Prop :=
  ∀ a txnId, ¬ self.forgotten a txnId

theorem Upkept.rebuilds (h : Upkept (fun _ => nothing) store) : store.CacheRebuilds := by
  intro ns key cached hget
  obtain ⟨p, hp⟩ := h.cached _ _ hget
  obtain ⟨rebuilt, hrebuild, hmirrors⟩ := hp.standing.rebuild_mirrors
  have halike : Alike nothing (rebuilt.view store.db (ns, key.value))
      (cached.view store.db (ns, key.value)) := hmirrors.alike.symm.trans hp.alike
  have hstate : ∀ c : CachedPartition,
      c.partition.SameState (c.view store.db (ns, key.value)) := by
    intro c
    unfold CachedPartition.view
    split
    · exact SameState.refl _
    · exact ⟨rfl, rfl, rfl, rfl, rfl, rfl⟩
  exact ⟨rebuilt, hrebuild, ((hstate rebuilt).trans halike.state).trans (hstate cached).symm,
    fun txnId => halike.hasTxn txnId (fun hfalse => hfalse)⟩

/-- **Group commit equals appends alone** exactly where nothing is forgotten.  From a store
that a run reaches, appends queued in any groups, under any clocks whose transactions end
well, settle as the same appends one after the other and leave the same rows, with what is
cached what a rebuild gives, for every sequence of appends: when and only when no cached
partition of that store knows a txnId that the tables, which pruning made forget it, do
not. -/
theorem group_commit_eq_alone (options : StoreOptions) (calls : List StoreCall) :
    (∀ groups : List ((ℕ → GroupClock) × List PendingAppend),
      (∀ group ∈ groups, ∀ n, (group.1 n).commitFails = false) →
        let store := CommitStore.run options calls
        let grouped := store.appendGroups options groups
        let alone := store.appendAlone options (groups.flatMap Prod.snd)
        grouped.1 = alone.1 ∧ grouped.2.db = alone.2.db ∧
          grouped.2.CacheRebuilds ∧ alone.2.CacheRebuilds) ↔
      (CommitStore.run options calls).NothingForgotten := by
  have hkept := run_upkept options calls
  constructor
  · intro hall a txnId hforgotten
    obtain ⟨cached, hget, hheld, hnone⟩ := hforgotten
    have hcache : (CommitStore.run options calls).CacheRebuilds :=
      (hall [] (fun _ hgroup => (List.not_mem_nil hgroup).elim)).2.2.1
    obtain ⟨p, hp⟩ := hkept.cached a cached hget
    obtain ⟨ns, partition⟩ := a
    obtain rfl : p.key.value = partition := hp.standing.key
    -- What a rebuild knows is in the tables.
    obtain ⟨rebuilt, hrebuild, -, htxns⟩ := hcache ns p.key cached hget
    obtain ⟨other, hother, hmirrors⟩ := hp.standing.rebuild_mirrors
    obtain rfl := Except.ok.inj (hrebuild.symm.trans hother)
    rw [htxns, hmirrors.alike.hasTxn txnId (fun hfalse => hfalse), hp.standing.hasTxn_iff] at hheld
    have hsome := txnSeq_isSome hheld
    rw [hnone] at hsome
    cases hsome
  · intro hnothing groups hcommits
    have hclean : Upkept (fun _ => nothing) (CommitStore.run options calls) := by
      refine ⟨hkept.order, hkept.stands, fun a cached hget => ?_⟩
      obtain ⟨p, hp⟩ := hkept.forgotten.cached a cached hget
      exact ⟨p, hp.mono (hnothing a)⟩
    have hnone : ∀ entries : List PendingAppend, NoneForgotten (fun _ => nothing) entries :=
      fun _ _ _ hfalse => hfalse
    obtain ⟨hgrouped, hdb, hlast⟩ := appendGroups_rows options hclean hcommits
      (fun group _ => hnone group.2)
    obtain ⟨halone, hdb', hlast'⟩ := appendAlone_rows options hclean
      (hnone (groups.flatMap Prod.snd))
    exact ⟨hgrouped.trans halone.symm, hdb.trans hdb'.symm, hlast.rebuilds, hlast'.rebuilds⟩

/-- A clock that nothing is late on and whose transactions end well. -/
def steadyClock (_ : ℕ) : GroupClock := ⟨fun _ => false, false, false⟩

/-- Two commits of a new store, queued together. -/
def firstGroup : List PendingAppend :=
  [⟨sampleCommit 1 version1.pos version1.safe (js "t1") [], false⟩,
    ⟨sampleCommit 2 version2.pos version2.safe (js "t2") [], false⟩]

/-- A store that keeps one partition in memory. -/
def narrowOptions : StoreOptions := ⟨1, 100, true, version1.pos, smallOptions.interval_pos⟩

/-- The commits of two transactions, compacted with the first one's txnId
forgotten. -/
def prunedCalls : List StoreCall :=
  [.appends steadyClock firstGroup, .compactHistory pruningCompaction 2]

/-- A commit, one of another namespace, and the forgotten txnId again. -/
def prunedGroup : List PendingAppend :=
  [⟨sampleCommit 3 version3.pos version3.safe (js "t3") [], false⟩,
    ⟨{ sampleCommit 1 version1.pos version1.safe (js "t1") [] with ns := js "other" }, false⟩,
    ⟨sampleCommit 4 (by decide) (by decide) (js "t1") [], false⟩]

/-- Whether an append settled to the error that its txnId is not stored. -/
def Settled.isLostTxn (settled : Settled) : Bool := (SoloAnswer.appended settled.2).isLostTxn

/-- **Group commit tells a forgotten txnId apart**: queued together the retry is a
corruption error, alone it lands, since the other namespace took its partition's
place in the cache. -/
theorem pruned_group_apart :
    ((CommitStore.run narrowOptions prunedCalls).appendGroups narrowOptions
        [(steadyClock, prunedGroup)]).1 ≠
      ((CommitStore.run narrowOptions prunedCalls).appendAlone narrowOptions prunedGroup).1 := by
  have hgrouped : ((CommitStore.run narrowOptions prunedCalls).appendGroups narrowOptions
      [(steadyClock, prunedGroup)]).1.map Settled.isLostTxn = [false, false, true] := by
    decide +kernel
  have halone : ((CommitStore.run narrowOptions prunedCalls).appendAlone narrowOptions
      prunedGroup).1.map Settled.isLostTxn = [false, false, false] := by
    decide +kernel
  intro heq
  rw [heq, halone] at hgrouped
  cases hgrouped

end Swamp
