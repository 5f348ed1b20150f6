import Swamp.StoreStanding

/-!
# Partitions in memory

A store changes a cached partition before the rows of a commit are written, drops
it when they fail, and may rebuild it at any time.  `Mirrors F db a cached p` says
that a cached partition is the state `p` the rows stand for; it may still hold
txnIds that pruning has forgotten (`F`), never fewer than the rows.
-/

namespace Swamp

open Js Swamp.Partition

/-- A partition in memory mirrors the state its rows stand for. -/
structure Mirrors (F : JsString → Prop) (db : CommitsDb) (a : Address) (cached : CachedPartition)
    (p : Partition) : Prop where
  standing : Standing db a p
  alike : Alike F p (cached.view db a)
  knows : ∀ txnId, p.hasTxn txnId = true → (cached.view db a).hasTxn txnId = true
  upTo : ∀ n, cached.upTo = some n → n ≤ p.seq

variable {options : StoreOptions} {F : JsString → Prop} {db : CommitsDb} {a : Address}

/-- A view with the txnIds of its tables put in. -/
theorem view_view (cached : CachedPartition) (db : CommitsDb) (a : Address) :
    ({ cached with partition := cached.view db a } : CachedPartition).view db a =
      cached.view db a := by
  unfold CachedPartition.view
  cases cached.upTo with
  | none | some n => rfl

theorem view_sameRows {next : CommitsDb} (h : SameRows a db next) (cached : CachedPartition) :
    cached.view next a = cached.view db a := by
  unfold CachedPartition.view
  split
  · rfl
  · rw [h.txnUpTo]

variable {cached : CachedPartition} {p : Partition}

theorem Mirrors.sameRows {next : CommitsDb} (h : Mirrors F db a cached p)
    (hrows : SameRows a db next) : Mirrors F next a cached p := by
  refine ⟨h.standing.sameRows hrows, ?_, ?_, h.upTo⟩
  · rw [view_sameRows hrows]
    exact h.alike
  · rw [view_sameRows hrows]
    exact h.knows

theorem Mirrors.mono {G : JsString → Prop} (h : Mirrors F db a cached p)
    (hFG : ∀ txnId, F txnId → G txnId) : Mirrors G db a cached p :=
  ⟨h.standing, h.alike.mono hFG, h.knows, h.upTo⟩

/-- A mirror taken in again, with the txnIds put in. -/
theorem Mirrors.viewed (h : Mirrors F db a cached p) :
    Mirrors F db a { cached with partition := cached.view db a } p := by
  refine ⟨h.standing, ?_, ?_, h.upTo⟩
  · rw [view_view]
    exact h.alike
  · rw [view_view]
    exact h.knows

/-- What a rebuild gives is a mirror. -/
theorem Standing.rebuild_mirrors {ns : JsString} {key : PartitionKey}
    (h : Standing db (ns, key.value) p) :
    ∃ cached, db.rebuild ns key maxSafeInteger = .ok cached ∧
      Mirrors nothing db (ns, key.value) cached p := by
  obtain ⟨cached, hrebuild, halike, hcurrent, hupTo⟩ := h.rebuild
  refine ⟨cached, hrebuild, h, ?_, ?_, hupTo⟩
  · rw [hcurrent.view]
    exact halike
  · intro txnId htxn
    rw [hcurrent.view, halike.hasTxn txnId (fun hF => hF)]
    exact htxn

variable {commit : Commit}

theorem applyInTransaction_eq (retried fails : Bool)
    (hhead : db.headSeq commit.address = (cached.view db commit.address).seq) :
    applyInTransaction options db commit cached retried fails =
      match (cached.view db commit.address).append commit false with
      | (.error e, after) => (.error (.rejected e), { cached with partition := after })
      | (.ok .duplicate, after) =>
        match db.txnSeq commit.address commit.txnId with
        | none =>
          (.error (.corrupt commit.address after.seq (.txnNotStored commit.txnId)),
            { cached with partition := after })
        | some seq => (.ok (.duplicate seq), { cached with partition := after })
      | (.ok (.appended seq), after) =>
        match db.writeCommit options commit after with
        | .error e => (.error e, { cached with partition := after })
        | .ok (next, snapshot) =>
          if fails then (.error .afterAppendWrites, { cached with partition := after })
          else (.ok (.written seq next snapshot), { cached with partition := after }) := by
  unfold applyInTransaction
  refine (if_neg (fun hstale => hstale hhead)).trans ?_
  rfl

theorem Mirrors.head (h : Mirrors F db a cached p) : db.headSeq a = (cached.view db a).seq := by
  rw [h.standing.headSeq_eq, h.alike.state.seq]

/-- A txnId that is known has a seq. -/
theorem txnSeq_isSome {txnId : JsString} (h : db.Knows a txnId) : (db.txnSeq a txnId).isSome := by
  unfold CommitsDb.txnSeq
  split
  · rfl
  · rename_i hnone
    rcases h with hstored | ⟨txn, htxn, haddr, hid⟩
    · obtain ⟨c, hc, hid⟩ := List.mem_map.mp hstored
      obtain ⟨row, hrow, rfl⟩ := List.mem_map.mp hc
      have hnot := List.find?_eq_none.mp hnone row hrow
      simp [hid] at hnot
    · rw [Option.isSome_map, List.find?_isSome]
      exact ⟨txn, htxn, by simp [haddr, hid]⟩

theorem txnSeq_none {txnId : JsString} (h : ¬ db.Knows a txnId) : db.txnSeq a txnId = none := by
  unfold CommitsDb.txnSeq
  split
  · rename_i row hrow
    have hmem := List.mem_of_find?_eq_some hrow
    have hid : row.commit.txnId = txnId := by simpa using List.find?_some hrow
    exact absurd (Or.inl (List.mem_map.mpr
      ⟨row.commit, List.mem_map.mpr ⟨row, hmem, rfl⟩, hid⟩)) h
  · rw [Option.map_eq_none_iff, List.find?_eq_none]
    intro txn htxn hid
    simp only [decide_eq_true_eq] at hid
    exact h (Or.inr ⟨txn, htxn, hid.1, hid.2⟩)

theorem Mirrors.written {next after : Partition} (h : Mirrors F db commit.address cached p)
    (hland : p.Landed commit false false next)
    (hafter : (cached.view db commit.address).Landed commit false false after)
    (halike : Alike F next after) :
    Mirrors F (db.withCommit options commit next) commit.address
      { cached with partition := after } next := by
  have hseq : commit.seq = p.seq + 1 := hland.seq
  have hview : ({ cached with partition := after } : CachedPartition).view
      (db.withCommit options commit next) commit.address = after := by
    unfold CachedPartition.view
    cases hupTo : cached.upTo with
    | none => rfl
    | some n =>
      have hle := h.upTo n hupTo
      have hsame : (db.withCommit options commit next).txnUpTo commit.address n =
          db.txnUpTo commit.address n := by
        funext txnId
        rw [txnUpTo_withCommit, decide_eq_false (by omega), Bool.or_false]
      have hprior : after.priorTxn = db.txnUpTo commit.address n := by
        rw [hafter.priorTxn]
        simp [CachedPartition.view, hupTo]
      simp only
      rw [hsame, ← hprior]
  refine ⟨h.standing.written hland, ?_, ?_, ?_⟩
  · rw [hview]
    exact halike
  · intro txnId htxn
    rw [hland.next_hasTxn, Bool.or_eq_true] at htxn
    rw [hview, hafter.next_hasTxn, Bool.or_eq_true]
    rcases htxn with hnew | hold
    · exact Or.inl hnew
    · exact Or.inr (h.knows txnId hold)
  · intro n hn
    have hle := h.upTo n hn
    rw [hland.next_seq]
    omega

/-- A commit in a transaction changes nothing and fails, is known, or is
written. -/
inductive AppliedTo (options : StoreOptions) (F : JsString → Prop) (db : CommitsDb)
    (commit : Commit) (p : Partition) : Except StoreError Applied × CachedPartition → Prop
  | failed {e : StoreError} {after : CachedPartition}
      (hafter : e.isRejection = true → Mirrors F db commit.address after p) :
      AppliedTo options F db commit p (.error e, after)
  | duplicate {seq : ℕ} {after : CachedPartition}
      (hafter : Mirrors F db commit.address after p) :
      AppliedTo options F db commit p (.ok (.duplicate seq), after)
  | written {next : Partition} {after : CachedPartition}
      (hland : p.Landed commit false false next)
      (hafter : Mirrors F (db.withCommit options commit next) commit.address after next) :
      AppliedTo options F db commit p
        (.ok (.written commit.seq (db.withCommit options commit next)
          (if snapshotDue options next.seq then some next.snapshotRow else none)), after)

variable {taken : Partition}

/-- Two partitions with the same seq, fence and snapshot write the same rows. -/
theorem withCommit_alike {other : Partition} (h : Alike F taken other) :
    db.withCommit options commit other = db.withCommit options commit taken := by
  unfold CommitsDb.withCommit Partition.snapshotRow
  rw [h.state.seq, h.state.highestFence, h.snapshot]

theorem writeCommit_alike {other : Partition} (h : Alike F taken other) :
    db.writeCommit options commit other = db.writeCommit options commit taken := by
  rw [writeCommit_eq, writeCommit_eq, withCommit_alike h]
  unfold Partition.snapshotRow
  rw [h.state.seq, h.snapshot]

theorem writeCommit_error {e : StoreError} (h : db.writeCommit options commit taken = .error e) :
    (∃ fence stored, e = .writerFenced fence stored) ∨ e = .uniqueConstraint := by
  rw [writeCommit_eq] at h
  split at h
  · rename_i hfence
    cases h
    unfold CommitsDb.checkWriterFence at hfence
    split at hfence
    · cases hfence
    · split at hfence
      · cases hfence
        exact Or.inl ⟨_, _, rfl⟩
      · split at hfence
        · cases hfence
          exact Or.inl ⟨_, _, rfl⟩
        · cases hfence
  · split at h
    · cases h
      exact Or.inr rfl
    · cases h

variable (options) in
/-- **One commit in a transaction**, whatever its partition still remembers. -/
theorem apply_mirrors (commit : Commit) (h : Mirrors F db commit.address cached p)
    (retried fails : Bool) :
    AppliedTo options F db commit p
      (applyInTransaction options db commit cached retried fails) := by
  have hkey : commit.partition.value = (cached.view db commit.address).key.value := by
    rw [h.alike.key, h.standing.key]
    rfl
  rw [applyInTransaction_eq retried fails h.head]
  rcases apply_outcome (cached.view db commit.address) commit false false with
    ⟨e, he⟩ | ⟨hdup, -, htxn⟩ | ⟨after, happ, hafter⟩
  · simp only [Partition.append, he]
    exact AppliedTo.failed (fun _ => h.viewed)
  · simp only [Partition.append, hdup]
    split
    · exact AppliedTo.failed (fun hrejection => by cases hrejection)
    · exact AppliedTo.duplicate h.viewed
  · simp only [Partition.append, happ]
    -- What is fresh to the mirror is fresh to the rows.
    have hfresh : p.hasTxn commit.txnId = false := by
      rw [← Bool.not_eq_true]
      intro hp
      have hknown := h.knows _ hp
      rw [hafter.fresh] at hknown
      cases hknown
    have hagree : Alike (fun txnId => F txnId ∧ txnId ≠ commit.txnId) p
        (cached.view db commit.address) := by
      refine ⟨h.alike.key, h.alike.state, ?_⟩
      intro txnId hF
      by_cases heq : txnId = commit.txnId
      · rw [heq, hfresh, hafter.fresh]
      · exact h.alike.hasTxn txnId (fun hFt => hF ⟨hFt, heq⟩)
    obtain ⟨next, hland, halike⟩ := hagree.symm.landed (fun hF => hF.2 rfl) hafter
    have halike' : Alike F next after := halike.symm.mono (fun _ hF => hF.1)
    rw [writeCommit_alike halike']
    split
    · rename_i hwrite
      apply AppliedTo.failed
      intro hrejection
      rcases writeCommit_error hwrite with ⟨fence, stored, rfl⟩ | rfl
      · cases hrejection
      · cases hrejection
    · rename_i hwrite
      rw [writeCommit_eq] at hwrite
      split at hwrite
      · cases hwrite
      · split at hwrite
        · cases hwrite
        · cases hwrite
          split
          · exact AppliedTo.failed (fun hrejection => by cases hrejection)
          · exact AppliedTo.written hland (h.written hland hafter halike')

/-- **The outcome of a commit does not depend on which mirror it meets**, but for
a forgotten txnId. -/
theorem apply_alike {other : CachedPartition}
    (halike : Alike F (cached.view db commit.address) (other.view db commit.address))
    (hhead : db.headSeq commit.address = (cached.view db commit.address).seq)
    (hF : ¬ F commit.txnId) (retried fails : Bool) :
    (applyInTransaction options db commit other retried fails).1 =
      (applyInTransaction options db commit cached retried fails).1 := by
  have hhead' : db.headSeq commit.address = (other.view db commit.address).seq :=
    hhead.trans halike.state.seq
  rw [applyInTransaction_eq retried fails hhead, applyInTransaction_eq retried fails hhead']
  obtain ⟨hsame, hafter⟩ := halike.append commit hF false
  generalize (other.view db commit.address).append commit false = q at hsame hafter ⊢
  obtain ⟨answer, after⟩ := q
  simp only at hsame hafter
  subst hsame
  generalize (cached.view db commit.address).append commit false = q at hafter ⊢
  obtain ⟨answer, after'⟩ := q
  simp only at hafter ⊢
  cases answer with
  | error e => rfl
  | ok answer =>
    cases answer with
    | duplicate =>
      simp only
      rw [← hafter.state.seq]
      split
      · rfl
      · rfl
    | appended seq =>
      simp only
      rw [writeCommit_alike hafter]
      split
      · rfl
      · split
        · rfl
        · rfl

end Swamp
