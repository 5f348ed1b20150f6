import Swamp.AppendLog
import Swamp.PartitionSnapshot

/-!
# Replayed partitions

A partition in memory, one rebuilt from the same commits and one restored from a
snapshot keep their txnIds in different places and may have been given different
copies of the same key; else they are the same.  `Alike` says so, but for txnIds
that were forgotten, and `Alike.append` that no commit with a known or a new txnId
tells the two apart.

`Replays` is a sequence of stored commits landing again.  A commit that landed
once lands again (`Landed.replayed`): a replay refuses less.
-/

namespace Swamp

open Js

namespace Partition

/-- The same partition but for its copy of the key and where it keeps its txnIds;
the two may answer apart for a forgotten txnId. -/
structure Alike (F : JsString → Prop) (p q : Partition) : Prop where
  key : q.key.value = p.key.value
  state : p.SameState q
  hasTxn : ∀ txnId, ¬ F txnId → q.hasTxn txnId = p.hasTxn txnId

theorem SameState.refl (p : Partition) : p.SameState p := ⟨rfl, rfl, rfl, rfl, rfl, rfl⟩

variable {q : Partition}

theorem SameState.symm {p : Partition} (h : p.SameState q) : q.SameState p :=
  ⟨h.seq.symm, h.records.symm, h.names.symm, h.highestFence.symm, h.leaseFence.symm,
    h.leaseHolder.symm⟩

variable {r : Partition}

theorem SameState.trans {p : Partition} (hpq : p.SameState q) (hqr : q.SameState r) :
    p.SameState r :=
  ⟨hpq.seq.trans hqr.seq, hpq.records.trans hqr.records, hpq.names.trans hqr.names,
    hpq.highestFence.trans hqr.highestFence, hpq.leaseFence.trans hqr.leaseFence,
    hpq.leaseHolder.trans hqr.leaseHolder⟩

theorem SameState.sound {p : Partition} (h : p.SameState q) (hp : p.Sound) : q.Sound where
  seq_safe := h.seq ▸ hp.seq_safe
  holder_ne := h.leaseHolder ▸ hp.holder_ne
  holder_fence := h.leaseHolder ▸ h.leaseFence ▸ hp.holder_fence
  names := h.names ▸ hp.names

variable {F : JsString → Prop}

theorem Alike.refl (F : JsString → Prop) (p : Partition) : Alike F p p :=
  ⟨rfl, SameState.refl p, fun _ _ => rfl⟩

theorem Alike.symm {p : Partition} (h : Alike F p q) : Alike F q p :=
  ⟨h.key.symm, h.state.symm, fun txnId hF => (h.hasTxn txnId hF).symm⟩

theorem Alike.trans {p : Partition} (hpq : Alike F p q) (hqr : Alike F q r) : Alike F p r :=
  ⟨hqr.key.trans hpq.key, hpq.state.trans hqr.state,
    fun txnId hF => (hqr.hasTxn txnId hF).trans (hpq.hasTxn txnId hF)⟩

theorem Alike.mono {G : JsString → Prop} {p : Partition} (h : Alike F p q)
    (hFG : ∀ txnId, F txnId → G txnId) : Alike G p q :=
  ⟨h.key, h.state, fun txnId hG => h.hasTxn txnId (fun hF => hG (hFG txnId hF))⟩

theorem Alike.eq {p : Partition} (h : Alike F p q) :
    q = { p with key := q.key, txnIds := q.txnIds, priorTxn := q.priorTxn } := by
  obtain ⟨hseq, hrecords, hnames, hhighest, hlease, hholder⟩ := h.state
  cases q
  simp_all

theorem Alike.snapshot {p : Partition} (h : Alike F p q) : q.snapshot = p.snapshot := by
  have hkey := h.key
  rw [h.eq]
  simp only [Partition.snapshot, hkey]

section

variable (p : Partition) {k : PartitionKey} (hk : k.value = p.key.value) (txnIds : Finset JsString)
  (priorTxn : JsString → Bool)

include hk

theorem checkSeq_rekey (observed : Bool) (seq : ℕ) :
    ({ p with key := k, txnIds := txnIds, priorTxn := priorTxn } : Partition).checkSeq observed
      seq = p.checkSeq observed seq := by
  simp only [checkSeq, hk]

theorem commitFence_rekey (fence : Option Fence) :
    ({ p with key := k, txnIds := txnIds, priorTxn := priorTxn } : Partition).commitFence fence =
      p.commitFence fence := by
  simp only [commitFence, raiseFence, hk]

theorem stageOp_rekey (replay observed : Bool) (staged : Staged) (op : Op) :
    ({ p with key := k, txnIds := txnIds, priorTxn := priorTxn } : Partition).stageOp replay
      observed staged op = p.stageOp replay observed staged op := by
  cases op with
  | put op =>
    simp only [stageOp, stagePut, current, expectFailed, hk]
    rfl
  | tombstone op =>
    simp only [stageOp, stageTombstone, current, expectFailed, hk]
    rfl
  | dataVersion op => rfl
  | lease op => simp only [stageOp, stageLease, hk]

theorem stageOps_rekey (replay observed : Bool) (ops : List Op) (staged : Staged) :
    ({ p with key := k, txnIds := txnIds, priorTxn := priorTxn } : Partition).stageOps replay
      observed ops staged = p.stageOps replay observed ops staged := by
  unfold stageOps
  induction ops generalizing staged with
  | nil => rfl
  | cons op ops ih =>
    rw [List.foldlM_cons, List.foldlM_cons, stageOp_rekey p hk]
    cases p.stageOp replay observed staged op with
    | error e => rfl
    | ok next => exact ih next

end

/-- **Alike partitions answer alike**, and stay alike. -/
theorem Alike.append {p : Partition} (h : Alike F p q) (commit : Commit) (hF : ¬ F commit.txnId)
    (replay : Bool) :
    (q.append commit replay).1 = (p.append commit replay).1 ∧
      Alike F (p.append commit replay).2 (q.append commit replay).2 := by
  have htxn := h.hasTxn commit.txnId hF
  have hkey := h.key
  have heq := h.eq
  have hequals : commit.partition.equals q.key = commit.partition.equals p.key := by
    simp only [PartitionKey.equals, hkey]
  have hseq : q.checkSeq false commit.seq = p.checkSeq false commit.seq := by
    rw [heq]
    exact checkSeq_rekey p hkey _ _ _ _
  have hfence : q.commitFence commit.fence = p.commitFence commit.fence := by
    rw [heq]
    exact commitFence_rekey p hkey _ _ _
  have hstaged : q.stageOps replay false commit.ops q.stage =
      p.stageOps replay false commit.ops p.stage := by
    rw [heq]
    exact stageOps_rekey p hkey _ _ _ _ _ _
  unfold Partition.append
  rw [apply_run, apply_run, hequals, htxn, hseq, hfence, hstaged, hkey]
  split
  · split
    · exact ⟨rfl, h⟩
    · split
      · exact ⟨rfl, h⟩
      · exact ⟨rfl, h⟩
      · exact ⟨rfl, h⟩
      · refine ⟨rfl, hkey, ⟨rfl, ?_, ?_, rfl, rfl, rfl⟩, ?_⟩
        · simp only [land, h.state.records]
        · simp only [land, h.state.names]
        · intro txnId hFt
          have hold := h.hasTxn txnId hFt
          simp only [Partition.hasTxn, land, Finset.mem_insert, Bool.decide_or,
            Bool.or_assoc] at hold ⊢
          rw [hold]
  · exact ⟨rfl, h⟩

variable {next : Partition} {commit : Commit}

/-- What lands on a partition lands on one alike. -/
theorem Alike.landed {p : Partition} {replay : Bool} (h : Alike F p q) (hF : ¬ F commit.txnId)
    (hland : p.Landed commit replay false next) :
    ∃ next', q.Landed commit replay false next' ∧ Alike F next next' := by
  have happend := h.append commit hF replay
  have hp : p.append commit replay = (.ok (.appended commit.seq), next) := apply_of_landed hland
  rw [hp] at happend
  refine ⟨(q.append commit replay).2, landed_iff.mpr ?_, happend.2⟩
  exact Prod.ext happend.1 rfl

/-- A staged state with more permissions. -/
structure MorePermissions (staged more : Staged) : Prop where
  records : more.records = staged.records
  names : more.names = staged.names
  leaseFence : more.leaseFence = staged.leaseFence
  leaseHolder : more.leaseHolder = staged.leaseHolder
  appended : staged.appended ⊆ more.appended

theorem MorePermissions.step {p : Partition} {staged more : Staged} (h : MorePermissions staged more)
    {op : Op} (hadmits : p.Admits false false staged op) :
    p.Admits true false more op ∧
      MorePermissions (p.after false false staged op) (p.after true false more op) := by
  obtain ⟨hrecords, hnames, hfence, hholder, happended⟩ := h
  cases op with
  | put op =>
    refine ⟨?_, ?_⟩
    · simpa only [Admits, current, hrecords] using hadmits
    · refine ⟨by simp only [after, afterPut, hrecords], hnames, hfence, hholder, ?_⟩
      simp only [after, afterPut, permissionsAfterPut]
      split
      · exact Finset.insert_subset_insert _ happended
      · exact happended
  | tombstone op =>
    refine ⟨?_, ?_⟩
    · simpa only [Admits, current, hrecords] using hadmits
    · refine ⟨by simp only [after, afterTombstone, hrecords], ?_, hfence, hholder, happended⟩
      simp only [after, afterTombstone, removeVersion, hasName, dataName, hnames]
      rfl
  | dataVersion op =>
    have hlive : p.asksLive false more op = p.asksLive false staged op := by
      simp only [asksLive, dataName, hnames]
      rfl
    have hreused : p.asksReused true false more op = false := by simp [asksReused]
    refine ⟨?_, ?_⟩
    · intro hasks
      rw [hreused, hlive] at hasks
      rcases hasks with hasks | hasks
      · exact happended (hadmits (Or.inl hasks))
      · cases hasks
    · refine ⟨hrecords, by simp only [after, afterDataVersion, dataName, hnames], hfence, hholder,
        ?_⟩
      simp only [after, afterDataVersion, hlive, hreused, Bool.or_false]
      -- A replay consumes a permission only where the append did.
      cases hl : p.asksLive false staged op with
      | true =>
        simp only [if_true, Bool.true_or]
        exact Finset.erase_subset_erase _ happended
      | false =>
        simp only [Bool.false_or, Bool.false_eq_true, if_false]
        split
        · exact (Finset.erase_subset _ _).trans happended
        · exact happended
  | lease op =>
    refine ⟨?_, ⟨hrecords, hnames, rfl, rfl, happended⟩⟩
    simpa only [Admits, hfence] using hadmits

theorem stageOps_replayed {p : Partition} {ops : List Op} {staged more last : Staged}
    (h : MorePermissions staged more) (hops : p.stageOps false false ops staged = .ok last) :
    ∃ last', p.stageOps true false ops more = .ok last' ∧ MorePermissions last last' := by
  induction ops generalizing staged more with
  | nil =>
    rw [stageOps_nil] at hops
    subst hops
    exact ⟨more, stageOps_nil.mpr rfl, h⟩
  | cons op ops ih =>
    obtain ⟨hadmits, hrest⟩ := stageOps_cons.mp hops
    obtain ⟨hadmits', hmore⟩ := h.step hadmits
    obtain ⟨last', hlast, hperm⟩ := ih hmore hrest
    exact ⟨last', stageOps_cons.mpr ⟨hadmits', hlast⟩, hperm⟩

/-- **A commit that landed lands again when it is replayed**, and leaves the
same. -/
theorem Landed.replayed {p : Partition} (h : p.Landed commit false false next) :
    p.Landed commit true false next := by
  obtain ⟨staged, hstaged, rfl⟩ := h.staged
  obtain ⟨staged', hstaged', hmore⟩ := stageOps_replayed
    ⟨rfl, rfl, rfl, rfl, Finset.Subset.refl p.stage.appended⟩ hstaged
  refine ⟨h.partition, h.fresh, h.seq, h.fence, staged', hstaged', ?_⟩
  simp only [land, hmore.records, hmore.names, hmore.leaseFence, hmore.leaseHolder]

/-- Stored commits land again, one after the other. -/
inductive Replays : Partition → List Commit → Partition → Prop
  | nil (p : Partition) : Replays p [] p
  | cons {p mid q : Partition} {commit : Commit} {commits : List Commit}
      (head : p.Landed commit true false mid) (tail : Replays mid commits q) :
      Replays p (commit :: commits) q

variable {cs : List Commit}

theorem Replays.append {p : Partition} {ds : List Commit} (hcs : Replays p cs q)
    (hds : Replays q ds r) : Replays p (cs ++ ds) r := by
  induction hcs with
  | nil p => exact hds
  | cons head tail ih => exact Replays.cons head (ih hds)

theorem Replays.split {p : Partition} {ds : List Commit} (h : Replays p (cs ++ ds) r) :
    ∃ q, Replays p cs q ∧ Replays q ds r := by
  induction cs generalizing p with
  | nil => exact ⟨p, Replays.nil p, h⟩
  | cons c cs ih =>
    cases h with
    | cons head tail =>
      obtain ⟨q, hcs, hds⟩ := ih tail
      exact ⟨q, Replays.cons head hcs, hds⟩

theorem Replays.key {p : Partition} (h : Replays p cs q) : q.key = p.key := by
  induction h with
  | nil p => rfl
  | cons head tail ih => exact ih.trans head.key

theorem Landed.priorTxn {p : Partition} {replay observed : Bool}
    (h : p.Landed commit replay observed next) : next.priorTxn = p.priorTxn := by
  obtain ⟨staged, -, rfl⟩ := h.staged
  rfl

theorem Replays.priorTxn {p : Partition} (h : Replays p cs q) : q.priorTxn = p.priorTxn := by
  induction h with
  | nil p => rfl
  | cons head tail ih => exact ih.trans head.priorTxn

theorem Replays.sound {p : Partition} (h : Replays p cs q) (hp : p.Sound) : q.Sound := by
  induction h with
  | nil p => exact hp
  | cons head tail ih => exact ih (head.sound hp)

theorem Replays.hasTxn {p : Partition} (h : Replays p cs q) (txnId : JsString) :
    q.hasTxn txnId = (p.hasTxn txnId || decide (txnId ∈ cs.map Commit.txnId)) := by
  induction h with
  | nil p => simp
  | @cons p mid q commit commits head tail ih =>
    rw [ih, head.next_hasTxn, List.map_cons]
    by_cases heq : txnId = commit.txnId
    · simp [heq]
    · simp [heq]

theorem Replays.next_seq {p : Partition} (h : Replays p cs q) : q.seq = p.seq + cs.length := by
  induction h with
  | nil p => rfl
  | @cons p mid q commit commits head tail ih =>
    have hseq : commit.seq = p.seq + 1 := head.seq
    rw [ih, head.next_seq, hseq, List.length_cons]
    omega

theorem Replays.fresh {p : Partition} (h : Replays p cs q) :
    ∀ c ∈ cs, p.hasTxn c.txnId = false := by
  induction h with
  | nil p => exact fun c hc => by cases hc
  | @cons p mid q commit commits head tail ih =>
    intro c hc
    rcases List.mem_cons.mp hc with rfl | hc
    · exact head.fresh
    · have hmid := ih c hc
      rw [head.next_hasTxn] at hmid
      exact (Bool.or_eq_false_iff.mp hmid).2

/-- **A replay from a partition alike.** -/
theorem Alike.replays {p p' : Partition} (h : Alike F p p') (hF : ∀ c ∈ cs, ¬ F c.txnId)
    (hcs : Replays p cs q) : ∃ q', Replays p' cs q' ∧ Alike F q q' := by
  induction hcs generalizing p' with
  | nil p => exact ⟨p', Replays.nil p', h⟩
  | cons head tail ih =>
    obtain ⟨mid, hmid, halike⟩ := h.landed (hF _ List.mem_cons_self) head
    obtain ⟨q', hq', hlast⟩ := ih halike (fun c hc => hF c (List.mem_cons_of_mem _ hc))
    exact ⟨q', Replays.cons hmid hq', hlast⟩

end Partition

end Swamp
