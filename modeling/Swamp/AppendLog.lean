import Mathlib.Data.List.Flatten
import Swamp.PartitionHistory

/-!
# Logs of commits: the writer's own, and a follower's copy with holes

The commits a partition accepted, one after another, are in order in every
respect a later check looks at: `LogOrder`.  That order passes to every
subsequence of the log, and it is all a follower asks of the commits it
applies, so a follower accepts what the writer did even where commits are
missing from its copy.
-/

namespace Swamp

open Js MapOverlay

namespace Partition

/-- One call of `append` or `appendObserved`. -/
structure AppendCall where
  commit : Commit
  replay : Bool

/-- The answers of a sequence of calls, and the partition after them. -/
def runCalls (call : Partition → Commit → Bool → Outcome) (p : Partition) :
    List AppendCall → List (Except CommitRejectedError AppendResult) × Partition
  | [] => ([], p)
  | c :: cs =>
    let outcome := call p c.commit c.replay
    let rest := runCalls call outcome.2 cs
    (outcome.1 :: rest.1, rest.2)

/-- The calls of a sequence that answered `appended`. -/
def accepted (p : Partition) : List AppendCall → List AppendCall
  | [] => []
  | c :: cs =>
    let outcome := p.append c.commit c.replay
    match outcome.1 with
    | .ok (.appended _) => c :: accepted outcome.2 cs
    | _ => accepted outcome.2 cs

/-- Every call of a sequence lands; `q` is the partition after them. -/
inductive LandsAll (observed : Bool) : Partition → List AppendCall → Partition → Prop
  | nil (p : Partition) : LandsAll observed p [] p
  | cons {p mid q : Partition} {c : AppendCall} {cs : List AppendCall}
      (head : p.Landed c.commit c.replay observed mid) (tail : LandsAll observed mid cs q) :
      LandsAll observed p (c :: cs) q

variable {p q : Partition} {cs : List AppendCall} {observed : Bool}

/-- Calls land exactly when each answers `appended`. -/
theorem landsAll_iff {call : Partition → Commit → Bool → Outcome}
    (hcall : ∀ p c replay, call p c replay = (apply c replay observed).run p) :
    LandsAll observed p cs q ↔
      runCalls call p cs = (cs.map (fun c => .ok (.appended c.commit.seq)), q) := by
  induction cs generalizing p with
  | nil =>
    constructor
    · intro h
      cases h
      rfl
    · intro h
      cases h
      exact LandsAll.nil _
  | cons c cs ih =>
    constructor
    · intro h
      cases h with
      | cons head tail =>
        have hrun := (ih).mp tail
        simp only [runCalls, hcall, apply_of_landed head, hrun, List.map_cons]
    · intro h
      simp only [runCalls, hcall, List.map_cons, Prod.mk.injEq, List.cons.injEq] at h
      obtain ⟨⟨hhead, htail⟩, hq⟩ := h
      have hland : p.Landed c.commit c.replay observed
          ((apply c.commit c.replay observed).run p).2 :=
        landed_iff.mpr (Prod.ext hhead rfl)
      exact LandsAll.cons hland (ih.mpr (Prod.ext htail hq))

/-- The fence of a lease op. -/
def leaseFence? : Op → Option ℕ
  | .lease op => some op.fence.val
  | _ => none

/-- The fences of the lease ops, in order. -/
def leaseFences (ops : List Op) : List ℕ := ops.filterMap leaseFence?

/-- The lease fence held, as a list of at most one. -/
def heldLease (fence : Option Fence) : List ℕ := (fence.map Fence.val).toList

/-- The order of the commits that follow a partition's state. -/
structure LogOrder (p : Partition) (commits : List Commit) : Prop where
  partition : ∀ c ∈ commits, c.partition.value = p.key.value
  fresh : ∀ c ∈ commits, p.hasTxn c.txnId = false
  distinct : (commits.map Commit.txnId).Nodup
  seqs : (p.seq :: commits.map Commit.seq).Pairwise (· < ·)
  fences : (p.highestFence :: commits.map Commit.fence).Pairwise FenceFollows
  leases : (heldLease p.leaseFence ++ commits.flatMap (fun c => leaseFences c.ops)).Pairwise (· ≤ ·)

theorem FenceFollows.trans {a b c : Option Fence} (hab : FenceFollows a b)
    (hbc : FenceFollows b c) : FenceFollows a c := by
  intro held hheld
  obtain ⟨f, hf, hle⟩ := hab held hheld
  obtain ⟨g, hg, hle'⟩ := hbc f hf
  exact ⟨g, hg, le_trans hle hle'⟩

theorem heldLease_foldl (ops : List Op) (lease : Option Fence × Option JsString) :
    heldLease (ops.foldl Op.onLease lease).1 =
      (heldLease lease.1 ++ leaseFences ops).getLast?.toList := by
  induction ops generalizing lease with
  | nil =>
    cases hlease : lease.1 with
    | none | some f => simp [heldLease, leaseFences, hlease]
  | cons op ops ih =>
    rw [List.foldl_cons, ih]
    cases op with
    | put op | tombstone op | dataVersion op => rfl
    | lease op =>
      have htrail : leaseFences (.lease op :: ops) = op.fence.val :: leaseFences ops := rfl
      rw [htrail]
      have hnew : heldLease (Op.onLease lease (.lease op)).1 = [op.fence.val] := rfl
      rw [hnew, List.singleton_append, List.getLast?_append_of_ne_nil _ (by simp)]

variable {replay : Bool}

theorem leases_of_stageOps {self : Partition} {ops : List Op} {staged last : Staged}
    (h : self.stageOps replay observed ops staged = .ok last) :
    (heldLease staged.leaseFence ++ leaseFences ops).Pairwise (· ≤ ·) := by
  induction ops generalizing staged with
  | nil =>
    cases hheld : staged.leaseFence with
    | none | some f => simp [heldLease, leaseFences]
  | cons op ops ih =>
    obtain ⟨hadmits, hrest⟩ := stageOps_cons.mp h
    have htail := ih hrest
    cases op with
    | put op | tombstone op | dataVersion op => exact htail
    | lease op =>
      have htail' : (op.fence.val :: leaseFences ops).Pairwise (· ≤ ·) := htail
      change (heldLease staged.leaseFence ++ op.fence.val :: leaseFences ops).Pairwise (· ≤ ·)
      cases hheld : staged.leaseFence with
      | none => exact htail'
      | some held =>
        have hle : held.val ≤ op.fence.val := hadmits held hheld
        refine List.pairwise_cons.mpr ⟨?_, htail'⟩
        intro f hf
        rcases List.mem_cons.mp hf with rfl | hf
        · exact hle
        · exact le_trans hle (List.rel_of_pairwise_cons htail' hf)

theorem stageOps_observed {self : Partition} {ops : List Op} {staged : Staged}
    (h : (heldLease staged.leaseFence ++ leaseFences ops).Pairwise (· ≤ ·)) :
    ∃ last, self.stageOps replay true ops staged = .ok last := by
  induction ops generalizing staged with
  | nil => exact ⟨staged, stageOps_nil.mpr rfl⟩
  | cons op ops ih =>
    have hstep : self.Admits replay true staged op ∧
        (heldLease (self.after replay true staged op).leaseFence ++ leaseFences ops).Pairwise
          (· ≤ ·) := by
      cases op with
      | put op | tombstone op => exact ⟨fun hfalse => absurd hfalse (by simp), h⟩
      | dataVersion op =>
        refine ⟨?_, h⟩
        rintro (hasks | hasks)
        · simp [asksLive] at hasks
        · simp [asksReused] at hasks
      | lease op =>
        have hall : (heldLease staged.leaseFence ++ op.fence.val :: leaseFences ops).Pairwise
            (· ≤ ·) := h
        refine ⟨?_, hall.sublist (List.sublist_append_right _ _)⟩
        intro held hheld
        rw [hheld] at hall
        exact List.rel_of_pairwise_cons hall List.mem_cons_self
    obtain ⟨last, hlast⟩ := ih hstep.2
    exact ⟨last, stageOps_cons.mpr ⟨hstep.1, hlast⟩⟩

/-- A sorted list may go on from its last element. -/
private theorem pairwise_append_of_getLast {l r : List ℕ} (hl : l.Pairwise (· ≤ ·))
    (hr : (l.getLast?.toList ++ r).Pairwise (· ≤ ·)) : (l ++ r).Pairwise (· ≤ ·) := by
  rcases List.eq_nil_or_concat l with rfl | ⟨init, last, rfl⟩
  · exact hr
  · rw [List.concat_eq_append, List.getLast?_append_of_ne_nil _ (by simp)] at hr
    rw [List.concat_eq_append] at hl ⊢
    have hlast : ∀ f ∈ r, last ≤ f := fun f hf => List.rel_of_pairwise_cons hr hf
    rw [List.pairwise_append]
    refine ⟨hl, (List.pairwise_cons.mp hr).2, ?_⟩
    intro a ha f hf
    refine le_trans ?_ (hlast f hf)
    rcases List.mem_append.mp ha with ha | ha
    · exact (List.pairwise_append.mp hl).2.2 a ha last (List.mem_singleton.mpr rfl)
    · exact le_of_eq (List.mem_singleton.mp ha)

private theorem getLast_sublist (l : List ℕ) : l.getLast?.toList.Sublist l := by
  rcases List.eq_nil_or_concat l with rfl | ⟨init, last, rfl⟩
  · exact List.Sublist.refl _
  · rw [List.concat_eq_append, List.getLast?_append_of_ne_nil _ (by simp)]
    exact List.sublist_append_right _ _

variable {c : Commit}

/-- The lease fence a landed commit leaves held. -/
theorem Landed.heldLease {next : Partition} (h : p.Landed c replay observed next) :
    Partition.heldLease next.leaseFence =
      (Partition.heldLease p.leaseFence ++ leaseFences c.ops).getLast?.toList := by
  have hlease := h.lease
  have hfence : next.leaseFence = (c.ops.foldl Op.onLease (p.leaseFence, p.leaseHolder)).1 := by
    rw [← hlease]
  rw [hfence]
  exact heldLease_foldl c.ops (p.leaseFence, p.leaseHolder)

/-- **One commit more.**  A commit that lands, before commits in order after
it, makes a log in order. -/
theorem LogOrder.cons {mid : Partition} {cs : List Commit} (h : p.Landed c replay observed mid)
    (hcs : LogOrder mid cs) : LogOrder p (c :: cs) := by
  have hseq : p.seq < c.seq := by
    have hfollows := h.seq
    unfold SeqFollows at hfollows
    split at hfollows
    · exact hfollows
    · omega
  have htxn : ∀ d ∈ cs, d.txnId ≠ c.txnId ∧ p.hasTxn d.txnId = false := by
    intro d hd
    have hfresh := hcs.fresh d hd
    rw [h.next_hasTxn, Bool.or_eq_false_iff] at hfresh
    exact ⟨of_decide_eq_false hfresh.1, hfresh.2⟩
  have hseqs := hcs.seqs
  have hfences := hcs.fences
  rw [h.next_seq] at hseqs
  rw [h.next_fence] at hfences
  refine ⟨?_, ?_, ?_, ?_, ?_, ?_⟩
  · intro d hd
    rcases List.mem_cons.mp hd with rfl | hd
    · exact h.partition
    · rw [← h.key]
      exact hcs.partition d hd
  · intro d hd
    rcases List.mem_cons.mp hd with rfl | hd
    · exact h.fresh
    · exact (htxn d hd).2
  · refine List.nodup_cons.mpr ⟨?_, hcs.distinct⟩
    intro hmem
    obtain ⟨d, hd, heq⟩ := List.mem_map.mp hmem
    exact (htxn d hd).1 heq
  · refine List.pairwise_cons.mpr ⟨?_, hseqs⟩
    intro s hs
    rcases List.mem_cons.mp hs with rfl | hs
    · exact hseq
    · exact lt_trans hseq (List.rel_of_pairwise_cons hseqs hs)
  · refine List.pairwise_cons.mpr ⟨?_, hfences⟩
    intro f hf
    rcases List.mem_cons.mp hf with rfl | hf
    · exact h.fence
    · exact h.fence.trans (List.rel_of_pairwise_cons hfences hf)
  · obtain ⟨staged, hstaged, -⟩ := h.staged
    have hown : (heldLease p.leaseFence ++ leaseFences c.ops).Pairwise (· ≤ ·) :=
      leases_of_stageOps hstaged
    have hrest := hcs.leases
    rw [h.heldLease] at hrest
    rw [List.flatMap_cons, ← List.append_assoc]
    exact pairwise_append_of_getLast hown hrest

/-- **Commits that land are in order.** -/
theorem LandsAll.order (h : LandsAll observed p cs q) : LogOrder p (cs.map AppendCall.commit) := by
  induction h with
  | nil p =>
    refine ⟨by simp, by simp, by simp, by simp, by simp, ?_⟩
    cases hheld : p.leaseFence with
    | none | some f => simp [heldLease]
  | cons head tail ih => exact LogOrder.cons head ih

/-- **The order passes to every subsequence.** -/
theorem LogOrder.sublist {cs sub : List Commit} (h : LogOrder p cs) (hsub : sub.Sublist cs) :
    LogOrder p sub where
  partition := fun c hc => h.partition c (hsub.subset hc)
  fresh := fun c hc => h.fresh c (hsub.subset hc)
  distinct := h.distinct.sublist (hsub.map _)
  seqs := h.seqs.sublist ((hsub.map _).cons_cons _)
  fences := h.fences.sublist ((hsub.map _).cons_cons _)
  leases := h.leases.sublist ((List.Sublist.refl _).append (hsub.flatMap _))

theorem LogOrder.observed_head {cs : List Commit} (h : LogOrder p (c :: cs)) (replay : Bool) :
    ∃ mid, p.Landed c replay true mid ∧ LogOrder mid cs := by
  have hleases := h.leases
  rw [List.flatMap_cons, ← List.append_assoc] at hleases
  have hown : (heldLease p.stage.leaseFence ++ leaseFences c.ops).Pairwise (· ≤ ·) :=
    hleases.sublist (List.sublist_append_left _ _)
  obtain ⟨staged, hstaged⟩ : ∃ staged, p.stageOps replay true c.ops p.stage = .ok staged :=
    stageOps_observed hown
  have hseq : p.seq < c.seq := List.rel_of_pairwise_cons h.seqs List.mem_cons_self
  have hland : p.Landed c replay true (p.land c staged) :=
    { partition := h.partition c List.mem_cons_self
      fresh := h.fresh c List.mem_cons_self
      seq := hseq
      fence := List.rel_of_pairwise_cons h.fences List.mem_cons_self
      staged := ⟨staged, hstaged, rfl⟩ }
  refine ⟨_, hland, ?_, ?_, ?_, ?_, ?_, ?_⟩
  · intro d hd
    rw [hland.key]
    exact h.partition d (List.mem_cons_of_mem _ hd)
  · intro d hd
    have hne : d.txnId ≠ c.txnId := by
      intro heq
      exact (List.nodup_cons.mp h.distinct).1 (List.mem_map.mpr ⟨d, hd, heq⟩)
    rw [hland.next_hasTxn, Bool.or_eq_false_iff]
    exact ⟨decide_eq_false hne, h.fresh d (List.mem_cons_of_mem _ hd)⟩
  · exact (List.nodup_cons.mp h.distinct).2
  · rw [hland.next_seq]
    exact (List.pairwise_cons.mp h.seqs).2
  · rw [hland.next_fence]
    exact (List.pairwise_cons.mp h.fences).2
  · rw [hland.heldLease]
    exact hleases.sublist ((getLast_sublist _).append (List.Sublist.refl _))

/-- **A follower accepts commits in order.** -/
theorem LogOrder.observed_lands (h : LogOrder p (cs.map AppendCall.commit)) :
    ∃ q, LandsAll true p cs q := by
  induction cs generalizing p with
  | nil => exact ⟨p, LandsAll.nil p⟩
  | cons c cs ih =>
    obtain ⟨mid, hland, hrest⟩ := LogOrder.observed_head h c.replay
    obtain ⟨q, hq⟩ := ih hrest
    exact ⟨q, LandsAll.cons hland hq⟩

/-- Two partitions that hold the same, whichever commits they know of. -/
structure SameState (p q : Partition) : Prop where
  seq : p.seq = q.seq
  records : p.records = q.records
  names : p.names = q.names
  highestFence : p.highestFence = q.highestFence
  leaseFence : p.leaseFence = q.leaseFence
  leaseHolder : p.leaseHolder = q.leaseHolder

/-- The same commit leaves the same state, however it was admitted. -/
theorem SameState.landed {p' q' : Partition} {replay' observed' : Bool} (h : p.SameState q)
    (hp : p.Landed c replay observed p') (hq : q.Landed c replay' observed' q') :
    p'.SameState q' := by
  have hlease : (p'.leaseFence, p'.leaseHolder) = (q'.leaseFence, q'.leaseHolder) := by
    rw [hp.lease, hq.lease, h.leaseFence, h.leaseHolder]
  refine ⟨?_, ?_, ?_, ?_, congrArg Prod.fst hlease, congrArg Prod.snd hlease⟩
  · rw [hp.next_seq, hq.next_seq]
  · apply Finmap.ext_lookup
    intro key
    rw [hp.record_lookup, hq.record_lookup, h.records]
  · apply Finmap.ext_lookup
    intro name
    rw [hp.name_lookup, hq.name_lookup, h.names]
  · rw [hp.next_fence, hq.next_fence]

theorem LandsAll.sameState {p' q' : Partition} {ds : List AppendCall} {observed' : Bool}
    (h : p.SameState q) (hcommits : cs.map AppendCall.commit = ds.map AppendCall.commit)
    (hp : LandsAll observed p cs p') (hq : LandsAll observed' q ds q') : p'.SameState q' := by
  induction hp generalizing q ds with
  | nil p =>
    cases hq with
    | nil => exact h
    | cons head tail => simp at hcommits
  | cons head tail ih =>
    cases hq with
    | nil => simp at hcommits
    | cons head' tail' =>
      rw [List.map_cons, List.map_cons, List.cons.injEq] at hcommits
      rw [hcommits.1] at head
      exact ih (h.landed head head') hcommits.2 tail'

theorem LandsAll.last_seq (h : LandsAll observed p cs q) :
    q.seq = ((cs.map AppendCall.commit).getLast?.map Commit.seq).getD p.seq := by
  induction h with
  | nil p => rfl
  | @cons p mid q c cs head tail ih =>
    rw [ih, head.next_seq, List.map_cons, List.getLast?_cons]
    cases (cs.map AppendCall.commit).getLast? with
    | none | some last => rfl

/-- **A follower accepts every subsequence of an accepted log.**  It ends at the
seq of the last commit it applied, and over the whole log it ends where the
writer did. -/
theorem follower_accepts_subsequence (key : PartitionKey) (log : List AppendCall)
    (writer : Partition)
    (hlog : runCalls append (empty key) log =
      (log.map (fun c => .ok (.appended c.commit.seq)), writer))
    (sub : List AppendCall)
    (hsub : (sub.map AppendCall.commit).Sublist (log.map AppendCall.commit)) :
    ∃ follower, runCalls appendObserved (empty key) sub =
        (sub.map (fun c => .ok (.appended c.commit.seq)), follower) ∧
      follower.seq = ((sub.map AppendCall.commit).getLast?.map Commit.seq).getD 0 ∧
      (sub.map AppendCall.commit = log.map AppendCall.commit →
        follower.records = writer.records ∧
        (∀ name, follower.live name = writer.live name ∧
          follower.removed name = writer.removed name ∧
          follower.highWater name = writer.highWater name) ∧
        follower.highestFence = writer.highestFence ∧
        follower.leaseFence = writer.leaseFence ∧
        follower.leaseHolder = writer.leaseHolder) := by
  have hwriter : LandsAll false (empty key) log writer := (landsAll_iff (fun _ _ _ => rfl)).mpr hlog
  obtain ⟨follower, hfollower⟩ := (hwriter.order.sublist hsub).observed_lands
  refine ⟨follower, (landsAll_iff (fun _ _ _ => rfl)).mp hfollower, hfollower.last_seq, ?_⟩
  intro hall
  have hsame : follower.SameState writer :=
    hfollower.sameState ⟨rfl, rfl, rfl, rfl, rfl, rfl⟩ hall hwriter
  refine ⟨hsame.records, ?_, hsame.highestFence, hsame.leaseFence, hsame.leaseHolder⟩
  intro name
  have hentry : follower.nameEntry name = writer.nameEntry name := by
    unfold nameEntry
    rw [hsame.names]
  exact ⟨congrArg DataName.live hentry, congrArg DataName.removed hentry,
    congrArg DataName.highWater hentry⟩

/-- A second commit of the sample log. -/
def sampleSecond : AppendCall :=
  ⟨sampleCommit 2 version2.pos version2.safe (js "t2")
    [.tombstone ⟨.dataDelete ⟨js "swamp/echo", js "m1"⟩ (js "log") (some version1),
      sampleVersionOp.key, none⟩], false⟩

/-- The sample log: a version is recorded, then removed. -/
def sampleLog : List AppendCall :=
  [⟨sampleCommit 1 version1.pos version1.safe (js "t1") [.dataVersion sampleVersionOp], false⟩,
    sampleSecond]

/-- A follower that never saw the first commit accepts the second. -/
theorem follower_accepts_second_alone :
    ∃ follower, runCalls appendObserved (empty sampleKey) [sampleSecond] =
      ([.ok (.appended 2)], follower) ∧ follower.seq = 2 := by
  have hsub : ([sampleSecond].map AppendCall.commit).Sublist (sampleLog.map AppendCall.commit) :=
    List.Sublist.cons _ (List.Sublist.refl _)
  obtain ⟨follower, hrun, hseq, -⟩ :=
    follower_accepts_subsequence sampleKey sampleLog _ rfl [sampleSecond] hsub
  exact ⟨follower, hrun, hseq⟩

/-- A call that does not answer `appended` changes nothing. -/
theorem append_unchanged (h : ∀ seq, (p.append c replay).1 ≠ .ok (.appended seq)) :
    (p.append c replay).2 = p := by
  rcases apply_outcome p c replay false with ⟨e, he⟩ | ⟨hdup, -⟩ | ⟨next, happ, -⟩
  · rw [append, he]
  · rw [append, hdup]
  · exact absurd (congrArg Prod.fst happ) (h c.seq)

theorem accepted_lands (p : Partition) (calls : List AppendCall) :
    LandsAll false p (accepted p calls) (runCalls append p calls).2 := by
  induction calls generalizing p with
  | nil => exact LandsAll.nil p
  | cons c calls ih =>
    simp only [accepted, runCalls]
    have htail := ih (p.append c.commit c.replay).2
    rcases apply_outcome p c.commit c.replay false with ⟨e, he⟩ | ⟨hdup, -⟩ | ⟨next, happ, hland⟩
    · rw [append, he] at htail ⊢
      exact htail
    · rw [append, hdup] at htail ⊢
      exact htail
    · rw [append, happ] at htail ⊢
      exact LandsAll.cons hland htail

/-- The seqs of a writer's log count up from the partition's. -/
theorem LandsAll.seqs (h : LandsAll false p cs q) :
    cs.map (fun c => c.commit.seq) = List.range' (p.seq + 1) cs.length := by
  generalize hobserved : false = observed at h
  induction h with
  | nil p => rfl
  | @cons p mid q c cs head tail ih =>
    subst hobserved
    have hseq : c.commit.seq = p.seq + 1 := head.seq
    rw [List.map_cons, ih, head.next_seq, hseq, List.length_cons, List.range'_succ]

/-- **Appends are atomic.**  A call that throws or answers duplicate leaves the
partition exactly as it was, so the accepted calls alone, which all land again,
lead to the same state; and along them seqs count up from one, fences and lease
fences never fall, and no unfenced commit follows a fenced one. -/
theorem appends_are_atomic (key : PartitionKey) (calls : List AppendCall) :
    (∀ before call rest, calls = before ++ call :: rest →
        (∀ seq, ((runCalls append (empty key) before).2.append call.commit call.replay).1 ≠
          .ok (.appended seq)) →
        ((runCalls append (empty key) before).2.append call.commit call.replay).2 =
          (runCalls append (empty key) before).2) ∧
      runCalls append (empty key) (accepted (empty key) calls) =
        ((accepted (empty key) calls).map (fun c => .ok (.appended c.commit.seq)),
          (runCalls append (empty key) calls).2) ∧
      (accepted (empty key) calls).map (fun c => c.commit.seq) =
        List.range' 1 (accepted (empty key) calls).length ∧
      ((accepted (empty key) calls).map (fun c => c.commit.fence)).Pairwise FenceFollows ∧
      ((accepted (empty key) calls).flatMap (fun c => leaseFences c.commit.ops)).Pairwise
        (· ≤ ·) := by
  have hlands := accepted_lands (empty key) calls
  have horder := hlands.order
  refine ⟨?_, (landsAll_iff (fun _ _ _ => rfl)).mp hlands, hlands.seqs, ?_, ?_⟩
  · rintro before call rest - hrefused
    exact append_unchanged hrefused
  · have hfences := (List.pairwise_cons.mp horder.fences).2
    rwa [List.map_map] at hfences
  · have hleases := horder.leases
    rw [List.flatMap_map] at hleases
    exact hleases

end Partition

end Swamp
