import Swamp.Partition

/-!
# What a commit does to a partition

`Admits` is what an op asks of the state it is staged over, `after` what it
leaves; `stageOp_ok_iff` says that `stageOp` is these two and nothing else.
Seen from one key or one name, the staged changes are a fold over the ops
(`Op.onRecord`, `Op.onName`, `Op.onLease`), which depends neither on `replay` nor on
`observed`: those only decide what is admitted.
-/

namespace Swamp

open Js MapOverlay

/-- What an op does to the record of a key. -/
def Op.onRecord (key : RecordKey) (before : Option Sha256) : Op → Option Sha256
  | .put op => if op.key = key then some op.sha256 else before
  | .tombstone op => if op.key = key then none else before
  | .dataVersion _ => before
  | .lease _ => before

/-- What an op does to the entry of a name. -/
def Op.onName (name : JsString) (before : Option DataName) : Op → Option DataName
  | .put _ => before
  | .tombstone op =>
    match op.removes with
    | some (target, version) =>
      if target = name then before.map (fun entry => entry.removeVersion version) else before
    | none => before
  | .dataVersion op =>
    if op.metadata.name = name then
      some ((before.getD DataName.unwritten).recordVersion op.metadata.version)
    else before
  | .lease _ => before

/-- What an op does to the lease of the partition. -/
def Op.onLease (before : Option Fence × Option JsString) : Op → Option Fence × Option JsString
  | .lease op => (some op.fence, some op.holder)
  | _ => before

namespace Partition

variable (self : Partition)

/-- The staged entry of a name, or the partition's own. -/
def entry (staged : Staged) (name : JsString) : Option DataName :=
  (staged.names.lookup name).or (self.names.lookup name)

theorem dataName_eq (staged : Staged) (name : JsString) :
    self.dataName staged name = (self.entry staged name).getD DataName.unwritten := by
  unfold dataName entry nameEntry
  cases staged.names.lookup name with
  | none | some e => rfl

theorem hasName_eq (staged : Staged) (name : JsString) :
    self.hasName staged name = (self.entry staged name).isSome := by
  unfold hasName entry
  cases staged.names.lookup name with
  | none | some e => rfl

@[simp] theorem entry_stage (name : JsString) : self.entry self.stage name = self.names.lookup name := by
  simp [entry, stage]

@[simp] theorem current_stage (key : RecordKey) : self.current self.stage key = self.record key := by
  simp [current, stage, record]

/-- What an op asks of the staged state. -/
def Admits (replay observed : Bool) (staged : Staged) : Op → Prop
  | .put op =>
    observed = false →
      match op.expect with
      | some .absent => self.current staged op.key = none
      | some (.sha256 digest) => self.current staged op.key = some digest
      | none => True
  | .tombstone op =>
    observed = false →
      match op.expect with
      | some .present => self.current staged op.key ≠ none
      | some (.sha256 digest) => self.current staged op.key = some digest
      | none => True
  | .dataVersion op =>
    self.asksLive observed staged op = true ∨ self.asksReused replay observed staged op = true →
      nameVersion op.metadata.name op.metadata.version.val ∈ staged.appended
  | .lease op => ∀ held, staged.leaseFence = some held → held.val ≤ op.fence.val

/-- What an op leaves of the staged state. -/
def after (replay observed : Bool) (staged : Staged) : Op → Staged
  | .put op => afterPut staged op
  | .tombstone op => self.afterTombstone staged op
  | .dataVersion op => self.afterDataVersion replay observed staged op
  | .lease op => afterLease staged op

variable {self}

/-- A guard passes exactly when its condition fails. -/
private theorem guard_ok_iff {α : Type*} {c : Prop} [Decidable c] {e : CommitRejectedError}
    {a next : α} :
    (if c then Except.error e else Except.ok a) = Except.ok next ↔ ¬ c ∧ next = a := by
  by_cases h : c
  · simp [h]
  · simp only [h, if_false, Except.ok.injEq, not_false_eq_true, true_and]
    exact eq_comm

private theorem pass_ok_iff {α : Type*} {P : Prop} {a next : α} (h : P) :
    (Except.ok a : Except CommitRejectedError α) = Except.ok next ↔ P ∧ next = a := by
  simp only [Except.ok.injEq, h, true_and]
  exact eq_comm

variable {staged : Staged}

theorem stagePut_ok_iff {replay observed : Bool} {next : Staged} {op : PutOp} :
    self.stagePut observed staged op = .ok next ↔
      self.Admits replay observed staged (.put op) ∧ next = afterPut staged op := by
  unfold stagePut
  cases observed with
  | true => exact pass_ok_iff (by simp [Admits])
  | false =>
    cases hexpect : op.expect with
    | none => exact pass_ok_iff (by simp [Admits, hexpect])
    | some expect =>
      cases expect with
      | absent => simp [guard_ok_iff, Admits, hexpect]
      | sha256 digest =>
        rw [guard_ok_iff]
        simp [Admits, hexpect]

theorem stageTombstone_ok_iff {replay observed : Bool} {next : Staged} {op : TombstoneOp} :
    self.stageTombstone observed staged op = .ok next ↔
      self.Admits replay observed staged (.tombstone op) ∧ next = self.afterTombstone staged op := by
  unfold stageTombstone
  cases observed with
  | true => exact pass_ok_iff (by simp [Admits])
  | false =>
    cases hexpect : op.expect with
    | none => exact pass_ok_iff (by simp [Admits, hexpect])
    | some expect =>
      cases expect with
      | present => simp [guard_ok_iff, Admits, hexpect]
      | sha256 digest =>
        rw [guard_ok_iff]
        simp [Admits, hexpect]

theorem stageDataVersion_ok_iff {replay observed : Bool} {next : Staged} {op : DataVersionOp} :
    self.stageDataVersion replay observed staged op = .ok next ↔
      self.Admits replay observed staged (.dataVersion op) ∧
        next = self.afterDataVersion replay observed staged op := by
  unfold stageDataVersion
  by_cases hperm : nameVersion op.metadata.name op.metadata.version.val ∈ staged.appended
  · simp only [hperm, not_true_eq_false, and_false, if_false]
    exact pass_ok_iff (fun _ => hperm)
  · simp only [hperm, not_false_eq_true, and_true]
    by_cases hlive : self.asksLive observed staged op = true
    · simp [hlive, Admits, hperm]
    · simp [hlive, guard_ok_iff, Admits, hperm]

theorem stageLease_ok_iff {replay observed : Bool} {next : Staged} {op : LeaseOp} :
    self.stageLease staged op = .ok next ↔
      self.Admits replay observed staged (.lease op) ∧ next = afterLease staged op := by
  unfold stageLease
  cases hheld : staged.leaseFence with
  | none => exact pass_ok_iff (by simp [Admits, hheld])
  | some held => simp [guard_ok_iff, Admits, hheld]

/-- **One op.**  It is staged exactly when it is admitted, and leaves what
`after` says. -/
theorem stageOp_ok_iff {replay observed : Bool} {next : Staged} {op : Op} :
    self.stageOp replay observed staged op = .ok next ↔
      self.Admits replay observed staged op ∧ next = self.after replay observed staged op := by
  cases op with
  | put op => exact stagePut_ok_iff
  | tombstone op => exact stageTombstone_ok_iff
  | dataVersion op => exact stageDataVersion_ok_iff
  | lease op => exact stageLease_ok_iff

@[simp] theorem stageOps_nil {replay observed : Bool} {next : Staged} :
    self.stageOps replay observed [] staged = .ok next ↔ next = staged := by
  simp [stageOps, pure, Except.pure, eq_comm]

theorem stageOps_cons {replay observed : Bool} {op : Op} {ops : List Op} {last : Staged} :
    self.stageOps replay observed (op :: ops) staged = .ok last ↔
      self.Admits replay observed staged op ∧
        self.stageOps replay observed ops (self.after replay observed staged op) = .ok last := by
  unfold stageOps
  rw [List.foldlM_cons]
  cases hstep : self.stageOp replay observed staged op with
  | error e =>
    have hnot : ¬ self.Admits replay observed staged op := by
      intro hadmits
      have hok := stageOp_ok_iff.mpr ⟨hadmits, rfl⟩
      rw [hstep] at hok
      cases hok
    simp [hnot, bind, Except.bind]
  | ok next =>
    obtain ⟨hadmits, rfl⟩ := stageOp_ok_iff.mp hstep
    simp [hadmits, bind, Except.bind]

theorem current_after (replay observed : Bool) (staged : Staged) (op : Op) (key : RecordKey) :
    self.current (self.after replay observed staged op) key =
      op.onRecord key (self.current staged key) := by
  cases op with
  | put op =>
    by_cases h : op.key = key
    · subst h
      simp [after, afterPut, current, Op.onRecord]
    · simp [after, afterPut, current, Op.onRecord, h, AList.lookup_insert_ne (Ne.symm h)]
  | tombstone op =>
    by_cases h : op.key = key
    · subst h
      simp [after, afterTombstone, current, Op.onRecord]
    · simp [after, afterTombstone, current, Op.onRecord, h, AList.lookup_insert_ne (Ne.symm h)]
  | dataVersion op | lease op => rfl

theorem entry_insert (staged : Staged) (target name : JsString) (d : DataName)
    (st : Staged) (hst : st.names = staged.names.insert target d) :
    self.entry st name = if target = name then some d else self.entry staged name := by
  unfold entry
  rw [hst]
  by_cases h : target = name
  · subst h
    simp
  · simp [h, AList.lookup_insert_ne (Ne.symm h)]

theorem entry_after (replay observed : Bool) (staged : Staged) (op : Op) (name : JsString) :
    self.entry (self.after replay observed staged op) name =
      op.onName name (self.entry staged name) := by
  cases op with
  | put op | lease op => rfl
  | dataVersion op =>
    rw [entry_insert staged op.metadata.name name _ _ rfl, dataName_eq]
    unfold Op.onName
    by_cases h : op.metadata.name = name
    · subst h
      simp
    · simp [h]
  | tombstone op =>
    cases hremoves : op.removes with
    | none => simp [entry, after, afterTombstone, Op.onName, hremoves]
    | some pair =>
      obtain ⟨target, version⟩ := pair
      cases hentry : self.entry staged target with
      | none =>
        -- A name never written is left out, and there is nothing to remove from it.
        have hhas : self.hasName staged target = false := by rw [hasName_eq, hentry]; rfl
        have hsame : self.entry (self.after replay observed staged (.tombstone op)) name =
            self.entry staged name := by
          simp [entry, after, afterTombstone, hremoves, removeVersion, hhas]
        rw [hsame]
        simp only [Op.onName, hremoves]
        split
        · rename_i h
          rw [← h, hentry]
          rfl
        · rfl
      | some d =>
        have hhas : self.hasName staged target = true := by rw [hasName_eq, hentry]; rfl
        have hd : self.dataName staged target = d := by rw [dataName_eq, hentry]; rfl
        rw [entry_insert staged target name (d.removeVersion version) _
          (by simp [after, afterTombstone, hremoves, removeVersion, hhas, hd])]
        simp only [Op.onName, hremoves]
        by_cases h : target = name
        · subst h
          simp [hentry]
        · simp [h]

theorem lease_after (replay observed : Bool) (staged : Staged) (op : Op) :
    ((self.after replay observed staged op).leaseFence,
      (self.after replay observed staged op).leaseHolder) =
      op.onLease (staged.leaseFence, staged.leaseHolder) := by
  cases op with
  | put op | tombstone op | dataVersion op | lease op => rfl

theorem stageOps_folds {replay observed : Bool} {ops : List Op} {last : Staged}
    (h : self.stageOps replay observed ops staged = .ok last) :
    (∀ key, self.current last key =
        ops.foldl (fun sha op => op.onRecord key sha) (self.current staged key)) ∧
      (∀ name, self.entry last name =
        ops.foldl (fun d op => op.onName name d) (self.entry staged name)) ∧
      (last.leaseFence, last.leaseHolder) =
        ops.foldl Op.onLease (staged.leaseFence, staged.leaseHolder) := by
  induction ops generalizing staged with
  | nil =>
    rw [stageOps_nil] at h
    subst h
    exact ⟨fun _ => rfl, fun _ => rfl, rfl⟩
  | cons op ops ih =>
    obtain ⟨hrecords, hnames, hlease⟩ := ih (stageOps_cons.mp h).2
    refine ⟨?_, ?_, ?_⟩
    · intro key
      rw [hrecords key, current_after, List.foldl_cons]
    · intro name
      rw [hnames name, entry_after, List.foldl_cons]
    · rw [hlease, lease_after, List.foldl_cons]

/-- Whether a commit's fence may follow the highest seen. -/
def FenceFollows (highest fence : Option Fence) : Prop :=
  ∀ held, highest = some held → ∃ f, fence = some f ∧ held.val ≤ f.val

theorem commitFence_ok_iff {fence next : Option Fence} :
    self.commitFence fence = .ok next ↔ FenceFollows self.highestFence fence ∧ next = fence := by
  unfold commitFence FenceFollows
  cases fence with
  | none =>
    cases self.highestFence with
    | none => simp [eq_comm]
    | some held => simp
  | some f =>
    cases self.highestFence with
    | none => simp [raiseFence, Except.map, eq_comm]
    | some held =>
      by_cases h : f.val < held.val
      · simp [raiseFence, Except.map, h]
      · simp [raiseFence, Except.map, h, Nat.not_lt.mp h, eq_comm]

/-- Whether a commit's seq may follow the partition's. -/
def SeqFollows (observed : Bool) (seq next : ℕ) : Prop :=
  if observed then seq < next else next = seq + 1

theorem checkSeq_ok_iff {observed : Bool} {seq : ℕ} :
    self.checkSeq observed seq = .ok () ↔ SeqFollows observed self.seq seq := by
  unfold checkSeq SeqFollows
  cases observed with
  | true | false => simp

/-- The partition once the staged changes of a commit are written back. -/
def land (self : Partition) (commit : Commit) (staged : Staged) : Partition :=
  { self with
    records := writeBack staged.records self.records
    names := writeAll staged.names self.names
    seq := commit.seq
    txnIds := insert commit.txnId self.txnIds
    highestFence := commit.fence
    leaseFence := staged.leaseFence
    leaseHolder := staged.leaseHolder }

/-- `Landed p c replay observed q`: the commit lands on `p` and leaves `q`. -/
structure Landed (p : Partition) (commit : Commit) (replay observed : Bool)
    (next : Partition) : Prop where
  partition : commit.partition.value = p.key.value
  fresh : p.hasTxn commit.txnId = false
  seq : SeqFollows observed p.seq commit.seq
  fence : FenceFollows p.highestFence commit.fence
  staged : ∃ staged, p.stageOps replay observed commit.ops p.stage = .ok staged ∧
    next = p.land commit staged

/-- `apply`, written without the monad. -/
theorem apply_run (self : Partition) (commit : Commit) (replay observed : Bool) :
    (apply commit replay observed).run self =
      if commit.partition.equals self.key then
        if self.hasTxn commit.txnId then (.ok .duplicate, self)
        else
          match self.checkSeq observed commit.seq, self.commitFence commit.fence,
            self.stageOps replay observed commit.ops self.stage with
          | .error e, _, _ => (.error e, self)
          | .ok (), .error e, _ => (.error e, self)
          | .ok (), .ok _, .error e => (.error e, self)
          | .ok (), .ok fence, .ok staged =>
            (.ok (.appended commit.seq), { self.land commit staged with highestFence := fence })
      else
        (.error
          { reason := .partitionMismatch
            message :=
              js "Commit for " ++ commit.partition.value ++ js " sent to partition " ++
                self.key.value }, self) := by
  have hget : (apply commit replay observed).run self =
      (applyTo self commit replay observed).run self := rfl
  rw [hget]
  unfold applyTo
  split
  · split
    · rfl
    · cases self.checkSeq observed commit.seq with
      | error e => rfl
      | ok u =>
        cases self.commitFence commit.fence with
        | error e => rfl
        | ok fence =>
          cases self.stageOps replay observed commit.ops self.stage with
          | error e | ok staged => rfl
  · rfl

/-- **The three outcomes.**  A commit is refused, or is a duplicate, or lands;
the first two change nothing. -/
theorem apply_outcome (self : Partition) (commit : Commit) (replay observed : Bool) :
    (∃ e, (apply commit replay observed).run self = (.error e, self)) ∨
      ((apply commit replay observed).run self = (.ok .duplicate, self) ∧
        commit.partition.value = self.key.value ∧ self.hasTxn commit.txnId = true) ∨
      ∃ next, (apply commit replay observed).run self = (.ok (.appended commit.seq), next) ∧
        self.Landed commit replay observed next := by
  rw [apply_run]
  split
  · rename_i hkey
    rw [PartitionKey.equals_iff] at hkey
    split
    · rename_i htxn
      exact Or.inr (Or.inl ⟨rfl, hkey, htxn⟩)
    · rename_i htxn
      cases hseq : self.checkSeq observed commit.seq with
      | error e => exact Or.inl ⟨e, rfl⟩
      | ok u =>
        cases hfence : self.commitFence commit.fence with
        | error e => exact Or.inl ⟨e, rfl⟩
        | ok fence =>
          cases hstaged : self.stageOps replay observed commit.ops self.stage with
          | error e => exact Or.inl ⟨e, rfl⟩
          | ok staged =>
            obtain ⟨hfollows, rfl⟩ := commitFence_ok_iff.mp hfence
            refine Or.inr (Or.inr ⟨_, rfl, ?_⟩)
            exact
              { partition := hkey
                fresh := Bool.eq_false_iff.mpr htxn
                seq := checkSeq_ok_iff.mp hseq
                fence := hfollows
                staged := ⟨staged, hstaged, rfl⟩ }
  · exact Or.inl ⟨_, rfl⟩

/-- **A commit that can land does.** -/
theorem apply_of_landed {commit : Commit} {replay observed : Bool} {next : Partition}
    (h : self.Landed commit replay observed next) :
    (apply commit replay observed).run self = (.ok (.appended commit.seq), next) := by
  obtain ⟨staged, hstaged, rfl⟩ := h.staged
  have hkey : commit.partition.equals self.key = true := (PartitionKey.equals_iff _ _).mpr h.partition
  rw [apply_run, if_pos hkey, h.fresh, checkSeq_ok_iff.mpr h.seq,
    commitFence_ok_iff.mpr ⟨h.fence, rfl⟩, hstaged]
  rfl

/-- A call lands exactly when it answers `appended`. -/
theorem landed_iff {commit : Commit} {replay observed : Bool} {next : Partition} :
    self.Landed commit replay observed next ↔
      (apply commit replay observed).run self = (.ok (.appended commit.seq), next) := by
  refine ⟨apply_of_landed, ?_⟩
  intro h
  rcases apply_outcome self commit replay observed with ⟨e, he⟩ | ⟨hdup, -⟩ | ⟨next', happ, hland⟩
  · rw [h] at he
    cases he
  · rw [h] at hdup
    cases hdup
  · rw [h] at happ
    cases happ
    exact hland

namespace Landed

variable {commit : Commit} {replay observed : Bool} {next : Partition}

theorem key (h : self.Landed commit replay observed next) : next.key = self.key := by
  obtain ⟨staged, -, rfl⟩ := h.staged
  rfl

theorem next_seq (h : self.Landed commit replay observed next) : next.seq = commit.seq := by
  obtain ⟨staged, -, rfl⟩ := h.staged
  rfl

theorem next_fence (h : self.Landed commit replay observed next) :
    next.highestFence = commit.fence := by
  obtain ⟨staged, -, rfl⟩ := h.staged
  rfl

theorem next_hasTxn (h : self.Landed commit replay observed next) (txnId : JsString) :
    next.hasTxn txnId = (decide (txnId = commit.txnId) || self.hasTxn txnId) := by
  obtain ⟨staged, -, rfl⟩ := h.staged
  simp [hasTxn, land, Bool.or_assoc]

theorem record_lookup (h : self.Landed commit replay observed next) (key : RecordKey) :
    next.records.lookup key =
      commit.ops.foldl (fun sha op => op.onRecord key sha) (self.records.lookup key) := by
  obtain ⟨staged, hstaged, rfl⟩ := h.staged
  have hfold := (stageOps_folds hstaged).1 key
  rw [current_stage] at hfold
  rw [land, lookup_writeBack]
  exact hfold

theorem name_lookup (h : self.Landed commit replay observed next) (name : JsString) :
    next.names.lookup name =
      commit.ops.foldl (fun d op => op.onName name d) (self.names.lookup name) := by
  obtain ⟨staged, hstaged, rfl⟩ := h.staged
  have hfold := (stageOps_folds hstaged).2.1 name
  rw [entry_stage] at hfold
  rw [land, lookup_writeAll]
  exact hfold

/-- The lease is the last one an op took. -/
theorem lease (h : self.Landed commit replay observed next) :
    (next.leaseFence, next.leaseHolder) =
      commit.ops.foldl Op.onLease (self.leaseFence, self.leaseHolder) := by
  obtain ⟨staged, hstaged, rfl⟩ := h.staged
  exact (stageOps_folds hstaged).2.2

end Landed

end Partition

end Swamp
