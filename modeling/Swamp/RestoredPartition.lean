import Swamp.AppendLog

/-!
# A restored partition behaves like the one it came from

`Agree` relates two partitions that differ at most in where they keep the
txnIds they know.  Every call answers alike on both and keeps them in
agreement, so no sequence of calls tells a restored partition from the
original.
-/

namespace Swamp

open Js MapOverlay

namespace Partition

/-- Two partitions that agree on everything but where their txnIds are kept. -/
structure Agree (p q : Partition) : Prop where
  state : ∃ txnIds priorTxn, q = { p with txnIds := txnIds, priorTxn := priorTxn }
  hasTxn : ∀ txnId, q.hasTxn txnId = p.hasTxn txnId

variable {p q : Partition}

theorem Agree.snapshot (h : p.Agree q) : q.snapshot = p.snapshot := by
  obtain ⟨txnIds, priorTxn, rfl⟩ := h.state
  rfl

/-- **One call on both.**  It answers alike, and the partitions agree after
it. -/
theorem Agree.apply (h : p.Agree q) (commit : Commit) (replay observed : Bool) :
    ((Partition.apply commit replay observed).run q).1 =
        ((Partition.apply commit replay observed).run p).1 ∧
      ((Partition.apply commit replay observed).run p).2.Agree
        ((Partition.apply commit replay observed).run q).2 := by
  obtain ⟨⟨txnIds, priorTxn, rfl⟩, htxn⟩ := h
  have hagree : p.Agree { p with txnIds := txnIds, priorTxn := priorTxn } :=
    ⟨⟨txnIds, priorTxn, rfl⟩, htxn⟩
  have hseq : ({ p with txnIds := txnIds, priorTxn := priorTxn } : Partition).checkSeq observed
      commit.seq = p.checkSeq observed commit.seq := rfl
  have hfence : ({ p with txnIds := txnIds, priorTxn := priorTxn } : Partition).commitFence
      commit.fence = p.commitFence commit.fence := rfl
  have hstaged : ({ p with txnIds := txnIds, priorTxn := priorTxn } : Partition).stageOps replay
      observed commit.ops (stage { p with txnIds := txnIds, priorTxn := priorTxn }) =
      p.stageOps replay observed commit.ops p.stage := rfl
  rw [apply_run, apply_run, htxn, hseq, hfence, hstaged]
  by_cases hkey : commit.partition.equals p.key = true
  · by_cases hdup : p.hasTxn commit.txnId = true
    · simp only [hkey, hdup, if_true]
      exact ⟨trivial, hagree⟩
    · simp only [hkey, hdup, if_true, Bool.false_eq_true, if_false]
      cases p.checkSeq observed commit.seq with
      | error e => exact ⟨rfl, hagree⟩
      | ok u =>
        cases p.commitFence commit.fence with
        | error e => exact ⟨rfl, hagree⟩
        | ok fence =>
          cases p.stageOps replay observed commit.ops p.stage with
          | error e => exact ⟨rfl, hagree⟩
          | ok staged =>
            refine ⟨rfl, ⟨insert commit.txnId txnIds, priorTxn, rfl⟩, ?_⟩
            intro txnId
            have hold := htxn txnId
            simp only [Partition.hasTxn, land, Finset.mem_insert, Bool.decide_or,
              Bool.or_assoc] at hold ⊢
            rw [hold]
  · simp only [hkey, Bool.false_eq_true, if_false]
    exact ⟨trivial, hagree⟩

/-- A call of `append`, or of `appendObserved` when `observed`. -/
structure LogCall extends AppendCall where
  observed : Bool

/-- What a call answers, and the partition after it. -/
def LogCall.run (call : LogCall) (p : Partition) : Outcome :=
  if call.observed then p.appendObserved call.commit call.replay
  else p.append call.commit call.replay

theorem LogCall.run_eq (call : LogCall) (p : Partition) :
    call.run p = (Partition.apply call.commit call.replay call.observed).run p := by
  unfold LogCall.run
  cases call.observed with
  | true | false => rfl

/-- What a sequence of calls shows: each answer, with the snapshot after it. -/
def trace (p : Partition) :
    List LogCall → List (Except CommitRejectedError AppendResult × PartitionSnapshot)
  | [] => []
  | call :: calls => ((call.run p).1, (call.run p).2.snapshot) :: trace (call.run p).2 calls

/-- Partitions that agree show the same. -/
theorem Agree.trace (h : p.Agree q) (calls : List LogCall) : q.trace calls = p.trace calls := by
  induction calls generalizing p q with
  | nil => rfl
  | cons call calls ih =>
    obtain ⟨hanswer, hnext⟩ := h.apply call.commit call.replay call.observed
    simp only [Partition.trace, LogCall.run_eq, hanswer, hnext.snapshot, ih hnext]

/-- **A restored partition behaves like the one it came from.**  Its own snapshot
is the one it was restored from, and every sequence of calls shows the same
answers, refusals and snapshots on both. -/
theorem restored_partition_behaves_alike {key : PartitionKey} {p : Partition}
    (h : Runs key (empty key) p) :
    ∃ restored, Partition.restore p.key p.snapshot.toJson p.hasTxn = .ok restored ∧
      restored.snapshot = p.snapshot ∧
      ∀ calls : List LogCall, restored.trace calls = p.trace calls := by
  have hagree : p.Agree { p with txnIds := ∅, priorTxn := p.hasTxn } := by
    refine ⟨⟨∅, p.hasTxn, rfl⟩, ?_⟩
    intro txnId
    simp [Partition.hasTxn]
  exact ⟨_, restore_snapshot h.sound p.hasTxn, hagree.snapshot, hagree.trace⟩

/-- The sample partition restores, and refuses the recorded version as before. -/
theorem sample_restores :
    ∃ restored, Partition.restore sampleRecorded.key sampleRecorded.snapshot.toJson
        sampleRecorded.hasTxn = .ok restored ∧
      restored.snapshot = sampleRecorded.snapshot ∧
      ∀ calls : List LogCall, restored.trace calls = sampleRecorded.trace calls :=
  restored_partition_behaves_alike (Runs.append (Runs.refl (empty sampleKey)) _ false)

end Partition

end Swamp
