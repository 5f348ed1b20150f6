import Mathlib.Data.List.Sort
import Swamp.Ops

/-!
# The plan of an outbox recovery

A recovery judges what earlier processes left in the outbox: an entry settles,
is sent, dropped, skipped or kept.  A unit's run entries go last.
-/

namespace Swamp

namespace OutboxRecovery

open Js

/-- `OUTBOX_RETRY_BOUND_MS`. -/
def OUTBOX_RETRY_BOUND_MS : ℤ := 7 * (24 * 60 * 60 * 1000)

/-- `COMPACTED_TXN_RETENTION_MS`. -/
def COMPACTED_TXN_RETENTION_MS : ℤ := OUTBOX_RETRY_BOUND_MS + 24 * 60 * 60 * 1000

/-- `OutboxEntryState`. -/
inductive OutboxEntryState where
  | offline
  | rejected
  | quarantined
deriving DecidableEq

/-- `ProcessIdentity`. -/
structure ProcessIdentity where
  host : JsString
  bootId : Option JsString
  startTime : Option JsString
deriving DecidableEq

/-- `OutboxEntry`, with what a plan reads of it. -/
structure OutboxEntry where
  commit : Commit
  unitId : JsString
  sequence : ℤ
  createdAt : ℤ
  writerProcess : Option ProcessIdentity
  leftAtFence : Option ℕ
  abandonedAt : Option ℤ
  state : Option OutboxEntryState
deriving DecidableEq

/-- `isRunEntry`. -/
def isRunEntry (entry : OutboxEntry) : Bool :=
  match entry.commit.partition.identity with
  | .run _ _ => true
  | _ => false

/-- `FenceChain`. -/
structure FenceChain where
  lastFence : ℕ
  chainStart : ℕ
  floor : ℕ

/-- `OutboxDropReason`. -/
inductive OutboxDropReason where
  | abandoned
  | staleFence
  | overtaken
  | expired
  | unitDropped
  | headMoved
  | refused
  | leaseSuperseded
  | missingChunk
  | unreadable
deriving DecidableEq

/-- `OutboxDrop`. -/
structure OutboxDrop where
  entry : OutboxEntry
  reason : OutboxDropReason
  uncertain : Bool

/-- `OutboxRecoveryJudgement`. -/
structure OutboxRecoveryJudgement where
  chain : FenceChain
  now : ℤ
  writerAlive : CommitWriter → Option ProcessIdentity → Bool
  landed : Option (OutboxEntry → Bool)

/-- `judgement.landed?.(entry) === true`. -/
def OutboxRecoveryJudgement.hasLanded (judgement : OutboxRecoveryJudgement) (entry : OutboxEntry) :
    Bool :=
  match judgement.landed with
  | some landed => landed entry
  | none => false

/-- What `dropReason` answers, where it answers. -/
inductive Verdict where
  | drop (reason : OutboxDropReason)
  | skip
  | settle

/-- `dropReason`. -/
def dropReason (entry : OutboxEntry) (judgement : OutboxRecoveryJudgement) : Option Verdict :=
  if entry.abandonedAt.isSome then some (.drop .abandoned)
  else if judgement.hasLanded entry then some .settle
  else
    match entry.commit.fence with
    | none => some (.drop .staleFence)
    | some fence =>
      if fence.val < judgement.chain.chainStart then some (.drop .staleFence)
      else if fence.val < judgement.chain.floor ∧ entry.leftAtFence = none then
        some (.drop .overtaken)
      else if judgement.writerAlive entry.commit.writer entry.writerProcess then some .skip
      else if OUTBOX_RETRY_BOUND_MS < judgement.now - entry.createdAt then
        some (.drop .expired)
      else none

/-- `mayBePruned`. -/
def mayBePruned (entry : OutboxEntry) (now : ℤ) : Bool :=
  COMPACTED_TXN_RETENTION_MS < now - entry.createdAt

/-- The lists the first walk of `planOutboxRecovery` fills. -/
structure Buckets where
  skipped : List OutboxEntry
  settles : List OutboxEntry
  drops : List OutboxDrop
  kept : List OutboxEntry
  offline : List OutboxEntry
  held : List OutboxEntry

def Buckets.empty : Buckets := ⟨[], [], [], [], [], []⟩

/-- One step of the first walk. -/
def place (judgement : OutboxRecoveryJudgement) (buckets : Buckets) (entry : OutboxEntry) :
    Buckets :=
  if entry.state.isSome ∧ entry.abandonedAt = none then
    if judgement.hasLanded entry then { buckets with settles := buckets.settles ++ [entry] }
    else if entry.state = some .offline then { buckets with offline := buckets.offline ++ [entry] }
    else { buckets with held := buckets.held ++ [entry] }
  else
    match dropReason entry judgement with
    | some .skip => { buckets with skipped := buckets.skipped ++ [entry] }
    | some .settle => { buckets with settles := buckets.settles ++ [entry] }
    | some (.drop reason) =>
      if reason = .expired ∧ mayBePruned entry judgement.now then
        { buckets with drops := buckets.drops ++ [⟨entry, reason, true⟩] }
      else { buckets with drops := buckets.drops ++ [⟨entry, reason, false⟩] }
    | none => { buckets with kept := buckets.kept ++ [entry] }

/-- `droppedUnits`. -/
def droppedUnits (drops : List OutboxDrop) : List JsString :=
  (drops.filter (fun drop => !isRunEntry drop.entry)).map (fun drop => drop.entry.unitId)

/-- The lists the second walk fills. -/
structure Sorted where
  sends : List OutboxEntry
  runs : List OutboxEntry
  drops : List OutboxDrop

/-- One step of the second walk, over what was kept. -/
def sortKept (units : List JsString) (sorted : Sorted) (entry : OutboxEntry) : Sorted :=
  if !isRunEntry entry then { sorted with sends := sorted.sends ++ [entry] }
  else if units.contains entry.unitId then
    { sorted with drops := sorted.drops ++ [⟨entry, .unitDropped, false⟩] }
  else { sorted with runs := sorted.runs ++ [entry] }

/-- `OutboxRecoveryPlan`. -/
structure OutboxRecoveryPlan where
  settles : List OutboxEntry
  sends : List OutboxEntry
  drops : List OutboxDrop
  skipped : List OutboxEntry
  offline : List OutboxEntry
  held : List OutboxEntry

/-- `planOutboxRecovery`. -/
def planOutboxRecovery (entries : List OutboxEntry) (judgement : OutboxRecoveryJudgement) :
    OutboxRecoveryPlan :=
  let ordered := entries.insertionSort (fun a b => a.sequence ≤ b.sequence)
  let buckets := ordered.foldl (place judgement) .empty
  let sorted := buckets.kept.foldl (sortKept (droppedUnits buckets.drops)) ⟨[], [], buckets.drops⟩
  { settles := buckets.settles
    sends := sorted.sends ++ sorted.runs
    drops := sorted.drops
    skipped := buckets.skipped
    offline := buckets.offline
    held := buckets.held }

/-- `dropsAfterRefusal`. -/
def dropsAfterRefusal (dropped : OutboxEntry) (remaining : List OutboxEntry) : List OutboxEntry :=
  if isRunEntry dropped then []
  else remaining.filter (fun entry => isRunEntry entry && entry.unitId = dropped.unitId)

/-- `EntryOutcome`. -/
inductive EntryOutcome where
  | landed
  | settled
  | deferred
  | rejected
  | dropped (reason : OutboxDropReason)

/-- Whether an outcome leaves the entry's change out of the partition. -/
def EntryOutcome.refuses : EntryOutcome → Bool
  | .landed | .settled => false
  | .deferred | .rejected | .dropped _ => true

/-- An entry the recovery came to, and what became of it. -/
structure Attempt where
  entry : OutboxEntry
  outcome : EntryOutcome

/-- The entries left once one was refused. -/
def withoutRefused (entry : OutboxEntry) (remaining : List OutboxEntry) : List OutboxEntry :=
  remaining.filter (fun other => !(dropsAfterRefusal entry remaining).contains other)

/-- What becomes of an entry: one of a partition that waits waits too. -/
def outcomeOf (recoverEntry : List Attempt → OutboxEntry → EntryOutcome)
    (deferredPartitions : List JsString) (attempts : List Attempt) (entry : OutboxEntry) :
    EntryOutcome :=
  if deferredPartitions.contains entry.commit.partition.value then .deferred
  else recoverEntry attempts entry

/-- The partitions that wait once an entry met its outcome. -/
def deferredAfter (deferredPartitions : List JsString) (entry : OutboxEntry)
    (remaining : List OutboxEntry) : EntryOutcome → List JsString
  | .rejected => entry.commit.partition.value :: deferredPartitions
  | .deferred =>
    entry.commit.partition.value ::
      (dropsAfterRefusal entry remaining).map (fun other => other.commit.partition.value) ++
      deferredPartitions
  | _ => deferredPartitions

/-- The loop over a plan's sends; `recoverEntry` may answer by all that came
before. -/
def recoverSends (recoverEntry : List Attempt → OutboxEntry → EntryOutcome)
    (deferredPartitions : List JsString) (attempts : List Attempt) :
    List OutboxEntry → List Attempt
  | [] => attempts
  | entry :: rest =>
    let outcome := outcomeOf recoverEntry deferredPartitions attempts entry
    recoverSends recoverEntry (deferredAfter deferredPartitions entry rest outcome)
      (attempts ++ [⟨entry, outcome⟩])
      (if outcome.refuses then withoutRefused entry rest else rest)
termination_by remaining => remaining.length
decreasing_by
  simp only [List.length_cons]
  split
  · exact Nat.lt_succ_of_le (List.length_filter_le _ rest)
  · exact Nat.lt_succ_self _

/-- An entry whose state is the record of a change no one gave up. -/
def Stated (entry : OutboxEntry) : Prop := entry.state ≠ none ∧ entry.abandonedAt = none

/-- Every entry of the buckets. -/
def Buckets.all (buckets : Buckets) : List OutboxEntry :=
  buckets.settles ++ buckets.kept ++ buckets.drops.map OutboxDrop.entry ++ buckets.skipped ++
    buckets.offline ++ buckets.held

/-- **One step of the first walk** puts the entry in one list. -/
theorem place_spec (judgement : OutboxRecoveryJudgement) (buckets : Buckets)
    (entry : OutboxEntry) :
    place judgement buckets entry = { buckets with skipped := buckets.skipped ++ [entry] } ∨
      place judgement buckets entry = { buckets with settles := buckets.settles ++ [entry] } ∨
      (∃ reason uncertain, ¬ Stated entry ∧ place judgement buckets entry =
        { buckets with drops := buckets.drops ++ [⟨entry, reason, uncertain⟩] }) ∨
      (¬ Stated entry ∧
        place judgement buckets entry = { buckets with kept := buckets.kept ++ [entry] }) ∨
      place judgement buckets entry = { buckets with offline := buckets.offline ++ [entry] } ∨
      place judgement buckets entry = { buckets with held := buckets.held ++ [entry] } := by
  unfold place
  by_cases hstated : entry.state.isSome = true ∧ entry.abandonedAt = none
  · rw [if_pos hstated]
    split
    · exact Or.inr (Or.inl rfl)
    · split
      · exact Or.inr (Or.inr (Or.inr (Or.inr (Or.inl rfl))))
      · exact Or.inr (Or.inr (Or.inr (Or.inr (Or.inr rfl))))
  · have hfree : ¬ Stated entry := fun h =>
      hstated ⟨Option.isSome_iff_ne_none.mpr h.1, h.2⟩
    rw [if_neg hstated]
    split
    · exact Or.inl rfl
    · exact Or.inr (Or.inl rfl)
    · split
      · exact Or.inr (Or.inr (Or.inl ⟨_, _, hfree, rfl⟩))
      · exact Or.inr (Or.inr (Or.inl ⟨_, _, hfree, rfl⟩))
    · exact Or.inr (Or.inr (Or.inr (Or.inl ⟨hfree, rfl⟩)))

theorem place_all (judgement : OutboxRecoveryJudgement) (buckets : Buckets)
    (entry : OutboxEntry) :
    (place judgement buckets entry).all.Perm (buckets.all ++ [entry]) := by
  rw [List.perm_iff_count]
  intro other
  obtain h | h | ⟨reason, uncertain, -, h⟩ | ⟨-, h⟩ | h | h := place_spec judgement buckets entry
  all_goals
    rw [h]
    simp only [Buckets.all, List.map_append, List.map_cons, List.map_nil, List.count_append]
    omega

/-- **The first walk** puts every entry in one list. -/
theorem places_all (judgement : OutboxRecoveryJudgement) (entries : List OutboxEntry)
    (buckets : Buckets) :
    (entries.foldl (place judgement) buckets).all.Perm (buckets.all ++ entries) := by
  induction entries generalizing buckets with
  | nil => simp
  | cons entry rest ih =>
    have hstep := (place_all judgement buckets entry).append_right rest
    rw [List.append_assoc, List.singleton_append] at hstep
    exact (ih (place judgement buckets entry)).trans hstep

/-- **What is kept** stands in the order of the walk. -/
theorem places_kept (judgement : OutboxRecoveryJudgement) (entries : List OutboxEntry)
    (buckets : Buckets) :
    (entries.foldl (place judgement) buckets).kept.Sublist (buckets.kept ++ entries) := by
  induction entries generalizing buckets with
  | nil => simp
  | cons entry rest ih =>
    have hstep : (place judgement buckets entry).kept.Sublist (buckets.kept ++ [entry]) := by
      obtain h | h | ⟨reason, uncertain, -, h⟩ | ⟨-, h⟩ | h | h :=
        place_spec judgement buckets entry
      all_goals simp [h]
    have hrest := hstep.append_right rest
    rw [List.append_assoc, List.singleton_append] at hrest
    exact (ih (place judgement buckets entry)).trans hrest

/-- Nothing dropped or kept is the record of a change no one gave up. -/
def Unstated (buckets : Buckets) : Prop :=
  (∀ drop ∈ buckets.drops, ¬ Stated drop.entry) ∧ ∀ entry ∈ buckets.kept, ¬ Stated entry

theorem place_unstated (judgement : OutboxRecoveryJudgement) {buckets : Buckets}
    (h : Unstated buckets) (entry : OutboxEntry) : Unstated (place judgement buckets entry) := by
  obtain hplace | hplace | ⟨reason, uncertain, hfree, hplace⟩ | ⟨hfree, hplace⟩ | hplace | hplace :=
    place_spec judgement buckets entry
  all_goals
    rw [hplace]
    grind [Unstated]

theorem places_unstated (judgement : OutboxRecoveryJudgement) (entries : List OutboxEntry)
    {buckets : Buckets} (h : Unstated buckets) :
    Unstated (entries.foldl (place judgement) buckets) := by
  induction entries generalizing buckets with
  | nil => exact h
  | cons entry rest ih => exact ih (place_unstated judgement h entry)

/-- **The second walk.** -/
theorem sortKept_spec (units : List JsString) (kept : List OutboxEntry) (sorted : Sorted) :
    kept.foldl (sortKept units) sorted =
      ⟨sorted.sends ++ kept.filter (fun entry => !isRunEntry entry),
        sorted.runs ++ kept.filter (fun entry => isRunEntry entry && !units.contains entry.unitId),
        sorted.drops ++ (kept.filter (fun entry =>
          isRunEntry entry && units.contains entry.unitId)).map (⟨·, .unitDropped, false⟩)⟩ := by
  induction kept generalizing sorted with
  | nil => simp
  | cons entry rest ih =>
    rw [List.foldl_cons, ih]
    cases hrun : isRunEntry entry with
    | false => simp [sortKept, hrun]
    | true =>
      by_cases hunit : entry.unitId ∈ units
      · simp [sortKept, hrun, hunit]
      · simp [sortKept, hrun, hunit]

theorem kept_perm (units : List JsString) (kept : List OutboxEntry) :
    (kept.filter (fun entry => !isRunEntry entry) ++
      kept.filter (fun entry => isRunEntry entry && !units.contains entry.unitId) ++
      kept.filter (fun entry => isRunEntry entry && units.contains entry.unitId)).Perm kept := by
  induction kept with
  | nil => exact .nil
  | cons entry rest ih =>
    rw [List.perm_iff_count] at ih ⊢
    intro other
    have hrest := ih other
    simp only [List.count_append] at hrest ⊢
    cases hrun : isRunEntry entry with
    | false =>
      simp [hrun, List.count_cons] at hrest ⊢
      omega
    | true =>
      by_cases hunit : entry.unitId ∈ units
      · simp [hrun, hunit, List.count_cons] at hrest ⊢
        omega
      · simp [hrun, hunit, List.count_cons] at hrest ⊢
        omega

section

variable (entries : List OutboxEntry) (judgement : OutboxRecoveryJudgement)

/-- The buckets of a plan. -/
def bucketsOf : Buckets :=
  (entries.insertionSort (fun a b => a.sequence ≤ b.sequence)).foldl (place judgement) .empty

theorem bucketsOf_kept_sorted :
    (bucketsOf entries judgement).kept.Pairwise (fun a b => a.sequence ≤ b.sequence) := by
  have hordered : (entries.insertionSort (fun a b => a.sequence ≤ b.sequence)).Pairwise
      (fun a b => a.sequence ≤ b.sequence) := by
    have : Std.Total (fun a b : OutboxEntry => a.sequence ≤ b.sequence) :=
      ⟨fun a b => le_total a.sequence b.sequence⟩
    have : IsTrans OutboxEntry (fun a b : OutboxEntry => a.sequence ≤ b.sequence) :=
      ⟨fun a b c => le_trans⟩
    exact List.pairwise_insertionSort _ entries
  exact hordered.sublist (places_kept judgement _ .empty)

theorem plan_sends : (planOutboxRecovery entries judgement).sends =
    (bucketsOf entries judgement).kept.filter (fun entry => !isRunEntry entry) ++
      (bucketsOf entries judgement).kept.filter (fun entry => isRunEntry entry &&
        !(droppedUnits (bucketsOf entries judgement).drops).contains entry.unitId) := by
  unfold planOutboxRecovery bucketsOf
  dsimp only
  rw [sortKept_spec]
  rfl

theorem plan_drops : (planOutboxRecovery entries judgement).drops =
    (bucketsOf entries judgement).drops ++
      ((bucketsOf entries judgement).kept.filter (fun entry => isRunEntry entry &&
        (droppedUnits (bucketsOf entries judgement).drops).contains entry.unitId)).map
          (⟨·, .unitDropped, false⟩) := by
  unfold planOutboxRecovery bucketsOf
  dsimp only
  rw [sortKept_spec]

/-- Every entry of a plan. -/
def OutboxRecoveryPlan.all (plan : OutboxRecoveryPlan) : List OutboxEntry :=
  plan.settles ++ plan.sends ++ plan.drops.map OutboxDrop.entry ++ plan.skipped ++ plan.offline ++
    plan.held

/-- **Every entry is in one list of the plan.** -/
theorem planOutboxRecovery_perm : (planOutboxRecovery entries judgement).all.Perm entries := by
  have hbuckets : (bucketsOf entries judgement).all.Perm entries :=
    (places_all judgement _ .empty).trans
      (List.perm_insertionSort (fun a b : OutboxEntry => a.sequence ≤ b.sequence) entries)
  have hkept := kept_perm (droppedUnits (bucketsOf entries judgement).drops)
    (bucketsOf entries judgement).kept
  have hentry : OutboxDrop.entry ∘ (fun entry => ⟨entry, .unitDropped, false⟩) = id := rfl
  rw [List.perm_iff_count] at hkept hbuckets ⊢
  intro other
  have hcount := hkept other
  have hall := hbuckets other
  unfold OutboxRecoveryPlan.all
  rw [plan_sends, plan_drops, List.map_append, List.map_map, hentry, List.map_id]
  unfold Buckets.all at hall
  simp only [List.count_append] at hcount hall ⊢
  have hsettles : (planOutboxRecovery entries judgement).settles =
      (bucketsOf entries judgement).settles := rfl
  have hskipped : (planOutboxRecovery entries judgement).skipped =
      (bucketsOf entries judgement).skipped := rfl
  have hoffline : (planOutboxRecovery entries judgement).offline =
      (bucketsOf entries judgement).offline := rfl
  have hheld : (planOutboxRecovery entries judgement).held =
      (bucketsOf entries judgement).held := rfl
  rw [hsettles, hskipped, hoffline, hheld]
  omega

end

/-- No run entry of a unit comes after a refusal in it. -/
def Apart (attempt : Attempt) (entry : OutboxEntry) : Prop :=
  attempt.outcome.refuses = true → isRunEntry attempt.entry = false → isRunEntry entry = true →
    entry.unitId ≠ attempt.entry.unitId

theorem apart_of_mem_withoutRefused {entry other : OutboxEntry} {outcome : EntryOutcome}
    {remaining : List OutboxEntry} (h : other ∈ withoutRefused entry remaining) :
    Apart ⟨entry, outcome⟩ other := by
  intro _ hdata hrun hsame
  obtain ⟨hmem, hkept⟩ := List.mem_filter.mp h
  dsimp only at hdata hsame
  simp [dropsAfterRefusal, hdata, hmem, hrun, hsame] at hkept

/-- **Sending** keeps every unit's run entries from following a refusal. -/
theorem recoverSends_units (recoverEntry : List Attempt → OutboxEntry → EntryOutcome)
    (deferredPartitions : List JsString) (attempts : List Attempt)
    (remaining : List OutboxEntry)
    (hpast : attempts.Pairwise (fun a b => Apart a b.entry))
    (hnext : ∀ attempt ∈ attempts, ∀ entry ∈ remaining, Apart attempt entry) :
    (recoverSends recoverEntry deferredPartitions attempts remaining).Pairwise
      (fun a b => Apart a b.entry) := by
  fun_induction recoverSends recoverEntry deferredPartitions attempts remaining with
  | case1 deferredPartitions attempts => exact hpast
  | case2 deferredPartitions attempts entry rest outcome ih =>
    apply ih
    · rw [List.pairwise_append]
      refine ⟨hpast, List.pairwise_singleton _ _, ?_⟩
      intro attempt hattempt last hlast
      rw [List.mem_singleton.mp hlast]
      exact hnext attempt hattempt entry List.mem_cons_self
    · intro attempt hattempt other hother
      rcases List.mem_append.mp hattempt with hearlier | hlast
      · refine hnext attempt hearlier other (List.mem_cons_of_mem entry ?_)
        split at hother
        · exact (List.mem_filter.mp hother).1
        · exact hother
      · rw [List.mem_singleton.mp hlast]
        split at hother
        case isTrue => exact apart_of_mem_withoutRefused hother
        case isFalse haccepted => exact fun hrefused => absurd hrefused haccepted

/-- **An outbox recovery.** Each entry stands in one list of the plan; sends are
in their prepared order, data before run records; a run record of a unit that
lost data is not sent; the record of a change no one gave up is not dropped. -/
theorem outbox_recovery (entries : List OutboxEntry) (judgement : OutboxRecoveryJudgement) :
    let plan := planOutboxRecovery entries judgement
    (plan.settles ++ plan.sends ++ plan.drops.map OutboxDrop.entry ++ plan.skipped ++
      plan.offline ++ plan.held).Perm entries ∧
    (∃ data runs, plan.sends = data ++ runs ∧
      (∀ entry ∈ data, isRunEntry entry = false) ∧ (∀ entry ∈ runs, isRunEntry entry = true) ∧
      data.Pairwise (fun a b => a.sequence ≤ b.sequence) ∧
      runs.Pairwise (fun a b => a.sequence ≤ b.sequence)) ∧
    (∀ run ∈ plan.sends, isRunEntry run = true → ∀ drop ∈ plan.drops,
      isRunEntry drop.entry = false → drop.entry.unitId ≠ run.unitId) ∧
    (∀ drop ∈ plan.drops, ¬ (drop.entry.state ≠ none ∧ drop.entry.abandonedAt = none)) ∧
    ∀ recoverEntry, (recoverSends recoverEntry [] [] plan.sends).Pairwise (fun earlier later =>
      earlier.outcome.refuses = true → isRunEntry earlier.entry = false →
        isRunEntry later.entry = true → later.entry.unitId ≠ earlier.entry.unitId) := by
  have hsorted := bucketsOf_kept_sorted entries judgement
  have hunstated : Unstated (bucketsOf entries judgement) :=
    places_unstated judgement _ ⟨List.forall_mem_nil _, List.forall_mem_nil _⟩
  refine ⟨planOutboxRecovery_perm entries judgement, ?_, ?_, ?_, ?_⟩
  · refine ⟨_, _, plan_sends entries judgement, ?_, ?_, hsorted.filter _, hsorted.filter _⟩
    · intro entry hentry
      have hdata := (List.mem_filter.mp hentry).2
      simpa using hdata
    · intro entry hentry
      have hrun := (List.mem_filter.mp hentry).2
      exact (Bool.and_eq_true_iff.mp hrun).1
  · intro run hsent hrun drop hdrop hdata hsame
    rw [plan_sends] at hsent
    rw [plan_drops] at hdrop
    have hunit : drop.entry.unitId ∈ droppedUnits (bucketsOf entries judgement).drops := by
      rcases List.mem_append.mp hdrop with hfirst | hlater
      · exact List.mem_map.mpr ⟨drop, List.mem_filter.mpr ⟨hfirst, by simp [hdata]⟩, rfl⟩
      · -- what the second walk drops is a run entry
        obtain ⟨entry, hentry, hdropped⟩ := List.mem_map.mp hlater
        have hkept := (List.mem_filter.mp hentry).2
        rw [← hdropped] at hdata
        simp [hdata] at hkept
    rcases List.mem_append.mp hsent with hfirst | hlater
    · have hkept := (List.mem_filter.mp hfirst).2
      simp [hrun] at hkept
    · have hkept := (List.mem_filter.mp hlater).2
      rw [hsame] at hunit
      simp [hunit] at hkept
  · intro drop hdrop
    rw [plan_drops] at hdrop
    rcases List.mem_append.mp hdrop with hfirst | hlater
    · exact hunstated.1 drop hfirst
    · obtain ⟨entry, hentry, hdropped⟩ := List.mem_map.mp hlater
      rw [← hdropped]
      exact hunstated.2 entry (List.mem_filter.mp hentry).1
  · intro recoverEntry
    exact recoverSends_units recoverEntry [] [] _ .nil (List.forall_mem_nil _)

end OutboxRecovery

end Swamp
