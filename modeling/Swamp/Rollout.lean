import Mathlib.Data.Finset.Card
import Mathlib.Logic.Relation
import Swamp.ExceptRules
import Swamp.JsText

/-!
# Rolling a fan-out out in batches

A fan-out step runs on one lane for each worker of a pool.  Its lanes are cut
into batches; a batch starts only when every lane of the earlier ones has
settled, and none starts once more lanes have failed than the budget allows.
-/

namespace Swamp

namespace Rollout

open Js

inductive WorkerStatus where
  | idle
  | busy
  | unverified
  | draining
  | disconnected
deriving DecidableEq

structure PoolWorker where
  name : JsString
  instanceUuid : JsString
  labels : List (JsString × JsString)
  platform : JsString
  arch : JsString
  status : WorkerStatus
  connected : Bool

structure FanOutSelector where
  labels : Option (List (JsString × JsString))
  platform : Option JsString

inductive OfflinePolicy where
  | wait
  | skip
  | fail

/-- A batch size or a failure budget: a number, or a percentage as its text. -/
inductive Amount where
  | count (n : ℕ)
  | percent (text : JsString)
deriving DecidableEq

structure RolloutPolicy where
  batches : List Amount
  maxFailures : Option Amount

structure FanOutPolicy where
  offline : OfflinePolicy
  minWorkers : ℕ
  rollout : Option RolloutPolicy

/-- `/^(\d{1,3})%$/`. -/
def parsePercent (value : JsString) : Option ℕ :=
  let digits := value.takeWhile isDigitUnit
  if value.dropWhile isDigitUnit = [unit '%'] ∧ digits ≠ [] ∧ digits.length ≤ 3 then
    some (decimalValue digits)
  else none

/-- A count from some least number on, or a percentage from it to 100. -/
def Amount.Accepted (min : ℕ) : Amount → Prop
  | .count n => min ≤ n
  | .percent text => ∃ pct, parsePercent text = some pct ∧ min ≤ pct ∧ pct ≤ 100

/-- The rest of the lanes. -/
def restOfLanes : Amount := .percent (js "100%")

/-- `RolloutPolicySchema`: the last batch, and only it, is the rest of the lanes. -/
structure RolloutPolicy.Accepted (policy : RolloutPolicy) : Prop where
  sizes : ∀ size ∈ policy.batches, size.Accepted 1
  budget : ∀ budget ∈ policy.maxFailures, budget.Accepted 0
  last : policy.batches.getLast? = some restOfLanes
  others : restOfLanes ∉ policy.batches.dropLast

/-- `FanOutPolicySchema`. -/
structure FanOutPolicy.Accepted (policy : FanOutPolicy) : Prop where
  minWorkers : 1 ≤ policy.minWorkers
  rollout : ∀ rollout ∈ policy.rollout, rollout.Accepted

inductive FanOutDisposition where
  | dispatch
  | waiting
  | skipped
  | failed
  | excluded
deriving DecidableEq

inductive FanOutReason where
  | disconnected
  | unverified
  | draining

structure FanOutMember where
  worker : JsString
  instanceUuid : JsString
  disposition : FanOutDisposition
  reason : Option FanOutReason

def hasLane (member : FanOutMember) : Bool :=
  member.disposition = .dispatch ∨ member.disposition = .waiting

/-- The parts of a text before and after its first slashes: `[platform, arch] = split("/")`. -/
def matchesPlatform (worker : PoolWorker) (required : JsString) : Bool :=
  let platform := (split required).headD []
  (platform = [] ∨ worker.platform = platform) ∧
    ∀ arch ∈ (split required)[1]?, worker.arch = arch

def matchesLabels (worker : PoolWorker) (required : List (JsString × JsString)) : Bool :=
  required.all (fun label => worker.labels.lookup label.1 = some label.2)

def fanOutMember (offline : OfflinePolicy) (worker : PoolWorker) : FanOutMember :=
  let member disposition reason : FanOutMember :=
    ⟨worker.name, worker.instanceUuid, disposition, reason⟩
  -- The last known status beats the connection.
  match worker.status with
  | .unverified => member .excluded (some .unverified)
  | .draining => member .excluded (some .draining)
  | status =>
    if worker.connected = false ∨ status = .disconnected then
      match offline with
      | .wait => member .waiting (some .disconnected)
      | .skip => member .skipped (some .disconnected)
      | .fail => member .failed (some .disconnected)
    else member .dispatch none

inductive FanOutPlan where
  | planned (members : List FanOutMember) (plannedLanes : ℕ) (maxFailures : Option ℕ)
  | refused (live minWorkers : ℕ)

inductive RolloutError where
  | repeatedName
  | invalidBudget
  | invalidBatchSize

/-- A percentage budget rounds down. -/
def resolveMaxFailures (budget : Option Amount) (plannedLanes : ℕ) :
    Except RolloutError (Option ℕ) :=
  match budget with
  | none => .ok none
  | some (.count n) => .ok (some n)
  | some (.percent text) =>
    match parsePercent text with
    | some pct => .ok (some (pct * plannedLanes / 100))
    | none => .error .invalidBudget

def planFanOut (selector : FanOutSelector) (policy : FanOutPolicy) (pool : List PoolWorker) :
    Except RolloutError FanOutPlan := do
  if ¬(pool.map (·.name)).Nodup then throw .repeatedName
  let selected := pool.filter (fun worker =>
    (selector.labels.all (matchesLabels worker)) && selector.platform.all (matchesPlatform worker))
  let members := (selected.insertionSort (fun a b => a.name ≤ b.name)).map
    (fanOutMember policy.offline)
  let plannedLanes := (members.filter hasLane).length
  if plannedLanes < policy.minWorkers then return .refused plannedLanes policy.minWorkers
  return .planned members plannedLanes
    (← resolveMaxFailures (policy.rollout.bind (·.maxFailures)) plannedLanes)

/-- The lanes of one disposition, by name. -/
def named (members : List FanOutMember) (disposition : FanOutDisposition) : List JsString :=
  ((members.filter (fun member => member.disposition = disposition)).map
    (·.worker)).insertionSort (· ≤ ·)

/-- A percentage rounds up, so a small one of a small fleet is still one lane. -/
def batchSize (size : Amount) (lanes : ℕ) : Except RolloutError ℕ :=
  match size with
  | .count n => .ok n
  | .percent text =>
    match parsePercent text with
    | some pct => .ok ((pct * lanes + 99) / 100)
    | none => .error .invalidBatchSize

/-- Cut lanes into batches of some sizes; the last takes what is left. -/
def cutBatches (total : ℕ) :
    List Amount → List JsString → Except RolloutError (List (List JsString))
  | [], _ => .ok []
  | size :: sizes, lanes =>
    if lanes = [] then cutBatches total sizes lanes
    else do
      let take ← if sizes = [] then pure lanes.length
        else (fun asked => min asked lanes.length) <$> batchSize size total
      if 0 < take then return lanes.take take :: (← cutBatches total sizes (lanes.drop take))
      else cutBatches total sizes lanes

/-- Waiting lanes go last, so that the first batch is of hosts that are up. -/
def lanesOf (members : List FanOutMember) : List JsString :=
  named members .dispatch ++ named members .waiting

def planBatches (members : List FanOutMember) (rollout : Option RolloutPolicy) :
    Except RolloutError (List (List JsString)) :=
  let lanes := lanesOf members
  if lanes = [] then .ok []
  else
    match rollout with
    | none => .ok [lanes]
    | some rollout => cutBatches lanes.length rollout.batches lanes

structure PlannedRollout where
  batches : List (List JsString)
  /-- No budget when there is none. -/
  maxFailures : Option ℕ

/-- Failed lanes are also settled, and settled lanes are also started. -/
structure RolloutProgress where
  started : Finset JsString
  settled : Finset JsString
  failed : Finset JsString

inductive RolloutDecision where
  | start (batch : ℕ) (lanes : List JsString)
  | wait
  | halt (held : List JsString)
  | complete
deriving DecidableEq

/-- No more lanes have failed than the budget allows. -/
def WithinBudget (progress : RolloutProgress) (rollout : PlannedRollout) : Prop :=
  ∀ budget ∈ rollout.maxFailures, progress.failed.card ≤ budget

instance (progress : RolloutProgress) (rollout : PlannedRollout) :
    Decidable (WithinBudget progress rollout) := by
  unfold WithinBudget
  infer_instance

def RolloutProgress.notStarted (self : RolloutProgress) (lane : JsString) : Bool :=
  lane ∉ self.started

/-- Every lane of some batches has settled. -/
def RolloutProgress.allSettled (self : RolloutProgress) (batches : List (List JsString)) : Bool :=
  batches.all (fun batch => batch.all (fun lane => lane ∈ self.settled))

/-- What may be done next. -/
def nextBatch (progress : RolloutProgress) (rollout : PlannedRollout) : RolloutDecision :=
  if ¬WithinBudget progress rollout then
    .halt (rollout.batches.flatten.filter progress.notStarted)
  else
    match rollout.batches.findIdx? (fun batch => batch.any progress.notStarted) with
    | none => if progress.allSettled rollout.batches then .complete else .wait
    | some current =>
      if progress.allSettled (rollout.batches.take current) then
        .start current ((rollout.batches.getD current []).filter progress.notStarted)
      else .wait

/-- A lane that the rollout offers starts. -/
inductive Starts (rollout : PlannedRollout) (lane : JsString) (p : RolloutProgress) :
    RolloutProgress → Prop where
  | start {batch : ℕ} {lanes : List JsString} (h : nextBatch p rollout = .start batch lanes)
      (hlane : lane ∈ lanes) :
      Starts rollout lane p { p with started := insert lane p.started }

/-- One step of a rollout: a lane starts, or one that runs settles. -/
inductive Step (rollout : PlannedRollout) (p : RolloutProgress) : RolloutProgress → Prop where
  | start {lane : JsString} {q : RolloutProgress} (h : Starts rollout lane p q) : Step rollout p q
  | succeed {lane : JsString} (hstarted : lane ∈ p.started) (hrunning : lane ∉ p.settled) :
      Step rollout p { p with settled := insert lane p.settled }
  | fail {lane : JsString} (hstarted : lane ∈ p.started) (hrunning : lane ∉ p.settled) :
      Step rollout p
        { p with settled := insert lane p.settled, failed := insert lane p.failed }

/-- Nothing has started. -/
def RolloutProgress.none : RolloutProgress := ⟨∅, ∅, ∅⟩

/-- A progress that some order of starts and settlements leads to. -/
def Reachable (rollout : PlannedRollout) (p : RolloutProgress) : Prop :=
  Relation.ReflTransGen (Step rollout) .none p

theorem batchSize_ok {size : Amount} (h : size.Accepted 1) (lanes : ℕ) :
    ∃ n, batchSize size lanes = .ok n := by
  cases size with
  | count n => exact ⟨n, rfl⟩
  | percent text =>
    obtain ⟨pct, hpct, _⟩ := h
    exact ⟨(pct * lanes + 99) / 100, by simp only [batchSize, hpct]⟩

theorem cutBatches_flatten {total : ℕ} {sizes : List Amount} {lanes : List JsString}
    (hsizes : ∀ size ∈ sizes, size.Accepted 1) (hne : sizes ≠ []) :
    ∃ batches, cutBatches total sizes lanes = .ok batches ∧ batches.flatten = lanes := by
  induction sizes generalizing lanes with
  | nil => exact absurd rfl hne
  | cons size sizes ih =>
    obtain ⟨hsize, hrest⟩ := List.forall_mem_cons.mp hsizes
    unfold cutBatches
    by_cases hlanes : lanes = []
    · rw [if_pos hlanes]
      by_cases hlast : sizes = []
      · exact ⟨[], by rw [hlast, cutBatches], hlanes.symm⟩
      · exact ih hrest hlast
    · rw [if_neg hlanes]
      by_cases hlast : sizes = []
      · have hlength : 0 < lanes.length := List.length_pos_iff.mpr hlanes
        refine ⟨[lanes], ?_, List.flatten_singleton⟩
        rw [if_pos hlast, hlast]
        simp only [pure, Except.pure, bind, Except.bind, if_pos hlength, List.take_length,
          cutBatches]
      · obtain ⟨asked, hasked⟩ := batchSize_ok hsize total
        obtain ⟨batches, hbatches, hflatten⟩ :=
          @ih (lanes.drop (min asked lanes.length)) hrest hlast
        obtain ⟨same, hsame, hsameFlatten⟩ := @ih lanes hrest hlast
        rw [if_neg hlast, hasked]
        by_cases htake : 0 < min asked lanes.length
        · refine ⟨lanes.take (min asked lanes.length) :: batches, ?_, ?_⟩
          · simp only [Functor.map, Except.map, bind, Except.bind, if_pos htake, hbatches, pure,
              Except.pure]
          · rw [List.flatten_cons, hflatten, List.take_append_drop]
        · refine ⟨same, ?_, hsameFlatten⟩
          simp only [Functor.map, Except.map, bind, Except.bind, if_neg htake, hsame]

theorem planBatches_flatten (members : List FanOutMember) {rollout : Option RolloutPolicy}
    (h : ∀ policy ∈ rollout, policy.Accepted) :
    ∃ batches, planBatches members rollout = .ok batches ∧
      batches.flatten = lanesOf members := by
  unfold planBatches
  dsimp only
  by_cases hlanes : lanesOf members = []
  · rw [if_pos hlanes]
    exact ⟨[], rfl, hlanes.symm⟩
  · rw [if_neg hlanes]
    cases rollout with
    | none => exact ⟨[lanesOf members], rfl, List.flatten_singleton⟩
    | some policy =>
      have haccepted := h policy rfl
      have hne : policy.batches ≠ [] := by
        intro hnil
        have hlast := haccepted.last
        rw [hnil] at hlast
        exact nomatch hlast
      exact cutBatches_flatten haccepted.sizes hne

variable {members : List FanOutMember}

theorem mem_named {disposition : FanOutDisposition} {lane : JsString} :
    lane ∈ named members disposition ↔
      ∃ member ∈ members, member.disposition = disposition ∧ member.worker = lane := by
  unfold named
  rw [List.mem_insertionSort, List.mem_map]
  simp only [List.mem_filter, decide_eq_true_eq, and_assoc]

/-- Distinct workers give distinct lanes. -/
theorem lanesOf_nodup (h : (members.map (·.worker)).Nodup) : (lanesOf members).Nodup := by
  have hpart : ∀ disposition, (named members disposition).Nodup := by
    intro disposition
    apply (List.perm_insertionSort _ _).nodup_iff.mpr
    exact h.sublist (List.filter_sublist.map _)
  refine List.nodup_append.mpr ⟨hpart _, hpart _, ?_⟩
  intro a ha b hb heq
  obtain ⟨left, hleft, hdispatch, hlname⟩ := mem_named.mp ha
  obtain ⟨right, hright, hwaiting, hrname⟩ := mem_named.mp hb
  have hsame : left = right :=
    List.inj_on_of_nodup_map h hleft hright (hlname.trans (heq.trans hrname.symm))
  rw [hsame, hwaiting] at hdispatch
  exact nomatch hdispatch

theorem fanOutMember_worker (offline : OfflinePolicy) (worker : PoolWorker) :
    (fanOutMember offline worker).worker = worker.name := by
  unfold fanOutMember
  dsimp only
  split
  · rfl
  · rfl
  · split
    · cases offline <;> rfl
    · rfl

theorem planFanOut_nodup {selector : FanOutSelector} {policy : FanOutPolicy}
    {pool : List PoolWorker} {plannedLanes : ℕ} {maxFailures : Option ℕ}
    (h : planFanOut selector policy pool = .ok (.planned members plannedLanes maxFailures)) :
    (members.map (·.worker)).Nodup := by
  unfold planFanOut at h
  by_cases hnames : (pool.map (·.name)).Nodup
  · simp only [hnames, not_true_eq_false, if_false] at h
    split at h
    · exact nomatch h
    · obtain ⟨budget, _, hplan⟩ := ExceptRules.bind_ok h
      obtain ⟨rfl, _, _⟩ := FanOutPlan.planned.inj (Except.ok.inj hplan)
      rw [List.map_map]
      have hworker : (fun member : FanOutMember => member.worker) ∘ fanOutMember policy.offline =
          (·.name) := funext (fanOutMember_worker policy.offline)
      rw [hworker]
      have hperm := (List.perm_insertionSort (fun a b : PoolWorker => a.name ≤ b.name)
        (pool.filter (fun worker => (selector.labels.all (matchesLabels worker)) &&
          selector.platform.all (matchesPlatform worker)))).map (·.name)
      exact hperm.nodup_iff.mpr (hnames.sublist (List.filter_sublist.map _))
  · simp only [hnames, not_false_eq_true, if_true] at h
    exact nomatch h

section Answers

variable {rollout : PlannedRollout} {p q : RolloutProgress}

theorem allSettled_iff {batches : List (List JsString)} :
    p.allSettled batches = true ↔ ∀ lane ∈ batches.flatten, lane ∈ p.settled := by
  simp only [RolloutProgress.allSettled, List.all_eq_true, decide_eq_true_eq, List.mem_flatten]
  constructor
  · intro h lane hlane
    obtain ⟨batch, hbatch, hmem⟩ := hlane
    exact h batch hbatch lane hmem
  · intro h batch hbatch lane hmem
    exact h lane ⟨batch, hbatch, hmem⟩

variable {held : List JsString}

theorem nextBatch_halt :
    nextBatch p rollout = .halt held ↔
      ¬WithinBudget p rollout ∧ held = rollout.batches.flatten.filter p.notStarted := by
  unfold nextBatch
  by_cases hbudget : WithinBudget p rollout
  · rw [if_neg (not_not_intro hbudget)]
    constructor
    · intro h
      split at h
      · split at h <;> exact nomatch h
      · split at h <;> exact nomatch h
    · intro h
      exact absurd hbudget h.1
  · rw [if_pos hbudget]
    constructor
    · intro h
      exact ⟨hbudget, (RolloutDecision.halt.inj h).symm⟩
    · intro h
      rw [h.2]

theorem nextBatch_start {batch : ℕ} {lanes : List JsString}
    (h : nextBatch p rollout = .start batch lanes) :
    WithinBudget p rollout ∧
      (∀ lane ∈ (rollout.batches.take batch).flatten, lane ∈ p.settled) ∧
      lanes ≠ [] ∧ ∃ members, rollout.batches[batch]? = some members ∧
        lanes = members.filter p.notStarted := by
  unfold nextBatch at h
  by_cases hbudget : WithinBudget p rollout
  · rw [if_neg (not_not_intro hbudget)] at h
    split at h
    · split at h <;> exact nomatch h
    · rename_i current hcurrent
      split at h
      · rename_i hsettled
        obtain ⟨rfl, rfl⟩ := RolloutDecision.start.inj h
        obtain ⟨hlt, hany, _⟩ := List.findIdx?_eq_some_iff_getElem.mp hcurrent
        have hmembers := List.getElem?_eq_getElem hlt
        rw [List.getD_eq_getElem?_getD, hmembers, Option.getD_some]
        refine ⟨hbudget, allSettled_iff.mp hsettled, ?_, _, rfl, rfl⟩
        obtain ⟨lane, hlane, hnot⟩ := List.any_eq_true.mp hany
        exact List.ne_nil_of_mem (List.mem_filter.mpr ⟨hlane, hnot⟩)
      · exact nomatch h
  · rw [if_pos hbudget] at h
    exact nomatch h

theorem nextBatch_wait (h : nextBatch p rollout = .wait) :
    ∃ lane ∈ p.started, lane ∉ p.settled := by
  have hstarted : ∀ {batch : List JsString}, ¬(batch.any p.notStarted = true) →
      ∀ lane ∈ batch, lane ∈ p.started := by
    intro batch hbatch lane hlane
    by_contra hnot
    exact hbatch (List.any_eq_true.mpr ⟨lane, hlane, decide_eq_true hnot⟩)
  have hunsettled : ∀ {batches : List (List JsString)},
      (∀ batch ∈ batches, ¬(batch.any p.notStarted = true)) →
      ¬(p.allSettled batches = true) → ∃ lane ∈ p.started, lane ∉ p.settled := by
    intro batches hall hnot
    rw [allSettled_iff] at hnot
    simp only [not_forall] at hnot
    obtain ⟨lane, hlane, hunsettled⟩ := hnot
    obtain ⟨batch, hbatch, hmem⟩ := List.mem_flatten.mp hlane
    exact ⟨lane, hstarted (hall batch hbatch) lane hmem, hunsettled⟩
  unfold nextBatch at h
  by_cases hbudget : WithinBudget p rollout
  · rw [if_neg (not_not_intro hbudget)] at h
    split at h
    · rename_i hnone
      split at h
      · exact nomatch h
      · rename_i hnot
        refine hunsettled ?_ hnot
        intro batch hbatch
        exact Bool.eq_false_iff.mp (List.findIdx?_eq_none_iff.mp hnone batch hbatch)
    · rename_i current hcurrent
      split at h
      · exact nomatch h
      · rename_i hnot
        obtain ⟨hlt, _, hfirst⟩ := List.findIdx?_eq_some_iff_getElem.mp hcurrent
        refine hunsettled ?_ hnot
        intro batch hbatch
        obtain ⟨i, hi, rfl⟩ := List.mem_take_iff_getElem.mp hbatch
        exact hfirst i (by omega)
  · rw [if_pos hbudget] at h
    exact nomatch h

theorem nextBatch_complete (hsettled : p.settled ⊆ p.started) :
    nextBatch p rollout = .complete ↔
      WithinBudget p rollout ∧ ∀ lane ∈ rollout.batches.flatten, lane ∈ p.settled := by
  unfold nextBatch
  by_cases hbudget : WithinBudget p rollout
  · rw [if_neg (not_not_intro hbudget)]
    constructor
    · intro h
      split at h
      · split at h
        · rename_i hall
          exact ⟨hbudget, allSettled_iff.mp hall⟩
        · exact nomatch h
      · split at h <;> exact nomatch h
    · intro h
      have hnone : rollout.batches.findIdx? (fun batch => batch.any p.notStarted) = none := by
        rw [List.findIdx?_eq_none_iff]
        intro batch hbatch
        rw [List.any_eq_false]
        intro lane hlane
        have hmem := hsettled (h.2 lane (List.mem_flatten.mpr ⟨batch, hbatch, hlane⟩))
        simp [RolloutProgress.notStarted, hmem]
      rw [hnone]
      exact if_pos (allSettled_iff.mpr h.2)
  · rw [if_pos hbudget]
    exact ⟨nofun, fun h => absurd h.1 hbudget⟩

/-- Only what started settles, and only what settled fails. -/
structure RolloutProgress.Ordered (p : RolloutProgress) : Prop where
  settled : p.settled ⊆ p.started
  failed : p.failed ⊆ p.settled

theorem Step.keeps (h : Step rollout p q) (hp : p.Ordered) :
    q.Ordered ∧ p.started ⊆ q.started ∧ p.failed ⊆ q.failed := by
  cases h with
  | start h =>
    cases h with
    | start _ _ =>
      exact ⟨⟨hp.settled.trans (Finset.subset_insert _ _), hp.failed⟩,
        Finset.subset_insert _ _, Finset.Subset.refl _⟩
  | succeed hstarted _ =>
    refine ⟨⟨?_, hp.failed.trans (Finset.subset_insert _ _)⟩, Finset.Subset.refl _,
      Finset.Subset.refl _⟩
    exact Finset.insert_subset hstarted hp.settled
  | fail hstarted _ =>
    refine ⟨⟨?_, Finset.insert_subset_insert _ hp.failed⟩, Finset.Subset.refl _,
      Finset.subset_insert _ _⟩
    exact Finset.insert_subset hstarted hp.settled

theorem Reachable.ordered (h : Reachable rollout p) : p.Ordered := by
  induction h with
  | refl => exact ⟨Finset.Subset.refl _, Finset.Subset.refl _⟩
  | tail _ hstep ih => exact (hstep.keeps ih).1

theorem halted_step (hp : p.Ordered) (hhalt : nextBatch p rollout = .halt held)
    (h : Step rollout p q) : nextBatch q rollout = .halt held := by
  obtain ⟨hexceeded, hheld⟩ := nextBatch_halt.mp hhalt
  have hfailed := (h.keeps hp).2.2
  have hexceeds : ¬WithinBudget q rollout := by
    intro hbudget
    apply hexceeded
    intro budget hmem
    exact (Finset.card_le_card hfailed).trans (hbudget budget hmem)
  have hstarted : q.started = p.started := by
    cases h with
    | start h =>
      cases h with
      | start hoffer _ =>
        rw [hhalt] at hoffer
        exact nomatch hoffer
    | succeed _ _ | fail _ _ => rfl
  refine nextBatch_halt.mpr ⟨hexceeds, ?_⟩
  have hsame : q.notStarted = p.notStarted := by
    funext lane
    rw [RolloutProgress.notStarted, RolloutProgress.notStarted, hstarted]
  rw [hheld, hsame]

theorem halted_run (hp : p.Ordered) (hhalt : nextBatch p rollout = .halt held)
    (h : Relation.ReflTransGen (Step rollout) p q) :
    nextBatch q rollout = .halt held ∧ q.Ordered := by
  induction h with
  | refl => exact ⟨hhalt, hp⟩
  | tail _ hstep ih => exact ⟨halted_step ih.2 ih.1 hstep, (hstep.keeps ih.2).1⟩

/-- What a lane's start finds: it has not started, every lane of the earlier batches has
settled, and the budget is not exceeded. -/
theorem starts_of_reachable {lane : JsString} (h : Starts rollout lane p q) :
    lane ∉ p.started ∧ WithinBudget p rollout ∧
      ∃ batch members, rollout.batches[batch]? = some members ∧ lane ∈ members ∧
        ∀ earlier ∈ (rollout.batches.take batch).flatten, earlier ∈ p.settled := by
  cases h with
  | start hoffer hlane =>
    obtain ⟨hbudget, hearlier, _, members, hmembers, rfl⟩ := nextBatch_start hoffer
    obtain ⟨hmem, hnot⟩ := List.mem_filter.mp hlane
    exact ⟨of_decide_eq_true hnot, hbudget, _, members, hmembers, hmem, hearlier⟩

end Answers

/-- **A rollout is safe.**  The batches of a planned fan-out list each dispatch lane, then
each waiting lane, once; and in every run a lane starts once, after the earlier batches and
within the budget; a halt stands, with the lanes that never start; a rollout is complete
just when all have settled within the budget, waits only for a lane that runs, and otherwise
offers a lane. -/
theorem rollout_safe {selector : FanOutSelector} {policy : FanOutPolicy}
    {pool : List PoolWorker} {members : List FanOutMember} {plannedLanes : ℕ}
    {maxFailures : Option ℕ} (haccepted : policy.Accepted)
    (hplanned : planFanOut selector policy pool =
      .ok (.planned members plannedLanes maxFailures)) :
    ∃ batches, planBatches members policy.rollout = .ok batches ∧
      batches.flatten = named members .dispatch ++ named members .waiting ∧
      batches.flatten.Nodup ∧
      ∀ p, Reachable ⟨batches, maxFailures⟩ p →
        (∀ lane q, Starts ⟨batches, maxFailures⟩ lane p q →
          lane ∉ p.started ∧ WithinBudget p ⟨batches, maxFailures⟩ ∧
            ∃ batch, (∃ own, batches[batch]? = some own ∧ lane ∈ own) ∧
              ∀ earlier ∈ (batches.take batch).flatten, earlier ∈ p.settled) ∧
        (∀ held, nextBatch p ⟨batches, maxFailures⟩ = .halt held →
          ∀ q, Relation.ReflTransGen (Step ⟨batches, maxFailures⟩) p q →
            nextBatch q ⟨batches, maxFailures⟩ = .halt held ∧
              ∀ lane, lane ∈ held ↔ lane ∈ batches.flatten ∧ lane ∉ q.started) ∧
        (nextBatch p ⟨batches, maxFailures⟩ = .complete ↔
          WithinBudget p ⟨batches, maxFailures⟩ ∧ ∀ lane ∈ batches.flatten, lane ∈ p.settled) ∧
        (nextBatch p ⟨batches, maxFailures⟩ = .wait → ∃ lane ∈ p.started, lane ∉ p.settled) ∧
        ∀ batch lanes, nextBatch p ⟨batches, maxFailures⟩ = .start batch lanes → lanes ≠ [] := by
  obtain ⟨batches, hbatches, hflatten⟩ := planBatches_flatten members
    haccepted.rollout
  have hnodup := lanesOf_nodup (planFanOut_nodup hplanned)
  refine ⟨batches, hbatches, hflatten, hflatten ▸ hnodup, ?_⟩
  intro p hp
  refine ⟨?_, ?_, nextBatch_complete hp.ordered.settled, nextBatch_wait,
    fun _ _ hoffer => (nextBatch_start hoffer).2.2.1⟩
  · intro lane q hstart
    obtain ⟨hnot, hbudget, batch, own, hown, hmem, hearlier⟩ := starts_of_reachable hstart
    exact ⟨hnot, hbudget, batch, ⟨own, hown, hmem⟩, hearlier⟩
  · intro held hhalt q hrun
    obtain ⟨hstill, _⟩ := halted_run hp.ordered hhalt hrun
    refine ⟨hstill, ?_⟩
    intro lane
    rw [(nextBatch_halt.mp hstill).2, List.mem_filter]
    simp [RolloutProgress.notStarted]

/-- Two workers that are up, and one that is waited for. -/
def stagedPool : List PoolWorker :=
  [⟨js "b", js "u2", [], js "linux", js "x64", .idle, true⟩,
    ⟨js "c", js "u3", [], js "linux", js "x64", .disconnected, false⟩,
    ⟨js "a", js "u1", [], js "linux", js "x64", .idle, true⟩]

/-- One lane, then the rest, with no failure allowed. -/
def stagedPolicy : FanOutPolicy := ⟨.wait, 1, some ⟨[.count 1, restOfLanes], some (.count 0)⟩⟩

def stagedMembers : List FanOutMember :=
  [⟨js "a", js "u1", .dispatch, none⟩, ⟨js "b", js "u2", .dispatch, none⟩,
    ⟨js "c", js "u3", .waiting, some .disconnected⟩]

def stagedRollout : PlannedRollout := ⟨[[js "a"], [js "b", js "c"]], some 0⟩

/-- The first batch has succeeded, and the lane of the second that is up has failed. -/
def stagedFailure : RolloutProgress :=
  ⟨insert (js "b") (insert (js "a") ∅), insert (js "b") (insert (js "a") ∅), insert (js "b") ∅⟩

theorem stagedFailure_reachable : Reachable stagedRollout stagedFailure := by
  have hstart : Step stagedRollout .none _ :=
    .start (@Starts.start _ (js "a") _ 0 [js "a"] (by decide) (by decide))
  have hsettle : Step stagedRollout ⟨insert (js "a") ∅, ∅, ∅⟩ _ :=
    @Step.succeed _ _ (js "a") (by decide) (by decide)
  have hnext : Step stagedRollout ⟨insert (js "a") ∅, insert (js "a") ∅, ∅⟩ _ :=
    .start (@Starts.start _ (js "b") _ 1 [js "b", js "c"] (by decide) (by decide))
  have hfail : Step stagedRollout
      ⟨insert (js "b") (insert (js "a") ∅), insert (js "a") ∅, ∅⟩ stagedFailure :=
    @Step.fail _ _ (js "b") (by decide) (by decide)
  exact (((Relation.ReflTransGen.single hstart).tail hsettle).tail hnext).tail hfail

/-- A rollout whose second batch fails before the waiting lane of it starts: that lane is
held for good. -/
theorem rollout_safe_staged :
    planFanOut ⟨none, none⟩ stagedPolicy stagedPool =
        .ok (.planned stagedMembers 3 (some 0)) ∧
      planBatches stagedMembers stagedPolicy.rollout = .ok stagedRollout.batches ∧
      ∀ q, Relation.ReflTransGen (Step stagedRollout) stagedFailure q →
        nextBatch q stagedRollout = .halt [js "c"] ∧ js "c" ∉ q.started := by
  have haccepted : stagedPolicy.Accepted := by
    refine ⟨le_refl 1, ?_⟩
    intro rollout hrollout
    obtain rfl := Option.some.inj hrollout
    refine ⟨?_, ?_, rfl, by decide⟩
    · refine List.forall_mem_cons.mpr ⟨?_, ?_⟩
      · exact le_refl 1
      · exact List.forall_mem_singleton.mpr ⟨100, by decide, by decide, le_refl 100⟩
    · intro budget hbudget
      obtain rfl := Option.some.inj hbudget
      exact Nat.zero_le 0
  have hplanned : planFanOut ⟨none, none⟩ stagedPolicy stagedPool =
      .ok (.planned stagedMembers 3 (some 0)) := by rfl
  obtain ⟨batches, hbatches, -, -, hruns⟩ := rollout_safe haccepted hplanned
  have hcut : planBatches stagedMembers stagedPolicy.rollout =
      .ok stagedRollout.batches := by rfl
  obtain rfl := Except.ok.inj (hbatches.symm.trans hcut)
  refine ⟨hplanned, hbatches, ?_⟩
  intro q hq
  obtain ⟨hstill, hheld⟩ :=
    (hruns _ stagedFailure_reachable).2.1 [js "c"] (by decide) q hq
  exact ⟨hstill, ((hheld (js "c")).mp (List.mem_singleton_self _)).2⟩

section Ends

variable {rollout : PlannedRollout} {p q : RolloutProgress}

/-- How many starts and settlements there were. -/
def RolloutProgress.steps (self : RolloutProgress) : ℕ := self.started.card + self.settled.card

theorem Step.steps_succ (h : Step rollout p q) : q.steps = p.steps + 1 := by
  cases h with
  | start h =>
    have hnew := (starts_of_reachable h).1
    cases h with
    | start _ _ =>
      simp only [RolloutProgress.steps, Finset.card_insert_of_notMem hnew]
      omega
  | succeed _ hrunning | fail _ hrunning =>
    simp only [RolloutProgress.steps, Finset.card_insert_of_notMem hrunning]
    omega

theorem Reachable.lanes (h : Reachable rollout p) :
    p.started ⊆ rollout.batches.flatten.toFinset := by
  induction h with
  | refl => exact Finset.empty_subset _
  | tail _ hstep ih =>
    cases hstep with
    | start h =>
      obtain ⟨_, _, batch, members, hmembers, hlane, _⟩ := starts_of_reachable h
      cases h with
      | start _ _ =>
        refine Finset.insert_subset (List.mem_toFinset.mpr ?_) ih
        exact List.mem_flatten.mpr ⟨members, List.mem_of_getElem? hmembers, hlane⟩
    | succeed _ _ | fail _ _ => exact ih

theorem Reachable.steps_le (h : Reachable rollout p) :
    p.steps ≤ 2 * rollout.batches.flatten.length := by
  have hstarted := (Finset.card_le_card h.lanes).trans (List.toFinset_card_le _)
  have hsettled := Finset.card_le_card h.ordered.settled
  rw [RolloutProgress.steps]
  omega

/-- **Every rollout ends.**  A run takes at most two steps for each lane; and where no step
is left, every lane that started has settled, and the rollout is complete with every lane
settled, or halted with the lanes that never started held. -/
theorem rollout_ends (rollout : PlannedRollout) :
    (∀ path : List RolloutProgress, (RolloutProgress.none :: path).IsChain (Step rollout) →
      path.length ≤ 2 * rollout.batches.flatten.length) ∧
    ∀ p, Reachable rollout p → (∀ q, ¬ Step rollout p q) →
      p.settled = p.started ∧
        ((nextBatch p rollout = .complete ∧ ∀ lane ∈ rollout.batches.flatten, lane ∈ p.settled) ∨
          nextBatch p rollout = .halt (rollout.batches.flatten.filter p.notStarted)) := by
  constructor
  · have hpath : ∀ (path : List RolloutProgress) (p : RolloutProgress), Reachable rollout p →
        (p :: path).IsChain (Step rollout) →
          p.steps + path.length ≤ 2 * rollout.batches.flatten.length := by
      intro path
      induction path with
      | nil => exact fun p hp _ => hp.steps_le
      | cons q path ih =>
        intro p hp hchain
        obtain ⟨hstep, hrest⟩ := List.isChain_cons_cons.mp hchain
        have htail := ih q (hp.tail hstep) hrest
        rw [hstep.steps_succ] at htail
        rw [List.length_cons]
        omega
    intro path hchain
    have hbound := hpath path .none .refl hchain
    omega
  · intro p hp hstuck
    have hsettled : p.started ⊆ p.settled := by
      intro lane hstarted
      by_contra hrunning
      exact hstuck _ (.succeed hstarted hrunning)
    refine ⟨hp.ordered.settled.antisymm hsettled, ?_⟩
    cases hnext : nextBatch p rollout with
    | complete =>
      exact Or.inl ⟨rfl, ((nextBatch_complete hp.ordered.settled).mp hnext).2⟩
    | halt held => exact Or.inr (by rw [(nextBatch_halt.mp hnext).2])
    | wait =>
      obtain ⟨lane, hstarted, hrunning⟩ := nextBatch_wait hnext
      exact absurd (hsettled hstarted) hrunning
    | start batch lanes =>
      obtain ⟨lane, hlane⟩ := List.exists_mem_of_ne_nil _ (nextBatch_start hnext).2.2.1
      exact absurd (.start (.start hnext hlane)) (hstuck _)

end Ends

end Rollout

end Swamp
