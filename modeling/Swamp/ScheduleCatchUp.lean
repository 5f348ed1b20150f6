import Mathlib.Data.Set.Card
import Mathlib.Order.Interval.Finset.Basic
import Mathlib.Data.Int.Interval
import Swamp.JsText

/-!
# Fires missed while the scheduler was down

A schedule has a slot at certain instants.  `evaluateMissedFires` walks from one
slot to the next, at most a thousand of them, and when there are more it finds
the last one by bisection.

Instants are in milliseconds.
-/

namespace Swamp

namespace Schedule

open Js

/-- `parseDataDuration`, in milliseconds; none when it throws. -/
def parseDataDuration (duration : JsString) : Option ℤ :=
  let digits := duration.takeWhile isDigitUnit
  let unit := duration.dropWhile isDigitUnit
  if digits = [] then none
  else
    (digitsOf 10 digits).bind (fun value =>
      if unit = js "mo" then some (value * 30 * 24 * 60 * 60 * 1000)
      else if unit = js "y" then some (value * 365 * 24 * 60 * 60 * 1000)
      else if unit = js "h" then some (value * 60 * 60 * 1000)
      else if unit = js "m" then some (value * 60 * 1000)
      else if unit = js "d" then some (value * 24 * 60 * 60 * 1000)
      else if unit = js "w" then some (value * 7 * 24 * 60 * 60 * 1000)
      else none)

/-- `CATCH_UP_POLICIES`. -/
inductive CatchUpPolicy where
  | none
  | latest

/-- `CATCH_UP_MAX_DELAY_LIMIT`. -/
def CATCH_UP_MAX_DELAY_LIMIT : JsString := js "31d"

/-- Whether `maxDelayIssue` finds nothing. -/
def isMaxDelay (value : JsString) : Bool :=
  match parseDataDuration value, parseDataDuration CATCH_UP_MAX_DELAY_LIMIT with
  | some ms, some limit => decide (0 < ms ∧ ms ≤ limit)
  | _, _ => false

/-- What the schema accepts. -/
def isScheduleCatchUp (policy : CatchUpPolicy) (maxDelay : Option JsString) : Bool :=
  match policy, maxDelay with
  | .none, none => true
  | .none, some _ => false
  | .latest, none => false
  | .latest, some value => isMaxDelay value

/-- `ScheduleCatchUp`. -/
structure ScheduleCatchUp where
  policy : CatchUpPolicy
  maxDelay : Option JsString
  accepted : isScheduleCatchUp policy maxDelay = true

/-- `MISSED_FIRE_COUNT_CAP`. -/
def MISSED_FIRE_COUNT_CAP : ℕ := 1000

/-- `MissedFires`. -/
structure MissedFires where
  missedCount : ℕ
  saturated : Bool
  oldestMissed : Option ℤ
  latestMissed : Option ℤ
  catchUpFireTime : Option ℤ

def MissedFires.empty : MissedFires := ⟨0, false, none, none, none⟩

/-- `catchUpTime`; it throws, in the outer option, on a duration it cannot parse. -/
def catchUpTime (latest : Option ℤ) (now : ℤ) (catchUp : Option ScheduleCatchUp) :
    Option (Option ℤ) :=
  match latest, catchUp with
  | some latest, some catchUp =>
    match catchUp.policy, catchUp.maxDelay with
    | .latest, some maxDelay =>
      if maxDelay = [] then some none
      else
        (parseDataDuration maxDelay).map (fun maxDelayMs =>
          if now - latest ≤ maxDelayMs then some latest else none)
    | _, _ => some none
  | _, _ => some none

/-- The last instant from `lo` on at which `holds` does, when it fails at `hi`. -/
def bisect (holds : ℤ → Bool) (lo hi : ℤ) : ℤ :=
  if 1 < hi - lo then
    if holds (lo + (hi - lo) / 2) then bisect holds (lo + (hi - lo) / 2) hi
    else bisect holds lo (lo + (hi - lo) / 2)
  else lo
termination_by (hi - lo).toNat
decreasing_by all_goals omega

section

variable (nextRun : ℤ → Option ℤ)

/-- `nextAtOrBefore`. -/
def nextAtOrBefore (after now : ℤ) : Option ℤ := (nextRun after).filter (fun next => next ≤ now)

/-- `latestAtOrBefore`. -/
def latestAtOrBefore (floor now : ℤ) : Option ℤ :=
  nextAtOrBefore nextRun
    (bisect (fun instant => (nextAtOrBefore nextRun instant now).isSome) floor now) now

/-- The walk of `evaluateMissedFires`. -/
structure Walk where
  count : ℕ
  oldest : Option ℤ
  latest : Option ℤ
  cursor : ℤ

/-- Walks on, at most so many slots more. -/
def walkFires (now : ℤ) : ℕ → Walk → Walk
  | 0, walk => walk
  | left + 1, walk =>
    match nextAtOrBefore nextRun walk.cursor now with
    | none => walk
    | some next =>
      walkFires now left ⟨walk.count + 1, walk.oldest.or (some next), some next, next⟩

/-- `evaluateMissedFires`, of a schedule whose next slot after an instant is
`nextRun`. -/
def evaluateMissedFires (lastEvaluatedFireTime now : ℤ) (catchUp : Option ScheduleCatchUp) :
    Option MissedFires :=
  if now ≤ lastEvaluatedFireTime then some .empty
  else
    let walk := walkFires nextRun now MISSED_FIRE_COUNT_CAP ⟨0, none, none, lastEvaluatedFireTime⟩
    if walk.count = 0 then some .empty
    else
      let saturated := walk.count = MISSED_FIRE_COUNT_CAP &&
        (nextAtOrBefore nextRun walk.cursor now).isSome
      let latest :=
        if saturated then (latestAtOrBefore nextRun walk.cursor now).or walk.latest
        else walk.latest
      (catchUpTime latest now catchUp).map (fun catchUpFireTime =>
        ⟨walk.count, saturated, walk.oldest, latest, catchUpFireTime⟩)

/-- `missedAroundRecordedSlot`. -/
def missedAroundRecordedSlot (lastEvaluatedFireTime recorded now : ℤ)
    (catchUp : Option ScheduleCatchUp) : Option MissedFires :=
  (evaluateMissedFires nextRun lastEvaluatedFireTime (recorded - 1) none).bind (fun gap =>
    (evaluateMissedFires nextRun recorded now catchUp).map (fun after =>
      { missedCount := min (gap.missedCount + after.missedCount) MISSED_FIRE_COUNT_CAP
        saturated := gap.saturated || after.saturated ||
          decide (MISSED_FIRE_COUNT_CAP < gap.missedCount + after.missedCount)
        oldestMissed := gap.oldestMissed.or after.oldestMissed
        latestMissed := after.latestMissed.or gap.latestMissed
        catchUpFireTime := after.catchUpFireTime }))

end

/-- **A bisection** ends at an instant where the predicate holds, and not at the
next. -/
theorem bisect_spec {holds : ℤ → Bool} {lo hi : ℤ} (hlt : lo < hi) (hlo : holds lo = true)
    (hhi : holds hi = false) : lo ≤ bisect holds lo hi ∧ bisect holds lo hi < hi ∧
      holds (bisect holds lo hi) = true ∧ holds (bisect holds lo hi + 1) = false := by
  fun_induction bisect holds lo hi with
  | case1 lo hi hwide hmid ih =>
    obtain ⟨hge, hle, hspec⟩ := ih (by omega) hmid hhi
    exact ⟨by omega, hle, hspec⟩
  | case2 lo hi hwide hmid ih =>
    obtain ⟨hge, hle, hspec⟩ := ih (by omega) hlo (Bool.eq_false_of_not_eq_true hmid)
    exact ⟨hge, by omega, hspec⟩
  | case3 lo hi hnarrow =>
    have hnext : lo + 1 = hi := by omega
    exact ⟨le_rfl, hlt, hlo, hnext ▸ hhi⟩

section Extremes

variable {α : Type*} [PartialOrder α] {before after : Set α} {x : α}

theorem isLeast_union_before (hlt : ∀ a ∈ before, ∀ b ∈ after, a < b) (hne : before.Nonempty) :
    IsLeast (before ∪ after) x ↔ IsLeast before x := by
  obtain ⟨first, hfirst⟩ := hne
  constructor
  · intro hleast
    refine ⟨?_, fun a ha => hleast.2 (Or.inl ha)⟩
    cases hleast.1 with
    | inl hbefore => exact hbefore
    | inr hafter => exact absurd (hlt first hfirst x hafter) (hleast.2 (Or.inl hfirst)).not_gt
  · intro hleast
    refine ⟨Or.inl hleast.1, ?_⟩
    intro a ha
    cases ha with
    | inl hbefore => exact hleast.2 hbefore
    | inr hafter => exact (hlt x hleast.1 a hafter).le

theorem isGreatest_union_after (hlt : ∀ a ∈ before, ∀ b ∈ after, a < b) (hne : after.Nonempty) :
    IsGreatest (before ∪ after) x ↔ IsGreatest after x := by
  obtain ⟨last, hlast⟩ := hne
  constructor
  · intro hgreatest
    refine ⟨?_, fun a ha => hgreatest.2 (Or.inr ha)⟩
    cases hgreatest.1 with
    | inl hbefore => exact absurd (hlt x hbefore last hlast) (hgreatest.2 (Or.inr hlast)).not_gt
    | inr hafter => exact hafter
  · intro hgreatest
    refine ⟨Or.inr hgreatest.1, ?_⟩
    intro a ha
    cases ha with
    | inl hbefore => exact (hlt a hbefore x hgreatest.1).le
    | inr hafter => exact hgreatest.2 hafter

end Extremes

/-- `nextRun` of a schedule with these slots: the least after an instant. -/
def Fires (slots : Set ℤ) (nextRun : ℤ → Option ℤ) : Prop :=
  ∀ t, match nextRun t with
    | some next => IsLeast {slot | slot ∈ slots ∧ t < slot} next
    | none => ∀ slot ∈ slots, slot ≤ t

/-- The slots after the watermark and not after now. -/
def missedSlots (slots : Set ℤ) (watermark now : ℤ) : Set ℤ :=
  {slot | slot ∈ slots ∧ watermark < slot ∧ slot ≤ now}

variable {slots : Set ℤ} {nextRun : ℤ → Option ℤ} {w now : ℤ}

theorem missedSlots_finite (slots : Set ℤ) (w now : ℤ) : (missedSlots slots w now).Finite :=
  (Set.finite_Ioc w now).subset (fun _ h => h.2)

theorem nextAtOrBefore_some (hfires : Fires slots nextRun) {t next : ℤ}
    (h : nextAtOrBefore nextRun t now = some next) : IsLeast (missedSlots slots t now) next := by
  obtain ⟨hnext, hle⟩ := Option.filter_eq_some_iff.mp h
  have hleast := hfires t
  rw [hnext] at hleast
  refine ⟨⟨hleast.1.1, hleast.1.2, of_decide_eq_true hle⟩, ?_⟩
  intro slot hslot
  exact hleast.2 ⟨hslot.1, hslot.2.1⟩

theorem nextAtOrBefore_none (hfires : Fires slots nextRun) {t : ℤ}
    (h : nextAtOrBefore nextRun t now = none) : missedSlots slots t now = ∅ := by
  rw [Set.eq_empty_iff_forall_notMem]
  intro slot hslot
  have hleast := hfires t
  cases hnext : nextRun t with
  | none =>
    rw [hnext] at hleast
    have hbound := hleast slot hslot.1
    have hafter := hslot.2.1
    omega
  | some next =>
    rw [hnext] at hleast
    have hbound := hleast.2 ⟨hslot.1, hslot.2.1⟩
    have hpast := Option.filter_eq_none_iff.mp h next hnext
    have hnow := hslot.2.2
    simp only [decide_eq_true_eq, not_le] at hpast
    omega

theorem nextAtOrBefore_isSome (hfires : Fires slots nextRun) {t : ℤ} :
    (nextAtOrBefore nextRun t now).isSome = true ↔ (missedSlots slots t now).Nonempty := by
  constructor
  · intro h
    obtain ⟨next, hnext⟩ := Option.isSome_iff_exists.mp h
    exact ⟨next, (nextAtOrBefore_some hfires hnext).1⟩
  · intro h
    by_contra hnone
    have hempty := nextAtOrBefore_none hfires (Option.not_isSome_iff_eq_none.mp hnone)
    exact h.ne_empty hempty

/-- **The last missed slot**, where there is one after the floor. -/
theorem latestAtOrBefore_spec (hfires : Fires slots nextRun) {floor : ℤ}
    (hmissed : (missedSlots slots floor now).Nonempty) :
    ∃ latest, latestAtOrBefore nextRun floor now = some latest ∧
      IsGreatest (missedSlots slots floor now) latest := by
  obtain ⟨slot, hslot⟩ := hmissed
  have hafter := hslot.2.1
  have hnow := hslot.2.2
  have hnone : missedSlots slots now now = ∅ := by
    rw [Set.eq_empty_iff_forall_notMem]
    intro other hother
    have hlow := hother.2.1
    have hhigh := hother.2.2
    omega
  have hend : (nextAtOrBefore nextRun now now).isSome = false := by
    rw [Bool.eq_false_iff, ne_eq, nextAtOrBefore_isSome hfires, hnone]
    exact Set.not_nonempty_empty
  have hstart := (nextAtOrBefore_isSome hfires).mpr ⟨slot, hslot⟩
  obtain ⟨hge, hlt, hholds, hfails⟩ := @bisect_spec
    (fun instant => (nextAtOrBefore nextRun instant now).isSome) floor now (by omega) hstart hend
  unfold latestAtOrBefore
  generalize bisect _ floor now = last at hge hlt hholds hfails ⊢
  obtain ⟨latest, hlatest⟩ := Option.isSome_iff_exists.mp hholds
  refine ⟨latest, hlatest, ?_⟩
  have hleast := nextAtOrBefore_some hfires hlatest
  have hlatestAfter := hleast.1.2.1
  refine ⟨⟨hleast.1.1, by omega, hleast.1.2.2⟩, ?_⟩
  intro other hother
  -- no slot is missed after the instant that follows the last
  have hnext : missedSlots slots (last + 1) now = ∅ := by
    rw [Bool.eq_false_iff, ne_eq, nextAtOrBefore_isSome hfires] at hfails
    exact Set.not_nonempty_iff_eq_empty.mp hfails
  by_contra hlater
  have hmem : other ∈ missedSlots slots (last + 1) now := ⟨hother.1, by omega, hother.2.2⟩
  rw [hnext] at hmem
  exact hmem

/-- The slots walked so far are the missed ones up to the cursor. -/
structure Walked (slots : Set ℤ) (w now : ℤ) (walk : Walk) : Prop where
  cursor : w ≤ walk.cursor ∧ walk.cursor ≤ now
  count : walk.count = (missedSlots slots w walk.cursor).ncard
  oldest : ∀ slot, walk.oldest = some slot ↔ IsLeast (missedSlots slots w walk.cursor) slot
  latest : ∀ slot, walk.latest = some slot ↔ IsGreatest (missedSlots slots w walk.cursor) slot

theorem missedSlots_self (slots : Set ℤ) (w : ℤ) : missedSlots slots w w = ∅ := by
  rw [Set.eq_empty_iff_forall_notMem]
  intro slot hslot
  have hlow := hslot.2.1
  have hhigh := hslot.2.2
  omega

theorem walked_start (hlt : w < now) : Walked slots w now ⟨0, none, none, w⟩ where
  cursor := ⟨le_rfl, hlt.le⟩
  count := by rw [missedSlots_self, Set.ncard_empty]
  oldest := by simp [missedSlots_self, IsLeast]
  latest := by simp [missedSlots_self, IsGreatest]

/-- The slots up to the next one. -/
theorem missedSlots_next {cursor next : ℤ} (hcursor : w ≤ cursor)
    (hnext : IsLeast (missedSlots slots cursor now) next) :
    missedSlots slots w next = insert next (missedSlots slots w cursor) := by
  ext slot
  have hafter := hnext.1.2.1
  have hnow := hnext.1.2.2
  constructor
  · intro hslot
    by_cases hpast : slot ≤ cursor
    · exact Or.inr ⟨hslot.1, hslot.2.1, hpast⟩
    · have hle := hslot.2.2
      have hbound := hnext.2 ⟨hslot.1, by omega, by omega⟩
      exact Or.inl (le_antisymm hle hbound)
  · intro hslot
    cases hslot with
    | inl hsame =>
      rw [hsame]
      exact ⟨hnext.1.1, by omega, le_rfl⟩
    | inr hearlier =>
      have hle := hearlier.2.2
      exact ⟨hearlier.1, hearlier.2.1, by omega⟩

/-- **One slot further.** -/
theorem Walked.next {walk : Walk} (h : Walked slots w now walk) {next : ℤ}
    (hnext : IsLeast (missedSlots slots walk.cursor now) next) :
    Walked slots w now ⟨walk.count + 1, walk.oldest.or (some next), some next, next⟩ := by
  have hslots := missedSlots_next h.cursor.1 hnext
  have hcursor := h.cursor.1
  have hafter := hnext.1.2.1
  have hbelow : ∀ slot ∈ missedSlots slots w walk.cursor, slot < next := by
    intro slot hslot
    have hle := hslot.2.2
    omega
  constructor
  case cursor => exact ⟨by dsimp only; omega, hnext.1.2.2⟩
  case count =>
    dsimp only
    rw [hslots, Set.ncard_insert_of_notMem _ (missedSlots_finite slots w walk.cursor), h.count]
    intro hmem
    exact absurd (hbelow next hmem) (lt_irrefl next)
  case oldest =>
    intro slot
    dsimp only
    rw [hslots]
    cases hold : walk.oldest with
    | none =>
      have hempty : missedSlots slots w walk.cursor = ∅ := by
        by_contra hsome
        have hfinite := missedSlots_finite slots w walk.cursor
        obtain ⟨least, hleast⟩ := hfinite.exists_minimal
          (Set.nonempty_iff_ne_empty.mpr hsome)
        have hfirst := (h.oldest least).mpr (minimal_iff_isLeast.mp hleast)
        rw [hold] at hfirst
        cases hfirst
      rw [hempty, Option.none_or, Option.some_inj, insert_empty_eq]
      constructor
      · intro hsame
        exact hsame ▸ isLeast_singleton
      · intro hslot
        exact isLeast_singleton.unique hslot
    | some first =>
      have hleast := (h.oldest first).mp hold
      have hinsert : IsLeast (insert next (missedSlots slots w walk.cursor)) first := by
        refine ⟨Or.inr hleast.1, ?_⟩
        intro other hother
        cases hother with
        | inl hsame => exact hsame ▸ (hbelow first hleast.1).le
        | inr hmem => exact hleast.2 hmem
      constructor
      · intro hslot
        cases hslot
        exact hinsert
      · intro hslot
        exact congrArg some (hinsert.unique hslot)
  case latest =>
    intro slot
    dsimp only
    rw [hslots]
    have hgreatest : IsGreatest (insert next (missedSlots slots w walk.cursor)) next := by
      refine ⟨Or.inl rfl, ?_⟩
      intro other hother
      cases hother with
      | inl hsame => exact hsame.le
      | inr hmem => exact (hbelow other hmem).le
    constructor
    · intro hslot
      cases hslot
      exact hgreatest
    · intro hslot
      exact congrArg some (hgreatest.unique hslot)

/-- **A whole walk** ends after so many slots, or where no slot is left. -/
theorem walkFires_spec (hfires : Fires slots nextRun) (left : ℕ) {walk : Walk}
    (h : Walked slots w now walk) :
    Walked slots w now (walkFires nextRun now left walk) ∧
      (walkFires nextRun now left walk).count ≤ walk.count + left ∧
      ((walkFires nextRun now left walk).count < walk.count + left →
        missedSlots slots (walkFires nextRun now left walk).cursor now = ∅) := by
  induction left generalizing walk with
  | zero => exact ⟨h, le_rfl, fun hlt => absurd hlt (lt_irrefl _)⟩
  | succ left ih =>
    unfold walkFires
    split
    case h_1 hnone =>
      exact ⟨h, by omega, fun _ => nextAtOrBefore_none hfires hnone⟩
    case h_2 next hnext =>
      obtain ⟨hwalked, hcount, hend⟩ := ih (h.next (nextAtOrBefore_some hfires hnext))
      dsimp only at hcount hend
      exact ⟨hwalked, by omega, fun hlt => hend (by omega)⟩

/-- A slot to catch up: the last missed one, not too long ago under `latest`. -/
def CaughtUp (catchUp : Option ScheduleCatchUp) (latest : Option ℤ) (now slot : ℤ) : Prop :=
  ∃ policy maxDelay maxDelayMs, catchUp = some policy ∧ policy.policy = .latest ∧
    policy.maxDelay = some maxDelay ∧ parseDataDuration maxDelay = some maxDelayMs ∧
    latest = some slot ∧ now - slot ≤ maxDelayMs

theorem ScheduleCatchUp.readable (catchUp : ScheduleCatchUp) (hpolicy : catchUp.policy = .latest) :
    ∃ maxDelay maxDelayMs, catchUp.maxDelay = some maxDelay ∧ maxDelay ≠ [] ∧
      parseDataDuration maxDelay = some maxDelayMs := by
  have haccepted := catchUp.accepted
  rw [hpolicy] at haccepted
  cases hdelay : catchUp.maxDelay with
  | none =>
    rw [hdelay] at haccepted
    cases haccepted
  | some maxDelay =>
    rw [hdelay] at haccepted
    cases hparse : parseDataDuration maxDelay with
    | none => simp [isScheduleCatchUp, isMaxDelay, hparse] at haccepted
    | some maxDelayMs =>
      refine ⟨maxDelay, maxDelayMs, rfl, ?_, hparse⟩
      intro hempty
      rw [hempty] at hparse
      cases hparse

/-- `catchUpTime` never throws. -/
theorem catchUpTime_spec (latest : Option ℤ) (now : ℤ) (catchUp : Option ScheduleCatchUp) :
    ∃ time, catchUpTime latest now catchUp = some time ∧
      ∀ slot, time = some slot ↔ CaughtUp catchUp latest now slot := by
  cases latest with
  | none => exact ⟨none, rfl, fun slot => by simp [CaughtUp]⟩
  | some latest =>
    cases catchUp with
    | none => exact ⟨none, rfl, fun slot => by simp [CaughtUp]⟩
    | some catchUp =>
      cases hpolicy : catchUp.policy with
      | none =>
        refine ⟨none, by simp [catchUpTime, hpolicy], fun slot => ?_⟩
        simp [CaughtUp, hpolicy]
      | latest =>
        obtain ⟨maxDelay, maxDelayMs, hdelay, hfull, hparse⟩ := catchUp.readable hpolicy
        refine ⟨if now - latest ≤ maxDelayMs then some latest else none, ?_, fun slot => ?_⟩
        · simp [catchUpTime, hpolicy, hdelay, hfull, hparse]
        · constructor
          · intro htime
            split at htime
            case isTrue hwithin =>
                cases htime
                exact ⟨catchUp, maxDelay, maxDelayMs, rfl, hpolicy, hdelay, hparse, rfl,
                  hwithin⟩
            case isFalse => cases htime
          · intro hcaught
            obtain ⟨other, delay, delayMs, hsame, -, hdelay', hparse', hslot, hwithin⟩ :=
              hcaught
            cases hsame
            cases hslot
            cases hdelay.symm.trans hdelay'
            cases hparse.symm.trans hparse'
            exact if_pos hwithin

/-- What `evaluateMissedFires` reports of a set of missed slots. -/
structure Reports (missedOf : Set ℤ) (missed : MissedFires) : Prop where
  count : missed.missedCount = min missedOf.ncard MISSED_FIRE_COUNT_CAP
  saturated : missed.saturated = true ↔ MISSED_FIRE_COUNT_CAP < missedOf.ncard
  oldest : ∀ slot, missed.oldestMissed = some slot ↔ IsLeast missedOf slot
  latest : ∀ slot, missed.latestMissed = some slot ↔ IsGreatest missedOf slot

theorem reports_empty : Reports ∅ .empty where
  count := by simp [MissedFires.empty]
  saturated := by simp [MissedFires.empty]
  oldest := by simp [MissedFires.empty, IsLeast]
  latest := by simp [MissedFires.empty, IsGreatest]

theorem caughtUp_none {catchUp : Option ScheduleCatchUp} {slot : ℤ} :
    ¬ CaughtUp catchUp none now slot := by
  intro hcaught
  obtain ⟨-, -, -, -, -, -, -, hnone, -⟩ := hcaught
  cases hnone

/-- Slots up to the cursor, and those after it. -/
theorem missedSlots_split {cursor : ℤ} (hw : w ≤ cursor) (hnow : cursor ≤ now) :
    missedSlots slots w now = missedSlots slots w cursor ∪ missedSlots slots cursor now := by
  ext slot
  simp only [missedSlots, Set.mem_union, Set.mem_ofPred_eq]
  grind

theorem missedSlots_before {upto cursor : ℤ} (hle : upto ≤ cursor) :
    ∀ a ∈ missedSlots slots w upto, ∀ b ∈ missedSlots slots cursor now, a < b := by
  intro a ha b hb
  have hbefore := ha.2.2
  have hafter := hb.2.1
  omega

theorem ncard_union_before {upto cursor : ℤ} (hle : upto ≤ cursor) :
    (missedSlots slots w upto ∪ missedSlots slots cursor now).ncard =
      (missedSlots slots w upto).ncard + (missedSlots slots cursor now).ncard := by
  refine Set.ncard_union_eq ?_ (missedSlots_finite slots w upto)
    (missedSlots_finite slots cursor now)
  rw [Set.disjoint_left]
  intro slot hbefore hafter
  exact absurd (missedSlots_before hle slot hbefore slot hafter) (lt_irrefl slot)

/-- **Missed fires.** The count up to the cap, whether it is more, the first and
the last missed slot, and what is caught up. -/
theorem evaluateMissedFires_spec (hfires : Fires slots nextRun) (w now : ℤ)
    (catchUp : Option ScheduleCatchUp) :
    ∃ missed, evaluateMissedFires nextRun w now catchUp = some missed ∧
      Reports (missedSlots slots w now) missed ∧
      ∀ slot, missed.catchUpFireTime = some slot ↔
        CaughtUp catchUp missed.latestMissed now slot := by
  unfold evaluateMissedFires
  by_cases hlate : now ≤ w
  · have hempty : missedSlots slots w now = ∅ := by
      rw [Set.eq_empty_iff_forall_notMem]
      intro slot hslot
      have hlow := hslot.2.1
      have hhigh := hslot.2.2
      omega
    refine ⟨.empty, if_pos hlate, hempty ▸ reports_empty, fun slot => ?_⟩
    exact iff_of_false (by simp [MissedFires.empty]) caughtUp_none
  rw [if_neg hlate]
  have hwalk := walkFires_spec hfires MISSED_FIRE_COUNT_CAP (walked_start (not_le.mp hlate))
  dsimp only at hwalk
  generalize walkFires nextRun now MISSED_FIRE_COUNT_CAP ⟨0, none, none, w⟩ = walk at hwalk ⊢
  obtain ⟨hwalked, hcap, hend⟩ := hwalk
  have hsplit : missedSlots slots w now =
      missedSlots slots w walk.cursor ∪ missedSlots slots walk.cursor now :=
    missedSlots_split hwalked.cursor.1 hwalked.cursor.2
  have hcard := @ncard_union_before slots w now walk.cursor walk.cursor le_rfl
  rw [← hsplit, ← hwalked.count] at hcard
  dsimp only
  by_cases hzero : walk.count = 0
  · rw [if_pos hzero]
    have hrest : missedSlots slots walk.cursor now = ∅ := hend (by
      rw [hzero]
      decide)
    have hempty : missedSlots slots w now = ∅ := by
      rw [hrest, Set.ncard_empty, hzero] at hcard
      exact (Set.ncard_eq_zero (missedSlots_finite slots w now)).mp hcard
    refine ⟨.empty, rfl, hempty ▸ reports_empty, fun slot => ?_⟩
    exact iff_of_false (by simp [MissedFires.empty]) caughtUp_none
  rw [if_neg hzero]
  have hfirst : (missedSlots slots w walk.cursor).Nonempty := by
    rw [← Set.ncard_pos (missedSlots_finite slots w walk.cursor), ← hwalked.count]
    omega
  have holdest : ∀ slot, walk.oldest = some slot ↔ IsLeast (missedSlots slots w now) slot := by
    intro slot
    rw [hwalked.oldest, hsplit, isLeast_union_before (missedSlots_before le_rfl) hfirst]
  by_cases hsome : (nextAtOrBefore nextRun walk.cursor now).isSome = true
  · -- the walk stopped at the cap with a slot left
    have hrest := (nextAtOrBefore_isSome hfires).mp hsome
    have hfull : walk.count = MISSED_FIRE_COUNT_CAP := by
      by_contra hless
      exact hrest.ne_empty (hend (by omega))
    have hpos := (Set.ncard_pos (missedSlots_finite slots walk.cursor now)).mpr hrest
    obtain ⟨latest, hlatest, hgreatest⟩ := latestAtOrBefore_spec hfires hrest
    rw [← isGreatest_union_after (missedSlots_before le_rfl) hrest, ← hsplit] at hgreatest
    obtain ⟨time, htime, hcaught⟩ := catchUpTime_spec (some latest) now catchUp
    simp only [hfull, hsome, decide_true, Bool.and_self, if_true, hlatest, Option.some_or, htime,
      Option.map_some]
    refine ⟨_, rfl, ⟨?_, ?_, holdest, ?_⟩, hcaught⟩
    · dsimp only
      omega
    · exact iff_of_true rfl (by omega)
    · intro slot
      constructor
      · intro hslot
        cases hslot
        exact hgreatest
      · intro hslot
        exact congrArg some (hgreatest.unique hslot)
  · -- no slot is left
    have hnone := nextAtOrBefore_none hfires (Option.not_isSome_iff_eq_none.mp hsome)
    rw [hnone, Set.ncard_empty] at hcard
    rw [hnone, Set.union_empty] at hsplit
    obtain ⟨time, htime, hcaught⟩ := catchUpTime_spec walk.latest now catchUp
    simp only [Bool.eq_false_of_not_eq_true hsome, Bool.and_false, Bool.false_eq_true, if_false,
      htime, Option.map_some]
    refine ⟨_, rfl, ⟨?_, ?_, holdest, ?_⟩, hcaught⟩
    · dsimp only
      omega
    · exact iff_of_false Bool.false_ne_true (by omega)
    · intro slot
      dsimp only
      rw [hwalked.latest, hsplit]

/-- What is missed around a recorded slot. -/
theorem missedSlots_around {recorded : ℤ} (hafter : w < recorded) (hnow : recorded ≤ now) :
    missedSlots slots w now \ {recorded} =
      missedSlots slots w (recorded - 1) ∪ missedSlots slots recorded now := by
  ext slot
  simp only [missedSlots, Set.mem_union, Set.mem_sdiff, Set.mem_singleton_iff, Set.mem_ofPred_eq]
  grind

theorem or_isLeast {before after : Set ℤ} {first second : Option ℤ}
    (hfirst : ∀ slot, first = some slot ↔ IsLeast before slot)
    (hsecond : ∀ slot, second = some slot ↔ IsLeast after slot)
    (hlt : ∀ a ∈ before, ∀ b ∈ after, a < b) (hfinite : before.Finite) (slot : ℤ) :
    first.or second = some slot ↔ IsLeast (before ∪ after) slot := by
  by_cases hne : before.Nonempty
  · obtain ⟨least, hleast⟩ := hfinite.exists_minimal hne
    have hsome := (hfirst least).mpr (minimal_iff_isLeast.mp hleast)
    rw [isLeast_union_before hlt hne, ← hfirst, hsome, Option.some_or]
  · have hempty := Set.not_nonempty_iff_eq_empty.mp hne
    have hnone : first = none := by
      rw [Option.eq_none_iff_forall_ne_some]
      intro least hsome
      exact hne ⟨least, ((hfirst least).mp hsome).1⟩
    rw [hnone, Option.none_or, hsecond, hempty, Set.empty_union]

theorem or_isGreatest {before after : Set ℤ} {first second : Option ℤ}
    (hfirst : ∀ slot, first = some slot ↔ IsGreatest after slot)
    (hsecond : ∀ slot, second = some slot ↔ IsGreatest before slot)
    (hlt : ∀ a ∈ before, ∀ b ∈ after, a < b) (hfinite : after.Finite) (slot : ℤ) :
    first.or second = some slot ↔ IsGreatest (before ∪ after) slot := by
  by_cases hne : after.Nonempty
  · obtain ⟨greatest, hgreatest⟩ := hfinite.exists_maximal hne
    have hsome := (hfirst greatest).mpr (maximal_iff_isGreatest.mp hgreatest)
    rw [isGreatest_union_after hlt hne, ← hfirst, hsome, Option.some_or]
  · have hempty := Set.not_nonempty_iff_eq_empty.mp hne
    have hnone : first = none := by
      rw [Option.eq_none_iff_forall_ne_some]
      intro greatest hsome
      exact hne ⟨greatest, ((hfirst greatest).mp hsome).1⟩
    rw [hnone, Option.none_or, hsecond, hempty, Set.union_empty]

/-- **Around a recorded slot.** Every other slot is missed, and only those after
it can be caught up. -/
theorem missedAroundRecordedSlot_spec (hfires : Fires slots nextRun) {recorded : ℤ}
    (hafter : w < recorded) (hnow : recorded ≤ now) (catchUp : Option ScheduleCatchUp) :
    ∃ missed, missedAroundRecordedSlot nextRun w recorded now catchUp = some missed ∧
      Reports (missedSlots slots w now \ {recorded}) missed := by
  obtain ⟨gap, hgap, hgapReports, -⟩ := evaluateMissedFires_spec hfires w (recorded - 1) none
  obtain ⟨rest, hrest, hrestReports, -⟩ := evaluateMissedFires_spec hfires recorded now catchUp
  have hless : recorded - 1 ≤ recorded := by omega
  have hcard := @ncard_union_before slots w now (recorded - 1) recorded hless
  have hgapCount := hgapReports.count
  have hrestCount := hrestReports.count
  have hgapSaturated := hgapReports.saturated
  have hrestSaturated := hrestReports.saturated
  have hbefore := @missedSlots_before slots w now (recorded - 1) recorded hless
  unfold missedAroundRecordedSlot
  rw [hgap, Option.bind_some, hrest, Option.map_some, missedSlots_around hafter hnow]
  refine ⟨_, rfl, ?_, ?_, ?_, ?_⟩
  · dsimp only
    omega
  · simp only [Bool.or_eq_true, hgapSaturated, hrestSaturated, decide_eq_true_eq]
    omega
  · exact or_isLeast hgapReports.oldest hrestReports.oldest hbefore
      (missedSlots_finite slots w (recorded - 1))
  · exact or_isGreatest hrestReports.latest hgapReports.latest hbefore
      (missedSlots_finite slots recorded now)

/-- **Missed fires**, up to now and around a recorded slot. -/
theorem missed_fires (slots : Set ℤ) (nextRun : ℤ → Option ℤ) (hfires : Fires slots nextRun)
    (w now : ℤ) (catchUp : Option ScheduleCatchUp) :
    (∃ missed, evaluateMissedFires nextRun w now catchUp = some missed ∧
      missed.missedCount = min (missedSlots slots w now).ncard 1000 ∧
      (missed.saturated = true ↔ 1000 < (missedSlots slots w now).ncard) ∧
      (∀ slot, missed.oldestMissed = some slot ↔ IsLeast (missedSlots slots w now) slot) ∧
      (∀ slot, missed.latestMissed = some slot ↔ IsGreatest (missedSlots slots w now) slot) ∧
      ∀ slot, missed.catchUpFireTime = some slot ↔
        CaughtUp catchUp missed.latestMissed now slot) ∧
    ∀ recorded ∈ slots, w < recorded → recorded ≤ now →
      ∃ missed, missedAroundRecordedSlot nextRun w recorded now catchUp = some missed ∧
        missed.missedCount = min (missedSlots slots w now \ {recorded}).ncard 1000 ∧
        (missed.saturated = true ↔ 1000 < (missedSlots slots w now \ {recorded}).ncard) := by
  constructor
  · obtain ⟨missed, hmissed, hreports, hcaught⟩ := evaluateMissedFires_spec hfires w now catchUp
    exact ⟨missed, hmissed, hreports.count, hreports.saturated, hreports.oldest,
      hreports.latest, hcaught⟩
  · intro recorded _ hafter hnow
    obtain ⟨missed, hmissed, hreports⟩ :=
      missedAroundRecordedSlot_spec hfires hafter hnow catchUp
    exact ⟨missed, hmissed, hreports.count, hreports.saturated⟩

/-- Slots at every full second. -/
def everySecond (t : ℤ) : Option ℤ := some ((t / 1000 + 1) * 1000)

theorem everySecond_fires : Fires {slot | 1000 ∣ slot} everySecond := by
  intro t
  refine ⟨⟨Dvd.intro_left _ rfl, by omega⟩, ?_⟩
  intro slot hslot
  obtain ⟨hwhole, hafter⟩ := hslot
  have hdvd : 1000 ∣ slot := hwhole
  omega

theorem missed_fires_everySecond :
    (∃ missed, evaluateMissedFires everySecond 500 9999
        (some ⟨.latest, some (js "1h"), by decide +kernel⟩) = some missed ∧
      missed.missedCount = min (missedSlots {slot | 1000 ∣ slot} 500 9999).ncard 1000 ∧
      missed.catchUpFireTime = some 9000) ∧
    ∃ missed, missedAroundRecordedSlot everySecond 500 4000 9999 none = some missed ∧
      missed.missedCount =
        min (missedSlots {slot | 1000 ∣ slot} 500 9999 \ {4000}).ncard 1000 := by
  obtain ⟨hmissed, -⟩ := missed_fires _ everySecond everySecond_fires 500 9999
    (some ⟨.latest, some (js "1h"), by decide +kernel⟩)
  obtain ⟨-, hrecorded⟩ := missed_fires _ everySecond everySecond_fires 500 9999 none
  obtain ⟨missed, hrun, hcount, -, -, hlatest, hcaught⟩ := hmissed
  obtain ⟨around, haround, hnumber, -⟩ :=
    hrecorded 4000 (show (1000 : ℤ) ∣ 4000 by decide) (by decide) (by decide)
  refine ⟨⟨missed, hrun, hcount, ?_⟩, around, haround, hnumber⟩
  have hlast : IsGreatest (missedSlots {slot | 1000 ∣ slot} 500 9999) 9000 := by
    refine ⟨⟨show (1000 : ℤ) ∣ 9000 by decide, by decide, by decide⟩, ?_⟩
    intro slot hslot
    have hwhole : (1000 : ℤ) ∣ slot := hslot.1
    have hle := hslot.2.2
    omega
  refine (hcaught 9000).mpr ⟨_, js "1h", 3600000, rfl, rfl, rfl, by decide +kernel, ?_, by decide⟩
  exact (hlatest 9000).mpr hlast

end Schedule

end Swamp
