import Swamp.TakeoverFence

/-!
# What a takeover leaves of an executor's saves

Whatever the steps of the executor's unit, of the writer that takes the run over,
of other writers and of a recovery, and in whatever order, no save that yields to
the takeover lands after the other writer's commit: a group reads the head before
it asks, so a commit that it prepares with such a save is at a seq the other
writer's commit has taken.  What was staged has landed, is held, is withdrawn, or a
later change takes its place, and a group that ended with every op withdrawn leaves
no entry.
-/

namespace Swamp

namespace TakeoverFence

open Js CommitUnit

/-- What a unit has staged and formed. -/
structure Kept (cfg : Settings) (w : World) : Prop where
  ids : ∀ (i : ℕ) (change : Change), w.all[i]? = some change → change.id = i
  runs : ∀ change ∈ w.all, asks change = true → change.partition = cfg.run
  held : ∀ change, w.unit.Holds change → change ∈ w.all
  tidy : ∀ group ∈ w.unit.pending, ∀ change ∈ group.changes, change.partition = group.partition
  nodup : (w.unit.pending.map (·.txnId)).Nodup
  bound : ∀ group ∈ w.unit.pending, group.txnId < w.unit.nextTxn
  marks : ∀ id ∈ w.unit.superseded, ∃ change ∈ w.all, change.id = id ∧
    ∃ later ∈ w.all, change.id < later.id ∧ Supersedes later change
  current : ∀ (group : Group) (phase : Appending), w.appending = some (group, phase) →
    group ∈ w.unit.pending ∧ w.unit.inFlight = some group.txnId

section

variable {cfg : Settings} {w w' : World} {change other : Change} {group : Group}

/-- A group is told by its txn id. -/
theorem Kept.same (h : Kept cfg w) {group' : Group} (hgroup : group ∈ w.unit.pending)
    (hgroup' : group' ∈ w.unit.pending) (htxn : group'.txnId = group.txnId) : group' = group :=
  List.inj_on_of_nodup_map h.nodup hgroup' hgroup htxn

theorem Kept.id_lt (h : Kept cfg w) (hmem : change ∈ w.all) : change.id < w.all.length := by
  obtain ⟨i, hi, rfl⟩ := List.getElem_of_mem hmem
  rw [h.ids i _ (List.getElem?_eq_getElem hi)]
  exact hi

/-- A staged object is told by its id. -/
theorem Kept.eq_of_id (h : Kept cfg w) (hmem : change ∈ w.all) (hother : other ∈ w.all)
    (hid : change.id = other.id) : change = other := by
  obtain ⟨i, hi, rfl⟩ := List.getElem_of_mem hmem
  obtain ⟨j, hj, rfl⟩ := List.getElem_of_mem hother
  rw [h.ids i _ (List.getElem?_eq_getElem hi), h.ids j _ (List.getElem?_eq_getElem hj)] at hid
  subst hid
  rfl

variable {n : ℕ} {changes : List Change}

theorem getElem?_numbered {i : ℕ} (h : (numbered n changes)[i]? = some change) :
    change.id = n + i := by
  unfold numbered at h
  rw [List.getElem?_mapIdx] at h
  obtain ⟨original, _, rfl⟩ := Option.map_eq_some_iff.mp h
  rfl

theorem le_of_mem_numbered (h : change ∈ numbered n changes) : n ≤ change.id := by
  obtain ⟨i, hi, rfl⟩ := List.getElem_of_mem h
  rw [getElem?_numbered (List.getElem?_eq_getElem hi)]
  exact Nat.le_add_right _ _

theorem numbered_pairwise (n : ℕ) (changes : List Change) :
    (numbered n changes).Pairwise (fun first second => first.id < second.id) := by
  rw [List.pairwise_iff_getElem]
  intro i j hi hj hlt
  rw [getElem?_numbered (List.getElem?_eq_getElem hi),
    getElem?_numbered (List.getElem?_eq_getElem hj)]
  exact Nat.add_lt_add_left hlt n

theorem numbered_runs {run : PartitionKey} (h : savesOfRun run changes = true)
    (hmem : change ∈ numbered n changes) (hasks : asks change = true) : change.partition = run := by
  obtain ⟨i, hi, rfl⟩ := List.mem_mapIdx.mp hmem
  have hall := List.all_eq_true.mp h _ (List.getElem_mem hi)
  have hsame : asks changes[i] = true := hasks
  simpa [hsame] using hall

/-- Changes are staged. -/
theorem Kept.stage (h : Kept cfg w) (hruns : savesOfRun cfg.run changes = true) :
    Kept cfg
      { w with
        unit := w.unit.record (numbered w.all.length changes)
        all := w.all ++ numbered w.all.length changes } := by
  have hrecorded := UnitState.recorded_record (u := w.unit) (numbered w.all.length changes)
  refine ⟨?_, ?_, ?_, ?_, ?_, ?_, ?_, ?_⟩
  · intro i change hget
    dsimp only at hget
    by_cases hi : i < w.all.length
    · rw [List.getElem?_append_left hi] at hget
      exact h.ids i change hget
    · have hle := Nat.le_of_not_lt hi
      rw [List.getElem?_append_right hle] at hget
      rw [getElem?_numbered hget]
      omega
  · intro change hmem hasks
    cases List.mem_append.mp hmem with
    | inl hold => exact h.runs change hold hasks
    | inr hnew => exact numbered_runs hruns hnew hasks
  · intro change hheld
    cases hrecorded.holds hheld with
    | inl hold => exact List.mem_append_left _ (h.held change hold)
    | inr hnew => exact List.mem_append_right _ hnew
  · intro reduced hreduced change hmem
    obtain ⟨group, hgroup, hof⟩ := hrecorded.pending reduced hreduced
    rw [hof.partition]
    exact h.tidy group hgroup change (hof.changes.subset hmem)
  · exact hrecorded.txnIds.nodup h.nodup
  · intro reduced hreduced
    obtain ⟨group, hgroup, hof⟩ := hrecorded.pending reduced hreduced
    dsimp only
    rw [hof.txnId, hrecorded.nextTxn]
    exact h.bound group hgroup
  · intro id hid
    cases hrecorded.superseded id hid with
    | inl hold =>
      obtain ⟨change, hmem, heq, later, hlater, hlt, hsupersedes⟩ := h.marks id hold
      exact ⟨change, List.mem_append_left _ hmem, heq, later, List.mem_append_left _ hlater, hlt,
        hsupersedes⟩
    | inr hnew =>
      obtain ⟨change, hwaiting, heq, later, hlater, hsupersedes⟩ := hnew
      have hmem := h.held change (Or.inr hwaiting)
      have hlt := h.id_lt hmem
      have hle := le_of_mem_numbered hlater
      exact ⟨change, List.mem_append_left _ hmem, heq, later, List.mem_append_right _ hlater,
        by omega, hsupersedes⟩
  · intro group phase hat
    obtain ⟨hgroup, hflight⟩ := h.current group phase hat
    dsimp only
    rw [hrecorded.inFlight]
    exact ⟨hrecorded.appended group hgroup hflight, hflight⟩

/-- A flush forms what is staged. -/
theorem Kept.flush (h : Kept cfg w) :
    Kept cfg { w with unit := w.unit.startFlush, flushing := some w.all.length } := by
  refine ⟨h.ids, h.runs, ?_, ?_, UnitState.startFlush_nodup h.nodup h.bound, ?_, h.marks, ?_⟩
  · intro change hheld
    apply h.held change
    cases hheld with
    | inl hstaged => cases hstaged
    | inr hpending =>
      obtain ⟨group, hgroup, hmem⟩ := hpending
      cases UnitState.mem_startFlush.mp hgroup with
      | inl hold => exact Or.inr ⟨group, hold, hmem⟩
      | inr hformed => exact Or.inl (mem_formGroups.mp ⟨group, hformed, hmem⟩)
  · intro group hgroup change hmem
    cases UnitState.mem_startFlush.mp hgroup with
    | inl hold => exact h.tidy group hold change hmem
    | inr hformed => exact (of_mem_formGroups hformed).2.1 change hmem
  · intro group hgroup
    cases UnitState.mem_startFlush.mp hgroup with
    | inl hold => exact Nat.lt_of_lt_of_le (h.bound group hold) (Nat.le_add_right _ _)
    | inr hformed => exact (of_mem_formGroups hformed).2.2.2
  · intro group phase hat
    obtain ⟨hgroup, hflight⟩ := h.current group phase hat
    exact ⟨UnitState.mem_startFlush.mpr (Or.inl hgroup), hflight⟩

/-- A group leaves the unit. -/
theorem Kept.leaves (h : Kept cfg w) (group : Group) : Kept cfg (w.leaves group) := by
  refine ⟨h.ids, h.runs, ?_, ?_, ?_, ?_, h.marks, fun _ _ hat => by simp [World.leaves] at hat⟩
  · intro change hheld
    refine h.held change (hheld.imp_right ?_)
    intro hpending
    obtain ⟨other, hother, hmem⟩ := hpending
    exact ⟨other, List.mem_of_mem_filter hother, hmem⟩
  · exact fun other hother => h.tidy other (List.mem_of_mem_filter hother)
  · have hsub : (w.unit.pending.filter (fun other => other.txnId ≠ group.txnId)).Sublist
        w.unit.pending := List.filter_sublist
    exact (hsub.map (·.txnId)).nodup h.nodup
  · exact fun other hother => h.bound other (List.mem_of_mem_filter hother)

variable {u : UnitState} {progress progress' : Storing}

/-- What a store does to a unit. -/
theorem storeRead_unit {u' : UnitState} {readable : Bool}
    (h : u.storeRead readable progress = some (u', progress')) :
    u' = { u with stored := u'.stored } ∧ ∀ id ∈ u.stored, id ∈ u'.stored := by
  unfold UnitState.storeRead at h
  split at h
  · split_ifs at h
    · cases h
      exact ⟨rfl, fun _ h => List.mem_cons_of_mem _ h⟩
    · cases h
      exact ⟨rfl, fun _ h => h⟩
  · cases h

/-- **One step** keeps what a unit has staged and formed. -/
theorem Kept.step (h : Kept cfg w) (hstep : Moves cfg w w') : Kept cfg w' := by
  -- A group goes on being appended.
  have hgoes : ∀ {group phase} phase', w.appending = some (group, phase) →
      Kept cfg (w.goes group phase') := by
    intro group phase phase' hat
    refine { h with current := ?_ }
    intro other next heq
    cases heq
    exact h.current group phase hat
  cases hstep with
  | stage changes hruns => exact h.stage hruns
  | flush => exact h.flush
  | next _ hpending =>
    refine { h with current := ?_ }
    intro group phase heq
    cases heq
    exact ⟨by rw [hpending]; exact List.mem_cons_self, rfl⟩
  | done | takeOver | takerCommits | otherCommits | dropped | recovered => exact { h with }
  | storing hat | gone hat | stored hat | readHead hat | withdraws hat | checks hat | found hat
  | retries hat => exact hgoes _ hat
  | @read group progress progress' readable u hat hread =>
    obtain ⟨hu, _⟩ := storeRead_unit hread
    rw [hu]
    exact { hgoes (.storing progress') hat with }
  | skipped => exact h.leaves _
  | @prepares group ops kept attempt head hat =>
    exact { hgoes (.prepared ops kept attempt head) hat with }
  | lands hat => exact { hgoes .landed hat with }
  | fails => exact { h with current := fun _ _ hat => by simp [World.fails] at hat }
  | settles | discards => exact { h.leaves _ with }

/-- A later world: what was staged, stored, marked and landed still is, and each
group that waits was there, or is new. -/
structure Onward (w w' : World) : Prop where
  all : ∀ change ∈ w.all, change ∈ w'.all
  nextTxn : w.unit.nextTxn ≤ w'.unit.nextTxn
  stored : ∀ id ∈ w.unit.stored, id ∈ w'.unit.stored
  superseded : ∀ id ∈ w.unit.superseded, id ∈ w'.unit.superseded
  takenOver : w.takenOver = true → w'.takenOver = true
  log : ∀ partition, w.log partition <+: w'.log partition
  pending : ∀ reduced ∈ w'.unit.pending,
    (∃ group ∈ w.unit.pending, reduced.partition = group.partition ∧
      reduced.txnId = group.txnId ∧ (∀ change ∈ reduced.changes, change ∈ group.changes) ∧
        ∀ change ∈ group.changes, change.IsOp w.unit.stored → change ∈ reduced.changes) ∨
    w.unit.nextTxn ≤ reduced.txnId

theorem Onward.refl (w : World) : Onward w w where
  all := fun _ h => h
  nextTxn := le_refl _
  stored := fun _ h => h
  superseded := fun _ h => h
  takenOver := fun h => h
  log := fun _ => List.prefix_refl _
  pending := fun group h => Or.inl ⟨group, h, rfl, rfl, fun _ h => h, fun _ h _ => h⟩

theorem superseded_elide {id : ℕ} (h : id ∈ u.superseded) :
    id ∈ (u.elideSupersededBy change).superseded := by
  unfold UnitState.elideSupersededBy
  split
  · exact h
  · exact List.mem_append_left _ h

theorem superseded_record {id : ℕ} (h : id ∈ u.superseded) :
    id ∈ (u.record changes).superseded := by
  have hfold : ∀ (changes : List Change) (u : UnitState), id ∈ u.superseded →
      id ∈ (changes.foldl UnitState.recordChange u).superseded := by
    intro changes
    induction changes with
    | nil => exact fun _ h => h
    | cons change changes ih => exact fun u h => ih _ (superseded_elide h)
  unfold UnitState.record
  split
  · exact h
  · exact hfold changes _ h

theorem prefix_lands (w : World) (partition other : PartitionKey) (commit : Landed) :
    w.log other <+: (w.lands partition commit).log other := by
  unfold World.lands
  dsimp only
  by_cases hsame : other = partition
  · rw [hsame, Function.update_self]
    exact List.prefix_append _ _
  · rw [Function.update_of_ne hsame]

theorem Onward.leaves (w : World) (group : Group) : Onward w (w.leaves group) :=
  { Onward.refl w with
    pending := fun other hother =>
      (Onward.refl w).pending other (List.mem_of_mem_filter hother) }

/-- **A step** only adds. -/
theorem onward_step (hstep : Moves cfg w w') : Onward w w' := by
  have hsame := Onward.refl w
  cases hstep with
  | stage changes =>
    have hrecorded := UnitState.recorded_record (u := w.unit) (numbered w.all.length changes)
    refine ⟨fun _ h => List.mem_append_left _ h, ?_, ?_, fun _ h => superseded_record h,
      fun h => h, hsame.log, ?_⟩
    · exact Nat.le_of_eq hrecorded.nextTxn.symm
    · intro id hid
      dsimp only
      rw [hrecorded.stored]
      exact hid
    · intro reduced hreduced
      obtain ⟨group, hgroup, hof⟩ := hrecorded.pending reduced hreduced
      exact Or.inl ⟨group, hgroup, hof.partition, hof.txnId, fun _ h => hof.changes.subset h,
        hof.ops⟩
  | flush =>
    refine { hsame with nextTxn := Nat.le_add_right _ _, pending := ?_ }
    intro group hgroup
    cases UnitState.mem_startFlush.mp hgroup with
    | inl hold => exact hsame.pending group hold
    | inr hformed => exact Or.inr (of_mem_formGroups hformed).2.2.1
  | next | done | storing | gone | stored | readHead | withdraws | checks | prepares | found
  | retries | fails | dropped => exact { hsame with }
  | @read group progress progress' readable u hat hread =>
    obtain ⟨hu, hstored⟩ := storeRead_unit hread
    rw [hu]
    exact { hsame with stored := hstored }
  | skipped => exact Onward.leaves w _
  | lands | takerCommits
  | otherCommits partition => exact { hsame with log := fun other => prefix_lands w _ other _ }
  | settles | discards => exact { Onward.leaves w _ with }
  | takeOver => exact { hsame with takenOver := fun _ => rfl }
  | recovered => exact { hsame with log := fun other => prefix_lands (w.settles _) _ other _ }

/-- A change of a group that is not in its commit, and need not be. -/
def World.Excused (w : World) (change : Change) : Prop :=
  w.isWithdrawn change = true ∨ change.id ∈ w.unit.superseded

/-- Ops that have every change of a group that is not excused, and only changes of
the group. -/
structure Carries (w : World) (group : Group) (ops : List Change) : Prop where
  covers : ∀ change ∈ group.changes, change ∈ ops ∨ w.Excused change
  ofGroup : ∀ op ∈ ops, op ∈ group.changes ∧ op.IsOp w.unit.stored

/-- Ops of a commit of a partition, under a txn id. -/
structure CommitOk (w : World) (partition : PartitionKey) (txnId : ℕ) (ops : List Change) :
    Prop where
  bound : txnId < w.unit.nextTxn
  nonempty : ops ≠ []
  staged : ∀ op ∈ ops, op ∈ w.all ∧ op.partition = partition
  carries : ∀ group ∈ w.unit.pending, group.txnId = txnId →
    partition = group.partition ∧ Carries w group ops

theorem Excused.onward (h : Onward w w') (hexcused : w.Excused change) : w'.Excused change := by
  cases hexcused with
  | inl hwithdrawn =>
    apply Or.inl
    unfold World.isWithdrawn at hwithdrawn ⊢
    rw [Bool.and_eq_true] at hwithdrawn ⊢
    exact ⟨hwithdrawn.1, h.takenOver hwithdrawn.2⟩
  | inr hmarked => exact Or.inr (h.superseded _ hmarked)

variable {ops : List Change}

theorem Carries.onward (h : Onward w w') (hcarries : Carries w group ops) :
    Carries w' group ops where
  covers := fun change hmem => (hcarries.covers change hmem).imp_right (Excused.onward h)
  ofGroup := fun op hop => by
    obtain ⟨hmem, hisOp⟩ := hcarries.ofGroup op hop
    exact ⟨hmem, hisOp.imp_right (h.stored _)⟩

variable {partition : PartitionKey}

theorem CommitOk.onward (h : Onward w w') {txnId : ℕ} (hok : CommitOk w partition txnId ops) :
    CommitOk w' partition txnId ops := by
  refine ⟨Nat.lt_of_lt_of_le hok.bound h.nextTxn, hok.nonempty, ?_, ?_⟩
  · intro op hop
    exact ⟨h.all op (hok.staged op hop).1, (hok.staged op hop).2⟩
  · intro reduced hreduced htxn
    cases h.pending reduced hreduced with
    | inr hnew =>
      have hbound := hok.bound
      omega
    | inl hold =>
      obtain ⟨group, hgroup, hpartition, hsame, hsub, hops⟩ := hold
      obtain ⟨hof, hcarries⟩ := hok.carries group hgroup (hsame ▸ htxn)
      have hlater := hcarries.onward h
      refine ⟨hof.trans hpartition.symm,
        fun change hmem => hlater.covers change (hsub change hmem), fun op hop => ?_⟩
      obtain ⟨hmem, hisOp⟩ := hcarries.ofGroup op hop
      exact ⟨hops op hmem hisOp, hisOp.imp_right (h.stored _)⟩

/-- The changes a group being stored has left. -/
def left : Storing → List Change
  | .next rest _ => rest
  | .reading change rest _ => change :: rest

/-- The ops it has so far. -/
def opsOf : Storing → List Change
  | .next _ ops => ops
  | .reading _ _ ops => ops

/-- What the append of a group has got together. -/
def PhaseOk (w : World) (group : Group) : Appending → Prop
  | .storing progress =>
    (∀ change ∈ group.changes,
      change ∈ left progress ∨ change ∈ opsOf progress ∨ w.Excused change) ∧
    (∀ change ∈ left progress, change ∈ group.changes) ∧
    ∀ op ∈ opsOf progress, op ∈ group.changes ∧ op.IsOp w.unit.stored
  | .stored ops => Carries w group ops
  | .retrying ops _ => Carries w group ops
  | .headRead ops _ _ => Carries w group ops
  | .checked ops kept _ _ => Carries w group ops ∧ Carries w group kept ∧ kept ≠ []
  | .prepared ops kept _ _ => Carries w group ops ∧ Carries w group kept ∧ kept ≠ []
  | .landed => ∃ commit ∈ w.log group.partition, commit.txnId = some group.txnId
  | .withdrawn _ => ∀ change ∈ group.changes, w.Excused change

theorem PhaseOk.onward (h : Onward w w') {phase : Appending} (hphase : PhaseOk w group phase) :
    PhaseOk w' group phase := by
  cases phase with
  | storing progress =>
    obtain ⟨hcovers, hleft, hops⟩ := hphase
    refine ⟨fun change hmem => ?_, hleft, fun op hop => ?_⟩
    · exact (hcovers change hmem).imp_right (fun hrest => hrest.imp_right (Excused.onward h))
    · exact ⟨(hops op hop).1, (hops op hop).2.imp_right (h.stored _)⟩
  | stored ops | retrying ops attempt | headRead ops attempt head => exact Carries.onward h hphase
  | checked ops kept attempt head | prepared ops kept attempt head =>
    exact ⟨Carries.onward h hphase.1, Carries.onward h hphase.2.1, hphase.2.2⟩
  | landed =>
    obtain ⟨commit, hcommit, htxn⟩ := hphase
    exact ⟨commit, (h.log _).subset hcommit, htxn⟩
  | withdrawn locked => exact fun change hmem => Excused.onward h (hphase change hmem)

/-- On to the next change of a group. -/
theorem PhaseOk.storeNext (h : PhaseOk w group (.storing progress))
    (hnext : w.unit.storeNext w.isWithdrawn progress = some progress') :
    PhaseOk w group (.storing progress') := by
  obtain ⟨hcovers, hleft, hops⟩ := h
  unfold UnitState.storeNext at hnext
  split at hnext
  case h_2 => cases hnext
  case h_1 change rest ops =>
  simp only [left, opsOf] at hcovers hleft hops
  have hmem := hleft change List.mem_cons_self
  have hrest : ∀ other ∈ rest, other ∈ group.changes :=
    fun other hother => hleft other (List.mem_cons_of_mem _ hother)
  -- The change is left out, with a reason.
  have hskip : w.Excused change → PhaseOk w group (.storing (.next rest ops)) := by
    intro hexcused
    refine ⟨fun other hother => ?_, hrest, hops⟩
    rcases hcovers other hother with hat | hin
    · cases List.mem_cons.mp hat with
      | inl hsame => exact Or.inr (Or.inr (hsame ▸ hexcused))
      | inr hlater => exact Or.inl hlater
    · exact Or.inr hin
  split_ifs at hnext with hbuilt hwithdrawn hmarked
  · cases hnext
    refine ⟨fun other hother => ?_, hrest, fun op hop => ?_⟩
    · rcases hcovers other hother with hat | hin | hexcused
      · cases List.mem_cons.mp hat with
        | inl hsame => exact Or.inr (Or.inl (by simp [opsOf, hsame]))
        | inr hlater => exact Or.inl hlater
      · exact Or.inr (Or.inl (List.mem_append_left _ hin))
      · exact Or.inr (Or.inr hexcused)
    · cases List.mem_append.mp hop with
      | inl hold => exact hops op hold
      | inr hnew =>
        cases List.mem_singleton.mp hnew
        exact ⟨hmem, Or.inl hbuilt⟩
  · cases hnext
    exact hskip (Or.inl hwithdrawn)
  · cases hnext
    refine hskip (Or.inr ?_)
    rw [Bool.and_eq_true] at hmarked
    simpa using hmarked.2
  · cases hnext
    exact ⟨hcovers, hleft, hops⟩

theorem PhaseOk.storeRead {readable : Bool} (h : PhaseOk w group (.storing progress))
    (hread : w.unit.storeRead readable progress = some (u, progress')) :
    PhaseOk { w with unit := u } group (.storing progress') := by
  obtain ⟨hcovers, hleft, hops⟩ := h
  unfold UnitState.storeRead at hread
  split at hread
  case h_2 => cases hread
  case h_1 change rest ops =>
  simp only [left, opsOf] at hcovers hleft hops
  have hmem := hleft change List.mem_cons_self
  have hrest : ∀ other ∈ rest, other ∈ group.changes :=
    fun other hother => hleft other (List.mem_cons_of_mem _ hother)
  split_ifs at hread with hreadable hmarked
  · cases hread
    refine ⟨fun other hother => ?_, hrest, fun op hop => ?_⟩
    · rcases hcovers other hother with hat | hin | hexcused
      · cases List.mem_cons.mp hat with
        | inl hsame => exact Or.inr (Or.inl (by simp [opsOf, hsame]))
        | inr hlater => exact Or.inl hlater
      · exact Or.inr (Or.inl (List.mem_append_left _ hin))
      · exact Or.inr (Or.inr hexcused)
    · cases List.mem_append.mp hop with
      | inl hold => exact ⟨(hops op hold).1, (hops op hold).2.imp_right (List.mem_cons_of_mem _)⟩
      | inr hnew =>
        cases List.mem_singleton.mp hnew
        exact ⟨hmem, Or.inr List.mem_cons_self⟩
  · cases hread
    refine ⟨fun other hother => ?_, hrest, hops⟩
    rcases hcovers other hother with hat | hin
    · cases List.mem_cons.mp hat with
      | inl hsame => exact Or.inr (Or.inr (Or.inr (by simpa [hsame] using hmarked)))
      | inr hlater => exact Or.inl hlater
    · exact Or.inr hin

/-- Everything the unit and its entries have got together, and what has landed. -/
structure Carried (w : World) : Prop where
  phase : ∀ (group : Group) (phase : Appending), w.appending = some (group, phase) →
    PhaseOk w group phase
  entries : ∀ entry ∈ w.outbox, CommitOk w entry.partition entry.txnId entry.ops
  commits : ∀ (partition : PartitionKey), ∀ commit ∈ w.log partition, ∀ (txnId : ℕ),
    commit.txnId = some txnId → CommitOk w partition txnId commit.ops

/-- The commit of a group that is appended. -/
theorem Kept.commitOk (h : Kept cfg w) (hgroup : group ∈ w.unit.pending)
    (hcarries : Carries w group ops) (hops : ops ≠ []) :
    CommitOk w group.partition group.txnId ops := by
  refine ⟨h.bound group hgroup, hops, ?_, ?_⟩
  · intro op hop
    have hmem := (hcarries.ofGroup op hop).1
    exact ⟨h.held op (Or.inr ⟨group, hgroup, hmem⟩), h.tidy group hgroup op hmem⟩
  · intro other hother htxn
    cases h.same hgroup hother htxn
    exact ⟨rfl, hcarries⟩

variable {landed : Landed}

/-- A log with one more commit. -/
theorem mem_lands {w : World} {other : PartitionKey} {commit : Landed}
    (h : landed ∈ (w.lands partition commit).log other) :
    landed ∈ w.log other ∨ other = partition ∧ landed = commit := by
  unfold World.lands at h
  dsimp only at h
  by_cases hsame : other = partition
  · subst hsame
    rw [Function.update_self] at h
    exact (List.mem_append.mp h).imp_right (fun hnew => ⟨rfl, List.mem_singleton.mp hnew⟩)
  · rw [Function.update_of_ne hsame] at h
    exact Or.inl h

/-- A commit of somebody else is none of a group's. -/
theorem mem_lands_other {w : World} {other : PartitionKey} {txnId : ℕ}
    (h : landed ∈ (w.lands partition ⟨none, []⟩).log other) (htxn : landed.txnId = some txnId) :
    landed ∈ w.log other := by
  cases mem_lands h with
  | inl hold => exact hold
  | inr hnew =>
    rw [hnew.2] at htxn
    cases htxn

/-- **One step** keeps what a commit carries. -/
theorem Carried.step (h : Carried w) (hkept : Kept cfg w) (hstep : Moves cfg w w') :
    Carried w' := by
  have honward := onward_step hstep
  have hphase : ∀ {group phase}, w.appending = some (group, phase) → PhaseOk w' group phase :=
    fun hat => (h.phase _ _ hat).onward honward
  have hentries : ∀ entry ∈ w.outbox, CommitOk w' entry.partition entry.txnId entry.ops :=
    fun entry hentry => (h.entries entry hentry).onward honward
  have hcommits : ∀ (partition : PartitionKey), ∀ commit ∈ w.log partition, ∀ (txnId : ℕ),
      commit.txnId = some txnId → CommitOk w' partition txnId commit.ops :=
    fun partition commit hcommit txnId htxn =>
      (h.commits partition commit hcommit txnId htxn).onward honward
  have hsettled : ∀ txnId, ∀ entry ∈ (w.settles txnId).outbox,
      CommitOk w' entry.partition entry.txnId entry.ops :=
    fun txnId entry hentry => hentries entry (List.mem_of_mem_filter hentry)
  cases hstep with
  | stage | flush | done | takeOver => exact ⟨fun _ _ hat => hphase hat, hentries, hcommits⟩
  | next =>
    refine ⟨fun _ _ hat => ?_, hentries, hcommits⟩
    cases hat
    exact ⟨fun change hmem => Or.inl hmem, fun _ hmem => hmem,
      fun _ hop => absurd hop List.not_mem_nil⟩
  | storing hat hnext =>
    refine ⟨fun _ _ hnow => ?_, hentries, hcommits⟩
    cases hnow
    exact ((h.phase _ _ hat).storeNext hnext).onward honward
  | read hat hread =>
    refine ⟨fun _ _ hnow => ?_, hentries, hcommits⟩
    cases hnow
    exact (h.phase _ _ hat).storeRead hread
  | @gone group hat =>
    refine ⟨fun _ _ hnow => ?_, hentries, hcommits⟩
    cases hnow
    obtain ⟨hcovers, _⟩ := hphase hat
    intro change hmem
    rcases hcovers change hmem with hleft | hop | hexcused
    · cases hleft
    · cases hop
    · exact hexcused
  | skipped => exact ⟨fun _ _ hnow => by simp [World.leaves] at hnow, hentries, hcommits⟩
  | stored hat =>
    refine ⟨fun _ _ hnow => ?_, hentries, hcommits⟩
    cases hnow
    obtain ⟨hcovers, _, hops⟩ := hphase hat
    refine ⟨fun change hmem => ?_, hops⟩
    rcases hcovers change hmem with hleft | hop | hexcused
    · cases hleft
    · exact Or.inl hop
    · exact Or.inr hexcused
  | @readHead group phase ops attempt hat hof =>
    refine ⟨fun _ _ hnow => ?_, hentries, hcommits⟩
    cases hnow
    have hready : PhaseOk w group phase := h.phase _ _ hat
    rcases hof with rfl | rfl
    · exact Carries.onward honward hready
    · exact Carries.onward honward hready
  | @withdraws group ops attempt head hat hnone =>
    refine ⟨fun _ _ hnow => ?_, hentries, hcommits⟩
    cases hnow
    have hcarries : Carries w group ops := h.phase _ _ hat
    intro change hmem
    apply Excused.onward honward
    rcases hcarries.covers change hmem with hop | hexcused
    · have hwithdrawn := List.filter_eq_nil_iff.mp hnone change hop
      exact Or.inl (by simpa using hwithdrawn)
    · exact hexcused
  | @checks group ops attempt head hat hsome =>
    refine ⟨fun _ _ hnow => ?_, hentries, hcommits⟩
    cases hnow
    have hcarries : Carries w group ops := h.phase _ _ hat
    refine ⟨Carries.onward honward hcarries, Carries.onward honward ⟨?_, ?_⟩, hsome⟩
    · intro change hmem
      rcases hcarries.covers change hmem with hop | hexcused
      · by_cases hwithdrawn : w.isWithdrawn change = true
        · exact Or.inr (Or.inl hwithdrawn)
        · exact Or.inl (List.mem_filter.mpr ⟨hop, by simpa using hwithdrawn⟩)
      · exact Or.inr hexcused
    · exact fun op hop => hcarries.ofGroup op (List.mem_of_mem_filter hop)
  | @prepares group ops kept attempt head hat =>
    obtain ⟨hgroup, _⟩ := hkept.current _ _ hat
    obtain ⟨hops, hcarries, hsome⟩ : Carries w group ops ∧ Carries w group kept ∧ kept ≠ [] :=
      h.phase _ _ hat
    refine ⟨fun _ _ hnow => ?_, fun entry hentry => ?_, hcommits⟩
    · cases hnow
      exact ⟨hops.onward honward, hcarries.onward honward, hsome⟩
    · cases List.mem_cons.mp hentry with
      | inl hsame =>
        cases hsame
        exact (hkept.commitOk hgroup hcarries hsome).onward honward
      | inr hold => exact hsettled _ entry hold
  | @found group ops kept attempt head hat hlanded =>
    refine ⟨fun _ _ hnow => ?_, hentries, hcommits⟩
    cases hnow
    obtain ⟨commit, hcommit, htxn⟩ := List.any_eq_true.mp hlanded
    exact ⟨commit, hcommit, by simpa using htxn⟩
  | @lands group ops kept attempt head hat hhead =>
    obtain ⟨hgroup, _⟩ := hkept.current _ _ hat
    obtain ⟨_, hcarries, hsome⟩ : Carries w group ops ∧ Carries w group kept ∧ kept ≠ [] :=
      h.phase _ _ hat
    refine ⟨fun _ _ hnow => ?_, hentries, fun partition commit hcommit txnId htxn => ?_⟩
    · cases hnow
      refine ⟨⟨some group.txnId, kept⟩, ?_, rfl⟩
      simp [World.goes, World.lands]
    · cases mem_lands hcommit with
      | inl hold => exact hcommits partition commit hold txnId htxn
      | inr hnew =>
        obtain ⟨rfl, rfl⟩ := hnew
        cases htxn
        exact (hkept.commitOk hgroup hcarries hsome).onward honward
  | retries hat =>
    refine ⟨fun _ _ hnow => ?_, hentries, hcommits⟩
    cases hnow
    exact (hphase hat).1
  | fails => exact ⟨fun _ _ hnow => by simp [World.fails] at hnow, hentries, hcommits⟩
  | settles | discards =>
    exact ⟨fun _ _ hnow => by simp [World.leaves] at hnow, hsettled _, hcommits⟩
  | takerCommits | otherCommits =>
    exact ⟨fun _ _ hat => hphase hat, hentries, fun partition commit hcommit txnId htxn =>
      hcommits partition commit (mem_lands_other hcommit htxn) txnId htxn⟩
  | dropped => exact ⟨fun _ _ hat => hphase hat, hsettled _, hcommits⟩
  | recovered hmem =>
    refine ⟨fun _ _ hat => hphase hat, hsettled _, fun partition commit hcommit txnId htxn => ?_⟩
    cases mem_lands hcommit with
    | inl hold => exact hcommits partition commit hold txnId htxn
    | inr hnew =>
      obtain ⟨rfl, rfl⟩ := hnew
      cases htxn
      exact hentries _ hmem

/-- A commit at the seq after a head that, with a save that yields, is not past the
other writer's. -/
structure Behind (w : World) (partition : PartitionKey) (head : ℕ) (ops : List Change) :
    Prop where
  le : head ≤ (w.log partition).length
  lt : (∃ op ∈ ops, asks op = true) → ∀ n, w.taken = some n → head < n

/-- The heads that were read. -/
def HeadOk (w : World) (group : Group) : Appending → Prop
  | .headRead _ _ head => head ≤ (w.log group.partition).length
  | .checked _ kept _ head => Behind w group.partition head kept
  | .prepared _ kept _ head => Behind w group.partition head kept
  | _ => True

/-- What the other writer's commit keeps out. -/
structure Fenced (cfg : Settings) (w : World) : Prop where
  taken : ∀ n, w.taken = some n → n ≤ (w.log cfg.run).length ∧ w.takenOver = true
  heads : ∀ (group : Group) (phase : Appending), w.appending = some (group, phase) →
    HeadOk w group phase
  entries : ∀ entry ∈ w.outbox, Behind w entry.partition entry.base entry.ops
  late : ∀ n, w.taken = some n → ∀ (i : ℕ) (commit : Landed), n ≤ i →
    (w.log cfg.run)[i]? = some commit → ∀ op ∈ commit.ops, asks op = false

/-- When the other writer commits, if it does. -/
theorem taken_step (hstep : Moves cfg w w') :
    w'.taken = w.taken ∨ w.taken = none ∧ w'.taken = some ((w.log cfg.run).length + 1) := by
  cases hstep
  case takerCommits =>
    cases htaken : w.taken with
    | none => exact Or.inr ⟨rfl, by simp⟩
    | some n => exact Or.inl (by simp)
  all_goals exact Or.inl rfl

theorem Behind.step {head : ℕ} (h : Behind w partition head ops) (hstep : Moves cfg w w')
    (hruns : ∀ op ∈ ops, asks op = true → partition = cfg.run) : Behind w' partition head ops := by
  refine ⟨Nat.le_trans h.le ((onward_step hstep).log partition).length_le, ?_⟩
  intro hasks n hn
  rcases taken_step hstep with hsame | ⟨_, hnow⟩
  · exact h.lt hasks n (hsame ▸ hn)
  · obtain ⟨op, hop, hask⟩ := hasks
    have hle := h.le
    rw [hruns op hop hask] at hle
    rw [hnow] at hn
    cases hn
    omega

theorem Kept.group_runs (h : Kept cfg w) (hgroup : group ∈ w.unit.pending)
    (hmem : change ∈ group.changes) (hasks : asks change = true) :
    group.partition = cfg.run := by
  rw [← h.tidy group hgroup change hmem]
  exact h.runs change (h.held change (Or.inr ⟨group, hgroup, hmem⟩)) hasks

/-- A log with one more commit, by position. -/
theorem getElem?_lands {w : World} {other : PartitionKey} {commit : Landed} {i : ℕ}
    (h : ((w.lands partition commit).log other)[i]? = some landed) :
    (w.log other)[i]? = some landed ∨
      other = partition ∧ landed = commit ∧ i = (w.log partition).length := by
  unfold World.lands at h
  dsimp only at h
  by_cases hsame : other = partition
  · subst hsame
    rw [Function.update_self] at h
    by_cases hlt : i < (w.log other).length
    · rw [List.getElem?_append_left hlt] at h
      exact Or.inl h
    · rw [List.getElem?_append_right (Nat.le_of_not_lt hlt)] at h
      obtain ⟨hzero, hget⟩ := List.getElem?_eq_some_iff.mp h
      rw [List.length_singleton] at hzero
      refine Or.inr ⟨rfl, ?_, by omega⟩
      rw [← hget]
      exact List.getElem_singleton _
  · rw [Function.update_of_ne hsame] at h
    exact Or.inl h

/-- **One step** keeps the fence. -/
theorem Fenced.step (h : Fenced cfg w) (hkept : Kept cfg w) (hcarried : Carried w)
    (hstep : Moves cfg w w') : Fenced cfg w' := by
  have honward := onward_step hstep
  have htaken : ∀ n, w.taken = some n → n ≤ (w'.log cfg.run).length ∧ w'.takenOver = true := by
    intro n hn
    obtain ⟨hle, hover⟩ := h.taken n hn
    exact ⟨Nat.le_trans hle (honward.log cfg.run).length_le, honward.takenOver hover⟩
  have hbehind : ∀ {group ops kept attempt head}, (w.appending = some (group, .checked ops kept
      attempt head) ∨ w.appending = some (group, .prepared ops kept attempt head)) →
      Behind w' group.partition head kept := by
    intro group ops kept attempt head hat
    have hbefore : Behind w group.partition head kept ∧ Carries w group kept := by
      rcases hat with hat | hat
      · exact ⟨h.heads _ _ hat, (hcarried.phase _ _ hat).2.1⟩
      · exact ⟨h.heads _ _ hat, (hcarried.phase _ _ hat).2.1⟩
    have hgroup : group ∈ w.unit.pending := by
      rcases hat with hat | hat
      · exact (hkept.current _ _ hat).1
      · exact (hkept.current _ _ hat).1
    exact hbefore.1.step hstep (fun op hop hasks =>
      hkept.group_runs hgroup (hbefore.2.ofGroup op hop).1 hasks)
  have hheads : ∀ (group : Group) (phase : Appending), w.appending = some (group, phase) →
      HeadOk w' group phase := by
    intro group phase hat
    cases phase with
    | headRead ops attempt head =>
      have hle : head ≤ (w.log group.partition).length := h.heads _ _ hat
      exact Nat.le_trans hle (honward.log group.partition).length_le
    | checked ops kept attempt head => exact hbehind (Or.inl hat)
    | prepared ops kept attempt head => exact hbehind (Or.inr hat)
    | _ => trivial
  have hentries : ∀ entry ∈ w.outbox, Behind w' entry.partition entry.base entry.ops := by
    intro entry hentry
    apply (h.entries entry hentry).step hstep
    intro op hop hasks
    obtain ⟨hmem, hof⟩ := (hcarried.entries entry hentry).staged op hop
    exact hof.symm.trans (hkept.runs op hmem hasks)
  have hsettled : ∀ txnId, ∀ entry ∈ (w.settles txnId).outbox,
      Behind w' entry.partition entry.base entry.ops :=
    fun txnId entry hentry => hentries entry (List.mem_of_mem_filter hentry)
  cases hstep with
  | stage | flush | done | takeOver => exact ⟨htaken, hheads, hentries, h.late⟩
  | next | storing | read | gone | stored | withdraws | found | retries =>
    refine ⟨htaken, fun _ _ hat => ?_, hentries, h.late⟩
    cases hat
    trivial
  | skipped => exact ⟨htaken, fun _ _ hat => by simp [World.leaves] at hat, hentries, h.late⟩
  | readHead =>
    refine ⟨htaken, fun _ _ hat => ?_, hentries, h.late⟩
    cases hat
    exact le_refl _
  | @checks group ops attempt head hat =>
    refine ⟨htaken, fun _ _ hnow => ?_, hentries, h.late⟩
    cases hnow
    have hle : head ≤ (w.log group.partition).length := h.heads _ _ hat
    refine ⟨hle, fun hasks n hn => ?_⟩
    -- A save that yields is kept only where nothing was taken over.
    obtain ⟨op, hop, hask⟩ := hasks
    have hnot := (List.mem_filter.mp hop).2
    have hover := (h.taken n hn).2
    simp [World.isWithdrawn, hask, hover] at hnot
  | @prepares group ops kept attempt head hat =>
    refine ⟨htaken, fun _ _ hnow => ?_, fun entry hentry => ?_, h.late⟩
    · cases hnow
      exact hbehind (Or.inl hat)
    · cases List.mem_cons.mp hentry with
      | inl hsame =>
        cases hsame
        exact hbehind (Or.inl hat)
      | inr hold => exact hsettled _ entry hold
  | @lands group ops kept attempt head hat hhead =>
    refine ⟨htaken, fun _ _ hnow => ?_, hentries, fun n hn i commit hle hget => ?_⟩
    · cases hnow
      trivial
    · rcases getElem?_lands hget with hold | ⟨hrun, rfl, rfl⟩
      · exact h.late n hn i commit hle hold
      · -- The head it was prepared at is the last before it.
        have hbefore : Behind w group.partition head kept := h.heads _ _ hat
        intro op hop
        by_contra hask
        have hlt := hbefore.lt ⟨op, hop, by simpa using hask⟩ n hn
        omega
  | fails => exact ⟨htaken, fun _ _ hat => by simp [World.fails] at hat, hentries, h.late⟩
  | settles | discards =>
    exact ⟨htaken, fun _ _ hat => by simp [World.leaves] at hat, hsettled _, h.late⟩
  | takerCommits hover =>
    refine ⟨fun n hn => ?_, hheads, hentries, fun n hn i commit hle hget => ?_⟩
    · cases hbefore : w.taken with
      | some m =>
        have hsame : m = n := by simpa [hbefore] using hn
        exact hsame ▸ htaken m hbefore
      | none =>
        have hnow : (w.log cfg.run).length + 1 = n := by simpa [hbefore] using hn
        refine ⟨?_, hover⟩
        simp [World.lands, ← hnow]
    · rcases getElem?_lands hget with hold | ⟨_, rfl, _⟩
      · cases hbefore : w.taken with
        | some m =>
          have hsame : m = n := by simpa [hbefore] using hn
          exact h.late m hbefore i commit (hsame ▸ hle) hold
        | none =>
          have hnow : (w.log cfg.run).length + 1 = n := by simpa [hbefore] using hn
          obtain ⟨hlt, _⟩ := List.getElem?_eq_some_iff.mp hold
          omega
      · exact fun op hop => absurd hop List.not_mem_nil
  | otherCommits =>
    refine ⟨htaken, hheads, hentries, fun n hn i commit hle hget => ?_⟩
    rcases getElem?_lands hget with hold | ⟨_, rfl, _⟩
    · exact h.late n hn i commit hle hold
    · exact fun op hop => absurd hop List.not_mem_nil
  | dropped => exact ⟨htaken, hheads, hsettled _, h.late⟩
  | @recovered entry hmem _ hbase =>
    refine ⟨htaken, hheads, hsettled _, fun n hn i commit hle hget => ?_⟩
    rcases getElem?_lands hget with hold | ⟨hrun, rfl, hi⟩
    · exact h.late n hn i commit hle hold
    · have hbefore := h.entries entry hmem
      have hlen : (w.log entry.partition).length = i := hi.symm
      intro op hop
      by_contra hask
      have hlt := hbefore.lt ⟨op, hop, by simpa using hask⟩ n hn
      omega

/-- A commit of a group that waits has no save that yields, but where the group is
about to leave the unit; and a group that ended withdrawn has no entry, and in the
log no commit with such a save. -/
structure Ended (w : World) : Prop where
  waiting : ∀ (partition : PartitionKey), ∀ commit ∈ w.log partition,
    ∀ group ∈ w.unit.pending, commit.txnId = some group.txnId →
      w.appending = some (group, .landed) ∨ ∀ op ∈ commit.ops, asks op = false
  bound : ∀ group ∈ w.withdrawn, group.txnId < w.unit.nextTxn
  left : ∀ group ∈ w.withdrawn, ∀ other ∈ w.unit.pending, other.txnId ≠ group.txnId
  entries : ∀ group ∈ w.withdrawn, ∀ entry ∈ w.outbox, entry.txnId ≠ group.txnId
  commits : ∀ group ∈ w.withdrawn, ∀ (partition : PartitionKey), ∀ commit ∈ w.log partition,
    commit.txnId = some group.txnId →
      commit.ops ≠ [] ∧ ∀ op ∈ commit.ops, op ∈ group.changes ∧ asks op = false

/-- No group that ended waits again. -/
theorem Ended.onward_left (h : Ended w) (honward : Onward w w') :
    ∀ group ∈ w.withdrawn, ∀ other ∈ w'.unit.pending, other.txnId ≠ group.txnId := by
  intro group hgroup other hother heq
  cases honward.pending other hother with
  | inl hold =>
    obtain ⟨before, hbefore, _, htxn, _⟩ := hold
    exact h.left group hgroup before hbefore (htxn ▸ heq)
  | inr hnew =>
    have hbound := h.bound group hgroup
    omega

/-- A group about to leave the unit is still about to, or has left it. -/
def StillLanded (w w' : World) : Prop :=
  ∀ group, w.appending = some (group, .landed) →
    w'.appending = some (group, .landed) ∨ ∀ other ∈ w'.unit.pending, other.txnId ≠ group.txnId

/-- The group that is appended is at another phase. -/
theorem StillLanded.of_other {phase : Appending} (hat : w.appending = some (group, phase))
    (hne : phase ≠ .landed) : StillLanded w w' := by
  intro other hlanded
  rw [hat] at hlanded
  cases hlanded
  exact absurd rfl hne

/-- A commit that was there, of a group that waits after a step. -/
theorem Ended.waits (h : Ended w) (hkept : Kept cfg w) (hcarried : Carried w)
    (hstep : Moves cfg w w') (hstill : StillLanded w w') {partition : PartitionKey} {commit : Landed}
    (hcommit : commit ∈ w.log partition) (hgroup : group ∈ w'.unit.pending)
    (htxn : commit.txnId = some group.txnId) :
    w'.appending = some (group, .landed) ∨ ∀ op ∈ commit.ops, asks op = false := by
  have hkept' := hkept.step hstep
  cases (onward_step hstep).pending group hgroup with
  | inr hnew =>
    have hbound := (hcarried.commits partition commit hcommit _ htxn).bound
    omega
  | inl hold =>
    obtain ⟨before, hbefore, _, heq, _⟩ := hold
    cases h.waiting partition commit hcommit before hbefore (heq ▸ htxn) with
    | inr hnone => exact Or.inr hnone
    | inl hlanded =>
      cases hstill before hlanded with
      | inl hsame =>
        rw [hkept'.same (hkept'.current _ _ hsame).1 hgroup heq]
        exact Or.inl hsame
      | inr hgone => exact absurd heq (hgone group hgroup)

theorem Ended.next_bound (h : Ended w) (hstep : Moves cfg w w') :
    ∀ group ∈ w.withdrawn, group.txnId < w'.unit.nextTxn :=
  fun group hgroup => Nat.lt_of_lt_of_le (h.bound group hgroup) (onward_step hstep).nextTxn

/-- A step that leaves the log and what is withdrawn as they were, and whose entries
are none of a withdrawn group's. -/
theorem Ended.same_log (h : Ended w) (hkept : Kept cfg w) (hcarried : Carried w)
    (hstep : Moves cfg w w') (hstill : StillLanded w w') (hlog : w'.log = w.log)
    (hwithdrawn : w'.withdrawn = w.withdrawn)
    (hentries : ∀ group ∈ w.withdrawn, ∀ entry ∈ w'.outbox, entry.txnId ≠ group.txnId) :
    Ended w' where
  waiting := by
    intro partition commit hcommit group hgroup htxn
    rw [hlog] at hcommit
    exact h.waits hkept hcarried hstep hstill hcommit hgroup htxn
  bound := by
    rw [hwithdrawn]
    exact h.next_bound hstep
  left := by
    rw [hwithdrawn]
    exact h.onward_left (onward_step hstep)
  entries := by
    rw [hwithdrawn]
    exact hentries
  commits := by
    rw [hwithdrawn, hlog]
    exact h.commits

theorem Ended.settled (h : Ended w) (txnId : ℕ) : ∀ group ∈ w.withdrawn,
    ∀ entry ∈ (w.settles txnId).outbox, entry.txnId ≠ group.txnId :=
  fun group hgroup entry hentry => h.entries group hgroup entry (List.mem_of_mem_filter hentry)

/-- The commit of the group that is appended lands: the group waits to leave. -/
theorem Ended.lands (h : Ended w) (hkept : Kept cfg w) (hcarried : Carried w)
    {ops kept : List Change} {attempt head : ℕ}
    (hat : w.appending = some (group, .prepared ops kept attempt head))
    (hhead : (w.log group.partition).length = head) :
    Ended ((w.lands group.partition ⟨some group.txnId, kept⟩).goes group .landed) := by
  have hstep : Moves cfg w _ := .lands hat hhead
  have hgroup := (hkept.current _ _ hat).1
  refine ⟨?_, h.next_bound hstep, h.onward_left (onward_step hstep), h.entries, ?_⟩
  · intro partition commit hcommit waiting hmem htxn
    cases mem_lands hcommit with
    | inl hold => exact h.waits hkept hcarried hstep (.of_other hat nofun) hold hmem htxn
    | inr hnew =>
      obtain ⟨_, rfl⟩ := hnew
      cases hkept.same hgroup hmem (Option.some.inj htxn).symm
      exact Or.inl rfl
  · intro ended hended partition commit hcommit htxn
    cases mem_lands hcommit with
    | inl hold => exact h.commits ended hended partition commit hold htxn
    | inr hnew =>
      obtain ⟨_, rfl⟩ := hnew
      exact absurd (Option.some.inj htxn) (h.left ended hended group hgroup)

/-- A group ends with every op withdrawn: what it has landed asked nobody. -/
theorem Ended.discards (h : Ended w) (hkept : Kept cfg w) (hcarried : Carried w) {locked : Bool}
    (hat : w.appending = some (group, .withdrawn locked)) :
    Ended { (w.settles group.txnId).leaves group with withdrawn := group :: w.withdrawn } := by
  have hstep : Moves cfg w _ := .discards hat
  have hgroup := (hkept.current _ _ hat).1
  refine ⟨?_, ?_, ?_, ?_, ?_⟩
  · intro partition commit hcommit waiting hmem htxn
    exact h.waits hkept hcarried hstep (.of_other hat nofun) hcommit hmem htxn
  · intro ended hended
    cases List.mem_cons.mp hended with
    | inl hsame => exact hsame ▸ hkept.bound group hgroup
    | inr hold => exact h.next_bound hstep ended hold
  · intro ended hended other hmem
    cases List.mem_cons.mp hended with
    | inl hsame =>
      cases hsame
      simpa using (List.mem_filter.mp hmem).2
    | inr hold => exact h.onward_left (onward_step hstep) ended hold other hmem
  · intro ended hended entry hentry
    cases List.mem_cons.mp hended with
    | inl hsame =>
      cases hsame
      simpa using (List.mem_filter.mp hentry).2
    | inr hold => exact h.settled _ ended hold entry hentry
  · intro ended hended partition commit hcommit htxn
    cases List.mem_cons.mp hended with
    | inr hold => exact h.commits ended hold partition commit hcommit htxn
    | inl hsame =>
      cases hsame
      have hok := hcarried.commits partition commit hcommit _ htxn
      refine ⟨hok.nonempty, fun op hop => ⟨?_, ?_⟩⟩
      · exact ((hok.carries group hgroup rfl).2.ofGroup op hop).1
      · cases h.waiting partition commit hcommit group hgroup htxn with
        | inl hlanded =>
          rw [hat] at hlanded
          cases hlanded
        | inr hnone => exact hnone op hop

/-- A commit of somebody else lands. -/
theorem Ended.others (h : Ended w) (hkept : Kept cfg w) (hcarried : Carried w)
    {partition : PartitionKey} {taken : Option ℕ}
    (hstep : Moves cfg w { w.lands partition ⟨none, []⟩ with taken := taken }) :
    Ended { w.lands partition ⟨none, []⟩ with taken := taken } where
  waiting := by
    intro other commit hcommit waiting hmem htxn
    exact h.waits hkept hcarried hstep (fun _ hlanded => Or.inl hlanded)
      (mem_lands_other hcommit htxn) hmem htxn
  bound := h.next_bound hstep
  left := h.onward_left (onward_step hstep)
  entries := h.entries
  commits := by
    intro ended hended other commit hcommit htxn
    exact h.commits ended hended other commit (mem_lands_other hcommit htxn) htxn

/-- A recovery lands an entry after the other writer's commit: it has no save that
yields. -/
theorem Ended.recovered (h : Ended w) (hkept : Kept cfg w) (hcarried : Carried w)
    (hfenced : Fenced cfg w) {entry : Entry} (hmem : entry ∈ w.outbox)
    (hsome : w.taken.isSome = true) (hbase : (w.log entry.partition).length = entry.base) :
    Ended ((w.settles entry.txnId).lands entry.partition ⟨some entry.txnId, entry.ops⟩) := by
  have hstep : Moves cfg w _ := .recovered hmem hsome hbase
  have hnone : ∀ op ∈ entry.ops, asks op = false := by
    intro op hop
    by_contra hask
    have hask : asks op = true := by simpa using hask
    obtain ⟨n, hn⟩ := Option.isSome_iff_exists.mp hsome
    have hlt := (hfenced.entries entry hmem).lt ⟨op, hop, hask⟩ n hn
    have hle := (hfenced.taken n hn).1
    obtain ⟨hstaged, hof⟩ := (hcarried.entries entry hmem).staged op hop
    rw [← hkept.runs op hstaged hask, hof, hbase] at hle
    omega
  refine ⟨?_, h.next_bound hstep, h.onward_left (onward_step hstep), h.settled _, ?_⟩
  · intro partition commit hcommit waiting hwaits htxn
    cases mem_lands hcommit with
    | inl hold =>
      exact h.waits hkept hcarried hstep (fun _ hlanded => Or.inl hlanded) hold hwaits htxn
    | inr hnew =>
      obtain ⟨_, rfl⟩ := hnew
      exact Or.inr hnone
  · intro ended hended partition commit hcommit htxn
    cases mem_lands hcommit with
    | inl hold => exact h.commits ended hended partition commit hold htxn
    | inr hnew =>
      obtain ⟨_, rfl⟩ := hnew
      exact absurd (Option.some.inj htxn) (h.entries ended hended entry hmem)

/-- **One step** keeps what groups have landed. -/
theorem Ended.step (h : Ended w) (hkept : Kept cfg w) (hcarried : Carried w)
    (hfenced : Fenced cfg w) (hstep : Moves cfg w w') : Ended w' := by
  have hsame := h.same_log hkept hcarried hstep
  cases hstep with
  | stage | flush | done | takeOver => exact hsame (fun _ hlanded => Or.inl hlanded) rfl rfl h.entries
  | next hidle =>
    refine hsame (fun group hlanded => ?_) rfl rfl h.entries
    rw [hidle] at hlanded
    cases hlanded
  | storing hat | read hat | gone hat | skipped hat | stored hat | withdraws hat | checks hat
  | found hat
  | retries hat => exact hsame (.of_other hat nofun) rfl rfl h.entries
  | readHead hat hof =>
    refine hsame (.of_other hat ?_) rfl rfl h.entries
    rcases hof with rfl | rfl
    · nofun
    · nofun
  | @prepares group ops kept attempt head hat =>
    apply hsame (.of_other hat nofun) rfl rfl
    intro ended hended entry hentry
    cases List.mem_cons.mp hentry with
    | inl hnew =>
      cases hnew
      exact h.left ended hended group (hkept.current _ _ hat).1
    | inr hold => exact h.settled _ ended hended entry hold
  | lands hat hhead => exact h.lands hkept hcarried hat hhead
  | fails hnot => exact hsame (fun group hlanded => absurd hlanded (hnot group)) rfl rfl h.entries
  | settles hat =>
    refine hsame (fun other hlanded => Or.inr ?_) rfl rfl (h.settled _)
    rw [hat] at hlanded
    cases hlanded
    intro waiting hmem
    simpa using (List.mem_filter.mp hmem).2
  | discards hat => exact h.discards hkept hcarried hat
  | takerCommits hover => exact h.others hkept hcarried (.takerCommits hover)
  | otherCommits partition => exact h.others hkept hcarried (.otherCommits partition)
  | dropped => exact hsame (fun _ hlanded => Or.inl hlanded) rfl rfl (h.settled _)
  | recovered hmem hsome hbase => exact h.recovered hkept hcarried hfenced hmem hsome hbase

/-- A change is in a commit of its partition. -/
def HasLanded (w : World) (change : Change) : Prop :=
  ∃ commit ∈ w.log change.partition, change ∈ commit.ops

/-- A change staged later takes the place of a change. -/
def Replaced (w : World) (change : Change) : Prop :=
  ∃ later ∈ w.all, change.id < later.id ∧ Supersedes later change

/-- What became of every change. -/
structure Accounted (w : World) : Prop where
  flushing : ∀ n, w.flushing = some n → n ≤ w.all.length ∧
    ∀ change ∈ w.unit.staged.flatten, n ≤ change.id
  flushedLe : w.flushed ≤ w.all.length
  settled : ∀ change ∈ w.all, w.unit.Holds change ∨ HasLanded w change ∨
    w.isWithdrawn change = true ∨ Replaced w change
  flushed : ∀ change ∈ w.all, change.id < w.flushed → HasLanded w change ∨ Replaced w change

theorem HasLanded.onward (h : Onward w w') (hlanded : HasLanded w change) :
    HasLanded w' change := by
  obtain ⟨commit, hcommit, hmem⟩ := hlanded
  exact ⟨commit, (h.log _).subset hcommit, hmem⟩

theorem Replaced.onward (h : Onward w w') (hreplaced : Replaced w change) :
    Replaced w' change := by
  obtain ⟨later, hmem, hlt, hsupersedes⟩ := hreplaced
  exact ⟨later, h.all later hmem, hlt, hsupersedes⟩

theorem isWithdrawn_onward (h : Onward w w') (hwithdrawn : w.isWithdrawn change = true) :
    w'.isWithdrawn change = true := by
  unfold World.isWithdrawn at hwithdrawn ⊢
  rw [Bool.and_eq_true] at hwithdrawn ⊢
  exact ⟨hwithdrawn.1, h.takenOver hwithdrawn.2⟩

/-- What is marked, a change staged later takes the place of. -/
theorem Kept.replaced (h : Kept cfg w) (hmem : change ∈ w.all)
    (hmarked : change.id ∈ w.unit.superseded) : Replaced w change := by
  obtain ⟨marked, hmarkedMem, hid, later, hlater, hlt, hsupersedes⟩ := h.marks _ hmarked
  cases h.eq_of_id hmarkedMem hmem hid
  exact ⟨later, hlater, hlt, hsupersedes⟩

theorem Accounted.leaves (h : Accounted w) (hkept : Kept cfg w) (hgroup : group ∈ w.unit.pending)
    (hall : ∀ change ∈ group.changes, HasLanded w change ∨ w.Excused change) :
    ∀ change ∈ w.all, (w.leaves group).unit.Holds change ∨ HasLanded w change ∨
      w.isWithdrawn change = true ∨ Replaced w change := by
  intro change hmem
  cases h.settled change hmem with
  | inr hrest => exact Or.inr hrest
  | inl hholds =>
    cases hholds with
    | inl hstaged => exact Or.inl (Or.inl hstaged)
    | inr hpending =>
      obtain ⟨other, hother, hin⟩ := hpending
      by_cases hsame : other.txnId = group.txnId
      · cases hkept.same hgroup hother hsame
        rcases hall change hin with hlanded | hwithdrawn | hmarked
        · exact Or.inr (Or.inl hlanded)
        · exact Or.inr (Or.inr (Or.inl hwithdrawn))
        · exact Or.inr (Or.inr (Or.inr (hkept.replaced hmem hmarked)))
      · exact Or.inl (Or.inr ⟨other, List.mem_filter.mpr ⟨hother, by simpa using hsame⟩, hin⟩)

theorem settled_onward (honward : Onward w w')
    (h : HasLanded w change ∨ w.isWithdrawn change = true ∨ Replaced w change) :
    HasLanded w' change ∨ w'.isWithdrawn change = true ∨ Replaced w' change := by
  rcases h with hlanded | hwithdrawn | hreplaced
  · exact Or.inl (hlanded.onward honward)
  · exact Or.inr (Or.inl (isWithdrawn_onward honward hwithdrawn))
  · exact Or.inr (Or.inr (hreplaced.onward honward))

theorem flushed_onward (honward : Onward w w') (h : HasLanded w change ∨ Replaced w change) :
    HasLanded w' change ∨ Replaced w' change :=
  h.imp (HasLanded.onward honward) (Replaced.onward honward)

/-- What is staged is held, or a later change takes its place. -/
theorem Accounted.stage (h : Accounted w) (hkept : Kept cfg w) {changes : List Change}
    (hruns : savesOfRun cfg.run changes = true) :
    Accounted { w with
      unit := w.unit.record (numbered w.all.length changes)
      all := w.all ++ numbered w.all.length changes } := by
  have hstep : Moves cfg w _ := .stage changes hruns
  have honward := onward_step hstep
  have hrecorded := UnitState.recorded_record (u := w.unit) (numbered w.all.length changes)
  refine ⟨?_, ?_, ?_, ?_⟩
  · intro n hn
    obtain ⟨hle, hstaged⟩ := h.flushing n hn
    refine ⟨by simp only [List.length_append]; omega, fun change hmem => ?_⟩
    cases hrecorded.staged change hmem with
    | inl hold => exact hstaged change hold
    | inr hnew => exact Nat.le_trans hle (le_of_mem_numbered hnew)
  · have hle := h.flushedLe
    simp only [List.length_append]
    omega
  · intro change hmem
    cases List.mem_append.mp hmem with
    | inl hold =>
      cases h.settled change hold with
      | inr hsettled => exact Or.inr (settled_onward honward hsettled)
      | inl hholds =>
        have hrecorded := @UnitState.holds_record _ _ (numbered w.all.length changes) hholds
        cases hrecorded with
        | inl hstill => exact Or.inl hstill
        | inr hlater =>
          obtain ⟨later, hlater, hsupersedes⟩ := hlater
          have hlt := hkept.id_lt hold
          have hle := le_of_mem_numbered hlater
          exact Or.inr (Or.inr (Or.inr ⟨later, List.mem_append_right _ hlater, by omega,
            hsupersedes⟩))
    | inr hnew =>
      apply (UnitState.record_holds hnew (numbered_pairwise _ _)).imp_right
      intro hlater
      obtain ⟨later, hlater, hlt, hsupersedes⟩ := hlater
      exact Or.inr (Or.inr ⟨later, List.mem_append_right _ hlater, hlt, hsupersedes⟩)
  · intro change hmem hlt
    cases List.mem_append.mp hmem with
    | inl hold => exact flushed_onward honward (h.flushed change hold hlt)
    | inr hnew =>
      have hle := le_of_mem_numbered hnew
      have hbound := h.flushedLe
      dsimp only at hlt
      omega

/-- A flush is done when nothing waits. -/
theorem Accounted.done (h : Accounted w) {n : ℕ} (hflush : w.flushing = some n)
    (hpending : w.unit.pending = []) :
    Accounted { w with flushing := none, flushed := if w.takenOver then w.flushed else n } := by
  refine ⟨nofun, ?_, h.settled, ?_⟩
  · have hle := (h.flushing n hflush).1
    have hbound := h.flushedLe
    dsimp only
    split_ifs
    · exact hbound
    · exact hle
  · intro change hmem hlt
    cases hover : w.takenOver with
    | true => exact h.flushed change hmem (by simpa [hover] using hlt)
    | false =>
      have hlt : change.id < n := by simpa [hover] using hlt
      rcases h.settled change hmem with hholds | hlanded | hwithdrawn | hreplaced
      · -- Nothing waits, and what is staged was staged after the flush began.
        rcases hholds with hstaged | ⟨waiting, hwaiting, _⟩
        · have hle := (h.flushing n hflush).2 change hstaged
          omega
        · rw [hpending] at hwaiting
          cases hwaiting
      · exact Or.inl hlanded
      · simp [World.isWithdrawn, hover] at hwithdrawn
      · exact Or.inr hreplaced

/-- **One step** keeps the account. -/
theorem Accounted.step (h : Accounted w) (hkept : Kept cfg w) (hcarried : Carried w)
    (hstep : Moves cfg w w') : Accounted w' := by
  have honward := onward_step hstep
  have hrest {change} := @settled_onward w w' change honward
  have hflushed {change} := @flushed_onward w w' change honward
  -- Where the unit holds what it held.
  have hsame (hholds : ∀ change, w.unit.Holds change → w'.unit.Holds change)
      (hall : w'.all = w.all) (hto : w'.flushed = w.flushed) (hflush : w'.flushing = w.flushing)
      (hstaged : w'.unit.staged = w.unit.staged) : Accounted w' := by
    refine ⟨?_, ?_, ?_, ?_⟩
    · rw [hflush, hall, hstaged]
      exact h.flushing
    · rw [hto, hall]
      exact h.flushedLe
    · intro change hmem
      exact (h.settled change (hall ▸ hmem)).imp (hholds change) hrest
    · intro change hmem hlt
      exact hflushed (h.flushed change (hall ▸ hmem) (hto ▸ hlt))
  cases hstep with
  | stage _ hruns => exact h.stage hkept hruns
  | flush =>
    refine ⟨?_, h.flushedLe, ?_, ?_⟩
    · intro n hn
      cases hn
      exact ⟨le_refl _, fun change hmem => absurd hmem List.not_mem_nil⟩
    · exact fun change hmem =>
        (h.settled change hmem).imp UnitState.holds_startFlush hrest
    · exact fun change hmem hlt => hflushed (h.flushed change hmem hlt)
  | next | storing | gone | stored | readHead | withdraws | checks | prepares | found | lands
  | retries | takeOver | takerCommits | otherCommits | dropped
  | recovered => exact hsame (fun _ h => h) rfl rfl rfl rfl
  | done hflush hpending => exact h.done hflush hpending
  | @read group progress progress' readable u hat hread =>
    obtain ⟨hu, _⟩ := storeRead_unit hread
    have hholds : ∀ change, w.unit.Holds change → u.Holds change := by
      intro change hholds
      rw [hu]
      exact hholds
    have hstaged : u.staged = w.unit.staged := by rw [hu]
    exact hsame hholds rfl rfl rfl hstaged
  | @skipped group hat =>
    have hgroup := (hkept.current _ _ hat).1
    obtain ⟨hcovers, _⟩ := hcarried.phase _ _ hat
    refine ⟨h.flushing, h.flushedLe, ?_, h.flushed⟩
    apply h.leaves hkept hgroup
    intro change hmem
    rcases hcovers change hmem with hleft | hop | hexcused
    · cases hleft
    · cases hop
    · exact Or.inr hexcused
  | fails =>
    exact ⟨fun _ hn => by simp [World.fails] at hn, h.flushedLe,
      fun change hmem => (h.settled change hmem).imp_right hrest,
      fun change hmem hlt => hflushed (h.flushed change hmem hlt)⟩
  | @settles group hat =>
    have hgroup := (hkept.current _ _ hat).1
    obtain ⟨commit, hcommit, htxn⟩ := hcarried.phase _ _ hat
    have hcarries := ((hcarried.commits _ commit hcommit _ htxn).carries group hgroup rfl).2
    refine ⟨h.flushing, h.flushedLe, ?_, h.flushed⟩
    apply h.leaves hkept hgroup
    intro change hmem
    refine (hcarries.covers change hmem).imp_left (fun hop => ⟨commit, ?_, hop⟩)
    rw [hkept.tidy group hgroup change hmem]
    exact hcommit
  | @discards group locked hat =>
    have hgroup := (hkept.current _ _ hat).1
    refine ⟨h.flushing, h.flushedLe, ?_, h.flushed⟩
    exact h.leaves hkept hgroup (fun change hmem => Or.inr (hcarried.phase _ _ hat change hmem))

/-- A change that takes the place of one that does takes the place of both. -/
theorem supersedes_trans {last : Change} (hlast : Supersedes last other)
    (hother : Supersedes other change) : Supersedes last change := by
  obtain ⟨slot, hsuper, hstream⟩ := hlast
  obtain ⟨slot', hsuper', hstream'⟩ := hother
  have hsame : supersedingSlot other = some slot := by
    unfold streamPutSlot at hstream
    unfold supersedingSlot
    split at hstream
    case h_1 op _ hop =>
      rw [hop]
      exact hstream
    case h_2 => cases hstream
  rw [hsame] at hsuper'
  cases hsuper'
  exact ⟨slot, hsuper, hstream'⟩

theorem Accounted.last (h : Accounted w) (hkept : Kept cfg w) (hreplaced : Replaced w change) :
    ∃ later ∈ w.all, change.id < later.id ∧ Supersedes later change ∧
      (HasLanded w later ∨ w.unit.Holds later ∨ w.isWithdrawn later = true) := by
  obtain ⟨later, hmem, hlt, hsupersedes⟩ := hreplaced
  -- On how many changes were staged after it.
  induction hn : w.all.length - later.id using Nat.strong_induction_on generalizing later with
  | _ n ih =>
    rcases h.settled later hmem with hholds | hlanded | hwithdrawn | hagain
    · exact ⟨later, hmem, hlt, hsupersedes, Or.inr (Or.inl hholds)⟩
    · exact ⟨later, hmem, hlt, hsupersedes, Or.inl hlanded⟩
    · exact ⟨later, hmem, hlt, hsupersedes, Or.inr (Or.inr hwithdrawn)⟩
    · obtain ⟨last, hlast, hlater, hsuper⟩ := hagain
      have hbound := hkept.id_lt hlast
      exact ih _ (by omega) last hlast (by omega) (supersedes_trans hsuper hsupersedes) rfl

/-- What every run keeps. -/
structure Inv (cfg : Settings) (w : World) : Prop where
  kept : Kept cfg w
  carried : Carried w
  fenced : Fenced cfg w
  ended : Ended w
  accounted : Accounted w

theorem initial_inv (cfg : Settings) : Inv cfg World.initial where
  kept :=
    { ids := fun _ _ hget => by simp [World.initial] at hget
      runs := fun _ hmem => absurd hmem List.not_mem_nil
      held := by simp [World.initial, UnitState.empty, UnitState.Holds]
      tidy := fun _ hmem => absurd hmem List.not_mem_nil
      nodup := List.nodup_nil
      bound := fun _ hmem => absurd hmem List.not_mem_nil
      marks := fun _ hmem => absurd hmem List.not_mem_nil
      current := fun _ _ hat => by simp [World.initial] at hat }
  carried :=
    { phase := fun _ _ hat => by simp [World.initial] at hat
      entries := fun _ hmem => absurd hmem List.not_mem_nil
      commits := fun _ _ hmem => absurd hmem List.not_mem_nil }
  fenced :=
    { taken := fun _ hn => by simp [World.initial] at hn
      heads := fun _ _ hat => by simp [World.initial] at hat
      entries := fun _ hmem => absurd hmem List.not_mem_nil
      late := fun _ hn => by simp [World.initial] at hn }
  ended :=
    { waiting := fun _ _ hmem => absurd hmem List.not_mem_nil
      bound := fun _ hmem => absurd hmem List.not_mem_nil
      left := fun _ hmem => absurd hmem List.not_mem_nil
      entries := fun _ hmem => absurd hmem List.not_mem_nil
      commits := fun _ hmem => absurd hmem List.not_mem_nil }
  accounted :=
    { flushing := fun _ hn => by simp [World.initial] at hn
      flushedLe := le_refl _
      settled := fun _ hmem => absurd hmem List.not_mem_nil
      flushed := fun _ hmem => absurd hmem List.not_mem_nil }

theorem Inv.step (h : Inv cfg w) (hstep : Moves cfg w w') : Inv cfg w' where
  kept := h.kept.step hstep
  carried := h.carried.step h.kept hstep
  fenced := h.fenced.step h.kept h.carried hstep
  ended := h.ended.step h.kept h.carried h.fenced hstep
  accounted := h.accounted.step h.kept h.carried hstep

/-- **Every run** keeps it. -/
theorem steps_inv {labels : List Label} (h : Inv cfg w) (hrun : w.steps cfg labels = some w') :
    Inv cfg w' := by
  induction labels generalizing w with
  | nil =>
    cases hrun
    exact h
  | cons label labels ih =>
    obtain ⟨next, hnext, hrest⟩ := Option.bind_eq_some_iff.mp hrun
    exact ih (h.step (step_moves hnext)) hrest

end

/-- **A takeover fences the executor off.**  In every run: no save that is withdrawn
is in a commit after the other writer's; a change that a flush that succeeded before
the takeover was to land has landed, or a change staged later takes its place, and
that one has landed, is held, or is withdrawn; and a group that ended with every
change withdrawn is in no commit and has no entry, as no entry with a withdrawn save
is one that a recovery lands once the other writer has committed. -/
theorem takeover_fence (cfg : Settings) (labels : List Label) {w : World}
    (hrun : World.initial.steps cfg labels = some w) :
    (∀ n, w.taken = some n → ∀ (i : ℕ) (commit : Landed), n ≤ i →
      (w.log cfg.run)[i]? = some commit → ∀ op ∈ commit.ops, w.isWithdrawn op = false) ∧
    (∀ change ∈ w.all, change.id < w.flushed → HasLanded w change ∨
      ∃ later ∈ w.all, change.id < later.id ∧ Supersedes later change ∧
        (HasLanded w later ∨ w.unit.Holds later ∨ w.isWithdrawn later = true)) ∧
    (∀ group ∈ w.withdrawn,
      (∀ entry ∈ w.outbox, entry.txnId ≠ group.txnId) ∧
        ((∀ change ∈ group.changes, w.isWithdrawn change = true) →
          ∀ (partition : PartitionKey), ∀ commit ∈ w.log partition,
            commit.txnId ≠ some group.txnId)) ∧
    ∀ entry ∈ w.outbox, (∃ op ∈ entry.ops, w.isWithdrawn op = true) → w.taken.isSome = true →
      (w.log entry.partition).length ≠ entry.base := by
  have hinv := steps_inv (initial_inv cfg) hrun
  refine ⟨?_, ?_, ?_, ?_⟩
  · intro n hn i commit hle hget op hop
    simp [World.isWithdrawn, hinv.fenced.late n hn i commit hle hget op hop]
  · intro change hmem hlt
    exact (hinv.accounted.flushed change hmem hlt).imp_right (hinv.accounted.last hinv.kept)
  · intro group hgroup
    refine ⟨hinv.ended.entries group hgroup, fun hall partition commit hcommit htxn => ?_⟩
    obtain ⟨hsome, hops⟩ := hinv.ended.commits group hgroup partition commit hcommit htxn
    obtain ⟨op, hop⟩ := List.exists_mem_of_ne_nil _ hsome
    have hwithdrawn := hall op (hops op hop).1
    simp [World.isWithdrawn, (hops op hop).2] at hwithdrawn
  · intro entry hentry hasks hsome
    obtain ⟨op, hop, hwithdrawn⟩ := hasks
    have hask : asks op = true := (Bool.and_eq_true _ _ ▸ hwithdrawn).1
    obtain ⟨n, hn⟩ := Option.isSome_iff_exists.mp hsome
    have hlt := (hinv.fenced.entries entry hentry).lt ⟨op, hop, hask⟩ n hn
    have hle := (hinv.fenced.taken n hn).1
    obtain ⟨hstaged, hof⟩ := (hinv.carried.entries entry hentry).staged op hop
    rw [← hinv.kept.runs op hstaged hask, hof] at hle
    omega

/-- The run of the small run below. -/
def sampleRunPartition : PartitionKey where
  value := js "run--w--r"
  identity := .run (js "w") (js "r")
  formatted := by decide
  short := by decide

/-- The file of the run. -/
def sampleRunFile : RecordKey := ⟨js "workflow-runs/w/r.yaml", by decide⟩

/-- A digest of the content. -/
def saveDigest : Sha256 := .zeros

/-- A save of the run, as a stream. -/
def sampleSave : Change where
  id := 0
  partition := sampleRunPartition
  op := .put ⟨.run .runUpdate ⟨js "w", js "r"⟩, sampleRunFile, .inline (js "") saveDigest, none,
    none⟩
  source := .stream
  fenced := true

/-- The run is taken over in another process. -/
def sampleSettings : Settings := ⟨sampleRunPartition, 2, false⟩

/-- The second save is staged while the first one's group is appended, and marks it
to be skipped; the flush succeeds, and the takeover withdraws the second. -/
def skippedRun : List Label :=
  [.stage [sampleSave], .flush, .next, .stage [sampleSave], .storeNext, .commitChunks, .done,
    .takeOver, .flush, .next, .storeNext, .commitChunks, .discard, .takerCommits]

/-- Both saves were staged, the first of them before a flush that succeeded; the log
has the other writer's commit. -/
theorem skippedRun_ends :
    (World.initial.steps sampleSettings skippedRun).map
        (fun w => (w.all, w.flushed, w.log sampleRunPartition)) =
      some ([sampleSave, { sampleSave with id := 1 }], 1, [⟨none, []⟩]) := by
  decide +kernel

/-- The first save was flushed before the takeover, and neither it nor a save that
took its place has landed. -/
theorem flushed_save_lost : ∃ cfg labels w, World.initial.steps cfg labels = some w ∧
    ∃ change ∈ w.all, change.id < w.flushed ∧ ¬ HasLanded w change ∧
      ¬ ∃ later ∈ w.all, change.id < later.id ∧ Supersedes later change ∧ HasLanded w later := by
  obtain ⟨w, hw, hends⟩ := Option.map_eq_some_iff.mp skippedRun_ends
  simp only [Prod.mk.injEq] at hends
  obtain ⟨hall, hflushed, hlog⟩ := hends
  -- Nothing staged is in the one commit of the log.
  have hnone : ∀ change ∈ w.all, ¬ HasLanded w change := by
    intro change hmem hlanded
    obtain ⟨commit, hcommit, hop⟩ := hlanded
    have hof : change.partition = sampleRunPartition := by
      rw [hall] at hmem
      rcases List.mem_cons.mp hmem with rfl | hmem
      · rfl
      · rw [List.mem_singleton.mp hmem]
        rfl
    rw [hof, hlog] at hcommit
    rw [List.mem_singleton.mp hcommit] at hop
    cases hop
  have hmem : sampleSave ∈ w.all := by
    rw [hall]
    exact List.mem_cons_self
  refine ⟨sampleSettings, skippedRun, w, hw, sampleSave, hmem, ?_, hnone _ hmem, ?_⟩
  · rw [hflushed]
    exact Nat.zero_lt_one
  · intro hlater
    obtain ⟨later, hstaged, _, _, hlanded⟩ := hlater
    exact hnone later hstaged hlanded

/-- The fence holds of that run. -/
theorem takeover_fence_skippedRun : ∃ w, World.initial.steps sampleSettings skippedRun = some w ∧
    ∀ change ∈ w.all, change.id < w.flushed → HasLanded w change ∨
      ∃ later ∈ w.all, change.id < later.id ∧ Supersedes later change ∧
        (HasLanded w later ∨ w.unit.Holds later ∨ w.isWithdrawn later = true) := by
  obtain ⟨w, hw, _⟩ := Option.map_eq_some_iff.mp skippedRun_ends
  exact ⟨w, hw, (takeover_fence sampleSettings skippedRun hw).2.1⟩

end TakeoverFence

end Swamp
