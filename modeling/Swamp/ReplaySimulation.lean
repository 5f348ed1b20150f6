import Swamp.PlannerDecisions

/-!
# A plain and a net replay, side by side

The planner runs the decisions the replays take, so for an isolated key it knows
at each write whether the key ends with it.  Replaying with and without the
plan's rules, the decisions are the same throughout, and the disks differ only
at the paths of isolated keys: there the net replay has nothing until the put
the key ends with.
-/

namespace Swamp

open Js MapOverlay

section Simulation

variable {text : UnicodeText} (fs : FoldingFilesystem text) (start : Disk) (final : PlannedKeys)
  (isolated : JsString → RecordKey → Prop)

/-- The keys the planner ends up knowing. -/
def PlannedKeys.Knows (planned : PlannedKeys) (ns : JsString) (key : RecordKey) : Prop :=
  key ∈ planned.keysOf ns

/-- What the rules of a plan say, up to its bound. -/
structure RulesFor (rules : SkipRules) (bound : ℕ) : Prop where
  isolation : Isolated fs start final.Knows isolated
  write : ∀ {ns key position}, isolated ns key →
    position ∈ final.writesOf (idOf ns key.value) → position ≤ bound →
    (rules.skipsWrite ns key.value position = true ↔
      final.finalMark (idOf ns key.value) ≠ some position)
  past : ∀ {ns key position}, bound < position → rules.skipsWrite ns key position = false
  removal : ∀ {ns key position}, isolated ns key → position ≤ bound →
    rules.skipsRemoval ns key.value position = true
  others : ∀ {ns key}, final.Knows ns key → ¬ isolated ns key → ∀ position,
    rules.skipsWrite ns key.value position = false ∧
      rules.skipsRemoval ns key.value position = false

/-- The plain replay at `st`, the net replay at `st'`, the planner at `planned`:
the same ownerships, the planner's own for isolated keys, and the same files
but for isolated ones, which the net replay has only when they are final. -/
structure Sim (planned : PlannedKeys) (st st' : ReplayState) : Prop where
  ownership : st'.ownership = st.ownership
  accounted : Accounted fs start final.Knows st.disk
  accounted' : Accounted fs start final.Knows st'.disk
  agree : AgreeElsewhere fs isolated st.disk st'.disk
  own : ∀ {ns key}, isolated ns key →
    st.ownership.lookup (idOf ns key.value) = planned.ownership.lookup (idOf ns key.value)
  absent : ∀ {ns key}, isolated ns key → planned.finalMark (idOf ns key.value) = none →
    st.disk.lookup (ns, fs.path key.value) = none
  net : ∀ {ns key}, isolated ns key →
    st'.disk.lookup (ns, fs.path key.value) =
      if planned.finalMark (idOf ns key.value) = final.finalMark (idOf ns key.value) then
        st.disk.lookup (ns, fs.path key.value)
      else none

variable {fs start final isolated}

variable {planned : PlannedKeys} {id : JsString}

theorem PlannedKeys.finalMark_congr {planned' : PlannedKeys}
    (h : planned'.ownership.lookup id = planned.ownership.lookup id) :
    planned'.finalMark id = planned.finalMark id := by
  unfold PlannedKeys.finalMark
  rw [h]

variable {key : RecordKey}

theorem Accounted.set {known : JsString → RecordKey → Prop} {disk disk' : Disk} {ns : JsString}
    (h : Accounted fs start known disk) (hkey : known ns key)
    (hframe : ∀ file ≠ (ns, fs.path key.value), disk'.lookup file = disk.lookup file) :
    Accounted fs start known disk' := by
  intro file hfile
  by_cases hsame : file = (ns, fs.path key.value)
  · subst hsame
    exact Or.inr ⟨key, hkey, rfl⟩
  · apply h file
    rw [Finmap.mem_keys, Finmap.mem_iff] at hfile ⊢
    rwa [hframe file hsame] at hfile

variable {st st' : ReplayState}

/-- **One key's step.**  It changes the ownership of its key alone and the file
at its path alone; what is asked of it there depends on whether the key is
isolated. -/
theorem Sim.set {planned' : PlannedKeys} {next next' : ReplayState}
    (h : Sim fs start final isolated planned st st')
    (hisolation : Isolated fs start final.Knows isolated) {ns : JsString}
    (hkey : final.Knows ns key) (howner : next'.ownership = next.ownership)
    (hother : ∀ id ≠ idOf ns key.value,
      next.ownership.lookup id = st.ownership.lookup id ∧
        planned'.ownership.lookup id = planned.ownership.lookup id)
    (hframe : ∀ file ≠ (ns, fs.path key.value), next.disk.lookup file = st.disk.lookup file)
    (hframe' : ∀ file ≠ (ns, fs.path key.value), next'.disk.lookup file = st'.disk.lookup file)
    (hisolated : isolated ns key →
      next.ownership.lookup (idOf ns key.value) = planned'.ownership.lookup (idOf ns key.value) ∧
      (planned'.finalMark (idOf ns key.value) = none →
        next.disk.lookup (ns, fs.path key.value) = none) ∧
      next'.disk.lookup (ns, fs.path key.value) =
        if planned'.finalMark (idOf ns key.value) = final.finalMark (idOf ns key.value) then
          next.disk.lookup (ns, fs.path key.value)
        else none) (hshared : ¬ isolated ns key →
      next'.disk.lookup (ns, fs.path key.value) = next.disk.lookup (ns, fs.path key.value)) :
    Sim fs start final isolated planned' next next' := by
  have hid : ∀ ns' key', (ns' = ns ∧ key' = key) ∨ idOf ns' key'.value ≠ idOf ns key.value := by
    intro ns' key'
    by_cases hsame : idOf ns' key'.value = idOf ns key.value
    · exact Or.inl (idOf_inj.mp hsame)
    · exact Or.inr hsame
  have hpath : ∀ {ns' key'}, isolated ns' key' → idOf ns' key'.value ≠ idOf ns key.value →
      (ns', fs.path key'.value) ≠ (ns, fs.path key.value) := by
    intro ns' key' hisolated' hne heq
    obtain ⟨rfl, hpaths⟩ := Prod.mk.inj heq
    obtain rfl := hisolation.path_inj hisolated' hkey hpaths.symm
    exact hne rfl
  refine ⟨howner, h.accounted.set hkey hframe, h.accounted'.set hkey hframe', ?_, ?_, ?_, ?_⟩
  · intro ns' path hpaths
    by_cases hsame : (ns', path) = (ns, fs.path key.value)
    · obtain ⟨rfl, rfl⟩ := Prod.mk.inj hsame
      exact hshared (fun hisolated' => hpaths key hisolated' rfl)
    · rw [hframe _ hsame, hframe' _ hsame]
      exact h.agree ns' path hpaths
  · intro ns' key' hisolated'
    rcases hid ns' key' with ⟨rfl, rfl⟩ | hne
    · exact (hisolated hisolated').1
    · rw [(hother _ hne).1, (hother _ hne).2]
      exact h.own hisolated'
  · intro ns' key' hisolated' hmark
    rcases hid ns' key' with ⟨rfl, rfl⟩ | hne
    · exact (hisolated hisolated').2.1 hmark
    · rw [hframe _ (hpath hisolated' hne)]
      apply h.absent hisolated'
      rw [← hmark]
      exact (PlannedKeys.finalMark_congr (hother _ hne).2).symm
  · intro ns' key' hisolated'
    rcases hid ns' key' with ⟨rfl, rfl⟩ | hne
    · exact (hisolated hisolated').2.2
    · rw [hframe _ (hpath hisolated' hne), hframe' _ (hpath hisolated' hne),
        PlannedKeys.finalMark_congr (hother _ hne).2]
      exact h.net hisolated'

/-- Where the net replay has no file of an isolated key: when the mark it shows
is not the final one. -/
theorem Sim.net_absent (h : Sim fs start final isolated planned st st') {ns : JsString}
    (hkey : isolated ns key) (hmark : ∀ mark, planned.finalMark (idOf ns key.value) = some mark →
      final.finalMark (idOf ns key.value) ≠ some mark) :
    st'.disk.lookup (ns, fs.path key.value) = none := by
  rw [h.net hkey]
  cases hshown : planned.finalMark (idOf ns key.value) with
  | none =>
    rw [h.absent hkey hshown]
    split
    · rfl
    · rfl
  | some mark => rw [if_neg (fun heq => hmark mark hshown heq.symm)]

theorem Sim.conflict {rules : SkipRules} {bound : ℕ}
    (h : Sim fs start final isolated planned st st')
    (hrules : RulesFor fs start final isolated rules bound) {ns : JsString}
    (hkey : final.Knows ns key) :
    st'.disk.conflict fs ns key.value = st.disk.conflict fs ns key.value := by
  by_cases hisolated : isolated ns key
  · rw [conflict_isolated hrules.isolation h.accounted hisolated,
      conflict_isolated hrules.isolation h.accounted' hisolated]
  · exact conflict_congr hrules.isolation h.agree hkey hisolated

theorem Sim.file {rules : SkipRules} {bound : ℕ} (h : Sim fs start final isolated planned st st')
    (hrules : RulesFor fs start final isolated rules bound) {ns : JsString}
    (hkey : final.Knows ns key) (hisolated : ¬ isolated ns key) :
    st'.disk.lookup (ns, fs.path key.value) = st.disk.lookup (ns, fs.path key.value) := by
  apply h.agree ns _
  intro other hother hpath
  have hsame := hrules.isolation.path_inj hother hkey hpath
  exact hisolated (hsame ▸ hother)

variable {ignored : JsString → JsString → Bool}

section Step

variable {rules : SkipRules} {bound : ℕ} {ns partition : JsString} {position : ℕ}
  {change : KeyChange}

theorem replayChange_frame (rules : SkipRules) (st : ReplayState)
    (file : JsString × List JsString) (hfile : file ≠ (ns, fs.path change.key.value)) :
    (replayChange fs rules ns partition position st change).disk.lookup file =
      st.disk.lookup file := by
  simp only [replayChange]
  split
  · rfl
  · split
    · split
      · rfl
      · exact Finmap.lookup_insert_of_ne _ hfile
    · split
      · rfl
      · exact Finmap.lookup_erase_ne hfile
    · rfl

theorem setNext_lookup_of_ne {ownership : Finmap (fun _ : JsString => FileOwnership)}
    {other : JsString} (hne : other ≠ id) (next : Option FileOwnership) :
    (setNext ownership id next).lookup other = ownership.lookup other := by
  cases next with
  | none => rfl
  | some own => exact Finmap.lookup_insert_of_ne _ hne

theorem replayChange_ownership_frame (rules : SkipRules) (st : ReplayState) (id : JsString)
    (hid : id ≠ idOf ns change.key.value) :
    (replayChange fs rules ns partition position st change).ownership.lookup id =
      st.ownership.lookup id := by
  simp only [replayChange]
  split
  · rfl
  · split
    · exact Finmap.lookup_insert_of_ne _ hid
    · exact setNext_lookup_of_ne hid _
    · rfl

/-- The rules do not bear on ownership. -/
theorem replayChange_ownership_congr {rules' : SkipRules} (hown : st'.ownership = st.ownership)
    (hconflict : st'.disk.conflict fs ns change.key.value = st.disk.conflict fs ns change.key.value)
    :
    (replayChange fs rules' ns partition position st' change).ownership =
      (replayChange fs rules ns partition position st change).ownership := by
  simp only [replayChange]
  rw [hown, hconflict]
  split
  · exact hown
  · split
    · rfl
    · rfl
    · exact hown

theorem replayChange_file_congr (hown : st'.ownership = st.ownership)
    (hconflict : st'.disk.conflict fs ns change.key.value = st.disk.conflict fs ns change.key.value)
    (hfile : st'.disk.lookup (ns, fs.path change.key.value) =
      st.disk.lookup (ns, fs.path change.key.value))
    (hwrite : rules.skipsWrite ns change.key.value position = false)
    (hremoval : rules.skipsRemoval ns change.key.value position = false) :
    (replayChange fs rules ns partition position st' change).disk.lookup
        (ns, fs.path change.key.value) =
      (replayChange fs SkipRules.none ns partition position st change).disk.lookup
        (ns, fs.path change.key.value) := by
  simp only [replayChange]
  rw [hown, hconflict]
  split
  · exact hfile
  · split
    · simp [hwrite, SkipRules.none]
    · simp [hremoval, SkipRules.none]
    · exact hfile

variable {own : Option FileOwnership}

/-- The put of a change that writes. -/
theorem put_of_write {next : FileOwnership}
    (h : decideFile own partition position change.put.isSome = .write next) :
    (∃ put, change.put = some put) ∧ next = ⟨partition, position, true⟩ ∧
      ∀ o, own = some o → o.mark < position := by
  unfold decideFile at h
  cases hput : change.put with
  | none =>
    rw [hput] at h
    grind
  | some put =>
    rw [hput] at h
    refine ⟨⟨put, rfl⟩, ?_⟩
    grind

/-- What a removal was decided on, and leaves. -/
theorem own_of_remove {next : Option FileOwnership} {isPut : Bool}
    (h : decideFile own partition position isPut = .remove next) :
    (own = none ∧ next = none) ∨
      ∃ o, own = some o ∧ o.present = true ∧ next = some { o with present := false } := by
  unfold decideFile at h
  grind

theorem PlannedKeys.finalMark_of_lookup (h : planned.ownership.lookup id = own) :
    planned.finalMark id = own.bind (fun o => if o.present then some o.mark else none) := by
  unfold PlannedKeys.finalMark
  rw [h]
  cases own with
  | none | some o => rfl

theorem PlannedKeys.own_of_finalMark {mark : ℕ} (h : planned.finalMark id = some mark) :
    ∃ own, planned.ownership.lookup id = some own ∧ own.mark = mark := by
  unfold PlannedKeys.finalMark at h
  cases hown : planned.ownership.lookup id with
  | none =>
    rw [hown] at h
    cases h
  | some own =>
    rw [hown] at h
    simp only at h
    split at h
    · exact ⟨own, rfl, Option.some.inj h⟩
    · cases h

/-- **A change of an isolated key.**  Both replays take the planner's decision;
the net replay has the file afterwards only if it is final. -/
theorem Sim.isolated_change (h : Sim fs start final isolated planned st st')
    (hrules : RulesFor fs start final isolated rules bound)
    (hignored : ignored ns change.key.value = false) (hbound : position ≤ bound)
    (hleads : (planned.addChange ignored ns partition position change).Leads final)
    (hisolated : isolated ns change.key) :
    (Swamp.replayChange fs SkipRules.none ns partition position st change).ownership.lookup
        (idOf ns change.key.value) =
      (planned.addChange ignored ns partition position change).ownership.lookup
        (idOf ns change.key.value) ∧
    ((planned.addChange ignored ns partition position change).finalMark
        (idOf ns change.key.value) = none →
      (Swamp.replayChange fs SkipRules.none ns partition position st change).disk.lookup
        (ns, fs.path change.key.value) = none) ∧
    (Swamp.replayChange fs rules ns partition position st' change).disk.lookup
        (ns, fs.path change.key.value) =
      if (planned.addChange ignored ns partition position change).finalMark
          (idOf ns change.key.value) = final.finalMark (idOf ns change.key.value) then
        (Swamp.replayChange fs SkipRules.none ns partition position st change).disk.lookup
          (ns, fs.path change.key.value)
      else none := by
  have hfree := conflict_isolated hrules.isolation h.accounted hisolated
  have hfree' := conflict_isolated hrules.isolation h.accounted' hisolated
  have hown := h.own hisolated
  have hplanned : (planned.addChange ignored ns partition position change).ownership.lookup
      (idOf ns change.key.value) =
      follow (planned.ownership.lookup (idOf ns change.key.value))
        (PlannedKeys.fileChange partition position change) := by
    rw [PlannedKeys.addChange_ownership hignored, if_pos rfl]
  cases hdecide : decideFile (planned.ownership.lookup (idOf ns change.key.value)) partition
      position change.put.isSome with
  | keep =>
    have hfollow : follow (planned.ownership.lookup (idOf ns change.key.value))
        (PlannedKeys.fileChange partition position change) =
        planned.ownership.lookup (idOf ns change.key.value) := by
      simp only [follow, PlannedKeys.fileChange, hdecide]
    rw [hfollow] at hplanned
    have hsame := PlannedKeys.finalMark_congr hplanned
    simp only [Swamp.replayChange, hfree, hfree', blocked, h.ownership, hown, hdecide, hsame,
      Bool.false_eq_true, if_false]
    exact ⟨hplanned.symm, h.absent hisolated, h.net hisolated⟩
  | write next =>
    obtain ⟨⟨put, hput⟩, rfl, hbefore⟩ := put_of_write hdecide
    have hfollow : follow (planned.ownership.lookup (idOf ns change.key.value))
        (PlannedKeys.fileChange partition position change) =
        some ⟨partition, position, true⟩ := by
      simp only [follow, PlannedKeys.fileChange, hdecide]
    rw [hfollow] at hplanned
    have hmark := PlannedKeys.finalMark_of_lookup hplanned
    simp only [Option.bind_some, if_true] at hmark
    have hwritten : position ∈ final.writesOf (idOf ns change.key.value) :=
      hleads.writes _ _ (PlannedKeys.write_mem_addChange hignored hdecide)
    have hskips := hrules.write hisolated hwritten hbound
    rw [hput] at hdecide
    simp only [Swamp.replayChange, hfree, hfree', blocked, h.ownership, hown, hput, hdecide,
      Bool.false_eq_true, if_false, hmark, hplanned]
    refine ⟨Finmap.lookup_insert _, (fun hnone => by cases hnone), ?_⟩
    by_cases hfinal : final.finalMark (idOf ns change.key.value) = some position
    · have hkept : rules.skipsWrite ns change.key.value position = false := by
        rw [Bool.eq_false_iff, Ne, hskips]
        exact fun hne => hne hfinal
      simp [hkept, hfinal, SkipRules.none]
    · have hskipped : rules.skipsWrite ns change.key.value position = true := hskips.mpr hfinal
      rw [hskipped, if_pos rfl, if_neg (fun heq => hfinal heq.symm)]
      apply h.net_absent hisolated
      intro mark hshown
      obtain ⟨own, howned, hmarked⟩ := PlannedKeys.own_of_finalMark hshown
      have hlt : mark < position := hmarked ▸ hbefore own howned
      exact hleads.finalMark_ne hplanned (Or.inl hlt)
  | remove next =>
    have hfollow : follow (planned.ownership.lookup (idOf ns change.key.value))
        (PlannedKeys.fileChange partition position change) = next := by
      simp only [follow, PlannedKeys.fileChange, hdecide]
    rw [hfollow] at hplanned
    have hmark := PlannedKeys.finalMark_of_lookup hplanned
    have hskipped := hrules.removal hisolated hbound
    -- The net replay leaves the removal out: there is no file to remove.
    have hnothing : st'.disk.lookup (ns, fs.path change.key.value) = none := by
      apply h.net_absent hisolated
      intro mark hshown
      obtain ⟨own, howned, hmarked⟩ := PlannedKeys.own_of_finalMark hshown
      rcases own_of_remove hdecide with ⟨hnone, -⟩ | ⟨o, ho, -, rfl⟩
      · rw [hnone] at howned
        cases howned
      · rw [ho] at howned
        obtain rfl := Option.some.inj howned
        exact hleads.finalMark_ne hplanned (Or.inr ⟨hmarked.symm, rfl⟩)
    have howner : (setNext st.ownership (idOf ns change.key.value) next).lookup
        (idOf ns change.key.value) = next := by
      rcases own_of_remove hdecide with ⟨hnone, rfl⟩ | ⟨o, -, -, rfl⟩
      · exact hown.trans hnone
      · exact Finmap.lookup_insert _
    simp only [Swamp.replayChange, hfree, hfree', blocked, h.ownership, hown, hdecide,
      Bool.false_eq_true, if_false, hskipped, if_true, SkipRules.none, hplanned, howner,
      Finmap.lookup_erase, hnothing]
    simp

/-- **One change, in both replays.** -/
theorem Sim.replayChange (h : Sim fs start final isolated planned st st')
    (hrules : RulesFor fs start final isolated rules bound)
    (hignored : ignored ns change.key.value = false) (hbound : position ≤ bound)
    (hleads : (planned.addChange ignored ns partition position change).Leads final) :
    Sim fs start final isolated (planned.addChange ignored ns partition position change)
      (Swamp.replayChange fs SkipRules.none ns partition position st change)
      (Swamp.replayChange fs rules ns partition position st' change) := by
  have hkey : final.Knows ns change.key :=
    hleads.keys ns change.key (PlannedKeys.key_mem_addChange hignored)
  have hconflict := h.conflict hrules hkey
  refine h.set hrules.isolation hkey (replayChange_ownership_congr h.ownership hconflict) ?_
    (replayChange_frame _ _) (replayChange_frame _ _)
    (h.isolated_change hrules hignored hbound hleads) ?_
  · intro id hid
    refine ⟨replayChange_ownership_frame _ _ id hid, ?_⟩
    rw [PlannedKeys.addChange_ownership hignored, if_neg hid]
  · intro hisolated
    have hothers := hrules.others hkey hisolated position
    exact replayChange_file_congr h.ownership hconflict (h.file hrules hkey hisolated) hothers.1
      hothers.2

/-- The changes of one commit, in both replays. -/
theorem Sim.replayChanges (changes : List KeyChange)
    (hignored : ∀ change ∈ changes, ignored ns change.key.value = false)
    (hrules : RulesFor fs start final isolated rules bound) (hbound : position ≤ bound)
    (h : Sim fs start final isolated planned st st')
    (hleads : (changes.foldl (PlannedKeys.addChange ignored ns partition position) planned).Leads
      final) :
    Sim fs start final isolated
      (changes.foldl (PlannedKeys.addChange ignored ns partition position) planned)
      (changes.foldl (Swamp.replayChange fs SkipRules.none ns partition position) st)
      (changes.foldl (Swamp.replayChange fs rules ns partition position) st') := by
  induction changes generalizing planned st st' with
  | nil => exact h
  | cons change changes ih =>
    have hrest : ∀ c ∈ changes, ignored ns c.key.value = false :=
      fun c hc => hignored c (List.mem_cons_of_mem _ hc)
    refine ih hrest (h.replayChange hrules (hignored change List.mem_cons_self) hbound ?_) hleads
    exact PlannedKeys.Leads.trans (PlannedKeys.leads_changes changes hrest _) hleads

end Step

section Seeds

variable {rules : SkipRules} {bound : ℕ} {s : Seed}

theorem loadSeed_frame (rules : SkipRules) (st : ReplayState) (file : JsString × List JsString)
    (hfile : file ≠ (s.ns, fs.path s.key.value)) :
    (loadSeed fs rules st s).disk.lookup file = st.disk.lookup file := by
  simp only [loadSeed]
  split
  · split
    · rfl
    · split
      · rfl
      · exact Finmap.lookup_insert_of_ne _ hfile
  · rfl

theorem loadSeed_ownership_frame (rules : SkipRules) (st : ReplayState) (id : JsString)
    (hid : id ≠ idOf s.ns s.key.value) :
    (loadSeed fs rules st s).ownership.lookup id = st.ownership.lookup id := by
  simp only [loadSeed]
  split
  · split
    · rfl
    · exact Finmap.lookup_insert_of_ne _ hid
  · exact Finmap.lookup_insert_of_ne _ hid

theorem loadSeed_ownership_congr {rules' : SkipRules} (hown : st'.ownership = st.ownership)
    (hconflict : st'.disk.conflict fs s.ns s.key.value = st.disk.conflict fs s.ns s.key.value) :
    (loadSeed fs rules' st' s).ownership = (loadSeed fs rules st s).ownership := by
  simp only [loadSeed]
  rw [hown, hconflict]
  split
  · split
    · exact hown
    · rfl
  · rfl

theorem loadSeed_file_congr
    (hconflict : st'.disk.conflict fs s.ns s.key.value = st.disk.conflict fs s.ns s.key.value)
    (hfile : st'.disk.lookup (s.ns, fs.path s.key.value) =
      st.disk.lookup (s.ns, fs.path s.key.value))
    (hwrite : rules.skipsWrite s.ns s.key.value s.ownership.mark = false) :
    (loadSeed fs rules st' s).disk.lookup (s.ns, fs.path s.key.value) =
      (loadSeed fs SkipRules.none st s).disk.lookup (s.ns, fs.path s.key.value) := by
  simp only [loadSeed]
  rw [hconflict]
  split
  · split
    · exact hfile
    · simp [hwrite, SkipRules.none]
  · exact hfile

/-- **A seed of an isolated key.**  Nothing of the key is on disk before it. -/
theorem Sim.isolated_seed (h : Sim fs start final isolated planned st st')
    (hrules : RulesFor fs start final isolated rules bound)
    (hignored : ignored s.ns s.key.value = false)
    (hnew : planned.ownership.lookup (idOf s.ns s.key.value) = none)
    (hbound : s.ownership.mark ≤ bound ∨ (s.ownership.present = true →
      final.finalMark (idOf s.ns s.key.value) = some s.ownership.mark))
    (hleads : (planned.seed ignored s).Leads final) (hisolated : isolated s.ns s.key) :
    (Swamp.loadSeed fs SkipRules.none st s).ownership.lookup (idOf s.ns s.key.value) =
      (planned.seed ignored s).ownership.lookup (idOf s.ns s.key.value) ∧
    ((planned.seed ignored s).finalMark (idOf s.ns s.key.value) = none →
      (Swamp.loadSeed fs SkipRules.none st s).disk.lookup (s.ns, fs.path s.key.value) = none) ∧
    (Swamp.loadSeed fs rules st' s).disk.lookup (s.ns, fs.path s.key.value) =
      if (planned.seed ignored s).finalMark (idOf s.ns s.key.value) =
          final.finalMark (idOf s.ns s.key.value) then
        (Swamp.loadSeed fs SkipRules.none st s).disk.lookup (s.ns, fs.path s.key.value)
      else none := by
  have hfree := conflict_isolated hrules.isolation h.accounted hisolated
  have hfree' := conflict_isolated hrules.isolation h.accounted' hisolated
  have hplanned : (planned.seed ignored s).ownership.lookup (idOf s.ns s.key.value) =
      some s.ownership := by
    rw [PlannedKeys.seed_ownership hignored, if_pos rfl]
  have hmark := PlannedKeys.finalMark_of_lookup hplanned
  have hbefore := PlannedKeys.finalMark_of_lookup hnew
  have hnothing : st.disk.lookup (s.ns, fs.path s.key.value) = none := h.absent hisolated hbefore
  have hnothing' : st'.disk.lookup (s.ns, fs.path s.key.value) = none := by
    apply h.net_absent hisolated
    intro mark hshown
    rw [hbefore] at hshown
    cases hshown
  cases hpresent : s.ownership.present with
  | false =>
    simp only [Swamp.loadSeed, hpresent, Bool.false_eq_true, if_false, hplanned, hnothing,
      hnothing', ite_self]
    exact ⟨Finmap.lookup_insert _, fun _ => trivial, trivial⟩
  | true =>
    simp only [Option.bind_some, hpresent, if_true] at hmark
    have hwritten : s.ownership.mark ∈ final.writesOf (idOf s.ns s.key.value) :=
      hleads.writes _ _ (PlannedKeys.write_mem_seed hignored hpresent)
    simp only [Swamp.loadSeed, hpresent, if_true, hfree, hfree', hplanned, hmark]
    refine ⟨Finmap.lookup_insert _, (fun hnone => by cases hnone), ?_⟩
    by_cases hfinal : final.finalMark (idOf s.ns s.key.value) = some s.ownership.mark
    · have hkept : rules.skipsWrite s.ns s.key.value s.ownership.mark = false := by
        by_cases hle : s.ownership.mark ≤ bound
        · rw [Bool.eq_false_iff, Ne, hrules.write hisolated hwritten hle]
          exact fun hne => hne hfinal
        · exact hrules.past (Nat.lt_of_not_le hle)
      simp [hkept, hfinal, SkipRules.none]
    · have hle : s.ownership.mark ≤ bound :=
        hbound.resolve_right (fun hlast => hfinal (hlast hpresent))
      rw [(hrules.write hisolated hwritten hle).mpr hfinal, if_pos rfl,
        if_neg (fun heq => hfinal heq.symm)]
      exact hnothing'

/-- **One seed, in both replays.** -/
theorem Sim.loadSeed (h : Sim fs start final isolated planned st st')
    (hrules : RulesFor fs start final isolated rules bound)
    (hignored : ignored s.ns s.key.value = false)
    (hnew : planned.ownership.lookup (idOf s.ns s.key.value) = none)
    (hbound : s.ownership.mark ≤ bound ∨ (s.ownership.present = true →
      final.finalMark (idOf s.ns s.key.value) = some s.ownership.mark))
    (hleads : (planned.seed ignored s).Leads final) :
    Sim fs start final isolated (planned.seed ignored s)
      (Swamp.loadSeed fs SkipRules.none st s) (Swamp.loadSeed fs rules st' s) := by
  have hkey : final.Knows s.ns s.key := hleads.keys s.ns s.key (PlannedKeys.key_mem_seed hignored)
  have hconflict := h.conflict hrules hkey
  refine h.set hrules.isolation hkey (loadSeed_ownership_congr h.ownership hconflict) ?_
    (loadSeed_frame _ _) (loadSeed_frame _ _)
    (h.isolated_seed hrules hignored hnew hbound hleads) ?_
  · intro id hid
    refine ⟨loadSeed_ownership_frame _ _ id hid, ?_⟩
    rw [PlannedKeys.seed_ownership hignored, if_neg hid]
  · intro hisolated
    exact loadSeed_file_congr hconflict (h.file hrules hkey hisolated)
      (hrules.others hkey hisolated _).1

/-- The seeds, in both replays. -/
theorem Sim.loadSeeds (seeds : List Seed) (hignored : ∀ s ∈ seeds, ignored s.ns s.key.value = false)
    (hdistinct : (seeds.map (fun s => idOf s.ns s.key.value)).Nodup)
    (hrules : RulesFor fs start final isolated rules bound)
    (hnew : ∀ s ∈ seeds, planned.ownership.lookup (idOf s.ns s.key.value) = none)
    (hbound : ∀ s ∈ seeds, s.ownership.mark ≤ bound ∨ (s.ownership.present = true →
      final.finalMark (idOf s.ns s.key.value) = some s.ownership.mark))
    (h : Sim fs start final isolated planned st st')
    (hleads : (seeds.foldl (PlannedKeys.seed ignored) planned).Leads final) :
    Sim fs start final isolated (seeds.foldl (PlannedKeys.seed ignored) planned)
      (seeds.foldl (Swamp.loadSeed fs SkipRules.none) st)
      (seeds.foldl (Swamp.loadSeed fs rules) st') := by
  induction seeds generalizing planned st st' with
  | nil => exact h
  | cons s seeds ih =>
    have hcons := List.nodup_cons.mp hdistinct
    have hrest : ∀ t ∈ seeds, ignored t.ns t.key.value = false :=
      fun t ht => hignored t (List.mem_cons_of_mem _ ht)
    have hstill : ∀ t ∈ seeds,
        (planned.seed ignored s).ownership.lookup (idOf t.ns t.key.value) = none := by
      intro t ht
      rw [PlannedKeys.seed_ownership (hignored s List.mem_cons_self), if_neg]
      · exact hnew t (List.mem_cons_of_mem _ ht)
      · exact fun heq => hcons.1 (List.mem_map.mpr ⟨t, ht, heq⟩)
    refine ih hrest hcons.2 hstill (fun t ht => hbound t (List.mem_cons_of_mem _ ht))
      (h.loadSeed hrules (hignored s List.mem_cons_self) (hnew s List.mem_cons_self)
        (hbound s List.mem_cons_self) ?_) hleads
    exact PlannedKeys.Leads.trans (PlannedKeys.leads_seeds seeds hrest hcons.2 _ hstill) hleads

end Seeds

/-- A feed, in both replays. -/
theorem Sim.replayFeed {rules : SkipRules} {bound : ℕ} (feed : List NetReplayCommit)
    (hignored : ∀ commit ∈ feed, ∀ change ∈ commit.changes,
      ignored commit.ns change.key.value = false)
    (hbound : ∀ commit ∈ feed, commit.position ≤ bound)
    (hrules : RulesFor fs start final isolated rules bound)
    (h : Sim fs start final isolated planned st st')
    (hleads : (PlannedKeys.addAll ignored planned feed).Leads final) :
    Sim fs start final isolated (PlannedKeys.addAll ignored planned feed)
      (feed.foldl (replayCommit fs SkipRules.none) st)
      (feed.foldl (replayCommit fs rules) st') := by
  induction feed generalizing planned st st' with
  | nil => exact h
  | cons commit feed ih =>
    have hrest : ∀ c ∈ feed, ∀ change ∈ c.changes, ignored c.ns change.key.value = false :=
      fun c hc => hignored c (List.mem_cons_of_mem _ hc)
    refine ih hrest (fun c hc => hbound c (List.mem_cons_of_mem _ hc))
      (h.replayChanges commit.changes (hignored commit List.mem_cons_self) hrules
        (hbound commit List.mem_cons_self) ?_) hleads
    exact PlannedKeys.Leads.trans (PlannedKeys.leads_addAll feed hrest _) hleads

end Simulation

end Swamp
