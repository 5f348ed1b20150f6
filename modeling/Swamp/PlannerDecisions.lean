import Swamp.IsolatedKeys

/-!
# Where the planner's decisions lead

The planner runs the decisions of a feed without touching a file.  What it knows
of a key early bounds what it can know at the end: marks only rise, and a removed
file is only brought back by a later put.
-/

namespace Swamp

open Js MapOverlay

namespace PlannedKeys

/-- `own'` comes after `own`: its mark is no lower, and a removed file is only
brought back by a later put. -/
def After (own own' : FileOwnership) : Prop :=
  own.mark ≤ own'.mark ∧ (own.present = false → own'.present = true → own.mark < own'.mark)

/-- From these planned keys a planner can come to those. -/
structure Leads (planned final : PlannedKeys) : Prop where
  ownership : ∀ id own, planned.ownership.lookup id = some own →
    ∃ own', final.ownership.lookup id = some own' ∧ After own own'
  writes : ∀ id position, position ∈ planned.writesOf id → position ∈ final.writesOf id
  keys : ∀ ns key, key ∈ planned.keysOf ns → key ∈ final.keysOf ns

theorem Leads.refl (planned : PlannedKeys) : planned.Leads planned :=
  ⟨fun _ own h => ⟨own, h, le_refl _, fun habsent hpresent => by rw [habsent] at hpresent; cases hpresent⟩,
    fun _ _ h => h, fun _ _ h => h⟩

theorem After.trans {a b c : FileOwnership} (hab : After a b) (hbc : After b c) : After a c := by
  refine ⟨le_trans hab.1 hbc.1, ?_⟩
  intro habsent hpresent
  cases hb : b.present with
  | true => exact lt_of_lt_of_le (hab.2 habsent hb) hbc.1
  | false => exact lt_of_le_of_lt hab.1 (hbc.2 hb hpresent)

theorem Leads.trans {a b c : PlannedKeys} (hab : a.Leads b) (hbc : b.Leads c) : a.Leads c := by
  refine ⟨?_, ?_, ?_⟩
  · intro id own h
    obtain ⟨own', h', hafter⟩ := hab.ownership id own h
    obtain ⟨own'', h'', hafter'⟩ := hbc.ownership id own' h'
    exact ⟨own'', h'', hafter.trans hafter'⟩
  · exact fun id position h => hbc.writes id position (hab.writes id position h)
  · exact fun ns key h => hbc.keys ns key (hab.keys ns key h)

/-- A mark that is shown and shown at the end was shown throughout. -/
theorem Leads.finalMark_ne {planned final : PlannedKeys} (h : planned.Leads final) {id : JsString}
    {own : FileOwnership} (hown : planned.ownership.lookup id = some own) {mark : ℕ}
    (hmark : mark < own.mark ∨ (mark = own.mark ∧ own.present = false)) :
    final.finalMark id ≠ some mark := by
  obtain ⟨own', hown', hle, hback⟩ := h.ownership id own hown
  unfold finalMark
  rw [hown']
  simp only
  split
  · rename_i hpresent
    intro heq
    have hmark' : own'.mark = mark := Option.some.inj heq
    rcases hmark with hlt | ⟨rfl, habsent⟩
    · omega
    · have := hback habsent hpresent
      omega
  · simp

variable {ignored : JsString → JsString → Bool} {self : PlannedKeys}

@[simp] theorem addKey_ownership (ns : JsString) (key : RecordKey) :
    (self.addKey ns key).ownership = self.ownership := rfl

@[simp] theorem pushWrite_ownership (id : JsString) (position : ℕ) :
    (self.pushWrite id position).ownership = self.ownership := rfl

@[simp] theorem addKey_writesOf (ns : JsString) (key : RecordKey) (id : JsString) :
    (self.addKey ns key).writesOf id = self.writesOf id := rfl

@[simp] theorem pushWrite_keysOf (id : JsString) (position : ℕ) (ns : JsString) :
    (self.pushWrite id position).keysOf ns = self.keysOf ns := rfl

@[simp] theorem setOwnership_writesOf (id : JsString) (next : Option FileOwnership)
    (other : JsString) : (self.setOwnership id next).writesOf other = self.writesOf other := by
  cases next with
  | none | some own => rfl

@[simp] theorem setOwnership_keysOf (id : JsString) (next : Option FileOwnership)
    (ns : JsString) : (self.setOwnership id next).keysOf ns = self.keysOf ns := by
  cases next with
  | none | some own => rfl

variable {ns : JsString}

theorem mem_addKey {ns' : JsString} {key key' : RecordKey} :
    key' ∈ (self.addKey ns key).keysOf ns' ↔ (ns' = ns ∧ key' = key) ∨ key' ∈ self.keysOf ns' := by
  by_cases h : ns' = ns
  · subst h
    simp [addKey, keysOf]
  · simp [addKey, keysOf, h, Finmap.lookup_insert_of_ne _ h]

variable {position : ℕ}

theorem mem_pushWrite {id id' : JsString} {position' : ℕ} :
    position' ∈ (self.pushWrite id position).writesOf id' ↔
      position' ∈ self.writesOf id' ∨ (id' = id ∧ position' = position) := by
  by_cases h : id' = id
  · subst h
    simp [pushWrite, writesOf]
  · simp [pushWrite, writesOf, h, Finmap.lookup_insert_of_ne _ h]

theorem setOwnership_lookup (id : JsString) (next : Option FileOwnership) (other : JsString) :
    (self.setOwnership id next).ownership.lookup other =
      if other = id then next.or (self.ownership.lookup other) else self.ownership.lookup other := by
  cases next with
  | none => simp [setOwnership]
  | some own =>
    by_cases h : other = id
    · subst h
      simp [setOwnership]
    · simp [setOwnership, h, Finmap.lookup_insert_of_ne _ h]

/-- The change as `decideFile` sees it. -/
def fileChange (partition : JsString) (position : ℕ) (change : KeyChange) : FileChange :=
  ⟨partition, position, change.put.isSome⟩

variable {partition : JsString} {change : KeyChange}

/-- The ownerships after a change: its own key's follows it. -/
theorem addChange_ownership (hkey : ignored ns change.key.value = false) (other : JsString) :
    (self.addChange ignored ns partition position change).ownership.lookup other =
      if other = idOf ns change.key.value then
        follow (self.ownership.lookup other) (fileChange partition position change)
      else self.ownership.lookup other := by
  unfold addChange
  simp only [hkey, Bool.false_eq_true, if_false]
  by_cases hother : other = idOf ns change.key.value
  · subst hother
    simp only [if_true, follow, fileChange]
    cases hdecide : decideFile (self.ownership.lookup (idOf ns change.key.value)) partition position
        change.put.isSome with
    | keep => rfl
    | write next => simp [setOwnership_lookup]
    | remove next =>
      simp only [setOwnership_lookup, if_true, addKey_ownership]
      cases next with
      | some own => rfl
      | none =>
        -- Only a key without an ownership is removed without one.
        unfold decideFile at hdecide
        grind
  · simp only [hother, if_false]
    split
    · rfl
    · simp [setOwnership_lookup, hother]
    · simp [setOwnership_lookup, hother]

theorem after_follow {own next : FileOwnership} {change : FileChange}
    (h : follow (some own) change = some next) : After own next := by
  unfold follow decideFile at h
  unfold After
  grind

theorem follow_isSome (own : FileOwnership) (change : FileChange) :
    (follow (some own) change).isSome = true := by
  unfold follow decideFile
  grind

/-- **One change leads on.** -/
theorem leads_addChange (hkey : ignored ns change.key.value = false) :
    self.Leads (self.addChange ignored ns partition position change) := by
  refine ⟨?_, ?_, ?_⟩
  · intro id own hown
    rw [addChange_ownership hkey]
    split
    · rw [hown]
      obtain ⟨next, hnext⟩ := Option.isSome_iff_exists.mp
        (follow_isSome own (fileChange partition position change))
      exact ⟨next, hnext, after_follow hnext⟩
    · exact (Leads.refl self).ownership id own hown
  · intro id position' hmem
    unfold addChange
    simp only [hkey, Bool.false_eq_true, if_false]
    split
    · exact hmem
    · simpa using hmem
    · rw [mem_pushWrite]
      exact Or.inl (by simpa using hmem)
  · intro ns' key hmem
    unfold addChange
    simp only [hkey, Bool.false_eq_true, if_false]
    have hadd : key ∈ (self.addKey ns change.key).keysOf ns' := mem_addKey.mpr (Or.inr hmem)
    split
    · exact hadd
    · simpa using hadd
    · simpa using hadd

theorem key_mem_addChange (hkey : ignored ns change.key.value = false) :
    change.key ∈ (self.addChange ignored ns partition position change).keysOf ns := by
  have hadd : change.key ∈ (self.addKey ns change.key).keysOf ns :=
    mem_addKey.mpr (Or.inl ⟨rfl, rfl⟩)
  unfold addChange
  simp only [hkey, Bool.false_eq_true, if_false]
  split
  · exact hadd
  · simpa using hadd
  · simpa using hadd

/-- A change that writes is among the writes. -/
theorem write_mem_addChange (hkey : ignored ns change.key.value = false) {next : FileOwnership}
    (hwrite : decideFile (self.ownership.lookup (idOf ns change.key.value)) partition position
      change.put.isSome = .write next) :
    position ∈
      (self.addChange ignored ns partition position change).writesOf (idOf ns change.key.value) := by
  unfold addChange
  simp only [hkey, Bool.false_eq_true, if_false, hwrite]
  exact mem_pushWrite.mpr (Or.inr ⟨rfl, rfl⟩)

/-- The changes of a commit lead on. -/
theorem leads_changes (changes : List KeyChange)
    (hkeys : ∀ change ∈ changes, ignored ns change.key.value = false) (planned : PlannedKeys) :
    planned.Leads (changes.foldl (addChange ignored ns partition position) planned) := by
  induction changes generalizing planned with
  | nil => exact Leads.refl planned
  | cons change changes ih =>
    exact (leads_addChange (hkeys change List.mem_cons_self)).trans
      (ih (fun c hc => hkeys c (List.mem_cons_of_mem _ hc)) _)

/-- The planned keys after a feed. -/
def addAll (ignored : JsString → JsString → Bool) (planned : PlannedKeys)
    (feed : List NetReplayCommit) : PlannedKeys :=
  feed.foldl
    (fun planned commit =>
      commit.changes.foldl (addChange ignored commit.ns commit.partition commit.position) planned)
    planned

/-- A feed leads on. -/
theorem leads_addAll (feed : List NetReplayCommit)
    (hkeys : ∀ commit ∈ feed, ∀ change ∈ commit.changes,
      ignored commit.ns change.key.value = false) (planned : PlannedKeys) :
    planned.Leads (addAll ignored planned feed) := by
  induction feed generalizing planned with
  | nil => exact Leads.refl planned
  | cons commit feed ih =>
    exact (leads_changes commit.changes (hkeys commit List.mem_cons_self) planned).trans
      (ih (fun c hc => hkeys c (List.mem_cons_of_mem _ hc)) _)

variable {s : Seed}

theorem seed_ownership (hkey : ignored s.ns s.key.value = false) (other : JsString) :
    (self.seed ignored s).ownership.lookup other =
      if other = idOf s.ns s.key.value then some s.ownership else self.ownership.lookup other := by
  unfold seed
  simp only [hkey, Bool.false_eq_true, if_false]
  split
  · rw [pushWrite_ownership, setOwnership_lookup]
    rfl
  · rw [setOwnership_lookup]
    rfl

/-- A seed of a key not owned yet leads on. -/
theorem leads_seed (hkey : ignored s.ns s.key.value = false)
    (hnew : self.ownership.lookup (idOf s.ns s.key.value) = none) :
    self.Leads (self.seed ignored s) := by
  refine ⟨?_, ?_, ?_⟩
  · intro id own hown
    rw [seed_ownership hkey]
    split
    · rename_i hid
      rw [hid, hnew] at hown
      cases hown
    · exact (Leads.refl self).ownership id own hown
  · intro id position hmem
    unfold seed
    simp only [hkey, Bool.false_eq_true, if_false]
    split
    · rw [mem_pushWrite]
      exact Or.inl (by simpa using hmem)
    · simpa using hmem
  · intro ns key hmem
    have hadd : key ∈ (self.addKey s.ns s.key).keysOf ns := mem_addKey.mpr (Or.inr hmem)
    unfold seed
    simp only [hkey, Bool.false_eq_true, if_false]
    split
    · simpa using hadd
    · simpa using hadd

theorem key_mem_seed (hkey : ignored s.ns s.key.value = false) :
    s.key ∈ (self.seed ignored s).keysOf s.ns := by
  have hadd : s.key ∈ (self.addKey s.ns s.key).keysOf s.ns := mem_addKey.mpr (Or.inl ⟨rfl, rfl⟩)
  unfold seed
  simp only [hkey, Bool.false_eq_true, if_false]
  split
  · simpa using hadd
  · simpa using hadd

theorem write_mem_seed (hkey : ignored s.ns s.key.value = false)
    (hpresent : s.ownership.present = true) :
    s.ownership.mark ∈ (self.seed ignored s).writesOf (idOf s.ns s.key.value) := by
  unfold seed
  simp only [hkey, Bool.false_eq_true, if_false, hpresent, if_true]
  exact mem_pushWrite.mpr (Or.inr ⟨rfl, rfl⟩)

/-- Distinct seeds, none of them owned yet, lead on. -/
theorem leads_seeds (seeds : List Seed)
    (hkeys : ∀ s ∈ seeds, ignored s.ns s.key.value = false)
    (hdistinct : (seeds.map (fun s => idOf s.ns s.key.value)).Nodup) (planned : PlannedKeys)
    (hnew : ∀ s ∈ seeds, planned.ownership.lookup (idOf s.ns s.key.value) = none) :
    planned.Leads (seeds.foldl (seed ignored) planned) := by
  induction seeds generalizing planned with
  | nil => exact Leads.refl planned
  | cons s seeds ih =>
    have hcons := List.nodup_cons.mp hdistinct
    refine (leads_seed (hkeys s List.mem_cons_self) (hnew s List.mem_cons_self)).trans
      (ih (fun t ht => hkeys t (List.mem_cons_of_mem _ ht)) hcons.2 _ ?_)
    intro t ht
    have hne : idOf t.ns t.key.value ≠ idOf s.ns s.key.value := by
      intro heq
      exact hcons.1 (List.mem_map.mpr ⟨t, ht, heq⟩)
    rw [seed_ownership (hkeys s List.mem_cons_self), if_neg hne]
    exact hnew t (List.mem_cons_of_mem _ ht)

theorem seeds_ownership_frame (seeds : List Seed)
    (hkeys : ∀ s ∈ seeds, ignored s.ns s.key.value = false) (planned : PlannedKeys)
    (id : JsString) (hid : ∀ s ∈ seeds, id ≠ idOf s.ns s.key.value) :
    (seeds.foldl (seed ignored) planned).ownership.lookup id = planned.ownership.lookup id := by
  induction seeds generalizing planned with
  | nil => rfl
  | cons s seeds ih =>
    rw [List.foldl_cons, ih (fun t ht => hkeys t (List.mem_cons_of_mem _ ht)) _
      (fun t ht => hid t (List.mem_cons_of_mem _ ht)), seed_ownership (hkeys s List.mem_cons_self),
      if_neg (hid s List.mem_cons_self)]

end PlannedKeys

end Swamp
