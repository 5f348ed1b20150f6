import Swamp.ReplaySimulation

/-!
# A net replay ends where a plain replay does

The rules of a plan are those the simulation asks for, so a replay that leaves
out what the plan lets it leave out ends with the files of a replay that leaves
out nothing.
-/

namespace Swamp

open Js MapOverlay

section Rules

variable {text : UnicodeText} {fs : FoldingFilesystem text} {start : Disk}
  {directoryAbsent : JsString → JsString → Bool} {planner : NetReplayPlanner}

/-- What `directoryAbsent` says absent is absent: no file of the namespace is
below that top directory. -/
def TellsAbsent (fs : FoldingFilesystem text) (start : Disk)
    (directoryAbsent : JsString → JsString → Bool) : Prop :=
  ∀ ns segment, directoryAbsent ns segment = true →
    ∀ file ∈ start.keys, file.1 = ns → file.2.head? ≠ some (fs.fold segment)

/-- No file's path has a NUL in its namespace. -/
def Disk.NulFree (disk : Disk) : Prop := ∀ file ∈ disk.keys, (0 : CodeUnit) ∉ file.1

/-- The known keys a plan lets skip writes and removals. -/
def NetReplayPlan.Eligible (plan : NetReplayPlan) (planned : PlannedKeys) (ns : JsString)
    (key : RecordKey) : Prop :=
  planned.Knows ns key ∧ idOf ns key.value ∈ plan.eligible

theorem splitId_idOf {ns : JsString} (hns : (0 : CodeUnit) ∉ ns) (key : JsString) :
    splitId (idOf ns key) = (ns, key) := by
  have hfree : ∀ u ∈ ns, (decide (u ≠ 0)) = true := by
    intro u hu
    simp only [decide_eq_true_eq]
    intro hzero
    exact hns (hzero ▸ hu)
  unfold splitId idOf
  rw [List.takeWhile_append_of_pos hfree, List.dropWhile_append_of_pos hfree]
  simp

theorem head?_path (fs : FoldingFilesystem text) (key : JsString) :
    (fs.path key).head? = some (fs.fold (topSegment key)) := by
  unfold FoldingFilesystem.path topSegment
  cases hsplit : split key with
  | nil => exact absurd hsplit (split_ne_nil key)
  | cons segment segments => rfl

theorem PlannedKeys.mem_writes_keys {planned : PlannedKeys} {id : JsString} {position : ℕ}
    (h : position ∈ planned.writesOf id) : id ∈ planned.writes.keys := by
  unfold writesOf at h
  cases hlookup : planned.writes.lookup id with
  | none => simp [hlookup] at h
  | some writes => exact Finmap.mem_keys.mpr (Finmap.mem_iff.mpr ⟨writes, hlookup⟩)

/-- What makes a key eligible. -/
theorem mem_eligible {ns : JsString} {key : RecordKey}
    (h : idOf ns key.value ∈ (planner.finish text directoryAbsent).eligible) :
    idOf ns key.value ∉ planner.planned.prefixed text ∧
      (idOf ns key.value ∈ planner.planned.writes.keys →
        idOf ns key.value ∈ planner.planned.eligibleWritten text directoryAbsent) ∧
      (directoryAbsent (splitId (idOf ns key.value)).1
          (topSegment (splitId (idOf ns key.value)).2) = true ∨
        directoryAbsent ns (topSegment key.value) = true) := by
  rcases Finset.mem_union.mp h with hwritten | hremoved
  · obtain ⟨-, hfree, habsent⟩ := Finset.mem_filter.mp hwritten
    exact ⟨hfree, fun _ => hwritten, Or.inl habsent⟩
  · obtain ⟨ns', -, himage⟩ := Finset.mem_biUnion.mp hremoved
    obtain ⟨key', hkey', hid⟩ := Finset.mem_image.mp himage
    obtain ⟨-, hunwritten, hfree, habsent⟩ := Finset.mem_filter.mp hkey'
    obtain ⟨rfl, rfl⟩ := idOf_inj.mp hid
    exact ⟨hfree, fun hwritten => absurd hwritten hunwritten, Or.inr habsent⟩

theorem mem_skipped {id : JsString} {position : ℕ} :
    PlannedKeys.writeId id position ∈ (planner.finish text directoryAbsent).skipped ↔
      id ∈ planner.planned.eligibleWritten text directoryAbsent ∧
        position ∈ planner.planned.replaced id := by
  unfold NetReplayPlanner.finish
  simp only [Finset.mem_biUnion, List.mem_toFinset, List.mem_map, PlannedKeys.writeId_inj]
  grind

/-- The eligible keys are isolated. -/
theorem isolated_eligible (habsent : TellsAbsent fs start directoryAbsent)
    (hnul : start.NulFree) :
    Isolated fs start planner.planned.Knows
      ((planner.finish text directoryAbsent).Eligible planner.planned) where
  isKnown h := h.1
  apart := by
    intro ns key other hkey hother hne
    have hfree := (mem_eligible hkey.2).1
    refine ⟨?_, ?_⟩
    · intro hgrown
      exact hfree (PlannedKeys.prefixed_of_path_prefix fs hother hkey.1 hne hgrown).2
    · intro hgrown
      exact hfree (PlannedKeys.prefixed_of_path_prefix fs hkey.1 hother hne.symm hgrown).1
  absent := by
    intro ns key hkey file hfile hns
    have hsplit := splitId_idOf (hns ▸ hnul file hfile) key.value
    have htold : directoryAbsent ns (topSegment key.value) = true := by
      rcases (mem_eligible hkey.2).2.2 with h | h
      · rw [hsplit] at h
        exact h
      · exact h
    rw [head?_path]
    exact habsent ns _ htold file hfile hns

/-- **The rules of a plan** are those the simulation asks for. -/
theorem rulesFor_finish (habsent : TellsAbsent fs start directoryAbsent) (hnul : start.NulFree) :
    RulesFor fs start planner.planned
      ((planner.finish text directoryAbsent).Eligible planner.planned)
      (planner.finish text directoryAbsent).rules planner.bound where
  isolation := isolated_eligible habsent hnul
  write := by
    intro ns key position hkey hwritten hbound
    have heligible := (mem_eligible hkey.2).2.1 (PlannedKeys.mem_writes_keys hwritten)
    have hle : position ≤ (planner.finish text directoryAbsent).bound := hbound
    simp only [NetReplayPlan.rules, NetReplayPlan.skipsWrite, hle, decide_true, Bool.true_and,
      decide_eq_true_eq, mem_skipped, heligible, true_and, PlannedKeys.replaced, List.mem_filter,
      hwritten]
    exact ne_comm
  past := by
    intro ns key position hpast
    have hnot : ¬ position ≤ (planner.finish text directoryAbsent).bound := Nat.not_le.mpr hpast
    simp [NetReplayPlan.rules, NetReplayPlan.skipsWrite, hnot]
  removal := by
    intro ns key position hkey hbound
    have hle : position ≤ (planner.finish text directoryAbsent).bound := hbound
    simp [NetReplayPlan.rules, NetReplayPlan.skipsRemoval, hle, hkey.2]
  others := by
    intro ns key hkey hother position
    have hnot : idOf ns key.value ∉ (planner.finish text directoryAbsent).eligible :=
      fun hmem => hother ⟨hkey, hmem⟩
    have hkept : PlannedKeys.writeId (idOf ns key.value) position ∉
        (planner.finish text directoryAbsent).skipped := by
      intro hskipped
      exact hnot (Finset.mem_union_left _ (mem_skipped.mp hskipped).1)
    refine ⟨?_, ?_⟩
    · simp [NetReplayPlan.rules, NetReplayPlan.skipsWrite, hkept]
    · simp [NetReplayPlan.rules, NetReplayPlan.skipsRemoval, hnot]

end Rules

/-- The planner after the seeds of a base and a feed. -/
def readNetPlanner (ignored : JsString → JsString → Bool) (seeds : List Seed)
    (feed : List NetReplayCommit) : NetReplayPlanner :=
  feed.foldl (NetReplayPlanner.add ignored)
    (seeds.foldl (NetReplayPlanner.seed ignored) NetReplayPlanner.start)

/-- The plan of a base and a feed: `#readNetPlan`. -/
def readNetPlan (text : UnicodeText) (ignored directoryAbsent : JsString → JsString → Bool)
    (seeds : List Seed) (feed : List NetReplayCommit) : NetReplayPlan :=
  (readNetPlanner ignored seeds feed).finish text directoryAbsent

section Replay

variable {ignored : JsString → JsString → Bool}

theorem seeds_planned (seeds : List Seed) (planner : NetReplayPlanner) :
    (seeds.foldl (NetReplayPlanner.seed ignored) planner).planned =
      seeds.foldl (PlannedKeys.seed ignored) planner.planned := by
  induction seeds generalizing planner with
  | nil => rfl
  | cons s seeds ih => exact ih (planner.seed ignored s)

theorem feed_planned (feed : List NetReplayCommit) (planner : NetReplayPlanner) :
    (feed.foldl (NetReplayPlanner.add ignored) planner).planned =
      PlannedKeys.addAll ignored planner.planned feed := by
  induction feed generalizing planner with
  | nil => rfl
  | cons commit feed ih => exact ih (planner.add ignored commit)

/-- The bound is past every position of the feed. -/
theorem le_feed_bound (feed : List NetReplayCommit) (planner : NetReplayPlanner) :
    planner.bound ≤ (feed.foldl (NetReplayPlanner.add ignored) planner).bound ∧
      ∀ commit ∈ feed,
        commit.position ≤ (feed.foldl (NetReplayPlanner.add ignored) planner).bound := by
  induction feed generalizing planner with
  | nil => exact ⟨le_refl _, by simp⟩
  | cons commit feed ih =>
    obtain ⟨hbound, hrest⟩ := ih (planner.add ignored commit)
    refine ⟨le_trans (le_max_left _ _) hbound, ?_⟩
    intro c hc
    rcases List.mem_cons.mp hc with rfl | hc
    · exact le_trans (le_max_right _ _) hbound
    · exact hrest c hc

theorem finalMark_seeds (seeds : List Seed)
    (hignored : ∀ s ∈ seeds, ignored s.ns s.key.value = false)
    (hdistinct : (seeds.map (fun s => idOf s.ns s.key.value)).Nodup) (planned : PlannedKeys)
    {s : Seed} (hs : s ∈ seeds) (hpresent : s.ownership.present = true) :
    (seeds.foldl (PlannedKeys.seed ignored) planned).finalMark (idOf s.ns s.key.value) =
      some s.ownership.mark := by
  induction seeds generalizing planned with
  | nil => cases hs
  | cons t seeds ih =>
    have hcons := List.nodup_cons.mp hdistinct
    have hrest : ∀ u ∈ seeds, ignored u.ns u.key.value = false :=
      fun u hu => hignored u (List.mem_cons_of_mem _ hu)
    rcases List.mem_cons.mp hs with rfl | hs
    · have hkept : ∀ u ∈ seeds, idOf s.ns s.key.value ≠ idOf u.ns u.key.value :=
        fun u hu heq => hcons.1 (List.mem_map.mpr ⟨u, hu, heq.symm⟩)
      have hown := PlannedKeys.seeds_ownership_frame seeds hrest (planned.seed ignored s) _ hkept
      rw [PlannedKeys.seed_ownership (hignored s List.mem_cons_self), if_pos rfl] at hown
      rw [List.foldl_cons, PlannedKeys.finalMark_of_lookup hown]
      simp [hpresent]
    · exact ih hrest hcons.2 _ hs

/-- The two replays before the first seed. -/
theorem Sim.initial {text : UnicodeText} {fs : FoldingFilesystem text} {disk : Disk}
    {final : PlannedKeys} {isolated : JsString → RecordKey → Prop}
    (hisolation : Isolated fs disk final.Knows isolated) :
    Sim fs disk final isolated NetReplayPlanner.start.planned ⟨∅, disk⟩ ⟨∅, disk⟩ := by
  have hnothing : ∀ {ns key}, isolated ns key → disk.lookup (ns, fs.path key.value) = none := by
    intro ns key hkey
    rw [Finmap.lookup_eq_none]
    intro hmem
    exact hisolation.absent hkey _ (Finmap.mem_keys.mpr hmem) rfl rfl
  refine ⟨rfl, fun file hfile => Or.inl hfile, fun file hfile => Or.inl hfile,
    fun _ _ _ => rfl, fun _ => rfl, fun hkey _ => hnothing hkey, ?_⟩
  intro ns key hkey
  rw [hnothing hkey, ite_self]

theorem Sim.disk_eq {text : UnicodeText} {fs : FoldingFilesystem text} {start : Disk}
    {final : PlannedKeys} {isolated : JsString → RecordKey → Prop} {st st' : ReplayState}
    (h : Sim fs start final isolated final st st') : st'.disk = st.disk := by
  apply Finmap.ext_lookup
  intro file
  by_cases hfile : ∃ key, isolated file.1 key ∧ file.2 = fs.path key.value
  · obtain ⟨key, hkey, hpath⟩ := hfile
    have hnet := h.net hkey
    rw [if_pos rfl, ← hpath] at hnet
    exact hnet
  · apply h.agree file.1 file.2
    intro key hkey hpath
    exact hfile ⟨key, hkey, hpath⟩

/-- **Net replay ends where plain replay does.**  The seeds are of distinct keys, and no
file of the base is later than the feed, which is read from the base's compaction
point. -/
theorem net_replay_eq_plain_replay {text : UnicodeText} (fs : FoldingFilesystem text)
    (directoryAbsent : JsString → JsString → Bool) (disk : Disk) (seeds : List Seed)
    (feed : List NetReplayCommit)
    (hseeds : ∀ s ∈ seeds, ignored s.ns s.key.value = false)
    (hfeed : ∀ commit ∈ feed, ∀ change ∈ commit.changes,
      ignored commit.ns change.key.value = false)
    (hdistinct : (seeds.map (fun s => (s.ns, s.key))).Nodup)
    (hbase : ∀ s ∈ seeds, s.ownership.present = true → feed ≠ [] →
      ∃ commit ∈ feed, s.ownership.mark ≤ commit.position)
    (habsent : TellsAbsent fs disk directoryAbsent) (hnul : disk.NulFree) :
    (replay fs (readNetPlan text ignored directoryAbsent seeds feed).rules disk seeds feed).disk =
      (replay fs SkipRules.none disk seeds feed).disk := by
  have hids : (seeds.map (fun s => idOf s.ns s.key.value)).Nodup := by
    apply (List.pairwise_map.mp hdistinct).map _
    intro s t hne heq
    obtain ⟨hns, hkey⟩ := idOf_inj.mp heq
    exact hne (Prod.ext hns hkey)
  have hrules : RulesFor fs disk (readNetPlanner ignored seeds feed).planned
      ((readNetPlan text ignored directoryAbsent seeds feed).Eligible
        (readNetPlanner ignored seeds feed).planned)
      (readNetPlan text ignored directoryAbsent seeds feed).rules
      (readNetPlanner ignored seeds feed).bound := rulesFor_finish habsent hnul
  have hseeded := @seeds_planned ignored seeds NetReplayPlanner.start
  have hfinal : (readNetPlanner ignored seeds feed).planned =
      PlannedKeys.addAll ignored
        (seeds.foldl (PlannedKeys.seed ignored) NetReplayPlanner.start.planned) feed := by
    rw [readNetPlanner, feed_planned, hseeded]
  have hleads := PlannedKeys.leads_addAll feed hfeed
    (seeds.foldl (PlannedKeys.seed ignored) NetReplayPlanner.start.planned)
  rw [← hfinal] at hleads
  have hbounds : ∀ commit ∈ feed, commit.position ≤ (readNetPlanner ignored seeds feed).bound :=
    (le_feed_bound feed _).2
  have hmarks : ∀ s ∈ seeds, s.ownership.mark ≤ (readNetPlanner ignored seeds feed).bound ∨
      (s.ownership.present = true →
        (readNetPlanner ignored seeds feed).planned.finalMark (idOf s.ns s.key.value) =
          some s.ownership.mark) := by
    intro s hs
    by_cases hlate : s.ownership.present = true ∧ feed ≠ []
    · obtain ⟨commit, hcommit, hmark⟩ := hbase s hs hlate.1 hlate.2
      exact Or.inl (le_trans hmark (hbounds commit hcommit))
    · apply Or.inr
      intro hpresent
      have hnil : feed = [] := not_not.mp (fun hne => hlate ⟨hpresent, hne⟩)
      rw [hfinal, hnil]
      exact finalMark_seeds seeds hseeds hids _ hs hpresent
  have hsim := (Sim.initial hrules.isolation).loadSeeds seeds hseeds hids hrules
    (fun _ _ => rfl) hmarks hleads
  have hdone := hsim.replayFeed feed hfeed hbounds hrules
    (by rw [← hfinal]; exact PlannedKeys.Leads.refl _)
  rw [← hfinal] at hdone
  exact hdone.disk_eq

/-- The code units of upper case letters of ASCII, in lower case. -/
def lowerUnit (u : CodeUnit) : CodeUnit :=
  if 65 ≤ u.val ∧ u.val ≤ 90 then Fin.ofNat 65536 (u.val + 32) else u

theorem lowerUnit_eq_solidus (u : CodeUnit) : lowerUnit u = unit '/' ↔ u = unit '/' := by
  unfold lowerUnit
  split
  · rename_i hupper
    have hsolidus : (unit '/').val = 47 := by decide
    have hlower : (Fin.ofNat 65536 (u.val + 32)).val = u.val + 32 := by
      simp only [Fin.ofNat]
      omega
    rw [Fin.ext_iff, Fin.ext_iff, hlower, hsolidus]
    omega
  · exact Iff.rfl

/-- Folding unit by unit works segment by segment. -/
theorem split_map_units {f : CodeUnit → CodeUnit} (hf : ∀ u, f u = unit '/' ↔ u = unit '/')
    (s : JsString) : split (s.map f) = (split s).map (List.map f) := by
  have hcons : ∀ u s, split (u :: s) =
      if u == unit '/' then [] :: split s else (split s).modifyHead (List.cons u) :=
    fun u s => List.splitOn_cons_eq_if_modifyHead u s
  induction s with
  | nil => rfl
  | cons u s ih =>
    rw [List.map_cons, hcons, hcons, ih]
    by_cases hu : u = unit '/'
    · simp [hu, (hf (unit '/')).mpr rfl]
    · have hfu : f u ≠ unit '/' := fun h => hu ((hf u).mp h)
      cases hsplit : split s with
      | nil => exact absurd hsplit (split_ne_nil s)
      | cons first rest => simp [hu, hfu]

/-- ASCII texts: already composed, folded letter by letter. -/
def asciiText : UnicodeText where
  normalizeNFC := id
  toLowerCase := List.map lowerUnit
  split_normalizeNFC := by simp
  split_toLowerCase := split_map_units lowerUnit_eq_solidus

/-- A filesystem that ignores the case of letters. -/
def caseInsensitive : FoldingFilesystem asciiText where
  fold := List.map lowerUnit
  finer := fun _ _ h => h

/-- A key of the small replay. -/
def sampleFile : RecordKey := ⟨js "vault/token", by decide⟩

/-- A put of the small replay. -/
def samplePut (text : JsString) (digest : Sha256) : PutOp :=
  ⟨.lockfileWrite, sampleFile, .inline text digest, none, none⟩

/-- A digest: 64 hexadecimal digits. -/
def sampleDigest : Sha256 := .zeros

/-- A file of the base. -/
def sampleSeed : Seed :=
  ⟨[], sampleFile, ⟨js "a", 1, true⟩, ⟨.inline (js "one") sampleDigest, none⟩⟩

/-- A feed that replaces the file of the base, and once more. -/
def sampleFeed : List NetReplayCommit :=
  [⟨[], js "b", 2, [⟨sampleFile, some (samplePut (js "two") sampleDigest)⟩]⟩,
   ⟨[], js "a", 3, [⟨sampleFile, some (samplePut (js "three") sampleDigest)⟩]⟩]

/-- The net replay leaves out the base's file and the first put. -/
theorem sample_net_replay :
    (readNetPlan asciiText (fun _ _ => false) (fun _ _ => true) [sampleSeed]
        sampleFeed).skipsWrite [] sampleFile.value 1 = true ∧
      (readNetPlan asciiText (fun _ _ => false) (fun _ _ => true) [sampleSeed]
        sampleFeed).skipsWrite [] sampleFile.value 2 = true ∧
      (replay caseInsensitive
          (readNetPlan asciiText (fun _ _ => false) (fun _ _ => true) [sampleSeed]
            sampleFeed).rules ∅ [sampleSeed] sampleFeed).disk =
        (replay caseInsensitive SkipRules.none ∅ [sampleSeed] sampleFeed).disk := by
  refine ⟨by decide, by decide, ?_⟩
  refine net_replay_eq_plain_replay caseInsensitive (fun _ _ => true) ∅ [sampleSeed] sampleFeed
    (by simp) (by simp) (by simp) (by decide) ?_ ?_
  · intro ns segment htold file hfile
    simp at hfile
  · intro file hfile
    simp at hfile

/-- A file of the base that is later than the feed. -/
def lateSeed : Seed := { sampleSeed with ownership := ⟨js "a", 10, true⟩ }

/-- A feed in which the file's own partition removes it. -/
def lateFeed : List NetReplayCommit := [⟨[], js "a", 5, [⟨sampleFile, none⟩]⟩]

/-- **A file of the base later than the feed stays**: the net replay writes it, since it is
past the plan's bound, and leaves out its removal. -/
theorem late_seed_kept :
    ¬ ∀ (text : UnicodeText) (fs : FoldingFilesystem text)
        (directoryAbsent : JsString → JsString → Bool) (disk : Disk) (seeds : List Seed)
        (feed : List NetReplayCommit),
      (seeds.map (fun s => (s.ns, s.key))).Nodup → TellsAbsent fs disk directoryAbsent →
        disk.NulFree →
        (replay fs (readNetPlan text (fun _ _ => false) directoryAbsent seeds feed).rules disk
            seeds feed).disk =
          (replay fs SkipRules.none disk seeds feed).disk := by
  intro h
  have hsame := h asciiText caseInsensitive (fun _ _ => true) ∅ [lateSeed] lateFeed (by simp)
    (fun _ _ _ file hfile => by simp at hfile) (fun file hfile => by simp at hfile)
  have hlookup := congrArg
    (fun disk : Disk => (disk.lookup ([], caseInsensitive.path sampleFile.value)).isSome) hsame
  revert hlookup
  decide

end Replay

end Swamp
