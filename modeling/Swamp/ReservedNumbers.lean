import Swamp.PartitionHistory
import Swamp.RebaseNumbers

/-!
# Numbers that queued commits hold

A version that a rebased commit renumbers skips the numbers that other queued
commits hold for its name.  The restatement of a latest takes the number right
above the name's highest, whether or not a queued commit holds it, so no new
number is reserved just where no latest is restated under a reserved number.
-/

namespace Swamp

open Js ExceptRules

/-- `reservedBy`: the versions of a name that other queued commits of a partition hold. -/
def reservedBy (others : List Commit) (key : PartitionKey) (name : JsString) : Finset ℕ :=
  ((others.filter (fun other => other.partition.equals key)).flatMap (fun other =>
    ((recordedOf other.ops).filter (fun op => op.metadata.name = name)).map
      (fun op => op.metadata.version.val))).toFinset

/-- The numbers reserved for a name. -/
def OfflineRebaseOptions.reservedFor (options : OfflineRebaseOptions) (name : JsString) :
    Finset ℕ :=
  (options.reserved.map (fun reserved => reserved name)).getD ∅

/-- The name and number of a restatement. -/
def restatedPair : LatestOutcome → Option (JsString × ℕ)
  | .restated name version _ => some (name, version)
  | .rebased _ _ _ => none

/-- The latest outcomes of a result. -/
def RebasedCommit.latest : RebasedCommit → List LatestOutcome
  | .unchanged _ => []
  | .rebased _ _ _ latest _ => latest
  | .rejected _ _ => []

/-- The versions a result newly lands: those renumbered, and the restatements. -/
def newNumbers (result : RebasedCommit) : List (JsString × ℕ) :=
  (result.renumbered.filter (fun version => version.target ≠ version.source)).map
    (fun version => (version.name, version.target)) ++
  result.latest.filterMap restatedPair

/-- The state of a name once its fresh versions landed. -/
def landedState (partition : Partition) (options : OfflineRebaseOptions) (platform : Platform)
    (commit : Commit) (createdAt : Option JsString) (flush : FlushState) (name : JsString)
    (numbers : OrderedMap ℕ ℕ) (top : ℕ) (contents : List (ℕ × VersionContent)) : NameState :=
  let landed := (stateOf partition options flush name).landed numbers top
    (executionTime platform commit) createdAt
  { landed with content := landed.content.setAll contents }

/-- When the current latest of a name was observed, as the flush knows it. -/
def observedAtOf (platform : Platform) (lookups : OfflineRebaseLookups) (name : JsString)
    (state : NameState) (current : ℕ) : Option ℚ :=
  (state.observedAt.get current).getD
    (observationTimeOf platform (lookups.observation name) current)

theorem stateOf_set {partition : Partition} {options : OfflineRebaseOptions} {flush : FlushState} (target other : JsString) (next : NameState) :
    stateOf partition options { flush with names := flush.names.set target next } other =
      if other = target then next else stateOf partition options flush other := by
  unfold stateOf
  simp only [OrderedMap.get_set]
  split
  · rfl
  · rfl

section Landing

variable (platform : Platform) (partition : Partition) (lookups : OfflineRebaseLookups)
  (options : OfflineRebaseOptions)

/-- A name whose fresh versions landed: its state, the highest of them, and whether that one
is a rename. -/
structure Landing where
  state : NameState
  top : ℕ
  renamed : Bool

/-- The name once the fresh versions of a commit landed, before its latest is chosen. -/
def landingOf (flush : FlushState) (model : ModelChanges) (commit : Commit) (name : JsString)
    (numbers : OrderedMap ℕ ℕ) : Except BuildError (Option Landing) := do
  let remapped := remap (localNumbers partition options flush (freshOf commit.ops)) flush.mapped
  let createdAt ← correctedCreatedAt platform commit
  let records ← (recordedOf commit.ops).mapM
    (landedRecord partition options flush remapped (appendedOf commit.ops) createdAt)
  let rewriting := rewritingOf records
  match maxOf (numbers.entries.map Prod.snd) with
  | none => return none
  | some top => do
      let topKey ← model.dataKey name top .metadata
      let contents ← rawContents model remapped rewriting name commit.ops
      return some
        { state := landedState partition options platform commit createdAt flush name numbers top
            contents
          top := top
          renamed := ((rewriting.metadataOf.get topKey).bind DataMetadata.renamedTo).isSome }

/-- The current latest of a name is restated: it is not above the landed versions, the
highest of them is no rename and not observed after it, and its content can be restated. -/
def Restates (commit : Commit) (name : JsString) (landing : Landing) : Prop :=
  ∃ current, landing.state.latest = some current ∧ current ≤ landing.top ∧
    landing.renamed = false ∧
    chooseLatest (executionTime platform commit)
      (observedAtOf platform lookups name landing.state current) options.windowMs = .current ∧
    ∃ content, restateSkip lookups options name current landing.state = .ok content

/-- No latest is restated under a number that is reserved. -/
def KeepsClear (flush : FlushState) (commit : Commit) : Prop :=
  ∀ type id, commit.partition.identity = .model type id →
    targetChanged partition options flush
      (remap (localNumbers partition options flush (freshOf commit.ops)) flush.mapped)
      commit.ops = .ok none →
    ∀ name numbers,
      (localNumbers partition options flush (freshOf commit.ops)).get name = some numbers →
      ∀ landing, landingOf platform partition options flush ⟨type, id⟩ commit name numbers =
          .ok (some landing) →
        Restates platform lookups options commit name landing →
        landing.state.highWater + 1 ∉ options.reservedFor name

end Landing

theorem assignNumbers_free (reserved : Finset ℕ) (next : ℕ) (versions : List ℕ) :
    ∀ pair ∈ assignNumbers reserved next versions, pair.2 = pair.1 ∨ pair.2 ∉ reserved := by
  induction versions generalizing next with
  | nil => exact List.forall_mem_nil _
  | cons version rest ih =>
    rw [assignNumbers]
    refine List.forall_mem_cons.mpr ⟨?_, ih _⟩
    exact (skipReserved_spec (by omega)).2.1

section Free

variable {platform : Platform} {partition : Partition} {lookups : OfflineRebaseLookups}
  {options : OfflineRebaseOptions} {flush : FlushState}

theorem renumbered_free (fresh : List DataVersionOp) :
    ∀ version ∈ renumberedOf (localNumbers partition options flush fresh),
      version.target = version.source ∨ version.target ∉ options.reservedFor version.name := by
  intro version hversion
  obtain ⟨entry, hentry, hpair⟩ := List.mem_flatMap.mp hversion
  obtain ⟨pair, hassigned, rfl⟩ := List.mem_map.mp hpair
  have hget := OrderedMap.mem_entries.mp hentry
  rw [localNumbers, OrderedMap.get_mapValues] at hget
  obtain ⟨versions, _, hnumbers⟩ := Option.map_eq_some_iff.mp hget
  rw [← hnumbers, numbersOf_entries] at hassigned
  exact assignNumbers_free _ _ _ pair hassigned

/-- A commit is renumbered as its fresh versions are, or not at all. -/
theorem rebaseOne_renumbered {commit : Commit} {result : RebasedCommit} {next : FlushState}
    (h : rebaseOne platform partition lookups options flush commit = .ok (result, next)) :
    result.renumbered = [] ∨ result.renumbered =
      renumberedOf (localNumbers partition options flush (freshOf commit.ops)) := by
  unfold rebaseOne at h
  split at h
  · split at h
    · obtain ⟨rfl, _⟩ := Prod.mk.inj (Except.ok.inj h)
      exact .inl rfl
    · unfold rebaseModel at h
      dsimp only at h
      obtain ⟨changed, _, h⟩ := bind_ok h
      cases changed with
      | some detail =>
        obtain ⟨rfl, _⟩ := Prod.mk.inj (Except.ok.inj h)
        exact .inl rfl
      | none =>
        dsimp only at h
        obtain ⟨createdAt, _, h⟩ := bind_ok h
        obtain ⟨records, _, h⟩ := bind_ok h
        obtain ⟨rewrites, _, h⟩ := bind_ok h
        obtain ⟨settled, _, h⟩ := bind_ok h
        obtain ⟨rfl, _⟩ := Prod.mk.inj (Except.ok.inj h)
        exact .inr rfl
  · obtain ⟨rfl, _⟩ := Prod.mk.inj (Except.ok.inj h)
    exact .inl rfl

theorem rebaseAll_renumbered_free {commits : List Commit} {results : List RebasedCommit}
    (h : rebaseAll platform partition lookups options flush commits = .ok results) :
    ∀ result ∈ results, ∀ version ∈ result.renumbered,
      version.target = version.source ∨ version.target ∉ options.reservedFor version.name := by
  induction commits generalizing flush results with
  | nil =>
    cases h
    exact List.forall_mem_nil _
  | cons commit rest ih =>
    rw [rebaseAll] at h
    split at h
    · obtain ⟨⟨result, next⟩, hone, h⟩ := bind_ok h
      obtain ⟨others, hrest, h⟩ := bind_ok h
      cases h
      refine List.forall_mem_cons.mpr ⟨?_, ih hrest⟩
      intro version hversion
      rcases rebaseOne_renumbered hone with hnone | hrenumbered
      · rw [hnone] at hversion
        cases hversion
      · rw [hrenumbered] at hversion
        exact renumbered_free _ version hversion
    · cases h

/-- **A queue is renumbered clear of the reserved numbers.** -/
theorem rebaseOfflineCommits_renumbered_free {commits : List Commit}
    {results : List RebasedCommit}
    (h : rebaseOfflineCommits platform partition lookups options commits = .ok results) :
    ∀ result ∈ results, ∀ version ∈ result.renumbered,
      version.target = version.source ∨ version.target ∉ options.reservedFor version.name :=
  rebaseAll_renumbered_free h

theorem choose_latest {s s' : Settling} {model : ModelChanges} {key : PartitionKey}
    {name : JsString} {commit : Commit} {landing : Landing}
    (h : s.choose platform lookups options model key name landing.state landing.top
      landing.renamed (executionTime platform commit) = .ok s') :
    (∃ next, s'.flush = { s.flush with names := s.flush.names.set name next }) ∧
      ∃ added, s'.latest = s.latest ++ added ∧
        ∀ pair, pair ∈ added.filterMap restatedPair ↔
          Restates platform lookups options commit name landing ∧
            pair = (name, landing.state.highWater + 1) := by
  -- A latest that is taken as it is adds no restatement.
  have htaken : ∀ version skipped,
      s' = s.take name landing.state version skipped →
      ¬Restates platform lookups options commit name landing →
      (∃ next, s'.flush = { s.flush with names := s.flush.names.set name next }) ∧
        ∃ added, s'.latest = s.latest ++ added ∧
          ∀ pair, pair ∈ added.filterMap restatedPair ↔
            Restates platform lookups options commit name landing ∧
              pair = (name, landing.state.highWater + 1) := by
    intro version skipped heq hnot
    refine ⟨⟨{ landing.state with latest := some version }, by rw [heq]; rfl⟩,
      [.rebased name version skipped], by rw [heq]; rfl, ?_⟩
    intro pair
    exact ⟨fun hmem => absurd hmem (by simp [restatedPair]), fun hboth => absurd hboth.1 hnot⟩
  unfold Settling.choose at h
  cases hlatest : landing.state.latest with
  | none =>
    rw [hlatest] at h
    apply htaken _ _ (Except.ok.inj h).symm
    intro hrestates
    obtain ⟨current, hcurrent, _⟩ := hrestates
    exact nomatch hlatest.symm.trans hcurrent
  | some current =>
    rw [hlatest] at h
    dsimp only at h
    by_cases hplain : landing.top < current ∨ landing.renamed = true
    · have hnot : ¬Restates platform lookups options commit name landing := by
        intro hrestates
        obtain ⟨other, hother, hle, hrenamed, _⟩ := hrestates
        obtain rfl := Option.some.inj (hlatest.symm.trans hother)
        rcases hplain with hlt | htrue
        · omega
        · exact nomatch htrue.symm.trans hrenamed
      rw [if_pos hplain] at h
      by_cases hlt : current < landing.top
      · rw [if_pos hlt] at h
        exact htaken _ _ (Except.ok.inj h).symm hnot
      · rw [if_neg hlt] at h
        by_cases heq : current = landing.top
        · rw [if_pos heq] at h
          exact htaken _ _ (Except.ok.inj h).symm hnot
        · rw [if_neg heq] at h
          obtain rfl := Except.ok.inj h
          refine ⟨⟨landing.state, rfl⟩, [], (List.append_nil _).symm, ?_⟩
          intro pair
          exact ⟨fun hmem => absurd hmem List.not_mem_nil, fun hboth => absurd hboth.1 hnot⟩
    · rw [if_neg hplain] at h
      rw [not_or] at hplain
      have hobserved : (landing.state.observedAt.get current).getD
          (observationTimeOf platform (lookups.observation name) current) =
          observedAtOf platform lookups name landing.state current := rfl
      rw [hobserved] at h
      cases hchoice : chooseLatest (executionTime platform commit)
          (observedAtOf platform lookups name landing.state current) options.windowMs with
      | rebased =>
        rw [hchoice] at h
        apply htaken _ _ (Except.ok.inj h).symm
        intro hrestates
        obtain ⟨other, hother, _, _, hcurrent, _⟩ := hrestates
        obtain rfl := Option.some.inj (hlatest.symm.trans hother)
        exact nomatch hchoice.symm.trans hcurrent
      | current =>
        rw [hchoice] at h
        dsimp only at h
        cases hskip : restateSkip lookups options name current landing.state with
        | error reason =>
          rw [hskip] at h
          apply htaken _ _ (Except.ok.inj h).symm
          intro hrestates
          obtain ⟨other, hother, _, _, _, content, hcontent⟩ := hrestates
          obtain rfl := Option.some.inj (hlatest.symm.trans hother)
          exact nomatch hskip.symm.trans hcontent
        | ok content =>
          rw [hskip] at h
          unfold Settling.restate at h
          obtain ⟨version, hversion, h⟩ := bind_ok h
          obtain ⟨_, _, h⟩ := bind_ok h
          obtain ⟨_, _, h⟩ := bind_ok h
          obtain rfl := Except.ok.inj h
          refine ⟨⟨_, rfl⟩, _, rfl, ?_⟩
          intro pair
          have hrestates : Restates platform lookups options commit name landing :=
            ⟨current, hlatest, Nat.le_of_not_lt hplain.1, by simpa using hplain.2, hchoice,
              content, hskip⟩
          rw [← readVersion_ok hversion]
          simp [restatedPair, hrestates]

/-- The names settled so far: the others stand as before, and the restatements are
those that the landings of the settled ones call for. -/
structure SettledSo (platform : Platform) (partition : Partition) (lookups : OfflineRebaseLookups)
    (options : OfflineRebaseOptions) (flush : FlushState) (model : ModelChanges) (commit : Commit)
    (before : List (JsString × OrderedMap ℕ ℕ)) (s : Settling) : Prop where
  others : ∀ name, name ∉ before.map Prod.fst →
    stateOf partition options s.flush name = stateOf partition options flush name
  restated : ∀ pair, pair ∈ s.latest.filterMap restatedPair ↔
    ∃ entry ∈ before, ∃ landing,
      landingOf platform partition options flush model commit entry.1 entry.2 =
        .ok (some landing) ∧
      Restates platform lookups options commit entry.1 landing ∧
      pair = (entry.1, landing.state.highWater + 1)

variable {model : ModelChanges} {commit : Commit} {before : List (JsString × OrderedMap ℕ ℕ)}
  {entry : JsString × OrderedMap ℕ ℕ} {s next : Settling}

/-- A name whose numbers are empty lands nothing. -/
theorem SettledSo.skip
    (h : SettledSo platform partition lookups options flush model commit before s)
    (hnone : ∀ landing, landingOf platform partition options flush model commit entry.1 entry.2 ≠
      .ok (some landing)) :
    SettledSo platform partition lookups options flush model commit (before ++ [entry]) s where
  others := by
    intro name hname
    exact h.others name (fun hmem => hname (by
      rw [List.map_append]
      exact List.mem_append_left _ hmem))
  restated := by
    intro pair
    rw [h.restated pair]
    constructor
    · intro hex
      obtain ⟨other, hother, hrest⟩ := hex
      exact ⟨other, List.mem_append_left _ hother, hrest⟩
    · intro hex
      obtain ⟨other, hother, landing, hland, hrest⟩ := hex
      rcases List.mem_append.mp hother with hother | hother
      · exact ⟨other, hother, landing, hland, hrest⟩
      · rw [List.mem_singleton.mp hother] at hland
        exact absurd hland (hnone landing)

/-- A name that lands is restated where its landing calls for it. -/
theorem SettledSo.land {state : NameState} {top : ℕ} {renamed : Bool}
    (h : SettledSo platform partition lookups options flush model commit before s)
    (hland : landingOf platform partition options flush model commit entry.1 entry.2 =
      .ok (some ⟨state, top, renamed⟩))
    (hchoose : s.choose platform lookups options model commit.partition entry.1 state top renamed
      (executionTime platform commit) = .ok next) :
    SettledSo platform partition lookups options flush model commit (before ++ [entry]) next := by
  obtain ⟨⟨_, hflush⟩, added, hlatest, hadded⟩ := @choose_latest platform lookups options s next
    model commit.partition entry.1 commit ⟨state, top, renamed⟩ hchoose
  refine ⟨?_, ?_⟩
  · intro name hname
    rw [List.map_append, List.mem_append, not_or] at hname
    have hne : name ≠ entry.1 := fun heq => hname.2 (by
      rw [heq]
      exact List.mem_singleton_self _)
    rw [hflush, stateOf_set, if_neg hne]
    exact h.others name hname.1
  · intro pair
    rw [hlatest, List.filterMap_append, List.mem_append, h.restated pair, hadded pair]
    constructor
    · intro hcases
      rcases hcases with ⟨other, hother, hrest⟩ | ⟨hrestates, hpair⟩
      · exact ⟨other, List.mem_append_left _ hother, hrest⟩
      · exact ⟨entry, List.mem_append_right _ (List.mem_singleton_self _), _, hland, hrestates,
          hpair⟩
    · intro hex
      obtain ⟨other, hother, landing', hland', hrestates, hpair⟩ := hex
      rcases List.mem_append.mp hother with hother | hother
      · exact Or.inl ⟨other, hother, landing', hland', hrestates, hpair⟩
      · rw [List.mem_singleton.mp hother] at hland' hrestates hpair
        obtain rfl := Option.some.inj (Except.ok.inj (hland.symm.trans hland'))
        exact Or.inr ⟨hrestates, hpair⟩

variable {remapped : JsString → ℕ → ℕ} {createdAt : Option JsString}
  {records : List (DataVersionOp × RecordKey × DataMetadata)}

/-- **One name is settled.** -/
theorem SettledSo.settle
    (hremapped : remapped =
      remap (localNumbers partition options flush (freshOf commit.ops)) flush.mapped)
    (hcreated : correctedCreatedAt platform commit = .ok createdAt)
    (hrecords : (recordedOf commit.ops).mapM
      (landedRecord partition options flush remapped (appendedOf commit.ops) createdAt) =
        .ok records)
    (h : SettledSo platform partition lookups options flush model commit before s)
    (hnew : entry.1 ∉ before.map Prod.fst)
    (hstep : Settling.settle platform partition lookups options s model commit remapped
      (rewritingOf records) createdAt entry.1 entry.2 = .ok next) :
    SettledSo platform partition lookups options flush model commit (before ++ [entry]) next := by
  unfold Settling.settle at hstep
  cases htop : maxOf (entry.2.entries.map Prod.snd) with
  | none =>
    rw [htop] at hstep
    obtain rfl := Except.ok.inj hstep
    apply h.skip
    intro landing hsome
    rw [hremapped] at hrecords
    simp only [landingOf, hcreated, hrecords, htop, bind, Except.bind, pure, Except.pure] at hsome
    exact nomatch hsome
  | some top =>
    rw [htop] at hstep
    dsimp only at hstep
    obtain ⟨topKey, htopKey, hstep⟩ := bind_ok hstep
    obtain ⟨contents, hcontents, hstep⟩ := bind_ok hstep
    rw [h.others entry.1 hnew] at hstep
    refine h.land ?_ hstep
    rw [hremapped] at hrecords hcontents
    simp only [landingOf, hcreated, hrecords, htop, htopKey, hcontents, bind, Except.bind, pure,
      Except.pure]
    rfl

theorem settled_restatements {changes : List TypedChange} {settled : Settling}
    (hremapped : remapped =
      remap (localNumbers partition options flush (freshOf commit.ops)) flush.mapped)
    (hcreated : correctedCreatedAt platform commit = .ok createdAt)
    (hrecords : (recordedOf commit.ops).mapM
      (landedRecord partition options flush remapped (appendedOf commit.ops) createdAt) =
        .ok records)
    (h : (localNumbers partition options flush (freshOf commit.ops)).entries.foldlM
      (fun s entry => Settling.settle platform partition lookups options s model commit remapped
        (rewritingOf records) createdAt entry.1 entry.2)
      (⟨flush, changes, []⟩ : Settling) = .ok settled) :
    ∀ pair, pair ∈ settled.latest.filterMap restatedPair ↔
      ∃ name numbers landing,
        (localNumbers partition options flush (freshOf commit.ops)).get name = some numbers ∧
        landingOf platform partition options flush model commit name numbers =
          .ok (some landing) ∧
        Restates platform lookups options commit name landing ∧
        pair = (name, landing.state.highWater + 1) := by
  have hall : SettledSo platform partition lookups options flush model commit
      (localNumbers partition options flush (freshOf commit.ops)).entries settled := by
    refine foldlM_ok h ⟨fun _ _ => rfl, ?_⟩ ?_
      (P := fun before s => SettledSo platform partition lookups options flush model commit before s)
    · intro pair
      exact ⟨fun hmem => absurd hmem List.not_mem_nil, fun ⟨_, hmem, _⟩ =>
        absurd hmem List.not_mem_nil⟩
    · intro before entry rest s next hentries hsettled hstep
      have hnodup := (localNumbers partition options flush (freshOf commit.ops)).nodup
      rw [hentries, List.map_append, List.map_cons, List.nodup_append] at hnodup
      have hnew : entry.1 ∉ before.map Prod.fst :=
        fun hold => hnodup.2.2 _ hold _ List.mem_cons_self rfl
      exact hsettled.settle hremapped hcreated hrecords hnew hstep
  intro pair
  rw [hall.restated pair]
  constructor
  · intro hex
    obtain ⟨entry, hentry, landing, hrest⟩ := hex
    exact ⟨entry.1, entry.2, landing, OrderedMap.mem_entries.mp hentry, hrest⟩
  · intro hex
    obtain ⟨name, numbers, landing, hget, hrest⟩ := hex
    exact ⟨(name, numbers), OrderedMap.mem_entries.mpr hget, landing, hrest⟩

theorem localNumbers_nil : localNumbers partition options flush [] = .empty := rfl

theorem keepsClear_of_fresh {commit : Commit} (h : freshOf commit.ops = []) :
    KeepsClear platform partition lookups options flush commit := by
  intro _ _ _ _ name numbers hget
  rw [h, localNumbers_nil, OrderedMap.get_empty] at hget
  exact nomatch hget

/-- **New numbers keep clear of the queue's** just where no latest is restated under a
reserved number. -/
theorem newNumbers_free_iff {commit : Commit} {result : RebasedCommit} {next : FlushState}
    (h : rebaseOne platform partition lookups options flush commit = .ok (result, next)) :
    (∀ number ∈ newNumbers result, number.2 ∉ options.reservedFor number.1) ↔
      KeepsClear platform partition lookups options flush commit := by
  have hnone : result = .unchanged commit →
      ∀ number ∈ newNumbers result, number.2 ∉ options.reservedFor number.1 := by
    intro hresult
    rw [hresult]
    exact List.forall_mem_nil _
  unfold rebaseOne at h
  split at h
  · rename_i type id hidentity
    by_cases hunchanged : staysUnchanged flush commit = true
    · rw [if_pos hunchanged] at h
      obtain ⟨rfl, _⟩ := Prod.mk.inj (Except.ok.inj h)
      have hfresh : freshOf commit.ops = [] := by
        unfold staysUnchanged at hunchanged
        rw [Bool.and_eq_true, Bool.and_eq_true] at hunchanged
        exact List.isEmpty_iff.mp hunchanged.1.1
      exact ⟨fun _ => keepsClear_of_fresh hfresh, fun _ => hnone rfl⟩
    · rw [if_neg hunchanged] at h
      unfold rebaseModel at h
      dsimp only at h
      obtain ⟨changed, hchanged, h⟩ := bind_ok h
      cases changed with
      | some detail =>
        obtain ⟨rfl, _⟩ := Prod.mk.inj (Except.ok.inj h)
        refine ⟨?_, fun _ => List.forall_mem_nil _⟩
        intro _ _ _ _ hunrejected
        exact nomatch hchanged.symm.trans hunrejected
      | none =>
        dsimp only at h
        obtain ⟨createdAt, hcreated, h⟩ := bind_ok h
        obtain ⟨records, hrecords, h⟩ := bind_ok h
        obtain ⟨rewrites, _, h⟩ := bind_ok h
        obtain ⟨settled, hsettled, h⟩ := bind_ok h
        obtain ⟨rfl, _⟩ := Prod.mk.inj (Except.ok.inj h)
        have hrestated := settled_restatements rfl hcreated hrecords hsettled
        constructor
        · intro hfree type' id' hidentity' _ name numbers hget landing hlanding hrestates
          obtain ⟨rfl, rfl⟩ := PartitionIdentity.model.inj (hidentity.symm.trans hidentity')
          refine hfree (name, landing.state.highWater + 1) (List.mem_append_right _ ?_)
          exact (hrestated _).mpr ⟨name, numbers, landing, hget, hlanding, hrestates, rfl⟩
        · intro hclear number hnumber
          rcases List.mem_append.mp hnumber with hrenumbered | hrest
          · obtain ⟨version, hversion, rfl⟩ := List.mem_map.mp hrenumbered
            obtain ⟨hmem, hmoved⟩ := List.mem_filter.mp hversion
            exact (renumbered_free _ version hmem).resolve_left (of_decide_eq_true hmoved)
          · obtain ⟨name, numbers, landing, hget, hlanding, hrestates, rfl⟩ :=
              (hrestated number).mp hrest
            exact hclear type id hidentity hchanged name numbers hget landing hlanding hrestates
  · rename_i hidentity
    obtain ⟨rfl, _⟩ := Prod.mk.inj (Except.ok.inj h)
    refine ⟨?_, fun _ => hnone rfl⟩
    intro _ type id hmodel
    exact absurd hmodel (hidentity type id)

end Free

def zeroDigest : Sha256 := .zeros

/-- A clock that stands still, and one digest for everything. -/
def stillPlatform : Platform where
  sha256Hex := fun _ => zeroDigest
  dateParse := fun _ => some 0
  toISOString := fun _ => some (js "2026-01-01T00:00:00Z")
  isDatetime := fun _ => true
  stringOf := fun _ => []

/-- A queued commit that writes a version of `log`. -/
def queuedWrite (version : Version) (raw metadata : RecordKey) (seq : ℕ) (hpos : 1 ≤ seq)
    (hsafe : seq ≤ maxSafeInteger) (txnId : JsString) : Commit :=
  let intent : Intent := .dataSave ⟨js "swamp/echo", js "m1"⟩ (js "log") version
  Partition.sampleCommit seq hpos hsafe txnId
    [.put ⟨intent, raw, inlineContent stillPlatform (js "text"), none, none⟩,
      .put ⟨intent, metadata, inlineContent stillPlatform (js "metadata"), none, none⟩,
      .dataVersion ⟨metadata, Partition.sampleMetadata version⟩]

def firstQueued : Commit :=
  queuedWrite Partition.version2 ⟨js "data/swamp/echo/m1/log/2/raw", by decide⟩
    Partition.sampleSecondKey 2 Partition.version2.pos Partition.version2.safe (js "t2")

def secondQueued : Commit :=
  queuedWrite Partition.version3 ⟨js "data/swamp/echo/m1/log/3/raw", by decide⟩
    ⟨js "data/swamp/echo/m1/log/3/metadata.yaml", by decide⟩ 3
    Partition.version3.pos Partition.version3.safe (js "t3")

/-- The first version was seen as late as the queued ones, and its content can be read. -/
def stillLookups : OfflineRebaseLookups where
  observation := fun _ _ => some ⟨none, js "2026-01-01T00:00:00Z", none⟩
  content := fun _ _ =>
    some ⟨inlineContent stillPlatform (js "text"), none, Partition.sampleMetadata Partition.version1⟩

/-- The first queued commit is rebased while the second one waits. -/
def waitingOptions : OfflineRebaseOptions where
  encodeMetadata := fun _ => []
  restate := none
  windowMs := none
  carry := none
  reserved := some (reservedBy [secondQueued] Partition.sampleKey)

/-- The queued version 2 keeps its number, and the latest is restated as version 3, which the
second queued commit holds. -/
theorem restatement_collides :
    ∃ result next, rebaseOne stillPlatform Partition.sampleRecorded stillLookups waitingOptions
        (initialFlush waitingOptions) firstQueued = .ok (result, next) ∧
      (js "log", 3) ∈ newNumbers result ∧ 3 ∈ waitingOptions.reservedFor (js "log") := by
  have hrun : (rebaseOne stillPlatform Partition.sampleRecorded stillLookups waitingOptions
      (initialFlush waitingOptions) firstQueued).toOption.any
        (fun pair => decide ((js "log", 3) ∈ newNumbers pair.1)) = true := by
    decide +kernel
  cases hrebase : rebaseOne stillPlatform Partition.sampleRecorded stillLookups waitingOptions
      (initialFlush waitingOptions) firstQueued with
  | error e =>
    rw [hrebase] at hrun
    exact nomatch hrun
  | ok pair =>
    rw [hrebase] at hrun
    exact ⟨pair.1, pair.2, rfl, of_decide_eq_true hrun, by decide +kernel⟩

/-- A commit that wrote version 1 while another machine landed one. -/
def queuedAgain : Commit :=
  queuedWrite Partition.version1 ⟨js "data/swamp/echo/m1/log/1/raw", by decide⟩
    Partition.sampleVersionOp.key 2 Partition.version2.pos Partition.version2.safe (js "t2")

/-- The commit is rebased while the one that holds version 2 waits. -/
def skippingOptions : OfflineRebaseOptions :=
  { waitingOptions with reserved := some (reservedBy [firstQueued] Partition.sampleKey) }

/-- The version is renumbered past the reserved 2, and the latest restated above it. -/
theorem newNumbers_free_renumbered :
    ∃ result next, rebaseOne stillPlatform Partition.sampleRecorded stillLookups skippingOptions
        (initialFlush skippingOptions) queuedAgain = .ok (result, next) ∧
      newNumbers result = [(js "log", 3), (js "log", 4)] ∧
      skippingOptions.reservedFor (js "log") = {2} ∧
      KeepsClear stillPlatform Partition.sampleRecorded stillLookups skippingOptions
        (initialFlush skippingOptions) queuedAgain := by
  have hreserved : skippingOptions.reservedFor (js "log") = {2} := by decide +kernel
  have hrun : (rebaseOne stillPlatform Partition.sampleRecorded stillLookups skippingOptions
      (initialFlush skippingOptions) queuedAgain).toOption.any
        (fun pair => decide (newNumbers pair.1 = [(js "log", 3), (js "log", 4)])) = true := by
    decide +kernel
  cases hrebase : rebaseOne stillPlatform Partition.sampleRecorded stillLookups skippingOptions
      (initialFlush skippingOptions) queuedAgain with
  | error e =>
    rw [hrebase] at hrun
    exact nomatch hrun
  | ok pair =>
    obtain ⟨result, next⟩ := pair
    rw [hrebase] at hrun
    have hnumbers : newNumbers result = [(js "log", 3), (js "log", 4)] := of_decide_eq_true hrun
    refine ⟨result, next, rfl, hnumbers, hreserved, (newNumbers_free_iff hrebase).mp ?_⟩
    rw [hnumbers]
    exact List.forall_mem_cons.mpr ⟨by rw [hreserved]; decide,
      List.forall_mem_singleton.mpr (by rw [hreserved]; decide)⟩

end Swamp
