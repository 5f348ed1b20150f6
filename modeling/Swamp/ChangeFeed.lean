import Swamp.CacheTransparency

/-!
# Reading the change feed

A reader of the feed asks for the commits behind its cursor, page by page, between any
calls on the store, and goes on from the last one it was given.  Compactions and
truncations take rows away; but `sequence` never goes back, and a reader behind the
compaction point loads the base instead.
-/

namespace Swamp

/-- `changesSince`; it throws, with the compaction point, behind that point. -/
def CommitsDb.changesSince (db : CommitsDb) (cursor limit : ℕ) : Except ℕ (List CommitRow) :=
  if cursor < db.point then .error db.point else .ok ((db.rowsPast cursor).take limit)

theorem changesSince_refused {db : CommitsDb} {cursor limit point : ℕ}
    (h : db.changesSince cursor limit = .error point) : cursor < db.point ∧ point = db.point := by
  unfold CommitsDb.changesSince at h
  split at h
  · rename_i hlt
    cases h
    exact ⟨hlt, rfl⟩
  · cases h

/-- Where the reader of a page goes on from. -/
def lastOf (cursor : ℕ) (rows : List CommitRow) : ℕ :=
  (rows.getLast?.map CommitRow.cursor).getD cursor

/-- A call on the store, or the next page of a reader. -/
inductive FeedStep where
  | call (call : StoreCall)
  | page (limit : ℕ)

/-- A step truncates the store to before a row. -/
def FeedStep.Cuts : FeedStep → CommitRow → Prop
  | .call (.truncateAfter mark _ _), row => mark.cursor < row.cursor
  | _, _ => False

/-- A store, and a reader of its feed: the rows it was given, and the point of the last
base it loaded. -/
structure FeedRun where
  store : CommitStore
  cursor : ℕ
  given : List CommitRow
  based : ℕ

namespace FeedRun

/-- Where a page is refused the reader loads the base, up to its point. -/
def step (options : StoreOptions) (self : FeedRun) : FeedStep → FeedRun
  | .call call => { self with store := self.store.call options call }
  | .page limit =>
    match self.store.db.changesSince self.cursor limit with
    | .error point => { self with cursor := point, based := point }
    | .ok rows =>
      { self with
        cursor := lastOf self.cursor rows
        given := self.given ++ rows }

def run (options : StoreOptions) (steps : List FeedStep) : FeedRun :=
  steps.foldl (step options) ⟨.created, 0, [], 0⟩

end FeedRun

variable {options : StoreOptions} {db mid next : CommitsDb} {store : CommitStore}
variable {cuts : CommitRow → Prop}

theorem le_last {rows : List CommitRow} {last : CommitRow}
    (hordered : rows.Pairwise (fun row other => row.cursor < other.cursor))
    (hlast : rows.getLast? = some last) : ∀ row ∈ rows, row.cursor ≤ last.cursor := by
  obtain ⟨front, rfl⟩ := List.getLast?_eq_some_iff.mp hlast
  have hends := (List.pairwise_append.mp hordered).2.2
  intro row hrow
  cases List.mem_append.mp hrow with
  | inl hearlier => exact (hends row hearlier last (List.mem_singleton_self last)).le
  | inr hsame => rw [List.mem_singleton.mp hsame]

/-- New rows come under new cursors, and rows go by compaction, or where `cuts` holds. -/
structure CommitsDb.Onward (cuts : CommitRow → Prop) (db next : CommitsDb) : Prop where
  sequence : db.sequence ≤ next.sequence
  point : db.point ≤ next.point
  added : ∀ row ∈ next.commits, row ∈ db.commits ∨ db.sequence < row.cursor
  kept : ∀ row ∈ db.commits, row ∈ next.commits ∨ row.cursor ≤ next.point ∨ cuts row
  order : next.InOrder

theorem CommitsDb.Onward.refl (h : db.InOrder) : db.Onward cuts db where
  sequence := le_rfl
  point := le_rfl
  added := fun _ hrow => Or.inl hrow
  kept := fun _ hrow => Or.inl hrow
  order := h

theorem CommitsDb.Onward.trans (h : db.Onward cuts mid) (h' : mid.Onward cuts next) :
    db.Onward cuts next where
  sequence := h.sequence.trans h'.sequence
  point := h.point.trans h'.point
  added := by
    intro row hrow
    cases h'.added row hrow with
    | inl hmid => exact h.added row hmid
    | inr hlater => exact Or.inr (h.sequence.trans_lt hlater)
  kept := by
    intro row hrow
    rcases h.kept row hrow with hmid | hpoint | hcuts
    · exact h'.kept row hmid
    · exact Or.inr (Or.inl (hpoint.trans h'.point))
    · exact Or.inr (Or.inr hcuts)
  order := h'.order

theorem WroteAll.onward (hwrote : WroteAll options db next) (h : db.InOrder) :
    db.Onward cuts next := by
  induction hwrote with
  | refl => exact .refl h
  | tail _ hlast ih =>
    apply ih.trans
    obtain ⟨commit, taken, snapshot, hwrite⟩ := hlast
    rw [writeCommit_eq] at hwrite
    split at hwrite
    · cases hwrite
    · split at hwrite
      · cases hwrite
      · cases hwrite
        refine ⟨Nat.le_succ _, le_rfl, ?_, ?_, withCommit_inOrder ih.order commit taken⟩
        · intro row hrow
          cases List.mem_append.mp hrow with
          | inl hold => exact Or.inl hold
          | inr hnew =>
            rw [List.mem_singleton.mp hnew]
            exact Or.inr (Nat.lt_succ_self _)
        · exact fun row hrow => Or.inl (List.mem_append_left _ hrow)

/-- **A batch** takes rows up to the point it leaves. -/
theorem LeftBy.onward {target limit : ℕ} {last : CommitRow}
    {snapshots : List (Address × SnapshotRow)} (h : db.InOrder)
    (hleft : LeftBy db (db.nextBatch target limit) last snapshots next)
    (hlast : (db.nextBatch target limit).getLast? = some last) : db.Onward cuts next := by
  obtain ⟨rest, hsplit⟩ := nextBatch_split h target limit
  have hrest := hleft.commits_eq hsplit h.nodup
  have hmem : last ∈ db.commits := by
    rw [hsplit]
    exact List.mem_append_left _ (List.mem_of_getLast? hlast)
  constructor
  case sequence => exact hleft.sequence.ge
  case point => exact hleft.point ▸ (h.past last hmem).le
  case added =>
    intro row hrow
    rw [hrest] at hrow
    rw [hsplit]
    exact Or.inl (List.mem_append_right _ hrow)
  case kept =>
    intro row hrow
    rw [hrest, hleft.point]
    have hordered := h.ordered
    rw [hsplit] at hrow hordered
    cases List.mem_append.mp hrow with
    | inr hkept => exact Or.inl hkept
    | inl hgone =>
      have hbatch := (List.pairwise_append.mp hordered).1
      exact Or.inr (Or.inl (le_last hbatch hlast row hgone))
  case order => exact hleft.inOrder h hsplit hlast

theorem compactLoop_onward (compaction : CompactHistoryOptions) (target fuel : ℕ)
    (report : CompactionReport) (h : store.db.InOrder) :
    store.db.Onward cuts (store.compactLoop compaction target fuel report).2.db := by
  induction fuel generalizing report store with
  | zero => exact .refl h
  | succ fuel ih =>
    unfold CommitStore.compactLoop
    simp only
    split
    · exact .refl h
    · split
      · exact .refl h
      · rename_i hlast
        split
        · exact .refl h
        · split
          · exact .refl h
          · rename_i heq
            have hbatch : store.db.Onward cuts _ := (compactBatch_rows heq).onward h hlast
            exact hbatch.trans (@ih ⟨_, store.cache⟩ _ hbatch.order)

theorem truncateAfter_onward (mark : StoreHighWaterMark) (now : ℤ) (commitFails : Bool)
    (h : store.db.InOrder) :
    store.db.Onward (fun row => mark.cursor < row.cursor)
      (store.truncateAfter options mark now commitFails).2.db := by
  unfold CommitStore.truncateAfter
  split
  · exact .refl h
  · exact .refl h
  · simp only
    split
    · exact .refl h
    · split
      · rw [CommitStore.forgetAll_db]
        exact .refl h
      · rename_i heq
        split
        · rw [CommitStore.forgetAll_db]
          exact .refl h
        · have htruncated := truncateRows_rows heq
          have hrows := htruncated.commits
          have hmem : ∀ row ∈ store.db.commits.filter (fun row => row.cursor ≤ mark.cursor),
              row ∈ store.db.commits := fun row hrow => (List.mem_filter.mp hrow).1
          refine ⟨htruncated.sequence.ge, htruncated.point.ge, ?_, ?_, ?_⟩
          · exact fun row hrow => Or.inl (hmem row (hrows ▸ hrow))
          · intro row hrow
            by_cases hbefore : row.cursor ≤ mark.cursor
            · apply Or.inl
              show row ∈ CommitsDb.commits _
              rw [hrows]
              exact List.mem_filter.mpr ⟨hrow, decide_eq_true hbefore⟩
            · exact Or.inr (Or.inr (Nat.lt_of_not_le hbefore))
          · refine ⟨?_, ?_, ?_, ?_⟩
            · show (List.map CommitRow.cursor (CommitsDb.commits _)).Pairwise _
              rw [hrows]
              exact h.cursors.sublist (List.filter_sublist.map _)
            · intro row hrow
              exact htruncated.point ▸ h.past row (hmem row (hrows ▸ hrow))
            · intro row hrow
              exact htruncated.sequence ▸ h.assigned row (hmem row (hrows ▸ hrow))
            · show CommitsDb.point _ ≤ CommitsDb.sequence _
              rw [htruncated.point, htruncated.sequence]
              exact h.reached

/-- **Every call takes the rows onward.** -/
theorem call_onward (call : StoreCall) (h : store.db.InOrder) :
    store.db.Onward (FeedStep.call call).Cuts (store.call options call).db := by
  cases call with
  | appends clock entries => exact (CommitStore.drain_wrote clock _ entries).onward h
  | compactHistory compaction through => exact compactLoop_onward compaction _ _ _ h
  | truncateAfter mark now commitFails => exact truncateAfter_onward mark now commitFails h
  | readPartition ns key =>
    change store.db.Onward _ (store.partition options ns key).2.db
    rw [CommitStore.partition_db]
    exact .refl h
  | reopen => exact .refl h
  | raiseWriterFence fence =>
    have hfenced : store.db.Onward (FeedStep.call (.raiseWriterFence fence)).Cuts
        { store.db with writerFence := some fence } :=
      ⟨le_rfl, le_rfl, fun _ hrow => Or.inl hrow, fun _ hrow => Or.inl hrow,
        h.cursors, h.past, h.assigned, h.reached⟩
    change store.db.Onward _ (store.raiseWriterFence fence).2.db
    unfold CommitStore.raiseWriterFence
    split
    · exact .refl h
    · split
      · split
        · exact hfenced
        · exact .refl h
      · exact hfenced

/-- What a page is: the rows past the cursor, up to the one the reader goes on from. -/
structure PageOf (db : CommitsDb) (cursor limit last : ℕ) (rows : List CommitRow) : Prop where
  point : db.point ≤ cursor
  onward : cursor ≤ last
  ordered : rows.Pairwise (fun row other => row.cursor < other.cursor)
  stored : ∀ row ∈ rows, row ∈ db.commits ∧ cursor < row.cursor ∧ row.cursor ≤ last
  all : ∀ row ∈ db.commits, cursor < row.cursor → row.cursor ≤ last → row ∈ rows
  short : rows.length < limit → ∀ row ∈ db.commits, row.cursor ≤ last

theorem lastOf_le {cursor bound : ℕ} {rows : List CommitRow} (hcursor : cursor ≤ bound)
    (hrows : ∀ row ∈ rows, row.cursor ≤ bound) : lastOf cursor rows ≤ bound := by
  unfold lastOf
  cases hlast : rows.getLast? with
  | none => exact hcursor
  | some last => exact hrows last (List.mem_of_getLast? hlast)

theorem lastOf_bounds {cursor : ℕ} {rows rest : List CommitRow}
    (hordered : (rows ++ rest).Pairwise (fun row other => row.cursor < other.cursor))
    (hpast : ∀ row ∈ rows ++ rest, cursor < row.cursor) :
    cursor ≤ lastOf cursor rows ∧ (∀ row ∈ rows, row.cursor ≤ lastOf cursor rows) ∧
      ∀ row ∈ rest, lastOf cursor rows < row.cursor := by
  unfold lastOf
  cases hlast : rows.getLast? with
  | none =>
    obtain rfl := List.getLast?_eq_none_iff.mp hlast
    exact ⟨le_rfl, fun _ hrow => (List.not_mem_nil hrow).elim, hpast⟩
  | some last =>
    have hsplit := List.pairwise_append.mp hordered
    have hmem := List.mem_of_getLast? hlast
    exact ⟨(hpast last (List.mem_append_left _ hmem)).le, le_last hsplit.1 hlast,
      hsplit.2.2 last hmem⟩

theorem changesSince_page {cursor limit : ℕ} {rows : List CommitRow} (h : db.InOrder)
    (hpage : db.changesSince cursor limit = .ok rows) :
    PageOf db cursor limit (lastOf cursor rows) rows := by
  unfold CommitsDb.changesSince at hpage
  split at hpage
  · cases hpage
  · rename_i hpoint
    cases hpage
    have hmem : ∀ row, row ∈ db.rowsPast cursor ↔ row ∈ db.commits ∧ cursor < row.cursor := by
      intro row
      unfold CommitsDb.rowsPast
      rw [List.mem_filter, decide_eq_true_iff]
    have hsplit := List.take_append_drop limit (db.rowsPast cursor)
    have hordered : (db.rowsPast cursor).Pairwise (fun row other => row.cursor < other.cursor) :=
      h.ordered.filter _
    have hbounds := @lastOf_bounds cursor ((db.rowsPast cursor).take limit)
      ((db.rowsPast cursor).drop limit) (hsplit.symm ▸ hordered)
      (fun row hrow => ((hmem row).mp (hsplit ▸ hrow)).2)
    have hall : ∀ row ∈ db.commits, cursor < row.cursor →
        row ∈ (db.rowsPast cursor).take limit ∨ row ∈ (db.rowsPast cursor).drop limit := by
      intro row hrow hafter
      rw [← List.mem_append, hsplit]
      exact (hmem row).mpr ⟨hrow, hafter⟩
    refine ⟨Nat.le_of_not_lt hpoint, hbounds.1, hordered.sublist (List.take_sublist _ _),
      ?_, ?_, ?_⟩
    · intro row hrow
      have hold := (hmem row).mp (List.mem_of_mem_take hrow)
      exact ⟨hold.1, hold.2, hbounds.2.1 row hrow⟩
    · intro row hrow hafter hlast
      cases hall row hrow hafter with
      | inl htaken => exact htaken
      | inr hleft => exact absurd (hbounds.2.2 row hleft) (Nat.not_lt.mpr hlast)
    · intro hshort row hrow
      rw [List.length_take] at hshort
      have hdrop : (db.rowsPast cursor).drop limit = [] := List.drop_eq_nil_of_le (by omega)
      by_cases hafter : cursor < row.cursor
      · cases hall row hrow hafter with
        | inl htaken => exact hbounds.2.1 row htaken
        | inr hleft =>
          rw [hdrop] at hleft
          exact (List.not_mem_nil hleft).elim
      · exact (Nat.le_of_not_lt hafter).trans hbounds.1

/-- What is so of a reader between its steps. -/
structure FeedRun.Ok (run : FeedRun) : Prop where
  order : run.store.db.InOrder
  ascending : run.given.Pairwise (fun row other => row.cursor < other.cursor)
  behind : ∀ row ∈ run.given, row.cursor ≤ run.cursor
  reached : run.cursor ≤ run.store.db.sequence
  same : ∀ row ∈ run.store.db.commits, row.cursor ≤ run.cursor → row ∈ run.given
  based : run.based ≤ run.cursor

/-- A row is still to come, unless the reader has been given it, or the base that holds
it. -/
def FeedRun.Accounts (run : FeedRun) (row : CommitRow) : Prop :=
  row ∈ run.given ∨ row.cursor ≤ run.based ∨
    run.cursor < row.cursor ∧
      (row ∈ run.store.db.commits ∨ row.cursor ≤ run.store.db.point)

variable {run : FeedRun}

theorem FeedRun.Ok.step (h : run.Ok) (step : FeedStep) : (run.step options step).Ok := by
  cases step with
  | call call =>
    have honward := @call_onward options _ call h.order
    refine ⟨honward.order, h.ascending, h.behind, h.reached.trans honward.sequence, ?_, h.based⟩
    intro row hrow hcursor
    cases honward.added row hrow with
    | inl hold => exact h.same row hold hcursor
    | inr hnew => exact absurd (hcursor.trans h.reached) (Nat.not_le.mpr hnew)
  | page limit =>
    unfold FeedRun.step
    simp only
    split
    · rename_i heq
      obtain ⟨hlt, rfl⟩ := changesSince_refused heq
      refine ⟨h.order, h.ascending, ?_, h.order.reached, ?_, le_rfl⟩
      · exact fun row hrow => (h.behind row hrow).trans hlt.le
      · exact fun row hrow hcursor => absurd (h.order.past row hrow) (Nat.not_lt.mpr hcursor)
    · rename_i rows heq
      have hpage := changesSince_page h.order heq
      refine ⟨h.order, ?_, ?_, ?_, ?_, h.based.trans hpage.onward⟩
      · refine List.pairwise_append.mpr ⟨h.ascending, hpage.ordered, ?_⟩
        intro row hrow other hother
        exact (h.behind row hrow).trans_lt (hpage.stored other hother).2.1
      · intro row hrow
        cases List.mem_append.mp hrow with
        | inl hold => exact (h.behind row hold).trans hpage.onward
        | inr hnew => exact (hpage.stored row hnew).2.2
      · apply lastOf_le h.reached
        intro row hrow
        exact h.order.assigned row (hpage.stored row hrow).1
      · intro row hrow hcursor
        by_cases hafter : run.cursor < row.cursor
        · exact List.mem_append_right _ (hpage.all row hrow hafter hcursor)
        · exact List.mem_append_left _ (h.same row hrow (Nat.le_of_not_lt hafter))

theorem FeedRun.Accounts.step {row : CommitRow} (h : run.Ok) (haccounts : run.Accounts row)
    (step : FeedStep) (hkeeps : ¬ step.Cuts row) : (run.step options step).Accounts row := by
  cases step with
  | call call =>
    have honward := @call_onward options _ call h.order
    rcases haccounts with hgiven | hbased | ⟨hafter, hstill⟩
    · exact Or.inl hgiven
    · exact Or.inr (Or.inl hbased)
    · refine Or.inr (Or.inr ⟨hafter, ?_⟩)
      cases hstill with
      | inr hpoint => exact Or.inr (hpoint.trans honward.point)
      | inl hstored =>
        rcases honward.kept row hstored with hkept | hpoint | hcut
        · exact Or.inl hkept
        · exact Or.inr hpoint
        · exact absurd hcut hkeeps
  | page limit =>
    unfold FeedRun.step
    simp only
    split
    · rename_i heq
      obtain ⟨hlt, rfl⟩ := changesSince_refused heq
      rcases haccounts with hgiven | hbased | ⟨hafter, hstill⟩
      · exact Or.inl hgiven
      · exact Or.inr (Or.inl (hbased.trans (h.based.trans hlt.le)))
      · cases hstill with
        | inr hpoint => exact Or.inr (Or.inl hpoint)
        | inl hstored => exact Or.inr (Or.inr ⟨h.order.past row hstored, Or.inl hstored⟩)
    · rename_i rows heq
      have hpage := changesSince_page h.order heq
      rcases haccounts with hgiven | hbased | ⟨hafter, hstill⟩
      · exact Or.inl (List.mem_append_left _ hgiven)
      · exact Or.inr (Or.inl hbased)
      · have hstored : row ∈ run.store.db.commits :=
          hstill.resolve_right (Nat.not_le.mpr (hpage.point.trans_lt hafter))
        by_cases hlast : row.cursor ≤ lastOf run.cursor rows
        · exact Or.inl (List.mem_append_right _ (hpage.all row hstored hafter hlast))
        · exact Or.inr (Or.inr ⟨Nat.lt_of_not_le hlast, Or.inl hstored⟩)

theorem FeedRun.run_append (before after : List FeedStep) :
    FeedRun.run options (before ++ after) =
      after.foldl (FeedRun.step options) (FeedRun.run options before) :=
  List.foldl_append

theorem FeedRun.run_ok (steps : List FeedStep) : (FeedRun.run options steps).Ok := by
  induction steps using List.reverseRecOn with
  | nil =>
    have horder := upkept_created.order
    exact ⟨horder, List.Pairwise.nil, fun row hrow => (List.not_mem_nil hrow).elim, Nat.zero_le _,
      fun row hrow => (List.not_mem_nil hrow).elim, le_rfl⟩
  | append_singleton steps step ih =>
    rw [FeedRun.run_append]
    exact ih.step step

theorem FeedRun.run_accounts {row : CommitRow} (before after : List FeedStep)
    (hkeeps : ∀ step ∈ after, ¬ step.Cuts row)
    (hrow : row ∈ (FeedRun.run options before).store.db.commits) :
    (FeedRun.run options (before ++ after)).Accounts row := by
  induction after using List.reverseRecOn with
  | nil =>
    rw [List.append_nil]
    by_cases hafter : (FeedRun.run options before).cursor < row.cursor
    · exact Or.inr (Or.inr ⟨hafter, Or.inl hrow⟩)
    · exact Or.inl ((FeedRun.run_ok before).same row hrow (Nat.le_of_not_lt hafter))
  | append_singleton after step ih =>
    rw [← List.append_assoc, FeedRun.run_append]
    have haccounts := ih (fun other hother => hkeeps other (List.mem_append_left _ hother))
    exact haccounts.step (FeedRun.run_ok _) step
      (hkeeps step (List.mem_append_right _ (List.mem_singleton_self step)))

/-- **A reader of the feed is given each commit once**, over any run of calls on the store
and pages.  What it is given comes in order of cursor, and a row stored under the cursor
of one of these is that one.  Of the rows stored at some time and not truncated since, it
has been given all up to its cursor, but for those in the base it loaded.  After a page
that is not full, it has been given every row stored. -/
theorem feed_given_once (options : StoreOptions) (steps : List FeedStep) :
    let run := FeedRun.run options steps
    run.given.Pairwise (fun row other => row.cursor < other.cursor) ∧
      (∀ row ∈ run.store.db.commits, ∀ other ∈ run.given,
        other.cursor = row.cursor → other = row) ∧
      (∀ before after, steps = before ++ after →
        ∀ row ∈ (FeedRun.run options before).store.db.commits, (∀ step ∈ after, ¬ step.Cuts row) →
          row.cursor ≤ run.cursor → row ∈ run.given ∨ row.cursor ≤ run.based) ∧
      ∀ limit rows, run.store.db.changesSince run.cursor limit = .ok rows → rows.length < limit →
        ∀ row ∈ run.store.db.commits, row ∈ (run.step options (.page limit)).given := by
  have hok : (FeedRun.run options steps).Ok := FeedRun.run_ok steps
  refine ⟨hok.ascending, ?_, ?_, ?_⟩
  · intro row hrow other hother hcursor
    have hgiven := hok.same row hrow (hcursor ▸ hok.behind other hother)
    have hnodup : ((FeedRun.run options steps).given.map CommitRow.cursor).Nodup :=
      (List.pairwise_map.mpr hok.ascending).imp Nat.ne_of_lt
    exact List.inj_on_of_nodup_map hnodup hother hgiven hcursor
  · intro before after hsteps row hrow hkeeps hcursor
    subst hsteps
    rcases FeedRun.run_accounts before after hkeeps hrow with hgiven | hbased | ⟨hafter, -⟩
    · exact Or.inl hgiven
    · exact Or.inr hbased
    · exact absurd hcursor (Nat.not_le.mpr hafter)
  · intro limit rows hpage hshort row hrow
    have hafter : ((FeedRun.run options steps).step options (.page limit)).Ok := hok.step _
    have hstep : (FeedRun.run options steps).step options (.page limit) =
        { FeedRun.run options steps with
          cursor := lastOf (FeedRun.run options steps).cursor rows
          given := (FeedRun.run options steps).given ++ rows } := by
      unfold FeedRun.step
      simp only
      rw [hpage]
    rw [hstep] at hafter ⊢
    exact hafter.same row hrow ((changesSince_page hok.order hpage).short hshort row hrow)

end Swamp
