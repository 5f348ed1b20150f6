import Mathlib.Order.Interval.Finset.Nat
import Swamp.AuditDelivery

/-!
# What the audit emitter counts as dropped

The cursor of a sink passes a position in three ways: a write that holds it
succeeded, it was counted as dropped, or it was overwritten before it was
chained.  `Tally` says so of one sink, for some set of positions as large as the
count, and every step of the emitter keeps it (`Tallies.step`).

A position is counted while a write that holds it is outstanding, or has
succeeded with its timeout over, and that write may succeed all the same.
-/

namespace Swamp

namespace Audit

variable {E C σ ρ ι : Type*}

/-- A batch holds the positions from a cursor on. -/
structure Write.Batch (log : List (ℕ × C)) (through cursor : ℕ) (wr : Write C) : Prop where
  bound : wr.throughSeq ≤ through
  start : ∃ first ≤ cursor,
    wr.events.map Prod.fst = List.range' (first + 1) (wr.throughSeq - first)
  logged : ∀ p ∈ wr.events.map Prod.fst, p ∈ log.map Prod.fst
  answered : wr.handled = true → wr.settledAs.isSome = true

/-- Whether the cursor waits for a write no more. -/
def Write.Past (cursor : ℕ) (wr : Write C) : Prop :=
  wr.settledAs = some false ∨ wr.timedOut = true ∨ wr.throughSeq ≤ cursor

/-- Positions that were counted as dropped: up to the cursor every position
chained is one of them or was stored.  One that is in a write as well was counted
after the write's timeout, or with an overflow. -/
structure Counted (log : List (ℕ × C)) (cursor : ℕ) (writes : List (Write C))
    (counted : Finset ℕ) : Prop where
  placed : ∀ p ∈ counted, p ≤ cursor ∧ p ∈ log.map Prod.fst
  passed : ∀ p ∈ log.map Prod.fst, p ≤ cursor →
    p ∈ counted ∨ ∃ wr ∈ writes, wr.settledAs = some true ∧ p ∈ wr.events.map Prod.fst
  late : ∀ p ∈ counted, ∀ wr ∈ writes, p ∈ wr.events.map Prod.fst →
    wr.settledAs = some false ∨ wr.timedOut = true ∨
      ∃ q, wr.throughSeq < q ∧ q ≤ cursor ∧ q ∉ log.map Prod.fst

structure Tally (log : List (ℕ × C)) (through : ℕ) (held : Option ℕ) (cursor dropped : ℕ)
    (writes : List (Write C)) : Prop where
  within : cursor ≤ through
  unread : ∀ p, cursor < p → p ≤ through → p ∈ log.map Prod.fst
  batches : ∀ wr ∈ writes, wr.Batch log through cursor
  waits : ∀ k wr, writes[k]? = some wr → held = some k ∨ wr.Past cursor
  counted : ∃ counted : Finset ℕ, counted.card = dropped ∧ Counted log cursor writes counted

section

variable {log chained : List (ℕ × C)} {through cursor dropped : ℕ} {held : Option ℕ}
  {writes : List (Write C)} {wr wr' : Write C}

theorem Write.Batch.le (h : wr.Batch log through cursor) {p : ℕ}
    (hp : p ∈ wr.events.map Prod.fst) : p ≤ wr.throughSeq := by
  obtain ⟨first, -, hevents⟩ := h.start
  rw [hevents] at hp
  have hrange := List.mem_range'_1.mp hp
  omega

theorem Write.Batch.holds (h : wr.Batch log through cursor) {p : ℕ} (hlow : cursor < p)
    (hhigh : p ≤ wr.throughSeq) : p ∈ wr.events.map Prod.fst := by
  obtain ⟨first, hfirst, hevents⟩ := h.start
  rw [hevents]
  exact List.mem_range'_1.mpr (by omega)

theorem Write.Batch.mono (h : wr.Batch log through cursor) {through' cursor' : ℕ}
    (hthrough : through ≤ through') (hcursor : cursor ≤ cursor') :
    wr.Batch log through' cursor' := by
  obtain ⟨first, hfirst, hevents⟩ := h.start
  exact ⟨h.bound.trans hthrough, ⟨first, hfirst.trans hcursor, hevents⟩, h.logged, h.answered⟩

theorem Write.Past.mono (h : wr.Past cursor) {cursor' : ℕ} (hcursor : cursor ≤ cursor') :
    wr.Past cursor' :=
  h.imp_right (Or.imp_right (fun hle => hle.trans hcursor))

theorem Counted.late_mono {counted : Finset ℕ} (h : Counted log cursor writes counted)
    {cursor' : ℕ} (hcursor : cursor ≤ cursor') {p : ℕ} (hp : p ∈ counted) (hwr : wr ∈ writes)
    (hin : p ∈ wr.events.map Prod.fst) :
    wr.settledAs = some false ∨ wr.timedOut = true ∨
      ∃ q, wr.throughSeq < q ∧ q ≤ cursor' ∧ q ∉ log.map Prod.fst := by
  refine (h.late p hp wr hwr hin).imp_right (Or.imp_right ?_)
  intro hlost
  obtain ⟨q, hlow, hhigh, hq⟩ := hlost
  exact ⟨q, hlow, hhigh.trans hcursor, hq⟩

/-- **The cursor moves past events that are not delivered**: those chained are
counted, those behind them were overwritten. -/
theorem Tally.skip (h : Tally log through held cursor dropped writes)
    {upTo cursor' through' : ℕ} (hle : cursor ≤ upTo) (hup : upTo ≤ through)
    (hcursor : upTo ≤ cursor') (hend : cursor' ≤ through') (hthrough : through ≤ through')
    (hlost : ∀ q, upTo < q → q ≤ cursor' → q ∉ log.map Prod.fst)
    (hunread : ∀ p, cursor' < p → p ≤ through' → p ∈ log.map Prod.fst)
    (hheld : held = none ∨ (through ≤ upTo ∧ upTo < cursor')) :
    Tally log through' held cursor' (dropped + (upTo - cursor)) writes where
  within := hend
  unread := hunread
  batches := fun wr hwr => (h.batches wr hwr).mono hthrough (hle.trans hcursor)
  waits := fun k wr hk => (h.waits k wr hk).imp_right (fun hpast => hpast.mono (hle.trans hcursor))
  counted := by
    obtain ⟨counted, hcard, hcounted⟩ := h.counted
    have hdisjoint : Disjoint counted (Finset.Ioc cursor upTo) := by
      apply Finset.disjoint_left.mpr
      intro p hp hnew
      exact absurd (hcounted.placed p hp).1 (Nat.not_le.mpr (Finset.mem_Ioc.mp hnew).1)
    refine ⟨counted ∪ Finset.Ioc cursor upTo, ?_, ⟨?_, ?_, ?_⟩⟩
    · rw [Finset.card_union_of_disjoint hdisjoint, hcard, Nat.card_Ioc]
    · intro p hp
      cases Finset.mem_union.mp hp with
      | inl hold =>
        obtain ⟨hpast, hlog⟩ := hcounted.placed p hold
        exact ⟨(hpast.trans hle).trans hcursor, hlog⟩
      | inr hnew =>
        obtain ⟨hlow, hhigh⟩ := Finset.mem_Ioc.mp hnew
        exact ⟨hhigh.trans hcursor, h.unread p hlow (hhigh.trans hup)⟩
    · intro p hp hpast
      by_cases hold : p ≤ cursor
      · exact (hcounted.passed p hp hold).imp_left (Finset.mem_union_left _)
      · by_cases hnew : p ≤ upTo
        · exact Or.inl (Finset.mem_union_right _ (Finset.mem_Ioc.mpr ⟨by omega, hnew⟩))
        · exact absurd hp (hlost p (by omega) hpast)
    · intro p hp wr hwr hin
      cases Finset.mem_union.mp hp with
      | inl hold => exact hcounted.late_mono (hle.trans hcursor) hold hwr hin
      | inr hnew =>
        have hlow := (Finset.mem_Ioc.mp hnew).1
        have hwithin := (h.batches wr hwr).le hin
        have hbound := (h.batches wr hwr).bound
        cases hheld with
        | inr hgap =>
          exact Or.inr (Or.inr ⟨upTo + 1, by omega, hgap.2, hlost _ (by omega) hgap.2⟩)
        | inl hfree =>
          obtain ⟨k, hk⟩ := List.mem_iff_getElem?.mp hwr
          have hpast := (h.waits k wr hk).resolve_left (by rw [hfree]; nofun)
          refine hpast.imp_right (fun hdone => Or.inl (hdone.resolve_right ?_))
          omega

/-- A write begins. -/
theorem Tally.start (h : Tally log through none cursor dropped writes) {events : List (ℕ × C)}
    (hevents : events.map Prod.fst = List.range' (cursor + 1) (through - cursor)) :
    Tally log through (some writes.length) cursor dropped
      (writes ++ [⟨events, through, none, false, false⟩]) where
  within := h.within
  unread := h.unread
  batches := by
    refine List.forall_mem_append.mpr ⟨h.batches, List.forall_mem_singleton.mpr ?_⟩
    refine ⟨le_refl _, ⟨cursor, le_refl _, hevents⟩, ?_, nofun⟩
    intro p hp
    rw [hevents] at hp
    have hrange := List.mem_range'_1.mp hp
    exact h.unread p (by omega) (by omega)
  waits := by
    intro k wr hk
    by_cases hlt : k < writes.length
    · rw [List.getElem?_append_left hlt] at hk
      exact Or.inr ((h.waits k wr hk).resolve_left nofun)
    · have hlength := (List.getElem?_eq_some_iff.mp hk).1
      rw [List.length_append, List.length_singleton] at hlength
      exact Or.inl (congrArg some (by omega))
  counted := by
    obtain ⟨counted, hcard, hcounted⟩ := h.counted
    refine ⟨counted, hcard, hcounted.placed, ?_, ?_⟩
    · intro p hp hpast
      apply (hcounted.passed p hp hpast).imp_right
      intro hstored
      obtain ⟨wr, hwr, hstored⟩ := hstored
      exact ⟨wr, List.mem_append_left _ hwr, hstored⟩
    · intro p hp wr hwr hin
      cases List.mem_append.mp hwr with
      | inl hold => exact hcounted.late p hp wr hold hin
      | inr hnew =>
        rw [List.mem_singleton.mp hnew, hevents] at hin
        have hrange := List.mem_range'_1.mp hin
        have hpast := (hcounted.placed p hp).1
        omega

/-- A write that something more is known of. -/
structure Write.Later (wr wr' : Write C) : Prop extends wr.Marked wr' where
  settled : wr.settledAs.isSome = true → wr'.settledAs = wr.settledAs
  timedOut : wr.timedOut = true → wr'.timedOut = true

theorem Write.Later.past (h : wr.Later wr') (hpast : wr.Past cursor) : wr'.Past cursor := by
  unfold Write.Past
  rw [h.throughSeq]
  refine hpast.imp ?_ (Or.imp_left h.timedOut)
  intro hfailed
  rw [h.settled (by rw [hfailed]; rfl), hfailed]

/-- A write settles, its timeout fires or its handler runs. -/
theorem Tally.mark (h : Tally log through held cursor dropped writes) {k : ℕ}
    (hk : writes[k]? = some wr) (hlater : wr.Later wr') :
    Tally log through held cursor dropped (writes.set k wr') := by
  have hwr := List.mem_of_getElem? hk
  have hlt := (List.getElem?_eq_some_iff.mp hk).1
  have hself : (writes.set k wr')[k]? = some wr' := List.getElem?_set_self hlt
  refine ⟨h.within, h.unread, ?_, ?_, ?_⟩
  · intro a ha
    cases List.mem_or_eq_of_mem_set ha with
    | inl hold => exact h.batches a hold
    | inr hnew =>
      have hbatch := h.batches wr hwr
      rw [hnew]
      exact ⟨hlater.throughSeq ▸ hbatch.bound, by
        rw [hlater.throughSeq, hlater.events]; exact hbatch.start, by
        rw [hlater.events]; exact hbatch.logged, hlater.answered⟩
  · intro j a ha
    by_cases hj : k = j
    · rw [← hj, hself] at ha
      cases ha
      exact hj ▸ (h.waits k wr hk).imp_right hlater.past
    · rw [List.getElem?_set_ne hj] at ha
      exact h.waits j a ha
  · obtain ⟨counted, hcard, hcounted⟩ := h.counted
    refine ⟨counted, hcard, hcounted.placed, ?_, ?_⟩
    · intro p hp hpast
      apply (hcounted.passed p hp hpast).imp_right
      intro hstored
      obtain ⟨a, ha, hsuccess, hin⟩ := hstored
      obtain ⟨j, hj⟩ := List.mem_iff_getElem?.mp ha
      by_cases hjk : k = j
      · rw [← hjk, hk] at hj
        cases hj
        refine ⟨wr', List.mem_of_getElem? hself, ?_, hlater.events ▸ hin⟩
        rw [hlater.settled (by rw [hsuccess]; rfl), hsuccess]
      · rw [← List.getElem?_set_ne hjk] at hj
        exact ⟨a, List.mem_of_getElem? hj, hsuccess, hin⟩
    · intro p hp a ha hin
      cases List.mem_or_eq_of_mem_set ha with
      | inl hold => exact hcounted.late p hp a hold hin
      | inr hnew =>
        rw [hnew, hlater.events] at hin
        rw [hnew, hlater.throughSeq]
        refine (hcounted.late p hp wr hwr hin).imp ?_ (Or.imp_left hlater.timedOut)
        intro hfailed
        rw [hlater.settled (by rw [hfailed]; rfl), hfailed]

/-- The success of a write moves the cursor. -/
theorem Tally.advance (h : Tally log through held cursor dropped writes) (hwr : wr ∈ writes)
    (hsuccess : wr.settledAs = some true) :
    Tally log through held (max cursor wr.throughSeq) dropped writes where
  within := Nat.max_le.mpr ⟨h.within, (h.batches wr hwr).bound⟩
  unread := fun p hp => h.unread p (lt_of_le_of_lt (Nat.le_max_left _ _) hp)
  batches := fun a ha => (h.batches a ha).mono (le_refl _) (Nat.le_max_left _ _)
  waits := fun k a hk => (h.waits k a hk).imp_right (fun hpast => hpast.mono (Nat.le_max_left _ _))
  counted := by
    obtain ⟨counted, hcard, hcounted⟩ := h.counted
    refine ⟨counted, hcard, ?_, ?_, ?_⟩
    · intro p hp
      obtain ⟨hpast, hlog⟩ := hcounted.placed p hp
      exact ⟨hpast.trans (Nat.le_max_left _ _), hlog⟩
    · intro p hp hpast
      by_cases hold : p ≤ cursor
      · exact hcounted.passed p hp hold
      · exact Or.inr ⟨wr, hwr, hsuccess, (h.batches wr hwr).holds (by omega) (by omega)⟩
    · intro p hp a ha hin
      exact hcounted.late_mono (Nat.le_max_left _ _) hp ha hin

/-- A write is awaited no more. -/
theorem Tally.release (h : Tally log through held cursor dropped writes) {k : ℕ}
    (hheld : held = some k) (hk : writes[k]? = some wr) (hpast : wr.Past cursor) :
    Tally log through none cursor dropped writes where
  within := h.within
  unread := h.unread
  batches := h.batches
  waits := by
    intro j a ha
    refine Or.inr ((h.waits j a ha).elim ?_ id)
    intro hj
    rw [hheld] at hj
    cases hj
    rw [hk] at ha
    cases ha
    exact hpast
  counted := h.counted

/-- An event is chained. -/
theorem Tally.chain (h : Tally log through held cursor dropped writes) (event : C) :
    Tally (log ++ [(through + 1, event)]) (through + 1) held cursor dropped writes := by
  have hcursor := h.within
  have hmem : ∀ p, p ∈ (log ++ [(through + 1, event)]).map Prod.fst ↔
      p ∈ log.map Prod.fst ∨ p = through + 1 := by
    intro p
    rw [List.map_append, List.mem_append, List.map_singleton, List.mem_singleton]
  refine ⟨by omega, ?_, ?_, h.waits, ?_⟩
  · intro p hlow hhigh
    by_cases hnew : p = through + 1
    · exact (hmem p).mpr (Or.inr hnew)
    · exact (hmem p).mpr (Or.inl (h.unread p hlow (by omega)))
  · intro wr hwr
    have hbatch := h.batches wr hwr
    exact ⟨hbatch.bound.trans (Nat.le_succ _), hbatch.start,
      fun p hp => (hmem p).mpr (Or.inl (hbatch.logged p hp)), hbatch.answered⟩
  · obtain ⟨counted, hcard, hcounted⟩ := h.counted
    refine ⟨counted, hcard, ?_, ?_, ?_⟩
    · intro p hp
      obtain ⟨hpast, hlog⟩ := hcounted.placed p hp
      exact ⟨hpast, (hmem p).mpr (Or.inl hlog)⟩
    · intro p hp hpast
      exact hcounted.passed p (((hmem p).mp hp).resolve_right (by omega)) hpast
    · intro p hp wr hwr hin
      refine (hcounted.late p hp wr hwr hin).imp_right (Or.imp_right ?_)
      intro hlost
      obtain ⟨q, hlow, hhigh, hq⟩ := hlost
      exact ⟨q, hlow, hhigh, fun hnew => ((hmem q).mp hnew).elim hq (by omega)⟩

variable {s : Sink C} {awaited : Option ℕ}

/-- What is known of a sink. -/
def Sink.Tallied (log : List (ℕ × C)) (through : ℕ) (awaited : Option ℕ) (s : Sink C) : Prop :=
  Tally log through (s.held awaited) s.cursor s.dropped s.writes

theorem Sink.tallied_of_idle (hpump : s.pump = .idle)
    (h : Tally log through awaited s.cursor s.dropped s.writes) : s.Tallied log through awaited := by
  unfold Sink.Tallied
  rw [held_of_pump awaited hpump]
  exact h

theorem Tally.clampCursor (h : Tally log through none s.cursor s.dropped s.writes)
    (hheld : Held log chained through) :
    let clamped := s.clampCursor chained through
    Tally log through none clamped.cursor clamped.dropped clamped.writes := by
  have holdest := hheld.oldest
  unfold Sink.clampCursor
  dsimp only
  split
  · exact h
  · generalize hoverlap : oldestHeld chained through - 1 = last
    have hle : s.cursor ≤ last := by omega
    have hend : last ≤ through := by omega
    exact h.skip hle hend (le_refl last) hend (le_refl through)
      (fun q hlow hhigh => absurd hhigh (Nat.not_le.mpr hlow))
      (fun p hp => h.unread p (lt_of_le_of_lt hle hp)) (Or.inl rfl)

theorem Tally.runPump (h : Tally log through none s.cursor s.dropped s.writes)
    (hheld : Held log chained through) :
    (s.runPump chained through).Tallied log through none := by
  have hclamped := h.clampCursor hheld
  obtain ⟨cursor, dropped, heq, -, hcursor, hoverlap, -⟩ := clampCursor_cases hheld h.within
  have hbatch := (hheld.batch hoverlap hcursor).2
  unfold Sink.runPump
  rw [heq] at hclamped ⊢
  dsimp only
  split
  · exact hclamped
  · exact hclamped.start hbatch

theorem Sink.Tallied.pumpNow (h : s.Tallied log through none) (hheld : Held log chained through)
    (now : ℕ) : (s.pumpNow chained through now).Tallied log through none := by
  unfold Sink.pumpNow
  by_cases hpump : s.pump = .idle
  · have hfree : Tally log through none s.cursor s.dropped s.writes :=
      held_of_pump none hpump ▸ h
    rw [if_neg (by simpa using hpump)]
    split
    · unfold Sink.reportStuck
      split
      · exact h
      · have hclamped := hfree.clampCursor hheld
        obtain ⟨cursor, dropped, heq, -⟩ := clampCursor_cases hheld hfree.within
        rw [heq] at hclamped ⊢
        exact Sink.tallied_of_idle hpump hclamped
    · split
      · exact h
      · exact hfree.runPump hheld
  · rw [if_pos hpump]
    exact h

end

/-- What is known of the emitter and of each sink. -/
structure Tallies (cfg : Settings E C σ ρ ι) (w : World E C σ ρ ι) [DecidableEq ι] : Prop where
  held : Held w.log w.chained w.chainedThroughSeq
  bound : ∀ p ∈ w.log.map Prod.fst, p ≤ w.chainedThroughSeq
  items : ∀ seq items, w.drain = .chaining seq items → seq = w.chainedThroughSeq + 1
  drained : ∀ i k rest, w.drain = .awaiting i k rest → cfg.durable i = true
  quiet : ∀ i, cfg.durable i = true → (w.sinks i).pump = .idle ∧ (w.sinks i).timer = false
  sinks : ∀ i, (w.sinks i).Tallied w.log w.chainedThroughSeq (w.drain.awaits i)

variable {cfg : Settings E C σ ρ ι} {start : σ} {w w' : World E C σ ρ ι} [DecidableEq ι]

theorem Tallies.not_durable (h : Tallies cfg w) {i : ι}
    (hbusy : (w.sinks i).pump ≠ .idle ∨ (w.sinks i).timer = true) : cfg.durable i = false := by
  apply Bool.eq_false_of_not_eq_true
  intro hdurable
  obtain ⟨hpump, htimer⟩ := h.quiet i hdurable
  cases hbusy with
  | inl hpump' => exact hpump' hpump
  | inr htimer' => rw [htimer] at htimer'; cases htimer'

/-- **A step on one sink keeps what is known of all.** -/
theorem Tallies.update (h : Tallies cfg w) {i : ι} {s : Sink C} {drain : Drain E ι}
    {chained : List (ℕ × C)}
    (htallied : s.Tallied w.log w.chainedThroughSeq (drain.awaits i))
    (hquiet : cfg.durable i = true → s.pump = .idle ∧ s.timer = false)
    (hheld : Held w.log chained w.chainedThroughSeq)
    (hothers : ∀ j, j ≠ i → drain.awaits j = w.drain.awaits j)
    (hitems : ∀ seq items, drain = .chaining seq items → w.drain = drain)
    (hdrained : ∀ j k rest, drain = .awaiting j k rest → cfg.durable j = true) :
    Tallies cfg
      { w with chained := chained, drain := drain, sinks := Function.update w.sinks i s } where
  held := hheld
  bound := h.bound
  items := fun seq items hdrain => h.items seq items ((hitems seq items hdrain).trans hdrain)
  drained := hdrained
  quiet := (Function.forall_update_iff w.sinks (fun j s => cfg.durable j = true →
    s.pump = .idle ∧ s.timer = false)).mpr ⟨hquiet, fun j _ => h.quiet j⟩
  sinks := (Function.forall_update_iff w.sinks (fun j s =>
    s.Tallied w.log w.chainedThroughSeq (drain.awaits j))).mpr
      ⟨htallied, fun j hj => hothers j hj ▸ h.sinks j⟩

theorem Tallies.withSink (h : Tallies cfg w) {i : ι} {s : Sink C}
    (htallied : s.Tallied w.log w.chainedThroughSeq (w.drain.awaits i))
    (hquiet : cfg.durable i = true → s.pump = .idle ∧ s.timer = false) :
    Tallies cfg (w.withSink i s) :=
  h.update htallied hquiet h.held (fun _ _ => rfl) (fun _ _ _ => rfl) h.drained

theorem Tallies.pruneChained (h : Tallies cfg w) : Tallies cfg (w.pruneChained cfg) where
  held := h.held.dropWhile _
  bound := h.bound
  items := h.items
  drained := h.drained
  quiet := h.quiet
  sinks := h.sinks

theorem Tallies.pumpSink (h : Tallies cfg w) {i : ι} (hdurable : cfg.durable i = false)
    (now : ℕ) : Tallies cfg (w.pumpSink now i) := by
  have htallied := h.sinks i
  rw [awaits_none h.drained hdurable] at htallied
  refine h.withSink ?_ (fun hno => by rw [hdurable] at hno; cases hno)
  rw [awaits_none h.drained hdurable]
  exact htallied.pumpNow h.held now

theorem Tallies.push (h : Tallies cfg w) (event : E) : Tallies cfg (w.push event) :=
  ⟨h.held, h.bound, h.items, h.drained, h.quiet, h.sinks⟩

theorem Tallies.emit [DecidableEq ρ] (h : Tallies cfg w) (event : E) :
    Tallies cfg (w.emit cfg event) := by
  unfold World.emit
  split
  · exact h
  · split
    · have hdenied : ∀ deniedRequests, Tallies cfg { w with deniedRequests := deniedRequests } :=
        fun _ => ⟨h.held, h.bound, h.items, h.drained, h.quiet, h.sinks⟩
      exact (hdenied _).push event
    · split
      · exact h
      · exact h.push event
    · exact h.push event

/-- **A drain begins**: past an overflow every sink moves behind the gap. -/
theorem Tallies.beginDrain (h : Tallies cfg w) (hidle : w.drain = .idle) :
    Tallies cfg (w.beginDrain cfg) := by
  have hsinks := h.sinks
  rw [hidle] at hsinks
  unfold World.beginDrain
  dsimp only
  split
  · exact ⟨h.held, h.bound, (fun _ _ hdrain => by cases hdrain), (fun _ _ _ hdrain => by cases hdrain),
      h.quiet, hsinks⟩
  · rename_i hsome
    split
    · rename_i hgap
      generalize (w.buffer.readFrom w.chainedThroughSeq).startSeq = startSeq at *
      refine ⟨⟨⟨w.log.length, List.drop_length.symm⟩, Nat.zero_le _, rfl⟩, ?_, ?_,
        (fun _ _ _ hdrain => by cases hdrain), ?_, ?_⟩
      · intro p hp
        have hbound := h.bound p hp
        show p ≤ startSeq - 1
        omega
      · intro seq items hdrain
        cases hdrain
        show startSeq = startSeq - 1 + 1
        omega
      · intro i hdurable
        have hquiet := h.quiet i hdurable
        show ((w.sinks i).skipGap w.chainedThroughSeq startSeq).pump = .idle ∧
          ((w.sinks i).skipGap w.chainedThroughSeq startSeq).timer = false
        unfold Sink.skipGap
        split
        · exact hquiet
        · exact hquiet
      · intro i
        have hcursor := (hsinks i).within
        have hskip := (hsinks i).skip hcursor (le_refl _) (by omega) (le_refl (startSeq - 1))
          (by omega) (fun q hlow _ hin => absurd (h.bound q hin) (Nat.not_le.mpr hlow))
          (fun p hlow hhigh => absurd hhigh (Nat.not_le.mpr hlow))
          (Or.inr ⟨le_refl _, by omega⟩)
        show ((w.sinks i).skipGap w.chainedThroughSeq startSeq).Tallied w.log (startSeq - 1) none
        unfold Sink.skipGap
        rw [if_neg (by omega)]
        have hdropped : (if (w.sinks i).cursor < w.chainedThroughSeq
            then (w.sinks i).dropped + (w.chainedThroughSeq - (w.sinks i).cursor)
            else (w.sinks i).dropped) =
              (w.sinks i).dropped + (w.chainedThroughSeq - (w.sinks i).cursor) := by
          split <;> omega
        rw [hdropped]
        exact hskip
    · rename_i hnext
      refine ⟨h.held, h.bound, ?_, (fun _ _ _ hdrain => by cases hdrain), h.quiet, hsinks⟩
      intro seq items hdrain
      cases hdrain
      show (w.buffer.readFrom w.chainedThroughSeq).startSeq = w.chainedThroughSeq + 1
      unfold RingBuffer.readFrom at hsome hnext ⊢
      split
      · rename_i hnone
        rw [if_pos hnone] at hsome
        exact absurd rfl hsome
      · rename_i hsome'
        rw [if_neg hsome'] at hnext
        dsimp only at hnext ⊢
        omega

/-- The drain chains an event. -/
theorem Tallies.chainNext (h : Tallies cfg w) (hstep : w.chainNext cfg = some w') :
    Tallies cfg w' := by
  unfold World.chainNext at hstep
  split at hstep
  · rename_i seq event items hdrain
    have hseq := h.items seq _ hdrain
    have hawaits : ∀ i, w.drain.awaits i = none := by
      intro i
      rw [hdrain]
      rfl
    have hsinks := h.sinks
    simp only [hawaits] at hsinks
    cases hstep
    subst hseq
    refine ⟨h.held.append _, ?_, ?_, ?_, h.quiet, ?_⟩
    · intro p hp
      dsimp only at hp ⊢
      rw [List.map_append, List.mem_append, List.map_singleton, List.mem_singleton] at hp
      exact hp.elim (fun hold => (h.bound p hold).trans (Nat.le_succ _)) le_of_eq
    · intro seq rest hrest
      dsimp only at hrest ⊢
      split at hrest
      · cases hrest
      · cases hrest
        rfl
    · intro i k rest hrest
      dsimp only at hrest
      split at hrest
      · cases hrest
      · cases hrest
    · intro i
      have hnone : Drain.awaits (if items.isEmpty = true then Drain.writing cfg.sinks
          else Drain.chaining (w.chainedThroughSeq + 1 + 1) items) i = none := by
        split
        · rfl
        · rfl
      show Sink.Tallied _ _ (Drain.awaits _ i) (w.sinks i)
      rw [hnone]
      exact (hsinks i).chain _
  · cases hstep

theorem Tallies.durableNext (h : Tallies cfg w) (hstep : w.durableNext cfg = some w') :
    Tallies cfg w' := by
  unfold World.durableNext at hstep
  split at hstep
  · rename_i i rest hdrain
    have hawaits : ∀ j, w.drain.awaits j = none := by
      intro j
      rw [hdrain]
      rfl
    have hsinks := h.sinks
    simp only [hawaits] at hsinks
    dsimp only at hstep
    split at hstep
    · cases hstep
      exact ⟨h.held, h.bound, (fun _ _ hdrain => by cases hdrain), (fun _ _ _ hdrain => by cases hdrain),
        h.quiet, hsinks⟩
    · rename_i hdurable
      have hdurable' : cfg.durable i = true := by simpa using hdurable
      have hquiet := h.quiet i hdurable'
      have hfree : Tally w.log w.chainedThroughSeq none (w.sinks i).cursor (w.sinks i).dropped
          (w.sinks i).writes := held_of_pump none hquiet.1 ▸ hsinks i
      have hclamped := hfree.clampCursor h.held
      obtain ⟨cursor, dropped, heq, -, hcursor, hoverlap, -⟩ :=
        clampCursor_cases h.held hfree.within
      rw [heq] at hclamped
      have hwriting := Sink.tallied_of_idle (s := { w.sinks i with
        cursor := cursor, dropped := dropped }) hquiet.1 hclamped
      have hwrite : ∀ {s : Sink C}, s.Tallied w.log w.chainedThroughSeq none →
          s.pump = .idle ∧ s.timer = false →
          Tallies cfg ({ w with drain := Drain.writing rest }.withSink i s) :=
        fun hs hidle => h.update hs (fun _ => hidle) h.held (fun j _ => (hawaits j).symm)
          (fun _ _ hdrain => by cases hdrain) (fun _ _ _ hdrain => by cases hdrain)
      split at hstep
      · rename_i hstuck
        have hstuck' : ¬ (w.sinks i).stuckSince.isNone = true := by
          simpa [Option.isSome_iff_ne_none] using hstuck
        cases hstep
        unfold Sink.reportStuck
        rw [if_neg hstuck', heq]
        exact hwrite hwriting hquiet
      · rw [heq] at hstep
        split at hstep
        · cases hstep
          exact hwrite hwriting hquiet
        · cases hstep
          refine h.update ?_ (fun _ => hquiet) h.held
            (fun j hj => (awaits_other hj _ rest).trans (hawaits j).symm)
            (fun _ _ hdrain => by cases hdrain) ?_
          · rw [Drain.awaits, if_pos rfl]
            exact Sink.tallied_of_idle hquiet.1
              (hclamped.start (h.held.batch hoverlap hcursor).2)
          · intro j k rest' hdrain
            cases hdrain
            exact hdurable'
  · cases hstep

theorem Tallies.durableGo (h : Tallies cfg w) {now : ℕ} (hstep : w.durableGo now = some w') :
    Tallies cfg w' := by
  unfold World.durableGo at hstep
  split at hstep
  · rename_i i k rest hdrain
    have hdurable := h.drained i k rest hdrain
    have hquiet := h.quiet i hdurable
    have hothers : ∀ j, j ≠ i → none = w.drain.awaits j := by
      intro j hj
      rw [hdrain]
      exact (awaits_other hj k rest).symm
    have hheld : (w.sinks i).held (w.drain.awaits i) = some k := by
      rw [held_of_pump _ hquiet.1, hdrain, Drain.awaits, if_pos rfl]
    have htallied := h.sinks i
    unfold Sink.Tallied at htallied
    have hto : ∀ {s : Sink C}, Tally w.log w.chainedThroughSeq none s.cursor s.dropped s.writes →
        s.pump = .idle ∧ s.timer = false →
        Tallies cfg ({ w with drain := Drain.writing rest }.withSink i s) :=
      fun hs hidle => h.update (Sink.tallied_of_idle hidle.1 hs) (fun _ => hidle) h.held hothers
        nofun nofun
    dsimp only at hstep
    split at hstep
    · cases hstep
    · rename_i wr hk
      have hwr := List.mem_of_getElem? hk
      split at hstep
      · rename_i hdone
        simp only [Bool.and_eq_true, decide_eq_true_eq] at hdone
        cases hstep
        rw [advanceCursor_eq]
        exact hto ((htallied.advance hwr hdone.2).release hheld hk
          (Or.inr (Or.inr (Nat.le_max_right _ _)))) hquiet
      · rename_i hdone
        split at hstep
        · rename_i htimedOut
          simp only [Bool.and_eq_true, decide_eq_true_eq] at htimedOut
          cases hstep
          exact hto (htallied.release hheld hk (Or.inr (Or.inl htimedOut.1))) hquiet
        · split at hstep
          · rename_i hover
            cases hstep
            refine hto (htallied.release hheld hk ?_) hquiet
            cases htimedOut : wr.timedOut with
            | true => exact Or.inr (Or.inl htimedOut)
            | false =>
              have hhandled : wr.handled = true := by simpa [htimedOut] using hover
              obtain ⟨answer, hanswer⟩ := Option.isSome_iff_exists.mp
                ((htallied.batches wr hwr).answered hhandled)
              cases answer with
              | true => simp [hhandled, hanswer] at hdone
              | false => exact Or.inl hanswer
          · cases hstep
  · cases hstep

theorem Tallies.endDrain (h : Tallies cfg w) {now : ℕ} (hstep : w.endDrain cfg now = some w') :
    Tallies cfg w' := by
  have hpumps : ∀ (sinks : List ι) (v : World E C σ ρ ι), Tallies cfg v →
      (∀ i ∈ sinks, cfg.durable i = false) →
      Tallies cfg (sinks.foldl (World.pumpSink · now ·) v) := by
    intro sinks
    induction sinks with
    | nil => exact fun v hv _ => hv
    | cons i sinks ih =>
      intro v hv hdurable
      obtain ⟨hi, hrest⟩ := List.forall_mem_cons.mp hdurable
      exact ih _ (hv.pumpSink hi now) hrest
  unfold World.endDrain at hstep
  split at hstep
  · rename_i hdrain
    cases hstep
    have hsinks := h.sinks
    rw [hdrain] at hsinks
    refine hpumps _ _ (Tallies.pruneChained ⟨h.held, h.bound, nofun, nofun, h.quiet, hsinks⟩) ?_
    intro i hi
    simpa using (List.mem_filter.mp hi).2
  · cases hstep

/-- Something is noted of a write. -/
theorem Tallies.mark (h : Tallies cfg w) {i : ι} {k : ℕ} {wr wr' : Write C}
    (hk : (w.sinks i).writes[k]? = some wr) (hlater : wr.Later wr') :
    Tallies cfg (w.withSink i { w.sinks i with writes := (w.sinks i).writes.set k wr' }) :=
  h.withSink ((h.sinks i).mark hk hlater) (h.quiet i)

theorem Tallies.settle (h : Tallies cfg w) {i : ι} {k : ℕ} {succeeded : Bool}
    (hstep : w.settle i k succeeded = some w') : Tallies cfg w' := by
  unfold World.settle at hstep
  dsimp only at hstep
  split at hstep
  · cases hstep
  · rename_i wr hk
    split at hstep
    · cases hstep
    · rename_i hopen
      cases hstep
      exact h.mark hk ⟨⟨rfl, rfl, fun _ => rfl⟩, fun hsettled => absurd hsettled hopen, id⟩

theorem Tallies.timeout (h : Tallies cfg w) {i : ι} {k : ℕ} (hstep : w.timeout i k = some w') :
    Tallies cfg w' := by
  unfold World.timeout at hstep
  dsimp only at hstep
  split at hstep
  · cases hstep
  · rename_i wr hk
    split at hstep
    · cases hstep
    · cases hstep
      have hanswered := ((h.sinks i).batches wr (List.mem_of_getElem? hk)).answered
      exact h.mark hk ⟨⟨rfl, rfl, hanswered⟩, fun _ => rfl, fun _ => rfl⟩

theorem Tallies.deliverAgain (h : Tallies cfg w) {i : ι} (hdurable : cfg.durable i = false)
    {succeeded : Bool} {now : ℕ} :
    Tallies cfg (if (w.sinks i).retryAt ≤ now then w.pumpSink now i
      else if !succeeded || !(w.sinks i).timer then
        w.withSink i { w.sinks i with timer := true }
      else w) := by
  split
  · exact h.pumpSink hdurable now
  · split
    · exact h.withSink (h.sinks i) (fun hno => by rw [hdurable] at hno; cases hno)
    · exact h

/-- **The handler of a settled write runs.** -/
theorem Tallies.handle [DecidableEq ρ] (h : Tallies cfg w) {i : ι} {k now : ℕ}
    (hstep : w.handle cfg i k now = some w') : Tallies cfg w' := by
  unfold World.handle at hstep
  dsimp only at hstep
  split at hstep
  · cases hstep
  · rename_i wr hk
    split at hstep
    · cases hstep
    · rename_i succeeded hsettled
      split at hstep
      · cases hstep
      · generalize hset : (w.sinks i).writes.set k { wr with handled := true } = writes at hstep
        have hlater : wr.Later { wr with handled := true } :=
          ⟨⟨rfl, rfl, fun _ => by rw [hsettled]; rfl⟩, fun _ => rfl, id⟩
        have htallied : Tally w.log w.chainedThroughSeq ((w.sinks i).held (w.drain.awaits i))
            (w.sinks i).cursor (w.sinks i).dropped writes := hset ▸ (h.sinks i).mark hk hlater
        have hwr : { wr with handled := true } ∈ writes := by
          rw [← hset]
          exact List.mem_of_getElem?
            (List.getElem?_set_self (List.getElem?_eq_some_iff.mp hk).1)
        have hadvanced : succeeded = true → Tally w.log w.chainedThroughSeq
            ((w.sinks i).held (w.drain.awaits i)) (max (w.sinks i).cursor wr.throughSeq)
            (w.sinks i).dropped writes := by
          intro heq
          subst heq
          have hmoved := htallied.advance hwr hsettled
          exact hmoved
        split at hstep
        · cases hstep
          exact h.withSink htallied (h.quiet i)
        · split at hstep
          · cases hstep
            exact h.withSink htallied (h.quiet i)
          · split at hstep
            · cases hstep
              unfold World.resumeDurableAfterLateSettle
              simp only [withSink_self, withSink_withSink, advanceCursor_eq]
              split
              · rename_i hsuccess
                exact Tallies.pruneChained (h.withSink (hadvanced hsuccess) (h.quiet i))
              · exact h.withSink htallied (h.quiet i)
            · rename_i hdurable
              have hdurable' : cfg.durable i = false := Bool.eq_false_of_not_eq_true hdurable
              cases hstep
              unfold World.resumeAfterLateSettle
              dsimp only
              refine Tallies.deliverAgain (w := ?_) ?_ hdurable'
              simp only [withSink_self, withSink_withSink, advanceCursor_eq]
              split
              · rename_i hsuccess
                exact Tallies.pruneChained (h.withSink (hadvanced hsuccess) (h.quiet i))
              · exact h.withSink htallied (h.quiet i)

/-- **The delivery of a sink goes on.** -/
theorem Tallies.pumpGo (h : Tallies cfg w) {i : ι} {now : ℕ}
    (hstep : w.pumpGo cfg i now = some w') : Tallies cfg w' := by
  unfold World.pumpGo at hstep
  dsimp only at hstep
  split at hstep
  · rename_i k hpump
    have hdurable : cfg.durable i = false := h.not_durable (Or.inl (by rw [hpump]; nofun))
    have hawaits := awaits_none h.drained hdurable
    have hnot : cfg.durable i = true → ∀ {p : Prop}, p := by
      intro hno
      rw [hdurable] at hno
      cases hno
    have hheld : (w.sinks i).held (w.drain.awaits i) = some k := by
      unfold Sink.held
      rw [hpump]
    have htallied := h.sinks i
    unfold Sink.Tallied at htallied
    split at hstep
    · cases hstep
    · rename_i wr hk
      have hwr := List.mem_of_getElem? hk
      have hfailed : ∀ {s : Sink C}, wr.Past (w.sinks i).cursor → s.pump = .ending →
          s.cursor = (w.sinks i).cursor → s.dropped = (w.sinks i).dropped →
          s.writes = (w.sinks i).writes → Tallies cfg (w.withSink i s) := by
        intro s hpast hending hcursor hdropped hwrites
        refine h.withSink ?_ (fun hno => hnot hno)
        have hfree := htallied.release hheld hk hpast
        unfold Sink.Tallied Sink.held
        rw [hending, hawaits, hcursor, hdropped, hwrites]
        exact hfree
      split at hstep
      · rename_i htimedOut
        cases hstep
        exact hfailed (Or.inr (Or.inl htimedOut)) rfl rfl rfl rfl
      · split at hstep
        · cases hstep
        · rename_i hhandled
          split at hstep
          · rename_i hsuccess
            cases hstep
            have hsuccess' : wr.settledAs = some true := hsuccess
            have hadvanced := htallied.advance hwr hsuccess'
            have hfree := hadvanced.release hheld hk (Or.inr (Or.inr (Nat.le_max_right _ _)))
            rw [advanceCursor_eq]
            have hnext := (h.withSink (s := { w.sinks i with
              failures := 0, retryAt := 0, cursor := max (w.sinks i).cursor wr.throughSeq })
              hadvanced (fun hno => hnot hno)).pruneChained
            refine hnext.withSink ?_ (fun hno => hnot hno)
            rw [awaits_none hnext.drained hdurable]
            show Sink.Tallied _ _ none (Sink.runPump (Function.update w.sinks i _ i) _ _)
            rw [Function.update_self]
            exact Tally.runPump hfree hnext.held
          · rename_i hfailure
            cases hstep
            refine hfailed (Or.inl ?_) rfl rfl rfl rfl
            obtain ⟨answer, hanswer⟩ := Option.isSome_iff_exists.mp
              ((htallied.batches wr hwr).answered (by simpa using hhandled))
            cases answer with
            | true => exact absurd hanswer hfailure
            | false => exact hanswer
  · cases hstep

theorem Tallies.pumpDone (h : Tallies cfg w) {i : ι} (hstep : w.pumpDone i = some w') :
    Tallies cfg w' := by
  unfold World.pumpDone at hstep
  split at hstep
  · rename_i hpump
    cases hstep
    have htallied := h.sinks i
    unfold Sink.Tallied Sink.held at htallied
    rw [hpump] at htallied
    exact h.withSink htallied (fun hdurable => ⟨rfl, (h.quiet i hdurable).2⟩)
  · cases hstep

theorem Tallies.timerFires (h : Tallies cfg w) {i : ι} {now : ℕ}
    (hstep : w.timerFires i now = some w') : Tallies cfg w' := by
  unfold World.timerFires at hstep
  split at hstep
  · rename_i htimer
    have hdurable : cfg.durable i = false := h.not_durable (Or.inr htimer)
    cases hstep
    exact Tallies.pumpSink (w := w.withSink i { w.sinks i with timer := false, retryAt := 0 })
      (h.withSink (h.sinks i) (fun hno => by rw [hdurable] at hno; cases hno)) hdurable now
  · cases hstep

/-- **Every step keeps what is known of the sinks.** -/
theorem Tallies.step [DecidableEq ρ] (h : Tallies cfg w) {label : Label E ι}
    (hstep : w.step cfg label = some w') : Tallies cfg w' := by
  cases label with
  | emit event =>
    cases hstep
    exact h.emit event
  | drain =>
    unfold World.step at hstep
    dsimp only at hstep
    split at hstep
    · rename_i hidle
      cases hstep
      exact h.beginDrain hidle
    · cases hstep
  | chainNext => exact h.chainNext hstep
  | durableNext => exact h.durableNext hstep
  | durableGo now => exact h.durableGo hstep
  | endDrain now => exact h.endDrain hstep
  | settle i k succeeded => exact h.settle hstep
  | timeout i k => exact h.timeout hstep
  | handle i k now => exact h.handle hstep
  | pumpGo i now => exact h.pumpGo hstep
  | pumpDone i => exact h.pumpDone hstep
  | timerFires i now => exact h.timerFires hstep

theorem Tallies.initial (cfg : Settings E C σ ρ ι) (capacity : ℕ) (h : 0 < capacity) (start : σ) :
    Tallies cfg (World.initial capacity h start : World E C σ ρ ι) where
  held := ⟨⟨0, rfl⟩, le_refl _, rfl⟩
  bound := nofun
  items := nofun
  drained := nofun
  quiet := fun _ _ => ⟨rfl, rfl⟩
  sinks := fun _ =>
    ⟨le_refl _, fun _ hlow hhigh => absurd hhigh (Nat.not_le.mpr hlow), nofun, nofun,
      ⟨∅, rfl, ⟨nofun, nofun, nofun⟩⟩⟩

theorem Run.tallies [DecidableEq ρ] (h : Run cfg (fun _ _ => True) start w) : Tallies cfg w := by
  induction h with
  | initial capacity hpos => exact .initial cfg capacity hpos start
  | step _ _ hstep ih => exact ih.step hstep

/-- What the count of a sink says.  A position up to its cursor was stored by one
of its writes, is counted, or was never chained; one never chained is in no write
and is not counted.  One counted is in a write that has not failed only where the
write's timeout is over or an overflow came behind the write.  A position past the
cursor is held for the sink, or is counted when its next batch is formed. -/
structure DropCounts (w : World E C σ ρ ι) (i : ι) (counted : Finset ℕ) : Prop where
  card : counted.card = (w.sinks i).dropped
  placed : ∀ p ∈ counted, p ≤ (w.sinks i).cursor ∧ p ∈ w.log.map Prod.fst
  passed : ∀ p, p ≤ (w.sinks i).cursor → p ∈ counted ∨
    (∃ wr ∈ (w.sinks i).writes, wr.settledAs = some true ∧ p ∈ wr.events.map Prod.fst) ∨
      p ∉ w.log.map Prod.fst
  lost : ∀ wr ∈ (w.sinks i).writes, ∀ p ∈ wr.events.map Prod.fst, p ∈ w.log.map Prod.fst
  twice : ∀ p ∈ counted, ∀ wr ∈ (w.sinks i).writes, wr.settledAs ≠ some false →
    p ∈ wr.events.map Prod.fst → wr.timedOut = true ∨
      ∃ q, wr.throughSeq < q ∧ q ≤ (w.sinks i).cursor ∧ q ∉ w.log.map Prod.fst
  ahead : ∀ p, (w.sinks i).cursor < p → p ≤ w.chainedThroughSeq →
    p ∈ w.log.map Prod.fst ∧ (p ∈ w.chained.map Prod.fst ∨
      p ≤ ((w.sinks i).clampCursor w.chained w.chainedThroughSeq).cursor)
  clamped : ((w.sinks i).clampCursor w.chained w.chainedThroughSeq).dropped =
    (w.sinks i).dropped + (((w.sinks i).clampCursor w.chained w.chainedThroughSeq).cursor -
      (w.sinks i).cursor)

theorem Tallies.counts (h : Tallies cfg w) (i : ι) : ∃ counted, DropCounts w i counted := by
  have htally := h.sinks i
  obtain ⟨counted, hcard, hcounted⟩ := htally.counted
  have hwithin := htally.within
  have holdest := h.held.oldest
  have hlength := h.held.length
  refine ⟨counted, hcard, hcounted.placed, ?_, fun wr hwr => (htally.batches wr hwr).logged, ?_, ?_,
    ?_⟩
  · intro p hpast
    by_cases hlog : p ∈ w.log.map Prod.fst
    · exact (hcounted.passed p hlog hpast).imp_right Or.inl
    · exact Or.inr (Or.inr hlog)
  · intro p hp wr hwr hfailed hin
    exact (hcounted.late p hp wr hwr hin).resolve_left hfailed
  · intro p hlow hhigh
    refine ⟨htally.unread p hlow hhigh, ?_⟩
    rw [h.held.positions, List.mem_range'_1]
    unfold Sink.clampCursor
    dsimp only
    split
    · exact Or.inl (by omega)
    · dsimp only
      omega
  · unfold Sink.clampCursor
    dsimp only
    split
    · simp
    · rfl

/-- **The drop counts of every sink**, in every state any interleaving reaches. -/
theorem drops_counted [DecidableEq ρ] (cfg : Settings E C σ ρ ι) (start : σ)
    (w : World E C σ ρ ι) (h : Run cfg (fun _ _ => True) start w) (i : ι) :
    ∃ counted, DropCounts w i counted := h.tallies.counts i

/-- An emitter with room for one event. -/
def smallEmitter : World AuditEvent ChainedAuditEvent AuditChainState JsString Unit :=
  .initial 1 (by decide) .initial

/-- The sink's write hangs, another event comes, and then the write succeeds. -/
def hangs : List (Label AuditEvent Unit) :=
  handed ++ [.timeout () 0, .pumpGo () 0, .pumpDone ()] ++ handed ++ [.settle () 0 true]

/-- What the sink was handed, whether it succeeded, its cursor and its count. -/
def sinkReport (w : World AuditEvent ChainedAuditEvent AuditChainState JsString Unit) :
    List (List ℕ × Option Bool) × ℕ × ℕ :=
  ((w.sinks ()).writes.map (fun wr => (wr.events.map Prod.fst, wr.settledAs)),
    (w.sinks ()).cursor, (w.sinks ()).dropped)

theorem hangs_report : (smallEmitter.steps oneSink hangs).map sinkReport =
    some ([([1], some true)], 1, 1) := by decide +kernel

theorem drops_counted_hanging :
    ∃ w, Run oneSink (fun _ _ => True) .initial w ∧ (w.sinks ()).dropped = 1 ∧
      ∃ counted, DropCounts w () counted := by
  obtain ⟨w, hw, hreport⟩ := Option.map_eq_some_iff.mp hangs_report
  have hrun : Run oneSink (fun _ _ => True) .initial w := Run.steps (.initial 1 (by decide)) hw
  exact ⟨w, hrun, congrArg (fun report => report.2.2) hreport,
    drops_counted oneSink .initial w hrun ()⟩

/-- **A position is stored and counted**: the sink stores the one event its cursor
has passed, and one event counts as dropped. -/
theorem stored_and_counted :
    ¬ ∀ w, Run oneSink (fun _ _ => True) .initial w → ∃ counted : Finset ℕ,
      counted.card = (w.sinks ()).dropped ∧ (∀ p ∈ counted, 0 < p ∧ p ≤ (w.sinks ()).cursor) ∧
      ∀ wr ∈ (w.sinks ()).writes, wr.settledAs ≠ some false →
        ∀ p ∈ wr.events.map Prod.fst, p ∉ counted := by
  intro hclaim
  obtain ⟨w, hw, hreport⟩ := Option.map_eq_some_iff.mp hangs_report
  obtain ⟨counted, hcard, hplaced, hapart⟩ :=
    hclaim w (Run.steps (.initial 1 (by decide)) hw)
  have hcursor : (w.sinks ()).cursor = 1 := congrArg (fun report => report.2.1) hreport
  have hdropped : (w.sinks ()).dropped = 1 := congrArg (fun report => report.2.2) hreport
  have hin : ([1], some true) ∈ (sinkReport w).1 := by
    rw [hreport]
    exact List.mem_cons_self
  obtain ⟨wr, hwr, hpair⟩ := List.mem_map.mp hin
  have hevents : wr.events.map Prod.fst = [1] := congrArg Prod.fst hpair
  have hsettled : wr.settledAs = some true := congrArg Prod.snd hpair
  have hone : 1 ∉ counted :=
    hapart wr hwr (by rw [hsettled]; nofun) 1 (by rw [hevents]; exact List.mem_cons_self)
  rw [hdropped] at hcard
  obtain ⟨p, hp⟩ := Finset.card_pos.mp (by rw [hcard]; decide)
  obtain ⟨hpos, hle⟩ := hplaced p hp
  have heq : p = 1 := by omega
  exact hone (heq ▸ hp)

end Audit

end Swamp
