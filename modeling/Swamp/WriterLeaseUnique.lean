import Swamp.WriterLeaseCalls

/-!
# One hold for each fence

Whatever any number of processes do over one store, in any order of their store
operations, a fence is held once.
-/

namespace Swamp.WriterLease

open Js Interleaving

section Processes

variable {parseDate : JsString → Option ℚ}

/-- Every call a process can make keeps the discipline, and returns only holds
it took. -/
theorem admits : Admits (machine parseDate) discipline
    (fun t outcome s => ∀ o, outcome = .ok o → Answers t o s) where
  starts := by
    intro t s tasks p hstarts
    cases hstarts with
    | acquire o maxWaitMs floor =>
      exact answers_of_keeps (keeps_ask (by intro key h; cases h)) (fun _ _ h => by cases h)
    | forceRelease nonce =>
      exact answers_of_keeps (keeps_forceRelease nonce) (fun _ _ h => by cases h)
    | advance o h =>
      refine Returns.bind ((advance_yields o _).mono ?_)
      intro taken s' _ _ htaken
      cases taken with
      | some next =>
        apply Returns.pure
        intro last hlast _ other heq
        obtain rfl := Outcome.hold.inj heq
        exact (htaken next rfl).later hlast
      | none => exact Returns.pure (fun _ _ _ _ h => by cases h)
    | renew h => exact answers_of_keeps (keeps_renew _) (fun _ _ h => by cases h)
    | release h => exact answers_of_keeps (keeps_release _) (fun _ _ h => by cases h)
    | assertCurrent h => exact answers_of_keeps (keeps_assertCurrent _) (fun _ _ h => by cases h)
  resumes := by
    intro t s outcome p hresume
    rcases outcome with e | o
    · cases hresume
    · cases o with
      | again state =>
        obtain rfl := Option.some.inj hresume
        exact acquireRound_yields state
      | hold hold | undefined | renewed held | forced found | void => cases hresume

theorem sound_begin (store : LeaseStore) :
    Sound (machine parseDate) discipline (fun t outcome s => ∀ o, outcome = .ok o → Answers t o s)
      (begin store) :=
  ⟨World.sound_initial store, by intro t p h; simp [begin] at h⟩

/-- The call of task `t` returned the hold. -/
def Returned (c : Processes) (t : ℕ) (hold : WriterLeaseHold) : Prop :=
  c.tasks[t]? = some (.ret (.ok (.hold hold)))

variable {t : ℕ} {hold : WriterLeaseHold}

theorem taken_of_returned {store : LeaseStore} {c : Processes}
    (hrun : Run (machine parseDate) (begin store) c) (h : Returned c t hold) :
    Taken t hold c.shared :=
  ((sound_begin store).run admits hrun).1.done h _ rfl hold rfl

theorem noted_of_exec {op : Op} {s s' : World} {r : op.Res} {noted : Checked}
    (hexec : exec t op s r s') (h : noted ∈ s'.checked) (hnew : noted ∉ s.checked) :
    t = noted.task ∧ op = .list (.check noted.hold) ∧ s.store = noted.store := by
  have hsame : s'.checked ≠ s.checked := fun heq => hnew (heq ▸ h)
  cases op with
  | list purpose =>
    rcases hexec with ⟨keys, -, -, rfl⟩ | ⟨e, -, rfl⟩
    · cases purpose with
      | read | prune => exact absurd rfl hsame
      | check hold =>
        rcases List.mem_append.mp h with hold' | hnoted
        · exact absurd hold' hnew
        · rw [List.mem_singleton.mp hnoted]
          exact ⟨rfl, rfl, rfl⟩
    · exact absurd rfl hsame
  | get key | fields id => exact absurd (congrArg World.checked hexec.1) hsame
  | put key value | delete key =>
    rcases hexec with ⟨-, rfl⟩ | ⟨e, -, rfl | rfl⟩
    · exact absurd rfl hsame
    · exact absurd rfl hsame
    · exact absurd rfl hsame
  | putIfAbsent key value =>
    rcases hexec with ⟨-, -, rfl⟩ | ⟨-, -, rfl⟩ | ⟨e, -, rfl | ⟨-, rfl⟩⟩
    · exact absurd rfl hsame
    · exact absurd rfl hsame
    · exact absurd rfl hsame
    · exact absurd rfl hsame
  | setLost id error | setReleased id | now | isoNow | nonce | judgeHolder
  | delay ms => exact absurd (congrArg World.checked hexec) hsame

theorem check_moment {store : LeaseStore} {c : Processes}
    (hrun : Run (machine parseDate) (begin store) c) {noted : Checked}
    (h : noted ∈ c.shared.checked) :
    ∃ before after, Run (machine parseDate) (begin store) before ∧
      Acts (machine parseDate) noted.task (.list (.check noted.hold)) before after ∧
      Run (machine parseDate) after c ∧ before.shared.store = noted.store := by
  induction hrun with
  | refl => simp [begin, World.initial] at h
  | @tail c c' hrun hstep ih =>
    by_cases hold : noted ∈ c.shared.checked
    · obtain ⟨before, after, hbefore, hacts, hafter, hstore⟩ := ih hold
      exact ⟨before, after, hbefore, hacts, hafter.tail hstep, hstore⟩
    · cases hstep with
      | start | resume => exact absurd h hold
      | act t op hacts =>
        have hacts' := hacts
        obtain ⟨k, r, -, hexec, -⟩ := hacts'
        obtain ⟨htask, hop, hstore⟩ := noted_of_exec hexec h hold
        exact ⟨c, c', hrun, htask ▸ hop ▸ hacts, Run.refl c', hstore⟩

theorem Taken.unique {s : World} {t' : ℕ} {hold' : WriterLeaseHold} (h : Taken t hold s)
    (h' : Taken t' hold' s) (hfence : hold.fence = hold'.fence) : hold.id = hold'.id ∧ t = t' := by
  have hid : hold.id = hold'.id := by
    rcases Nat.lt_trichotomy hold.id hold'.id with hlt | heq | hlt
    · exact absurd (by rw [hfence]) (h'.first _ hlt _ h.created)
    · exact heq
    · exact absurd (by rw [hfence]) (h.first _ hlt _ h'.created)
  refine ⟨hid, ?_⟩
  have hcreated := h.created
  rw [hid, h'.created] at hcreated
  exact (congrArg Creation.task (Option.some.inj hcreated)).symm

/-- **The writer lease is unique.**  Whatever processes do over one store, no two
calls return a hold for one fence, the highest fence with a record never goes
down, and a hold is returned only if its check was made when no higher fence had
a record and its own was not marked released. -/
theorem writer_lease_unique (parseDate : JsString → Option ℚ) (store : LeaseStore) (c : Processes)
    (hrun : Run (machine parseDate) (begin store) c) :
    (∀ t t' hold hold', Returned c t hold → Returned c t' hold' → hold.fence = hold'.fence →
      t = t' ∧ hold = hold') ∧
    (∀ c', Run (machine parseDate) c c' →
      highestFence c.shared.store ≤ highestFence c'.shared.store) ∧
    (∀ t hold, Returned c t hold →
      ∃ before after, Run (machine parseDate) (begin store) before ∧
        Acts (machine parseDate) t (.list (.check hold)) before after ∧
        Run (machine parseDate) after c ∧
        highestFence before.shared.store ≤ hold.fence ∧
        leaseKey .released hold.fence ∉ before.shared.store) := by
  refine ⟨?_, ?_, ?_⟩
  · intro t t' hold hold' h h' hfence
    obtain ⟨-, rfl⟩ := (taken_of_returned hrun h).unique (taken_of_returned hrun h') hfence
    refine ⟨rfl, ?_⟩
    have hsame := Option.some.inj (h.symm.trans h')
    exact Outcome.hold.inj (Except.ok.inj (Prog.ret.inj hsame))
  · intro c' hrun'
    have hsound := ((sound_begin store).run admits hrun).1
    exact (hsound.run admits hrun').2.highest
  · intro t hold h
    obtain ⟨noted, hnoted, rfl, rfl, hclear⟩ := (taken_of_returned hrun h).checked
    obtain ⟨before, after, hbefore, hacts, hafter, hstore⟩ := check_moment hrun hnoted
    exact ⟨before, after, hbefore, hacts, hafter, hstore ▸ hclear.highest, hstore ▸ hclear.unreleased⟩

/-- The options of a process. -/
def sampleOptions : WriterLeaseOptions :=
  ⟨⟨js "cli", js "host", 1, none⟩, 60000, 10000, 250, 2000⟩

/-- The record of the first fence. -/
def sampleRecord : FenceRecord :=
  { sampleOptions.holder with
    fence := 1, nonce := js "n1", ttlMs := 60000, acquiredAt := js "2026-01-01T00:00:00Z" }

/-- The hold of the first fence. -/
def sampleHold : WriterLeaseHold := ⟨0, sampleRecord⟩

/-- The instant the first process writes. -/
def sampleInstant : JsString := js "2026-01-01T00:00:00Z"

/-- The world once the first fence is created. -/
def sampleCreated : World := (World.initial ∅).create 0 (leaseKey .fence 1) sampleRecord.encode

/-- The world once it is checked and renewed. -/
def sampleRenewed : World :=
  (sampleCreated.note 0 (.check sampleHold)).put (leaseKey .heartbeat 1)
    (encodeHeartbeat sampleRecord sampleInstant)

section Sample

variable {parseDate : JsString → Option ℚ}

theorem requireKey_does (kind : LeaseKeyKind) {fence : ℕ} (h : isFence fence = true) (s : World) :
    Does (machine parseDate) t (requireKey kind fence).run s (.ok (leaseKey kind fence)) s := by
  unfold requireKey
  rw [if_pos h]
  exact Does.ret

theorem isoNow_does (instant : JsString) (s : World) :
    Does (machine parseDate) t isoNow.run s (.ok instant) s :=
  Does.call rfl Does.ret

/-- The keys the first hold's check lists. -/
theorem sample_listed : ∀ key : JsString, key ∈ [leaseKey .fence 1] ↔
    key ∈ sampleCreated.store ∧ WRITER_LEASE_PREFIX <+: key := by
  intro key
  have hbelow : WRITER_LEASE_PREFIX <+: leaseKey .fence 1 :=
    prefix_of_parse (parse_leaseKey (by decide) .fence)
  simp only [sampleCreated, World.create, World.put, World.initial, Finmap.mem_insert,
    Finmap.notMem_empty, or_false, List.mem_singleton]
  exact ⟨fun h => ⟨h, h ▸ hbelow⟩, fun h => h.1⟩

theorem loseTo_clear {keys : List JsString} (hhighest : highestOf hold.fence keys ≤ hold.fence)
    (hreleased : releasedIn keys hold.fence = false) : loseTo hold keys = pure () := by
  unfold loseTo
  rw [if_neg (Nat.not_lt.mpr hhighest), if_neg (by rw [hreleased]; exact Bool.false_ne_true)]

/-- A record of the fence or the one before stays. -/
theorem pruneKey_recent {fence other : ℕ} {key : JsString} {kind : LeaseKeyKind}
    (hparse : parseWriterLeaseKey key = some (kind, other)) (hrecent : fence - 1 ≤ other) :
    pruneKey fence key = pure () := by
  unfold pruneKey
  rw [hparse]
  exact if_neg (Nat.not_lt.mpr hrecent)

theorem sample_unlost : loseTo sampleHold [leaseKey .fence 1] = pure () := by
  have hhighest : highestOf sampleHold.fence [leaseKey .fence 1] = 1 := by
    rw [highestOf_cons, recordedFence_leaseKey (by decide)]
    rfl
  apply loseTo_clear (le_of_eq hhighest)
  have hparse : parseWriterLeaseKey (leaseKey .fence 1) = some (.fence, 1) :=
    parse_leaseKey (by decide) .fence
  simp [releasedIn, hparse]

/-- The check of the first hold. -/
theorem sample_check :
    Does (machine parseDate) 0 (check sampleHold).run sampleCreated (.ok none)
      (sampleCreated.note 0 (.check sampleHold)) := by
  unfold check
  refine Does.bind_ok (Does.perform (Or.inl ⟨_, rfl, sample_listed, rfl⟩)) ?_
  rw [sample_unlost]
  apply Does.bind_ok Does.ret
  exact Does.bind_ok (Does.lift (Does.perform ⟨rfl, rfl⟩)) Does.ret

/-- The renewal of the first hold. -/
theorem sample_renew :
    Does (machine parseDate) 0 (renew sampleHold).run sampleCreated (.ok true) sampleRenewed := by
  unfold renew
  refine Does.bind_ok (Does.lift (Does.perform ⟨rfl, rfl⟩)) ?_
  apply Does.bind_ok sample_check
  refine Does.bind_ok (requireKey_does .heartbeat (by decide) _) ?_
  apply Does.bind_ok (isoNow_does sampleInstant _)
  exact Does.bind_ok (Does.perform (Or.inl ⟨rfl, rfl⟩)) Does.ret

theorem sample_renewed_listed : ∀ key : JsString,
    key ∈ [leaseKey .heartbeat 1, leaseKey .fence 1] ↔
      key ∈ sampleRenewed.store ∧ WRITER_LEASE_PREFIX <+: key := by
  intro key
  have hbelow : ∀ kind, WRITER_LEASE_PREFIX <+: leaseKey kind 1 :=
    fun kind => prefix_of_parse (parse_leaseKey (by decide) kind)
  simp only [sampleRenewed, sampleCreated, World.note, World.create, World.put, World.initial,
    Finmap.mem_insert, Finmap.notMem_empty, or_false, List.mem_cons, List.not_mem_nil]
  refine ⟨?_, fun h => h.1⟩
  intro h
  refine ⟨h, ?_⟩
  rcases h with rfl | rfl
  · exact hbelow .heartbeat
  · exact hbelow .fence

/-- The first takeover. -/
theorem sample_take :
    Does (machine parseDate) 0 (take sampleOptions 1).run (World.initial ∅) (.ok (some sampleHold))
      sampleRenewed := by
  have hpruned : pruneKeys 1 [leaseKey .heartbeat 1, leaseKey .fence 1] = pure () := by
    have hkept : ∀ kind, pruneKey 1 (leaseKey kind 1) = pure () :=
      fun kind => pruneKey_recent (parse_leaseKey (by decide) kind) (by decide)
    unfold pruneKeys
    rw [hkept]
    unfold pruneKeys
    rw [hkept]
    rfl
  unfold take
  apply Does.bind_ok (Does.lift (@Does.perform _ _ _ _ _ _ Op.nonce _ _ (js "n1") rfl))
  apply Does.bind_ok (isoNow_does sampleInstant _)
  refine Does.bind_ok (requireKey_does .fence (by decide) _) ?_
  refine Does.bind_ok (Does.perform (Or.inl ⟨Finmap.notMem_empty, rfl, rfl⟩)) ?_
  have hrenew : Does (machine parseDate) 0
      (tryCatch (renew sampleHold) (fun error => do
        tryCatch (release sampleHold) (fun _ => pure ())
        throw error) : Async Bool).run sampleCreated (.ok true) sampleRenewed :=
    Does.bind sample_renew Does.ret
  apply Does.bind_ok hrenew
  have hprune : Does (machine parseDate) 0 (prune 1).run sampleRenewed (.ok ()) sampleRenewed := by
    unfold prune
    refine Does.bind_ok (Does.perform (Or.inl ⟨_, rfl, sample_renewed_listed, rfl⟩)) ?_
    rw [hpruned]
    exact Does.ret
  exact Does.bind_ok hprune Does.ret

/-- A process that finds no record. -/
theorem sample_reads (t : ℕ) :
    Does (machine parseDate) t (readRecords parseDate).run (World.initial ∅)
      (.ok ⟨none, none, none, false⟩) (World.initial ∅) := by
  have hkeys : ∀ key : JsString, key ∈ ([] : List JsString) ↔
      key ∈ (World.initial ∅).store ∧ WRITER_LEASE_PREFIX <+: key := by
    intro key
    simp [World.initial, Finmap.notMem_empty]
  unfold readRecords
  exact Does.bind_ok (Does.perform (Or.inl ⟨_, rfl, hkeys, rfl⟩)) Does.ret

/-- It judges the lease free, whatever was done since. -/
theorem sample_judge (t : ℕ) (s : World) :
    Does (machine parseDate) t
      (judge parseDate sampleOptions ⟨none, none, none, false⟩).run s (.ok .free) s := by
  unfold judge
  apply Does.bind_ok (Does.lift (@Does.perform _ _ _ _ _ _ Op.now _ _ (0 : ℚ) rfl))
  refine Does.bind_ok (Does.lift
    (@Does.perform _ _ _ _ _ _ Op.judgeHolder _ _ (fun _ => ProcessVerdict.unknown) rfl)) ?_
  exact Does.ret

/-- Where a process stands that began to wait for the lease. -/
def sampleWaiting : Acquiring := ⟨sampleOptions, 0, none, 0, 250⟩

/-- A first round of `acquire` over an empty store. -/
theorem sample_round :
    Does (machine parseDate) 0 (acquireRound parseDate sampleWaiting).run (World.initial ∅)
      (.ok (.hold sampleHold)) sampleRenewed := by
  unfold acquireRound
  refine Does.bind_ok (sample_reads 0) (Does.bind_ok (sample_judge 0 _) ?_)
  exact Does.bind_ok sample_take Does.ret

/-- A second process is refused the fence that was taken since it read. -/
theorem sample_refused :
    Does (machine parseDate) 1 (take sampleOptions 1).run sampleRenewed (.ok none)
      sampleRenewed := by
  have htaken : leaseKey .fence 1 ∈ sampleRenewed.store :=
    ((sample_renewed_listed _).mp (List.mem_cons_of_mem _ List.mem_cons_self)).1
  unfold take
  apply Does.bind_ok (Does.lift (@Does.perform _ _ _ _ _ _ Op.nonce _ _ (js "n2") rfl))
  apply Does.bind_ok (isoNow_does sampleInstant _)
  refine Does.bind_ok (requireKey_does .fence (by decide) _) ?_
  exact Does.bind_ok (Does.perform (Or.inr (Or.inl ⟨htaken, rfl, rfl⟩))) Does.ret

/-- It reads who holds the lease. -/
theorem sample_reads_again :
    ∃ records : WriterLeaseRecords, records.fence = some 1 ∧
      Does (machine parseDate) 1 (readRecords parseDate).run sampleRenewed (.ok records)
        sampleRenewed := by
  have hhighest : highestRecorded [leaseKey .heartbeat 1, leaseKey .fence 1] = some 1 := by
    unfold highestRecorded
    rw [highestOf_cons, highestOf_cons, recordedFence_heartbeat (by decide),
      recordedFence_leaseKey (by decide)]
    rfl
  let record := parseFenceRecord parseDate (sampleRenewed.store.lookup (leaseKey .fence 1)) 1
  let renewedAt := parseHeartbeat parseDate (sampleRenewed.store.lookup (leaseKey .heartbeat 1)) 1
    (record.map (·.nonce))
  refine ⟨⟨some 1, record, renewedAt,
    releasedIn [leaseKey .heartbeat 1, leaseKey .fence 1] 1⟩, rfl, ?_⟩
  unfold readRecords
  refine Does.bind_ok (Does.perform (Or.inl ⟨_, rfl, sample_renewed_listed, rfl⟩)) ?_
  rw [hhighest]
  refine Does.bind_ok (requireKey_does .fence (by decide) _) ?_
  refine Does.bind_ok (Does.perform ⟨rfl, Or.inl rfl⟩) ?_
  refine Does.bind_ok (requireKey_does .heartbeat (by decide) _) ?_
  exact Does.bind_ok (Does.perform ⟨rfl, Or.inl rfl⟩) Does.ret

/-- It has waited as long as it is to. -/
theorem sample_gives_up (records : WriterLeaseRecords) (s : World) :
    Does (machine parseDate) 1 (awaitRetry sampleWaiting records).run s
      (.error (.busy ⟨records.fence, records.record, records.renewedAt⟩
        (0 - sampleWaiting.started))) s := by
  unfold awaitRetry
  apply Does.bind_ok (Does.lift (@Does.perform _ _ _ _ _ _ Op.now _ _ (0 : ℚ) rfl))
  have hwaited : sampleWaiting.maxWaitMs ≤ (0 : ℚ) - sampleWaiting.started := by
    show (0 : ℚ) ≤ 0 - 0
    rw [sub_zero]
  dsimp only
  rw [if_pos hwaited]
  exact Does.ret

/-- A call found the lease held for as long as it waited. -/
def FoundBusy (c : Processes) (t fence : ℕ) : Prop :=
  ∃ inspection waitedMs, c.tasks[t]? = some (.ret (.error (.busy inspection waitedMs))) ∧
    inspection.fence = some fence

/-- Two processes find no record; the first takes the lease before the second
tries to. -/
theorem sample_acquire :
    ∃ c : Processes, Run (machine parseDate) (begin ∅) c ∧ Returned c 0 sampleHold ∧
      FoundBusy c 1 1 := by
  have hstart : Run (machine parseDate) (begin ∅)
      ⟨World.initial ∅, [(acquire sampleOptions 0 none).run, (acquire sampleOptions 0 none).run]⟩ :=
    ((Run.refl _).tail (Step.start (Starts.acquire sampleOptions 0 none))).tail
      (Step.start (Starts.acquire sampleOptions 0 none))
  have hfirst : ∀ t, Does (machine parseDate) t (acquire sampleOptions 0 none).run
      (World.initial ∅) (.ok (.again sampleWaiting)) (World.initial ∅) := by
    intro t
    unfold acquire
    exact Does.bind_ok (Does.lift (@Does.perform _ _ _ _ _ _ Op.now _ _ (0 : ℚ) rfl)) Does.ret
  have hwaiting := (hstart.does (t := 0) rfl (hfirst 0)).does (t := 1) rfl (hfirst 1)
  have hrounds := (hwaiting.tail (Step.resume 0 rfl rfl)).tail (Step.resume 1 rfl rfl)
  have hread := hrounds.does_bind (t := 1) rfl (sample_reads 1)
  have htaken := hread.does (t := 0) rfl sample_round
  obtain ⟨records, hfence, hagain⟩ := @sample_reads_again parseDate
  have hlate := htaken.does (t := 1) rfl
    (Does.bind_ok (sample_judge 1 _) (Does.bind_ok sample_refused (Does.bind_ok hagain
      (sample_gives_up records _))))
  exact ⟨_, hlate, rfl, _, _, rfl, hfence⟩

end Sample

/-- `Date.parse` of the sample's instant. -/
def sampleParseDate (text : JsString) : Option ℚ :=
  if text = sampleInstant then some 1767225600000 else none

/-- The first process holds the lease, and no other call returned its fence: the
second found it held. -/
theorem sample_acquire_unique :
    ∃ c : Processes, Run (machine sampleParseDate) (begin ∅) c ∧ Returned c 0 sampleHold ∧
      FoundBusy c 1 1 ∧
      ∀ t hold, Returned c t hold → hold.fence = 1 → t = 0 ∧ hold = sampleHold := by
  obtain ⟨c, hrun, hreturned, hbusy⟩ := @sample_acquire sampleParseDate
  refine ⟨c, hrun, hreturned, hbusy, ?_⟩
  intro t hold h hfence
  exact (writer_lease_unique sampleParseDate ∅ c hrun).1 t 0 hold sampleHold h hreturned hfence

end Processes

end Swamp.WriterLease
