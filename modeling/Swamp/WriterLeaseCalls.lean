import Swamp.WriterLeaseDiscipline

/-!
# What the functions of the lease return

Function by function: each keeps the discipline of the store, whatever the other
processes do in between, and a hold is taken only for the first creation of its
fence.
-/

namespace Swamp.WriterLease

open Js Interleaving

section Functions

variable (parseDate : JsString → Option ℚ) {t : ℕ} {s : World}

/-- What a function of the lease returns, whatever the other processes do. -/
abbrev Yields {α : Type} (t : ℕ) (Q : α → World → Prop) (p : Async α) (s : World) : Prop :=
  Returns (machine parseDate) discipline t Q p s

/-- A function that keeps the discipline, whatever it returns. -/
abbrev Keeps {α : Type} (p : Async α) : Prop :=
  ∀ (t : ℕ) (s : World), Yields parseDate t (fun _ _ => True) p s

variable {parseDate}

/-- One operation. -/
theorem safe_perform {op : Op} {Q : op.Res → World → Prop}
    (hdelete : ∀ key, op = .delete key → s.Deletable key)
    (hpost : ∀ s', s.Later s' → s'.Sound → ∀ r s'', exec t op s' r s'' →
      ∀ next, s''.Later next → next.Sound → Q r next) :
    Safe (machine parseDate) discipline t Q (Prog.perform op) s := by
  intro s' hle hsound r s'' hexec
  obtain ⟨hsound', hle'⟩ := exec_keeps hsound (fun key h => (hdelete key h).later hle) hexec
  exact ⟨hsound', hle', hpost s' hle hsound r s'' hexec⟩

theorem keeps_ask {op : Op} (h : ∀ key, op ≠ .delete key) : Keeps parseDate (ask op) := by
  intro t s
  refine Returns.lift (safe_perform (fun key heq => absurd heq (h key)) ?_)
  intros
  trivial

theorem keeps_setLost (id : ℕ) (error : WriterFencedError) :
    Keeps parseDate (setLost id error) := keeps_ask (by intro key h; cases h)

theorem keeps_setReleased (id : ℕ) : Keeps parseDate (setReleased id) :=
  keeps_ask (by intro key h; cases h)

theorem keeps_fields (id : ℕ) : Keeps parseDate (ask (.fields id)) :=
  keeps_ask (by intro key h; cases h)

theorem keeps_pure {α : Type} (a : α) : Keeps parseDate (pure a) :=
  fun _ _ => Returns.pure (fun _ _ _ => trivial)

theorem Keeps.bind {α β : Type} {p : Async α} {f : α → Async β} (hp : Keeps parseDate p)
    (hf : ∀ a, Keeps parseDate (f a)) : Keeps parseDate (p >>= f) :=
  fun t s => Returns.bind ((hp t s).mono (fun a s' _ _ _ => hf a t s'))

theorem Keeps.tryCatch {α : Type} {p : Async α} {handler : Thrown → Async α}
    (hp : Keeps parseDate p) (hhandler : ∀ e, Keeps parseDate (handler e)) :
    Keeps parseDate (tryCatch p handler) :=
  fun t s => Returns.tryCatch (hp t s) (fun e s' _ _ => hhandler e t s')

theorem keeps_list (purpose : ListPurpose) : Keeps parseDate (list purpose) := fun _ _ =>
  safe_perform (fun _ h => by cases h) (by intros; trivial)

theorem keeps_get (key : JsString) : Keeps parseDate (get key) := fun _ _ =>
  safe_perform (fun _ h => by cases h) (by intros; trivial)

theorem keeps_put (key : JsString) (value : LeaseValue) : Keeps parseDate (put key value) :=
  fun _ _ => safe_perform (fun _ h => by cases h) (by intros; trivial)

theorem keeps_putIfAbsent (key : JsString) (value : LeaseValue) :
    Keeps parseDate (putIfAbsent key value) := fun _ _ =>
  safe_perform (fun _ h => by cases h) (by intros; trivial)

theorem keeps_isoNow : Keeps parseDate isoNow := fun _ _ =>
  safe_perform (fun _ h => by cases h) (by intros; trivial)

theorem keeps_delay (ms : ℚ) : Keeps parseDate (delay ms) := fun _ _ =>
  safe_perform (fun _ h => by cases h) (by intros; trivial)

theorem delete_yields {key : JsString} (h : s.Deletable key) :
    Yields parseDate t (fun _ _ => True) (delete key) s := by
  refine safe_perform ?_ (by intros; trivial)
  intro other heq
  obtain rfl := Op.delete.inj heq
  exact h

/-- A key is made of a fence that is one. -/
theorem requireKey_yields (kind : LeaseKeyKind) (fence : ℕ) :
    Yields parseDate t (fun key _ => key = leaseKey kind fence ∧ isFence fence = true)
      (requireKey kind fence) s := by
  unfold requireKey
  split
  · rename_i hfence
    exact Returns.pure (fun _ _ _ => ⟨rfl, hfence⟩)
  · exact Returns.throw

theorem keeps_requireKey (kind : LeaseKeyKind) (fence : ℕ) :
    Keeps parseDate (requireKey kind fence) :=
  fun _ _ => (requireKey_yields kind fence).mono (fun _ _ _ _ _ => trivial)

theorem keeps_loseTo (hold : WriterLeaseHold) (keys : List JsString) :
    Keeps parseDate (loseTo hold keys) := by
  unfold loseTo
  simp only
  split
  · exact keeps_setLost _ _
  · split
    · exact keeps_setLost _ _
    · exact keeps_pure ()

theorem keeps_check (hold : WriterLeaseHold) : Keeps parseDate (check hold) := by
  unfold check
  apply (keeps_list _).bind
  intro keys
  apply (keeps_loseTo hold keys).bind
  intro _
  exact (keeps_fields _).bind (fun _ => keeps_pure _)

theorem keeps_renew (hold : WriterLeaseHold) : Keeps parseDate (renew hold) := by
  unfold renew
  apply (keeps_fields _).bind
  intro fields
  split
  · exact keeps_pure _
  · apply (keeps_check hold).bind
    intro lost
    split
    · exact keeps_pure _
    · apply (keeps_requireKey _ _).bind
      intro key
      apply keeps_isoNow.bind
      intro renewedAt
      exact (keeps_put _ _).bind (fun _ => keeps_pure _)

theorem keeps_assertCurrent (hold : WriterLeaseHold) : Keeps parseDate (assertCurrent hold) := by
  unfold assertCurrent
  apply (keeps_fields _).bind
  intro fields
  have hlost : Keeps parseDate
      (if fields.lost.isSome then pure fields.lost else check hold : Async _) := by
    split
    · exact keeps_pure _
    · exact keeps_check hold
  apply hlost.bind
  intro lost
  cases lost with
  | some error => exact fun _ _ => Returns.throw
  | none => exact keeps_pure ()

theorem keeps_markReleased (hold : WriterLeaseHold) : Keeps parseDate (markReleased hold) := by
  unfold markReleased
  apply (keeps_requireKey _ _).bind
  intro key
  apply keeps_isoNow.bind
  intro releasedAt
  apply (keeps_putIfAbsent _ _).bind
  intro _
  exact keeps_setLost _ _

/-- A release deletes a heartbeat, never a fence. -/
theorem keeps_release (hold : WriterLeaseHold) : Keeps parseDate (release hold) := by
  unfold release
  apply (keeps_fields _).bind
  intro fields
  split
  · exact keeps_pure ()
  · apply (keeps_setReleased _).bind
    intro _
    have hmark : Keeps parseDate
        (if fields.lost.isNone then markReleased hold else pure () : Async _) := by
      split
      · exact keeps_markReleased hold
      · exact keeps_pure ()
    apply hmark.bind
    intro _ t s
    refine Returns.bind ((requireKey_yields .heartbeat hold.fence).mono ?_)
    intro key s' _ _ hkey
    refine delete_yields (Or.inr ?_)
    rw [hkey.1]
    exact recordedFence_heartbeat hkey.2

variable {fence : ℕ}

theorem pruneKeys_yields (keys : List JsString) (h : fence ≤ highestFence s.store) :
    Yields parseDate t (fun _ _ => True) (pruneKeys fence keys) s := by
  induction keys generalizing s with
  | nil => exact keeps_pure () t s
  | cons key keys ih =>
    have hkey : Yields parseDate t (fun _ _ => True) (pruneKey fence key) s := by
      unfold pruneKey
      split
      · rename_i kind other hparse
        split
        · rename_i hlt
          refine Returns.tryCatch (delete_yields ?_) (fun e s' _ _ => keeps_pure () t s')
          cases kind with
          | fence =>
            apply Or.inl
            rw [recordedFence_eq hparse]
            omega
          | heartbeat | released => exact Or.inr (by simp [recordedFence, hparse])
        · exact keeps_pure () t s
      · exact keeps_pure () t s
    unfold pruneKeys
    refine Returns.bind (hkey.mono ?_)
    intro _ s' hle _ _
    exact ih (le_trans h hle.highest)

theorem prune_yields (h : fence ≤ highestFence s.store) :
    Yields parseDate t (fun _ _ => True) (prune fence) s := by
  unfold prune
  refine Returns.bind ((keeps_list .prune t s).mono ?_)
  intro keys s' hle _ _
  exact pruneKeys_yields keys (le_trans h hle.highest)

/-- Task `t` created the record of the hold's fence. -/
structure Made (t : ℕ) (hold : WriterLeaseHold) (s : World) : Prop where
  isFence : isFence hold.fence = true
  created : s.created[hold.id]? = some ⟨t, leaseKey .fence hold.fence⟩
  highest : hold.fence ≤ highestFence s.store

/-- Task `t` may return the hold: it was the first to create the fence, and a
check of its found the lease clear. -/
structure Taken (t : ℕ) (hold : WriterLeaseHold) (s : World) : Prop where
  created : s.created[hold.id]? = some ⟨t, leaseKey .fence hold.fence⟩
  first : ∀ i < hold.id, ∀ c, s.created[i]? = some c → c.key ≠ leaseKey .fence hold.fence
  checked : ∃ c ∈ s.checked, c.task = t ∧ c.hold = hold ∧ Clear c.store hold.fence

variable {s' : World}

theorem created_later {s : World} (hle : s.Later s') {i : ℕ} {c : Creation}
    (h : s.created[i]? = some c) : s'.created[i]? = some c := by
  obtain ⟨rest, hrest⟩ := hle.created
  have hlt : i < s.created.length := (List.getElem?_eq_some_iff.mp h).1
  rw [← hrest, List.getElem?_append_left hlt]
  exact h

variable {hold : WriterLeaseHold}

theorem Made.later (h : Made t hold s) (hle : s.Later s') : Made t hold s' :=
  ⟨h.isFence, created_later hle h.created, le_trans h.highest hle.highest⟩

theorem Taken.later (h : Taken t hold s) (hle : s.Later s') : Taken t hold s' := by
  refine ⟨created_later hle h.created, ?_, ?_⟩
  · intro i hi c hc
    have hlt : hold.id < s.created.length := (List.getElem?_eq_some_iff.mp h.created).1
    have hbefore : i < s.created.length := by omega
    have hget := created_later hle (List.getElem?_eq_getElem hbefore)
    rw [hget] at hc
    exact h.first i hi c (by rw [← hc]; exact List.getElem?_eq_getElem hbefore)
  · obtain ⟨c, hc, hchecked⟩ := h.checked
    exact ⟨c, hle.checked.subset hc, hchecked⟩

theorem first_of_clear (hsound : s.Sound) (hmade : Made t hold s)
    (hclear : Clear s.store hold.fence) {i : ℕ} (hi : i < hold.id) {c : Creation}
    (hc : s.created[i]? = some c) : c.key ≠ leaseKey .fence hold.fence := by
  intro heq
  have hagain := List.pairwise_iff_getElem.mp hsound.again
  obtain ⟨hlt, hget⟩ := List.getElem?_eq_some_iff.mp hmade.created
  obtain ⟨hlt', hget'⟩ := List.getElem?_eq_some_iff.mp hc
  have hpast := hagain i hold.id hlt' hlt hi (by rw [hget, hget']; exact heq)
  have hpos := (of_decide_eq_true hmade.isFence).1
  rw [hget', heq, recordedFence_leaseKey hmade.isFence] at hpast
  have hhighest := hclear.highest
  omega

/-- **A check that finds nothing** found the lease clear. -/
theorem check_yields (hmade : Made t hold s) :
    Yields parseDate t (fun lost s => lost = none → Taken t hold s) (check hold) s := by
  have hlist : Yields parseDate t
      (fun keys s => highestOf hold.fence keys ≤ hold.fence → releasedIn keys hold.fence = false →
        Taken t hold s) (list (.check hold)) s := by
    refine safe_perform (fun _ h => by cases h) ?_
    intro s' hle hsound r s'' hexec next hnext _ keys hr hhighest hreleased
    rcases hexec with ⟨listed, hok, hkeys, rfl⟩ | ⟨e, herror, -⟩
    · obtain rfl := Except.ok.inj (hok.symm.trans hr)
      have hclear := clear_of_list hkeys hmade.isFence hhighest hreleased
      have hnow := hmade.later hle
      have hnoted : Taken t hold (s'.note t (.check hold)) := by
        refine ⟨hnow.created, ?_, ?_⟩
        · intro i hi c hc
          exact first_of_clear hsound hnow hclear hi hc
        · exact ⟨⟨t, hold, s'.store⟩, List.mem_append_right _ (List.mem_singleton.mpr rfl), rfl,
            rfl, hclear⟩
      exact hnoted.later hnext
    · rw [herror] at hr
      cases hr
  -- Whatever is lost stays lost, so a check that returns nothing marked nothing.
  have hmark : ∀ keys s, Yields parseDate t
      (fun _ s => (s.fields hold.id).lost = none →
        highestOf hold.fence keys ≤ hold.fence ∧ releasedIn keys hold.fence = false)
      (loseTo hold keys) s := by
    intro keys s
    have hset : ∀ error, Yields parseDate t (fun _ s => (s.fields hold.id).lost ≠ none)
        (setLost hold.id error) s := by
      intro error
      refine Returns.lift (safe_perform (fun _ h => by cases h) ?_)
      intro s' _ _ r s'' hexec next hnext _ hnone
      have heq : s'' = s'.setFields hold.id { s'.fields hold.id with lost := some error } := hexec
      have hlost := hnext.lost hold.id (by rw [heq]; simp [World.setFields])
      rw [hnone] at hlost
      cases hlost
    unfold loseTo
    simp only
    split
    · exact (hset _).mono (fun _ _ _ _ hne hnone => absurd hnone hne)
    · rename_i hle
      split
      · exact (hset _).mono (fun _ _ _ _ hne hnone => absurd hnone hne)
      · rename_i hreleased
        exact Returns.pure (fun _ _ _ _ => ⟨Nat.le_of_not_lt hle, Bool.eq_false_iff.mpr hreleased⟩)
  unfold check
  refine Returns.bind (hlist.mono ?_)
  intro keys s₁ _ _ htaken
  refine Returns.bind ((hmark keys s₁).mono ?_)
  intro _ s₂ hle₂ _ hunmarked
  refine Returns.bind (Returns.lift (safe_perform (fun _ h => by cases h) ?_))
  intro s₃ hle₃ _ r s₄ hexec next hnext _
  apply Returns.pure
  intro last hlast _ hnone
  obtain ⟨rfl, rfl⟩ := hexec
  have hbefore : (s₂.fields hold.id).lost = none := by
    by_contra hne
    have hsome := hle₃.lost hold.id (Option.isSome_iff_ne_none.mpr hne)
    rw [hnone] at hsome
    cases hsome
  obtain ⟨hhighest, hreleased⟩ := hunmarked hbefore
  exact (htaken hhighest hreleased).later
    (hle₂.trans (hle₃.trans (hnext.trans hlast)))

theorem renew_yields (hmade : Made t hold s) :
    Yields parseDate t (fun held s => held = true → Taken t hold s) (renew hold) s := by
  have hfenced : ∀ s, Yields parseDate t (fun held s => held = true → Taken t hold s)
      (pure false) s := fun _ => Returns.pure (fun _ _ _ h => by cases h)
  unfold renew
  refine Returns.bind ((keeps_fields hold.id t s).mono ?_)
  intro fields s₁ hle₁ _ _
  split
  · exact hfenced s₁
  · refine Returns.bind ((check_yields (hmade.later hle₁)).mono ?_)
    intro lost s₂ _ _ htaken
    split
    · exact hfenced s₂
    · rename_i hlost
      have hnow : Taken t hold s₂ := htaken (Option.not_isSome_iff_eq_none.mp hlost)
      refine Returns.bind ((keeps_requireKey _ _ t s₂).mono ?_)
      intro key s₃ hle₃ _ _
      refine Returns.bind ((keeps_isoNow t s₃).mono ?_)
      intro renewedAt s₄ hle₄ _ _
      refine Returns.bind ((keeps_put _ _ t s₄).mono ?_)
      intro _ s₅ hle₅ _ _
      apply Returns.pure
      intro last hlast _ _
      exact hnow.later (hle₃.trans (hle₄.trans (hle₅.trans hlast)))

/-- The creation of a fence record. -/
theorem create_yields (hfence : isFence fence = true) (value : LeaseValue) :
    Yields parseDate t
      (fun created s => ∀ id, created = some id → ∀ record : FenceRecord, record.fence = fence →
        Made t ⟨id, record⟩ s)
      (putIfAbsent (leaseKey .fence fence) value) s := by
  refine safe_perform (fun _ h => by cases h) ?_
  intro s' _ _ r s'' hexec next hnext _ created hr id hid record hrecord
  rcases hexec with ⟨-, hok, rfl⟩ | ⟨-, hnone, -⟩ | ⟨e, herror, -⟩
  · have hsome : created = some s'.created.length := Except.ok.inj (hr.symm.trans hok)
    obtain rfl := Option.some.inj (hid.symm.trans hsome)
    have hmade : Made t ⟨s'.created.length, record⟩ (s'.create t (leaseKey .fence fence) value) := by
      refine ⟨by rw [WriterLeaseHold.fence, hrecord]; exact hfence, ?_, ?_⟩
      · simp [World.create, World.put, WriterLeaseHold.fence, hrecord]
      · have hmem : leaseKey .fence fence ∈ (s'.create t (leaseKey .fence fence) value).store :=
          Finmap.mem_insert.mpr (Or.inl rfl)
        have hle := recordedFence_le hmem
        rw [recordedFence_leaseKey hfence] at hle
        rw [WriterLeaseHold.fence, hrecord]
        exact hle
    exact hmade.later hnext
  · rw [hnone] at hr
    obtain rfl := Except.ok.inj hr
    cases hid
  · rw [herror] at hr
    cases hr

/-- **A hold is taken** only by the first to create its fence. -/
theorem take_yields (o : WriterLeaseOptions) (fence : ℕ) :
    Yields parseDate t (fun taken s => ∀ hold, taken = some hold → Taken t hold s)
      (take o fence) s := by
  have hnothing : ∀ s, Yields parseDate t
      (fun taken s => ∀ hold, taken = some hold → Taken t hold s) (pure none) s :=
    fun _ => Returns.pure (fun _ _ _ _ h => by cases h)
  unfold take
  refine Returns.bind ((keeps_ask (by intro key h; cases h) t s).mono ?_)
  intro nonce s₁ _ _ _
  refine Returns.bind ((keeps_isoNow t s₁).mono ?_)
  intro acquiredAt s₂ _ _ _
  refine Returns.bind ((requireKey_yields .fence fence).mono ?_)
  intro key s₃ _ _ hkey
  obtain ⟨rfl, hfence⟩ := hkey
  refine Returns.bind ((create_yields hfence _).mono ?_)
  intro created s₄ _ _ hmade
  cases created with
  | none => exact hnothing s₄
  | some id =>
    have hhold := hmade id rfl
      { o.holder with fence := fence, nonce := nonce, ttlMs := o.ttlMs, acquiredAt := acquiredAt }
      rfl
    refine Returns.bind (Returns.mono (Returns.tryCatch (renew_yields hhold) ?_) ?_)
    · intro error s' _ _
      refine Returns.bind (((keeps_release _).tryCatch (fun _ => keeps_pure ()) t s').mono ?_)
      intro _ s'' _ _ _
      exact Returns.throw
    · intro held s₅ hle₅ _ htaken
      simp only
      split
      · rename_i hheld
        have hnow := htaken hheld
        refine Returns.bind ((prune_yields ?_).mono ?_)
        · exact le_trans hhold.highest hle₅.highest
        · intro _ s₆ hle₆ _ _
          apply Returns.pure
          intro last hlast _ hold heq
          obtain rfl := Option.some.inj heq
          exact hnow.later (hle₆.trans hlast)
      · refine Returns.bind ((keeps_release _ t s₅).mono ?_)
        intro _ s₆ _ _ _
        exact hnothing s₆

theorem keeps_readRecords : Keeps parseDate (readRecords parseDate) := by
  unfold readRecords
  apply (keeps_list .read).bind
  intro keys
  split
  · exact keeps_pure _
  · apply (keeps_requireKey _ _).bind
    intro fenceKey
    apply (keeps_get _).bind
    intro data
    apply (keeps_requireKey _ _).bind
    intro heartbeatKey
    exact (keeps_get _).bind (fun _ => keeps_pure _)

theorem keeps_judge (o : WriterLeaseOptions) (records : WriterLeaseRecords) :
    Keeps parseDate (judge parseDate o records) := by
  unfold judge
  refine (keeps_ask (by intro key h; cases h)).bind ?_
  intro now
  exact (keeps_ask (by intro key h; cases h)).bind (fun _ => keeps_pure _)

theorem keeps_forceRelease (nonce : JsString) :
    Keeps parseDate (forceRelease parseDate nonce) := by
  unfold forceRelease
  apply keeps_readRecords.bind
  intro records
  split
  · split
    · apply (keeps_requireKey _ _).bind
      intro key
      apply keeps_isoNow.bind
      intro releasedAt
      exact (keeps_putIfAbsent _ _).bind (fun _ => keeps_pure _)
    · exact keeps_pure _
  · exact keeps_pure _

theorem advance_yields (o : WriterLeaseOptions) (hold : WriterLeaseHold) :
    Yields parseDate t (fun taken s => ∀ next, taken = some next → Taken t next s)
      (advance o hold) s := by
  unfold advance
  refine Returns.bind
    ((((keeps_assertCurrent hold).bind (fun _ => keeps_pure true)).tryCatch ?_ t s).mono ?_)
  · intro error
    split
    · exact keeps_pure false
    · exact fun _ _ => Returns.throw
  intro current s₁ _ _ _
  split
  · refine Returns.bind ((take_yields o _).mono ?_)
    intro taken s₂ _ _ htaken
    refine Returns.bind (((keeps_release hold).tryCatch (fun _ => keeps_pure ()) t s₂).mono ?_)
    intro _ s₃ hle₃ _ _
    apply Returns.pure
    intro last hlast _ next heq
    exact (htaken next heq).later (hle₃.trans hlast)
  · exact Returns.pure (fun _ _ _ _ h => by cases h)

/-- What a call's outcome says: a hold it returns was taken by it. -/
def Answers (t : ℕ) (outcome : Outcome) (s : World) : Prop :=
  ∀ hold, outcome = .hold hold → Taken t hold s

/-- A call that returns no hold. -/
theorem answers_of_keeps {α : Type} {p : Async α} {f : α → Outcome} (hp : Keeps parseDate p)
    (hf : ∀ a hold, f a ≠ .hold hold) :
    Yields parseDate t (Answers t) (do pure (f (← p))) s := by
  refine Returns.bind ((hp t s).mono ?_)
  intro a s' _ _ _
  exact Returns.pure (fun _ _ _ hold h => absurd h (hf a hold))

theorem awaitRetry_yields (state : Acquiring) (records : WriterLeaseRecords) :
    Yields parseDate t (Answers t) (awaitRetry state records) s := by
  unfold awaitRetry
  refine Returns.bind ((keeps_ask (by intro key h; cases h) t s).mono ?_)
  intro now s' _ _ _
  simp only
  split
  · exact Returns.throw
  · exact answers_of_keeps (keeps_delay _) (fun _ _ h => by cases h)

theorem acquireRound_yields (state : Acquiring) :
    Yields parseDate t (Answers t) (acquireRound parseDate state) s := by
  unfold acquireRound
  refine Returns.bind ((keeps_readRecords t s).mono ?_)
  intro records s₁ _ _ _
  refine Returns.bind ((keeps_judge state.options records t s₁).mono ?_)
  intro verdict s₂ _ _ _
  split
  · exact awaitRetry_yields state records
  · refine Returns.bind ((take_yields state.options _).mono ?_)
    intro taken s₃ _ _ htaken
    cases taken with
    | some hold =>
      apply Returns.pure
      intro last hlast _ other heq
      obtain rfl := Outcome.hold.inj heq
      exact (htaken hold rfl).later hlast
    | none =>
      refine Returns.bind ((keeps_readRecords t s₃).mono ?_)
      intro records' s₄ _ _ _
      exact awaitRetry_yields state records'

end Functions

end Swamp.WriterLease
