import Mathlib.Data.Set.Finite.Lattice
import Swamp.EarlySignals

/-!
# The signals that are kept, as they are listed, refused and swept

Three parties work out which slots of a key are live from its highest record: the
listing, a second signal, and the sweep.  Each runs here alone on a store of any
content; what a decoder accepts is at its own address, and whatever else is stored
is unreadable.

`HeldAt` is what all three come down to: the decision on the heads of the live
slots.
-/

namespace Swamp.SignalWaits

open Js Interleaving

/-- One party on the store. -/
def alone (codec : Codec) : Machine Op Op.Res World Unit where
  exec := fun _ op w r w' => exec codec op w r w'
  starts := fun _ _ => False
  resume := fun _ => none

/-- What a program does alone, down to what it answers. -/
abbrev Alone (codec : Codec) {α : Type} (p : Async α) (w : World) (a : α) (w' : World) : Prop :=
  Does (alone codec) 0 p w a w'

/-- What a decoder accepts is at its own address. -/
def Addressed (codec : Codec) (w : World) : Prop :=
  ∀ at_ number record, w.pending at_ number = some record → codec.pendingRecord record = true →
    record.at_ = at_ ∧ record.number = number

/-- Finitely many records are stored. -/
structure FiniteStore (w : World) : Prop where
  keyRecords : Set.Finite { a : WaitKey × ℕ | (w.keyRecords a.1 a.2).isSome = true }
  outcomes : Set.Finite { waitId | (w.outcomes waitId).isSome = true }
  registrations : Set.Finite { waitId | (w.registrations waitId).isSome = true }
  pending : Set.Finite { a : PendingSlot × ℕ | (w.pending a.1 a.2).isSome = true }

theorem FiniteStore.empty : FiniteStore World.empty := by
  constructor <;> simp [World.empty]

theorem lists_of_finite {α : Type} {holds : α → Prop} (h : Set.Finite { a | holds a }) :
    ∃ listed, Lists listed holds :=
  ⟨h.toFinset.toList, fun a => by simp⟩

section

variable {codec : Codec} {w : World}

theorem FiniteStore.setKeyRecord (h : FiniteStore w) (under : WaitKey) (generation : ℕ)
    (record : Option WaitKeyRecord) : FiniteStore (w.setKeyRecord under generation record) := by
  refine ⟨(h.keyRecords.insert (under, generation)).subset ?_, h.outcomes, h.registrations,
    h.pending⟩
  intro a ha
  by_cases hsame : a = (under, generation)
  · exact Or.inl hsame
  · have hne : ¬ (a.1 = under ∧ a.2 = generation) := fun heq => hsame (Prod.ext heq.1 heq.2)
    simp only [World.setKeyRecord, Set.mem_ofPred_eq, if_neg hne] at ha
    exact Or.inr ha

theorem FiniteStore.setPending (h : FiniteStore w) (at_ : PendingSlot) (number : ℕ)
    (record : Option PendingRecord) : FiniteStore (w.setPending at_ number record) := by
  refine ⟨h.keyRecords, h.outcomes, h.registrations, (h.pending.insert (at_, number)).subset ?_⟩
  intro a ha
  by_cases hsame : a = (at_, number)
  · exact Or.inl hsame
  · have hne : ¬ (a.1 = at_ ∧ a.2 = number) := fun heq => hsame (Prod.ext heq.1 heq.2)
    simp only [World.setPending, Set.mem_ofPred_eq, if_neg hne] at ha
    exact Or.inr ha

theorem FiniteStore.setOutcome (h : FiniteStore w) (waitId : JsString)
    (outcome : Option WaitOutcome) : FiniteStore (w.setOutcome waitId outcome) := by
  refine ⟨h.keyRecords, (h.outcomes.insert waitId).subset ?_, h.registrations, h.pending⟩
  intro id hid
  by_cases hsame : id = waitId
  · exact Or.inl hsame
  · simp only [World.setOutcome, Set.mem_ofPred_eq, if_neg hsame] at hid
    exact Or.inr hid

theorem FiniteStore.setRegistration (h : FiniteStore w) (waitId : JsString)
    (registration : Option WaitRegistration) :
    FiniteStore (w.setRegistration waitId registration) := by
  refine ⟨h.keyRecords, h.outcomes, (h.registrations.insert waitId).subset ?_, h.pending⟩
  intro id hid
  by_cases hsame : id = waitId
  · exact Or.inl hsame
  · simp only [World.setRegistration, Set.mem_ofPred_eq, if_neg hsame] at hid
    exact Or.inr hid

theorem FiniteStore.note (h : FiniteStore w) (written : Written) : FiniteStore (w.note written) :=
  ⟨h.keyRecords, h.outcomes, h.registrations, h.pending⟩

theorem FiniteStore.select (h : FiniteStore w) (runIds : List JsString) :
    FiniteStore (w.select runIds) :=
  ⟨h.keyRecords, h.outcomes, h.registrations, h.pending⟩

/-- One operation. -/
theorem FiniteStore.exec (h : FiniteStore w) (op : Op) :
    ∃ r w', exec codec op w r w' ∧ FiniteStore w' := by
  cases op with
  | listKey under =>
    have hkeys : Set.Finite { n | (w.keyRecords under n).isSome = true } :=
      (h.keyRecords.image Prod.snd).subset (fun n hn => ⟨(under, n), hn, rfl⟩)
    obtain ⟨listed, hlists⟩ := lists_of_finite hkeys
    exact ⟨listed, w, ⟨hlists, rfl⟩, h⟩
  | listKeyRecords =>
    obtain ⟨listed, hlists⟩ := lists_of_finite h.keyRecords
    exact ⟨listed, w, ⟨hlists, rfl⟩, h⟩
  | listOutcomes =>
    obtain ⟨listed, hlists⟩ := lists_of_finite h.outcomes
    exact ⟨listed, w, ⟨hlists, rfl⟩, h⟩
  | listRegistrations =>
    obtain ⟨listed, hlists⟩ := lists_of_finite h.registrations
    exact ⟨listed, w, ⟨hlists, rfl⟩, h⟩
  | listSlot at_ =>
    have hslot : Set.Finite { n | (w.pending at_ n).isSome = true } :=
      (h.pending.image Prod.snd).subset (fun n hn => ⟨(at_, n), hn, rfl⟩)
    obtain ⟨listed, hlists⟩ := lists_of_finite hslot
    exact ⟨listed, w, ⟨hlists, rfl⟩, h⟩
  | listPending =>
    obtain ⟨listed, hlists⟩ := lists_of_finite h.pending
    exact ⟨listed, w, ⟨hlists, rfl⟩, h⟩
  | getKeyRecord under generation | getOutcome waitId | getRegistration waitId
  | getPending at_ number => exact ⟨_, w, ⟨rfl, rfl⟩, h⟩
  | putKeyRecord record =>
    by_cases hheld : (w.keyRecords record.under record.generation).isSome
    · exact ⟨(), w, by simp [SignalWaits.exec, hheld], h⟩
    · exact ⟨(), _, by simp only [SignalWaits.exec, hheld, Bool.false_eq_true, if_false],
        (h.setKeyRecord record.under record.generation (some record)).note (.keyRecord record)⟩
  | putOutcome outcome =>
    by_cases hheld : (w.outcomes outcome.waitId).isSome
    · exact ⟨(), w, by simp [SignalWaits.exec, hheld], h⟩
    · exact ⟨(), _, by simp only [SignalWaits.exec, hheld, Bool.false_eq_true, if_false],
        (h.setOutcome outcome.waitId (some outcome)).note (.outcome outcome)⟩
  | putRegistration registration =>
    by_cases hheld : (w.registrations registration.waitId).isSome
    · exact ⟨(), w, by simp [SignalWaits.exec, hheld], h⟩
    · have hset := h.setRegistration registration.waitId (some registration)
      exact ⟨(), _, by simp only [SignalWaits.exec, hheld, Bool.false_eq_true, if_false],
        hset.note (.registration registration)⟩
  | putPending record =>
    by_cases hheld : (w.pending record.at_ record.number).isSome
    · exact ⟨(), w, by simp [SignalWaits.exec, hheld], h⟩
    · exact ⟨(), _, by simp only [SignalWaits.exec, hheld, Bool.false_eq_true, if_false],
        (h.setPending record.at_ record.number (some record)).note (.pending record)⟩
  | deleteKeyRecord under generation => exact ⟨(), _, rfl, h.setKeyRecord _ _ _⟩
  | deleteOutcome waitId => exact ⟨(), _, rfl, h.setOutcome _ _⟩
  | deleteRegistration waitId => exact ⟨(), _, rfl, h.setRegistration _ _⟩
  | deletePending at_ number => exact ⟨(), _, rfl, h.setPending _ _ _⟩
  | select runIds => exact ⟨(), _, rfl, h.select _⟩

/-- **Every program** can be done, on a store of finitely many records. -/
theorem FiniteStore.answers {α : Type} (h : FiniteStore w) (p : Async α) :
    ∃ a w', Alone codec p w a w' ∧ FiniteStore w' := by
  induction p generalizing w with
  | ret a => exact ⟨a, w, Does.ret, h⟩
  | call op k ih =>
    obtain ⟨r, w₁, hexec, hfinite⟩ := @FiniteStore.exec codec w h op
    obtain ⟨a, w', hdoes, hdone⟩ := ih r hfinite
    exact ⟨a, w', Does.call hexec hdoes, hdone⟩

end

/-- The highest number something is stored under, zero when nothing is. -/
def Top {T : Type} (stored : ℕ → Option T) (n : ℕ) : Prop :=
  (n = 0 ∨ (stored n).isSome = true) ∧ ∀ m, n < m → stored m = none

theorem Top.unique {T : Type} {stored : ℕ → Option T} {n m : ℕ} (hn : Top stored n)
    (hm : Top stored m) : n = m := by
  have hle : ∀ {a b : ℕ}, Top stored a → Top stored b → a ≤ b := by
    intro a b ha hb
    by_contra hlt
    have hnone := hb.2 a (by omega)
    rcases ha.1 with hzero | hsome
    · omega
    · rw [hnone] at hsome
      cases hsome
  exact Nat.le_antisymm (hle hn hm) (hle hm hn)

variable {numbers : List ℕ}

theorem foldl_max {start : ℕ} :
    (numbers.foldl max start = start ∨ numbers.foldl max start ∈ numbers) ∧
      start ≤ numbers.foldl max start ∧ ∀ n ∈ numbers, n ≤ numbers.foldl max start := by
  induction numbers generalizing start with
  | nil => exact ⟨Or.inl rfl, le_refl _, fun _ h => by cases h⟩
  | cons n rest ih =>
    obtain ⟨hmem, hstart, hall⟩ := @ih (max start n)
    rw [List.foldl_cons]
    refine ⟨?_, by omega, ?_⟩
    · rcases hmem with heq | hmem
      · rw [heq]
        rcases max_choice start n with hmax | hmax
        · exact Or.inl hmax
        · exact Or.inr (by rw [hmax]; exact List.mem_cons_self)
      · exact Or.inr (List.mem_cons_of_mem _ hmem)
    · intro m hm
      rcases List.mem_cons.mp hm with rfl | hm
      · omega
      · exact hall m hm

theorem highestOf_top {T : Type} {stored : ℕ → Option T}
    (h : Lists numbers (fun n => (stored n).isSome = true)) : Top stored (highestOf numbers) := by
  obtain ⟨hmem, _, hall⟩ := @foldl_max numbers 0
  refine ⟨?_, ?_⟩
  · rcases hmem with hzero | hmem
    · exact Or.inl hzero
    · exact Or.inr ((h _).mp hmem)
  · intro m hm
    by_contra hstored
    have hle := hall m ((h m).mpr (Option.isSome_iff_ne_none.mpr hstored))
    unfold highestOf at hm
    omega

section

variable {codec : Codec} {w w' : World} {now : Instant}

/-- What is read of the key record of the highest generation. -/
def keyAt (codec : Codec) (w : World) (under : WaitKey) (n : ℕ) : HighestKeyRecord :=
  if n = 0 then .none
  else
    match decode codec.keyRecord (w.keyRecords under n) with
    | .found record => .found record
    | _ => .unreadable n

/-- What is read of the highest pending record of a slot. -/
def pendingAt (codec : Codec) (w : World) (at_ : PendingSlot) (n : ℕ) : HighestPendingRecord :=
  if n = 0 then .none
  else
    match decode codec.pendingRecord (w.pending at_ n) with
    | .found record => .found record
    | _ => .unreadable n

/-- What the highest record of a key reads as. -/
def KeyIs (codec : Codec) (w : World) (under : WaitKey) (highest : HighestKeyRecord) : Prop :=
  ∃ n, Top (w.keyRecords under) n ∧ highest = keyAt codec w under n

/-- What the highest record of a slot reads as. -/
def HeadIs (codec : Codec) (w : World) (at_ : PendingSlot) (head : HighestPendingRecord) : Prop :=
  ∃ n, Top (w.pending at_) n ∧ head = pendingAt codec w at_ n

/-- What the slots of a key read as, one by one. -/
def HeadsAre (codec : Codec) (w : World) (under : WaitKey) (slots : List ℕ)
    (heads : List HighestPendingRecord) : Prop :=
  List.Forall₂ (fun slot head => HeadIs codec w ⟨under, slot⟩ head) slots heads

/-- The signal that is held at a key: the one the heads of its live slots decide
on. -/
def HeldAt (codec : Codec) (w : World) (now : Instant) (under : WaitKey)
    (pending : PendingSignal) : Prop :=
  ∃ key highest heads, KeyIs codec w under key ∧ key.readable = some highest ∧
    HeadsAre codec w under (liveSlotsOf highest).live heads ∧
      decideEarlySignal heads now = .alreadyPending pending

variable {under : WaitKey}

theorem KeyIs.unique {a b : HighestKeyRecord} (ha : KeyIs codec w under a)
    (hb : KeyIs codec w under b) : a = b := by
  obtain ⟨n, hn, rfl⟩ := ha
  obtain ⟨m, hm, rfl⟩ := hb
  rw [hn.unique hm]

variable {at_ : PendingSlot}

theorem HeadIs.unique {a b : HighestPendingRecord} (ha : HeadIs codec w at_ a)
    (hb : HeadIs codec w at_ b) : a = b := by
  obtain ⟨n, hn, rfl⟩ := ha
  obtain ⟨m, hm, rfl⟩ := hb
  rw [hn.unique hm]

variable {slots : List ℕ}

theorem HeadsAre.unique {as bs : List HighestPendingRecord} (ha : HeadsAre codec w under slots as)
    (hb : HeadsAre codec w under slots bs) : as = bs := by
  induction ha generalizing bs with
  | nil =>
    cases hb
    rfl
  | cons hhead _ ih =>
    obtain _ | ⟨hother, hrest⟩ := hb
    rw [hhead.unique hother, ih hrest]

variable {heads : List HighestPendingRecord}

theorem HeadsAre.of_mem {head : HighestPendingRecord} (h : HeadsAre codec w under slots heads)
    (hmem : head ∈ heads) : ∃ slot ∈ slots, HeadIs codec w ⟨under, slot⟩ head := by
  induction h with
  | nil => cases hmem
  | @cons slot _ slots _ hhead _ ih =>
    rcases List.mem_cons.mp hmem with rfl | hmem
    · exact ⟨slot, List.mem_cons_self, hhead⟩
    · obtain ⟨slot, hslot, his⟩ := ih hmem
      exact ⟨slot, List.mem_cons_of_mem _ hslot, his⟩

theorem decode_absent {T : Type} {accepts : T → Bool} {stored : Option T}
    (h : decode accepts stored = .absent) : stored = none := by
  cases stored with
  | none => rfl
  | some record =>
    simp only [decode] at h
    split_ifs at h

theorem decode_found {T : Type} {accepts : T → Bool} {stored : Option T} {record : T}
    (h : decode accepts stored = .found record) : stored = some record ∧ accepts record = true := by
  cases stored with
  | none => cases h
  | some held =>
    simp only [decode] at h
    split_ifs at h with haccepts
    cases h
    exact ⟨rfl, haccepts⟩

theorem highestKeyRecord_alone {highest : HighestKeyRecord}
    (h : Alone codec (highestKeyRecord under) w highest w') :
    w' = w ∧ KeyIs codec w under highest := by
  unfold highestKeyRecord HIGHEST_KEY_RECORD_READS readHighestKey at h
  obtain ⟨numbers, w₁, hlist, hrest⟩ := h.bind_inv
  obtain ⟨hlists, rfl⟩ : Lists numbers (fun n => (w.keyRecords under n).isSome = true) ∧ w₁ = w :=
    hlist.perform_inv
  have htop := highestOf_top hlists
  dsimp only at hrest
  by_cases hzero : highestOf numbers = 0
  · rw [if_pos hzero] at hrest
    obtain ⟨rfl, rfl⟩ := hrest.ret_inv
    exact ⟨rfl, 0, hzero ▸ htop, rfl⟩
  · rw [if_neg hzero] at hrest
    obtain ⟨stored, w₂, hget, hdone⟩ := hrest.bind_inv
    obtain ⟨hstored, rfl⟩ : stored = decode codec.keyRecord
        (w₁.keyRecords under (highestOf numbers)) ∧ w₂ = w₁ := hget.perform_inv
    have hsome := htop.1.resolve_left hzero
    cases stored with
    | found record | unreadable =>
      obtain ⟨rfl, rfl⟩ := hdone.ret_inv
      exact ⟨rfl, highestOf numbers, htop, by rw [keyAt, if_neg hzero, ← hstored]⟩
    | absent =>
      rw [decode_absent hstored.symm] at hsome
      cases hsome

theorem highestPendingRecord_alone {head : HighestPendingRecord}
    (h : Alone codec (highestPendingRecord at_) w head w') : w' = w ∧ HeadIs codec w at_ head := by
  unfold highestPendingRecord HIGHEST_KEY_RECORD_READS readHighestPending at h
  obtain ⟨numbers, w₁, hlist, hrest⟩ := h.bind_inv
  obtain ⟨hlists, rfl⟩ : Lists numbers (fun n => (w.pending at_ n).isSome = true) ∧ w₁ = w :=
    hlist.perform_inv
  have htop := highestOf_top hlists
  dsimp only at hrest
  by_cases hzero : highestOf numbers = 0
  · rw [if_pos hzero] at hrest
    obtain ⟨rfl, rfl⟩ := hrest.ret_inv
    exact ⟨rfl, 0, hzero ▸ htop, rfl⟩
  · rw [if_neg hzero] at hrest
    obtain ⟨stored, w₂, hget, hdone⟩ := hrest.bind_inv
    obtain ⟨hstored, rfl⟩ : stored = decode codec.pendingRecord
        (w₁.pending at_ (highestOf numbers)) ∧ w₂ = w₁ := hget.perform_inv
    have hsome := htop.1.resolve_left hzero
    cases stored with
    | found record | unreadable =>
      obtain ⟨rfl, rfl⟩ := hdone.ret_inv
      exact ⟨rfl, highestOf numbers, htop, by rw [pendingAt, if_neg hzero, ← hstored]⟩
    | absent =>
      rw [decode_absent hstored.symm] at hsome
      cases hsome

/-- A readable head is at its own address. -/
theorem HeadIs.stored {record : PendingRecord} (haddressed : Addressed codec w)
    (h : HeadIs codec w at_ (.found record)) :
    record.at_ = at_ ∧ w.pending at_ record.number = some record ∧
      Top (w.pending at_) record.number := by
  obtain ⟨n, htop, hread⟩ := h
  unfold pendingAt at hread
  split at hread
  · cases hread
  · split at hread
    case h_1 found hdecode =>
      cases hread
      obtain ⟨hstored, haccepts⟩ := decode_found hdecode
      obtain ⟨hat, rfl⟩ := haddressed at_ n record hstored haccepts
      exact ⟨hat, hstored, htop⟩
    case h_2 => cases hread

theorem readHeads_alone (h : Alone codec (readHeads under slots) w heads w') :
    w' = w ∧ HeadsAre codec w under slots heads := by
  induction slots generalizing w w' heads with
  | nil =>
    unfold readHeads at h
    obtain ⟨rfl, rfl⟩ := h.ret_inv
    exact ⟨rfl, List.Forall₂.nil⟩
  | cons slot rest ih =>
    unfold readHeads at h
    obtain ⟨head, w₁, hhead, hrest⟩ := h.bind_inv
    obtain ⟨rfl, his⟩ := highestPendingRecord_alone hhead
    obtain ⟨others, w₂, hothers, hdone⟩ := hrest.bind_inv
    obtain ⟨rfl, hare⟩ := ih hothers
    obtain ⟨rfl, rfl⟩ := hdone.ret_inv
    exact ⟨rfl, List.Forall₂.cons his hare⟩

/-- A key holds one signal at most. -/
theorem HeldAt.unique {a b : PendingSignal} (ha : HeldAt codec w now under a)
    (hb : HeldAt codec w now under b) : a = b := by
  obtain ⟨key, highest, heads, hkey, hread, hheads, hdecide⟩ := ha
  obtain ⟨key', highest', heads', hkey', hread', hheads', hdecide'⟩ := hb
  rw [hkey.unique hkey', hread'] at hread
  cases hread
  rw [hheads.unique hheads', hdecide'] at hdecide
  cases hdecide
  rfl

variable {pending : PendingSignal}

theorem decide_already (h : decideEarlySignal heads now = .alreadyPending pending) :
    HighestPendingRecord.found (.pending pending) ∈ heads ∧ now ≤ heldUntil pending := by
  unfold decideEarlySignal at h
  split at h
  case h_2 => cases h
  case h_1 decision hfirst =>
    subst h
    fun_induction firstDecision now heads with
    | case1 | case2 => cases hfirst
    | case3 held rest hheld =>
      cases hfirst
      exact ⟨List.mem_cons_self, by simpa [isPendingHeld] using hheld⟩
    | case4 held rest hheld ih | case5 head rest _ _ ih =>
      obtain ⟨hmem, hle⟩ := ih hfirst
      exact ⟨List.mem_cons_of_mem _ hmem, hle⟩

/-- The heads decide against storing, or not at all. -/
theorem firstDecision_ne_store (heads : List HighestPendingRecord) (number : ℕ) :
    firstDecision now heads ≠ some (.store number) := by
  fun_induction firstDecision now heads with
  | case1 | case2 | case3 => nofun
  | case4 _ _ _ ih | case5 _ _ _ _ ih => exact ih

theorem decide_store {number : ℕ} (h : decideEarlySignal heads now = .store number) :
    number = numberAfter heads := by
  unfold decideEarlySignal at h
  split at h
  case h_1 decision hfirst => exact absurd (h ▸ hfirst) (firstDecision_ne_store heads number)
  case h_2 =>
    cases h
    rfl

theorem HeldAt.head (haddressed : Addressed codec w) (h : HeldAt codec w now under pending) :
    pending.at_.under = under ∧ now ≤ heldUntil pending ∧
      w.pending pending.at_ pending.number = some (.pending pending) ∧
      Top (w.pending pending.at_) pending.number ∧
      HeadIs codec w pending.at_ (.found (.pending pending)) ∧
      ∃ key highest, KeyIs codec w under key ∧ key.readable = some highest ∧
        pending.at_.slot ∈ (liveSlotsOf highest).live := by
  obtain ⟨key, highest, heads, hkey, hread, hheads, hdecide⟩ := h
  obtain ⟨hmem, hle⟩ := decide_already hdecide
  obtain ⟨slot, hslot, hhead⟩ := hheads.of_mem hmem
  obtain ⟨hat, hstored, htop⟩ := hhead.stored haddressed
  simp only [PendingRecord.at_, PendingRecord.number] at hat hstored htop
  have hslot' : pending.at_.slot = slot := by rw [hat]
  refine ⟨by rw [hat], hle, ?_, ?_, ?_, key, highest, hkey, hread, hslot' ▸ hslot⟩
  · rw [hat]
    exact hstored
  · rw [hat]
    exact htop
  · rw [hat]
    exact hhead

/-- What is listed of a key. -/
def ListedAt (codec : Codec) (w : World) (now : Instant) (item : HeldPendingSignal) : Prop :=
  ∃ pending, HeldAt codec w now item.under pending ∧ item = heldSignalOf item.under pending

theorem ListedAt.of_held (h : HeldAt codec w now under pending) :
    ListedAt codec w now (heldSignalOf under pending) :=
  ⟨pending, h, rfl⟩

theorem listHeldOf_alone {unders : List WaitKey} {items : List HeldPendingSignal}
    (h : Alone codec (listHeldOf now unders) w items w') :
    w' = w ∧ ∀ item, item ∈ items ↔ item.under ∈ unders ∧ ListedAt codec w now item := by
  induction unders generalizing w w' items with
  | nil =>
    unfold listHeldOf at h
    obtain ⟨rfl, rfl⟩ := h.ret_inv
    exact ⟨rfl, fun item => by simp⟩
  | cons under rest ih =>
    unfold listHeldOf at h
    obtain ⟨key, w₁, hkey, hrest⟩ := h.bind_inv
    obtain ⟨rfl, hkey⟩ := highestKeyRecord_alone hkey
    -- Without a held signal the key is left out.
    have hskip (hnone : ∀ pending, ¬ HeldAt codec w₁ now under pending)
        (hdoes : Alone codec (listHeldOf now rest) w₁ items w') :
        w' = w₁ ∧ ∀ item, item ∈ items ↔ item.under ∈ under :: rest ∧
          ListedAt codec w₁ now item := by
      obtain ⟨rfl, hitems⟩ := ih hdoes
      refine ⟨rfl, fun item => ?_⟩
      rw [hitems item, List.mem_cons]
      constructor
      · intro hlisted
        exact ⟨Or.inr hlisted.1, hlisted.2⟩
      · intro hlisted
        obtain ⟨hunder | hunder, pending, hheld, heq⟩ := hlisted
        · exact absurd (hunder ▸ hheld) (hnone pending)
        · exact ⟨hunder, pending, hheld, heq⟩
    cases hread : key.readable with
    | none =>
      simp only [hread] at hrest
      refine hskip (fun pending hheld => ?_) hrest
      obtain ⟨key', _, _, hkey', hread', _⟩ := hheld
      rw [hkey.unique hkey', hread'] at hread
      cases hread
    | some highest =>
      simp only [hread] at hrest
      obtain ⟨heads, w₂, hheads, hafter⟩ := hrest.bind_inv
      obtain ⟨rfl, hheads⟩ := readHeads_alone hheads
      have hdecided : ∀ pending, HeldAt codec w₂ now under pending →
          decideEarlySignal heads now = .alreadyPending pending := by
        intro pending hheld
        obtain ⟨key', highest', heads', hkey', hread', hheads', hdecide⟩ := hheld
        rw [← hkey.unique hkey', hread] at hread'
        cases hread'
        rw [hheads.unique hheads']
        exact hdecide
      cases hdecide : decideEarlySignal heads now with
      | alreadyPending pending =>
        simp only [hdecide] at hafter
        obtain ⟨others, w₃, hothers, hdone⟩ := hafter.bind_inv
        obtain ⟨rfl, hitems⟩ := ih hothers
        obtain ⟨rfl, rfl⟩ := hdone.ret_inv
        have hheld : HeldAt codec w' now under pending :=
          ⟨key, highest, heads, hkey, hread, hheads, hdecide⟩
        refine ⟨rfl, fun item => ?_⟩
        rw [List.mem_cons, List.mem_cons, hitems item]
        constructor
        · intro hlisted
          rcases hlisted with rfl | ⟨hunder, hlisted⟩
          · exact ⟨Or.inl rfl, ListedAt.of_held hheld⟩
          · exact ⟨Or.inr hunder, hlisted⟩
        · intro hlisted
          obtain ⟨hunder | hunder, pending', hheld', heq⟩ := hlisted
          · have hsame : HeldAt codec w' now under pending' := hunder ▸ hheld'
            exact Or.inl (by rw [heq, hunder, hsame.unique hheld])
          · exact Or.inr ⟨hunder, pending', hheld', heq⟩
      | store number | unreadable =>
        simp only [hdecide] at hafter
        refine hskip (fun pending hheld => ?_) hafter
        rw [hdecided pending hheld] at hdecide
        cases hdecide

/-- **The listing**: what is held, and nothing else. -/
theorem listHeldPendingSignals_alone {items : List HeldPendingSignal}
    (haddressed : Addressed codec w)
    (h : Alone codec (listHeldPendingSignals now) w items w') :
    w' = w ∧ ∀ item, item ∈ items ↔ ListedAt codec w now item := by
  unfold listHeldPendingSignals at h
  obtain ⟨addresses, w₁, hlist, hrest⟩ := h.bind_inv
  obtain ⟨hlists, rfl⟩ : Lists addresses (fun a => (w.pending a.1 a.2).isSome = true) ∧ w₁ = w :=
    hlist.perform_inv
  obtain ⟨held, w₂, hheld, hdone⟩ := hrest.bind_inv
  obtain ⟨rfl, hitems⟩ := listHeldOf_alone hheld
  obtain ⟨rfl, rfl⟩ := hdone.ret_inv
  refine ⟨rfl, fun item => ?_⟩
  rw [List.mem_insertionSort, hitems item]
  refine ⟨fun hlisted => hlisted.2, fun hlisted => ⟨?_, hlisted⟩⟩
  obtain ⟨pending, hheld, _⟩ := hlisted
  obtain ⟨hunder, _, hstored, _⟩ := hheld.head haddressed
  rw [List.mem_eraseDups, List.mem_map]
  refine ⟨(pending.at_, pending.number), (hlists _).mpr ?_, hunder⟩
  dsimp only
  rw [hstored]
  rfl

/-- No open wait holds a key. -/
def FreeKey (codec : Codec) (w : World) (under : WaitKey) : Prop :=
  ∀ holding w', Alone codec (findKeyHolder under) w holding w' → ∀ claim, holding ≠ .held claim

theorem findKeyHolder_alone {holding : KeyHolderLookup}
    (h : Alone codec (findKeyHolder under) w holding w') :
    w' = w ∧ ∀ key highest, KeyIs codec w under key → key.readable = some highest →
      ∀ generation, holding ≠ .unreadable generation := by
  unfold findKeyHolder WAIT_KEY_CLAIM_ATTEMPTS at h
  obtain ⟨key, w₁, hread, hrest⟩ := h.bind_inv
  obtain ⟨rfl, hkey⟩ := highestKeyRecord_alone hread
  clear hread
  unfold keyHolderAttempts at hrest
  split at hrest
  case h_1 => contradiction
  case h_2 =>
    obtain ⟨rfl, rfl⟩ := hrest.ret_inv
    refine ⟨rfl, fun key' highest hkey' hread => ?_⟩
    rw [← hkey.unique hkey'] at hread
    cases hread
  case h_3 claim _ =>
    obtain ⟨stored, w₂, hget, hafter⟩ := hrest.bind_inv
    obtain ⟨_, rfl⟩ : stored = decode codec.outcome (w₁.outcomes claim.waitId) ∧ w₂ = w₁ :=
      hget.perform_inv
    split at hafter
    case h_1 =>
      obtain ⟨rfl, rfl⟩ := hafter.ret_inv
      exact ⟨rfl, fun _ _ _ _ _ hne => by cases hne⟩
    case h_2 holder hholder =>
      have hsame : holder = claim := by
        unfold decideKeyHolder at hholder
        split at hholder
        case h_1 heq _ =>
          cases heq
          cases hholder
          rfl
        case h_2 => cases hholder
      obtain ⟨still, w₃, hstill, hlast⟩ := hafter.bind_inv
      obtain ⟨rfl, hstill⟩ := highestKeyRecord_alone hstill
      -- Nobody else is there: it is still the highest record.
      obtain rfl := hkey.unique hstill
      rw [hsame] at hlast
      simp only [WaitKeyRecord.generation, if_true] at hlast
      obtain ⟨rfl, rfl⟩ := hlast.ret_inv
      exact ⟨rfl, fun _ _ _ _ _ hne => by cases hne⟩
  case h_4 =>
    obtain ⟨rfl, rfl⟩ := hrest.ret_inv
    exact ⟨rfl, fun _ _ _ _ _ hne => by cases hne⟩

/-- No wait holds a key that was released. -/
theorem FreeKey.of_release {release : WaitKeyRelease}
    (hkey : KeyIs codec w under (.found (.release release))) : FreeKey codec w under := by
  intro holding w' hdoes claim
  unfold findKeyHolder WAIT_KEY_CLAIM_ATTEMPTS at hdoes
  obtain ⟨key, w₁, hread, hrest⟩ := hdoes.bind_inv
  obtain ⟨rfl, hkey'⟩ := highestKeyRecord_alone hread
  rw [hkey'.unique hkey] at hrest
  obtain ⟨rfl, _⟩ := hrest.ret_inv
  nofun

variable {highest : Option WaitKeyRecord} {key : HighestKeyRecord}

/-- A signal that is stored in a slot the next claim reads is pending: nobody else
is there to take its number, or to claim the key. -/
theorem storeSignal_alone {record : PendingSignal} {lapsed : Async EarlyArrival}
    {again : PendingSignal → Async EarlyArrival} {arrival : EarlyArrival}
    (hkey : KeyIs codec w record.at_.under key) (hread : key.readable = some highest)
    (hslot : slotClaimed record.at_.slot highest = false)
    (hfree : w.pending record.at_ record.number = none)
    (h : Alone codec (storeSignal record lapsed again) w arrival w') :
    ∀ other, arrival ≠ .alreadyPending other := by
  unfold storeSignal createPendingRecord at h
  obtain ⟨stored, w₁, hcreate, hafter⟩ := h.bind_inv
  obtain ⟨_, w₂, hput, hget⟩ := hcreate.bind_inv
  have hput : w₂ = (w.setPending record.at_ record.number (some (.pending record))).note
      (.pending (.pending record)) := by
    have hexec : exec codec (.putPending (.pending record)) w () w₂ := hput.perform_inv
    simpa only [exec, PendingRecord.at_, PendingRecord.number, hfree, Option.isSome_none,
      Bool.false_eq_true, if_false] using hexec
  obtain ⟨hstored, rfl⟩ : stored = decode codec.pendingRecord
      (w₂.pending record.at_ record.number) ∧ w₁ = w₂ := hget.perform_inv
  have hnow : w₁.pending record.at_ record.number = some (.pending record) := by
    rw [hput]
    simp [World.note, World.setPending]
  rw [hnow, decode] at hstored
  split_ifs at hstored with haccepts
  · rw [hstored] at hafter
    simp only [ne_eq, not_true_eq_false, if_false] at hafter
    unfold secondRead at hafter
    obtain ⟨key', w₃, hagain, hlast⟩ := hafter.bind_inv
    obtain ⟨rfl, hkey'⟩ := highestKeyRecord_alone hagain
    -- The key reads as before the record was stored.
    have hsame : KeyIs codec w record.at_.under key' := by
      rw [hput] at hkey'
      exact hkey'
    rw [hsame.unique hkey, hread] at hlast
    simp only [hslot, Bool.not_false, if_true] at hlast
    obtain ⟨rfl, _⟩ := hlast.ret_inv
    intro other hne
    cases hne
  · rw [hstored] at hafter
    obtain ⟨rfl, _⟩ := hafter.ret_inv
    intro other hne
    cases hne

theorem numberAfter_free {slot : ℕ} {rest : List ℕ} (haddressed : Addressed codec w)
    (h : HeadsAre codec w under (slot :: rest) heads) :
    w.pending ⟨under, slot⟩ (numberAfter heads) = none := by
  obtain _ | @⟨_, head, _, others, hhead, _⟩ := h
  cases head with
  | none =>
    obtain ⟨n, htop, hread⟩ := hhead
    unfold pendingAt at hread
    split_ifs at hread with hzero
    · exact htop.2 1 (by omega)
    · split at hread <;> cases hread
  | found record =>
    obtain ⟨_, _, htop⟩ := hhead.stored haddressed
    exact htop.2 _ (Nat.lt_succ_self _)
  | unreadable number =>
    obtain ⟨n, htop, hread⟩ := hhead
    unfold pendingAt at hread
    split_ifs at hread with hzero
    split at hread
    case h_1 => cases hread
    case h_2 =>
      cases hread
      exact htop.2 _ (Nat.lt_succ_self _)

theorem live_slots (highest : Option WaitKeyRecord) :
    ∃ rest, (liveSlotsOf highest).live = (liveSlotsOf highest).slot :: rest := by
  unfold liveSlotsOf
  split
  · exact ⟨[], rfl⟩
  · exact ⟨[_], rfl⟩
  · exact ⟨[], rfl⟩

/-- The live slots are those no claim may have read. -/
theorem live_unclaimed {slot : ℕ} (hslot : slot ∈ (liveSlotsOf highest).live) :
    slotClaimed slot highest = false := by
  unfold liveSlotsOf at hslot
  unfold slotClaimed
  split at hslot
  · simp_all
  · rcases List.mem_cons.mp hslot with rfl | hslot
    · simp [WaitKeyRecord.generation]
    · rw [List.mem_singleton.mp hslot]
      simp [WaitKeyRecord.generation, isRelease]
  · rw [List.mem_singleton.mp hslot]
    simp [WaitKeyRecord.generation]

/-- **A second signal**, to a key no open wait holds, is refused for the signal that
is held there, and only then. -/
theorem holdEarlySignal_alone {receiptId : JsString} {signal : EarlySignal} {arrival : EarlyArrival}
    (haddressed : Addressed codec w) (hplain : signal.idempotencyKey = none)
    (hfree : FreeKey codec w signal.under)
    (h : Alone codec (holdEarlySignal receiptId signal now) w arrival w')
    (pending : PendingSignal) :
    arrival = .alreadyPending pending ↔ HeldAt codec w now signal.under pending := by
  unfold holdEarlySignal WAIT_KEY_CLAIM_ATTEMPTS holdAttempts at h
  obtain ⟨key, w₁, hhighest, hrest⟩ := h.bind_inv
  obtain ⟨rfl, hkey⟩ := highestKeyRecord_alone hhighest
  clear hhighest
  -- What is held is what the decision of this run is for.
  have hwhen (hnot : ∀ highest heads, key.readable = some highest →
      HeadsAre codec w₁ signal.under (liveSlotsOf highest).live heads →
        decideEarlySignal heads now ≠ .alreadyPending pending) :
      ¬ HeldAt codec w₁ now signal.under pending := by
    intro hheld
    obtain ⟨key', highest, heads, hkey', hread, hheads, hdecide⟩ := hheld
    obtain rfl := hkey.unique hkey'
    exact hnot highest heads hread hheads hdecide
  cases hread : key.readable with
  | none =>
    simp only [hread] at hrest
    obtain ⟨rfl, rfl⟩ := hrest.ret_inv
    refine iff_of_false nofun (hwhen (fun highest heads hsome => ?_))
    rw [hread] at hsome
    cases hsome
  | some highest =>
    simp only [hread] at hrest
    obtain ⟨holding, w₂, hholding, hafter⟩ := hrest.bind_inv
    obtain ⟨rfl, hreadable⟩ := findKeyHolder_alone hholding
    cases holding with
    | unreadable generation => exact absurd rfl (hreadable key highest hkey hread generation)
    | held claim => exact absurd rfl (hfree _ _ hholding claim)
    | free =>
      dsimp only at hafter
      obtain ⟨landed, w₃, hlanded, hsettled⟩ := hafter.bind_inv
      simp only [landedBefore, hplain] at hlanded
      obtain ⟨rfl, rfl⟩ := hlanded.ret_inv
      dsimp only at hsettled
      obtain ⟨heads, w₄, hreads, hlast⟩ := hsettled.bind_inv
      obtain ⟨rfl, hheads⟩ := readHeads_alone hreads
      have hdecided : decideEarlySignal heads now ≠ .alreadyPending pending →
          ¬ HeldAt codec w₄ now signal.under pending := by
        intro hne
        apply hwhen
        intro highest' heads' hsome hheads'
        rw [hread] at hsome
        cases hsome
        rwa [← hheads.unique hheads']
      cases hdecide : decideEarlySignal heads now with
      | alreadyPending record =>
        simp only [hdecide] at hlast
        obtain ⟨rfl, rfl⟩ := hlast.ret_inv
        constructor
        · intro heq
          cases heq
          exact ⟨key, highest, heads, hkey, hread, hheads, hdecide⟩
        · intro hheld
          by_contra hne
          refine hdecided (fun heq => hne ?_) hheld
          rw [hdecide] at heq
          cases heq
          rfl
      | unreadable =>
        simp only [hdecide] at hlast
        obtain ⟨rfl, rfl⟩ := hlast.ret_inv
        exact iff_of_false nofun (hdecided (by rw [hdecide]; nofun))
      | store number =>
        simp only [hdecide] at hlast
        obtain ⟨rest, hlive⟩ := live_slots highest
        have hunused := numberAfter_free haddressed (hlive ▸ hheads)
        have hslot : slotClaimed (liveSlotsOf highest).slot highest = false :=
          live_unclaimed (by rw [hlive]; exact List.mem_cons_self)
        refine iff_of_false ?_ (hdecided (by rw [hdecide]; nofun))
        have hsame : KeyIs codec w₄
            (recordOf receiptId signal now (liveSlotsOf highest).slot number).at_.under key :=
          hkey
        refine storeSignal_alone hsame hread hslot ?_ hlast pending
        rw [decide_store hdecide]
        exact hunused

/-- Nothing but one slot is changed. -/
def OnlySlot (at_ : PendingSlot) (w w' : World) : Prop :=
  w'.keyRecords = w.keyRecords ∧ ∀ other, other ≠ at_ → w'.pending other = w.pending other

theorem OnlySlot.refl (at_ : PendingSlot) (w : World) : OnlySlot at_ w w :=
  ⟨rfl, fun _ _ => rfl⟩

theorem OnlySlot.trans {a b c : World} (hab : OnlySlot at_ a b) (hbc : OnlySlot at_ b c) :
    OnlySlot at_ a c :=
  ⟨hbc.1.trans hab.1, fun other hne => (hbc.2 other hne).trans (hab.2 other hne)⟩

variable {k : ℕ}

theorem removeNumbers_alone (h : Alone codec (removeNumbers at_ numbers) w k w') :
    OnlySlot at_ w w' ∧ ∀ n, n ∉ numbers → w'.pending at_ n = w.pending at_ n := by
  induction numbers generalizing w w' k with
  | nil =>
    unfold removeNumbers at h
    obtain ⟨_, rfl⟩ := h.ret_inv
    exact ⟨OnlySlot.refl _ _, fun _ _ => rfl⟩
  | cons number rest ih =>
    unfold removeNumbers at h
    obtain ⟨_, w₁, hremove, hrest⟩ := h.bind_inv
    have hone : w₁ = w.setPending at_ number none := hremove.perform_inv
    obtain ⟨_, w₂, hothers, hdone⟩ := hrest.bind_inv
    obtain ⟨honly, hkept⟩ := ih hothers
    obtain ⟨_, rfl⟩ := hdone.ret_inv
    have hfirst : OnlySlot at_ w w₁ := by
      refine ⟨by rw [hone]; rfl, fun other hne => ?_⟩
      rw [hone]
      funext n
      simp [World.setPending, hne]
    refine ⟨hfirst.trans honly, fun n hn => ?_⟩
    rw [hkept n (fun hmem => hn (List.mem_cons_of_mem _ hmem)), hone]
    have hne : n ≠ number := fun heq => hn (heq ▸ List.mem_cons_self)
    simp [World.setPending, hne]

theorem createPendingRecord_alone {record : PendingRecord} {stored : Stored PendingRecord}
    (h : Alone codec (createPendingRecord record) w stored w') : OnlySlot record.at_ w w' := by
  unfold createPendingRecord at h
  obtain ⟨_, w₁, hput, hget⟩ := h.bind_inv
  have hexec : exec codec (.putPending record) w () w₁ := hput.perform_inv
  obtain ⟨_, rfl⟩ : stored = decode codec.pendingRecord (w₁.pending record.at_ record.number) ∧
      w' = w₁ := hget.perform_inv
  simp only [exec] at hexec
  split_ifs at hexec
  · rw [hexec]
    exact OnlySlot.refl _ _
  · rw [hexec]
    refine ⟨rfl, fun other hne => ?_⟩
    funext n
    simp [World.note, World.setPending, hne]

theorem knownOrStored_alone {known : Option WaitKeyRecord} {generation : ℕ}
    {stored : Stored WaitKeyRecord}
    (h : Alone codec (knownOrStored under known generation) w stored w') : w' = w := by
  have hfind : Alone codec (findKeyRecord under generation) w stored w' → w' = w := by
    intro hget
    obtain ⟨_, heq⟩ : stored = decode codec.keyRecord (w.keyRecords under generation) ∧ w' = w :=
      hget.perform_inv
    exact heq
  unfold knownOrStored at h
  split at h
  · split_ifs at h
    · exact h.ret_inv.2
    · exact hfind h
  · exact hfind h

theorem sweepDead_alone (h : Alone codec (sweepDead at_ numbers highest) w k w') :
    OnlySlot at_ w w' := by
  unfold sweepDead claimsReadingSlot at h
  obtain ⟨readers, w₁, hreaders, hrest⟩ := h.bind_inv
  obtain ⟨own, w₂, hown, hafter⟩ := hreaders.bind_inv
  obtain ⟨next, w₃, hnext, hdone⟩ := hafter.bind_inv
  obtain rfl := knownOrStored_alone hown
  obtain rfl := knownOrStored_alone hnext
  obtain ⟨_, rfl⟩ := hdone.ret_inv
  split_ifs at hrest
  · obtain ⟨_, rfl⟩ := hrest.ret_inv
    exact OnlySlot.refl _ _
  · exact (removeNumbers_alone hrest).1

theorem sweepLive_alone (h : Alone codec (sweepLive now at_ numbers) w k w') :
    OnlySlot at_ w w' := by
  unfold sweepLive at h
  obtain ⟨head, w₁, hhead, hrest⟩ := h.bind_inv
  obtain ⟨rfl, _⟩ := highestPendingRecord_alone hhead
  split at hrest
  · split_ifs at hrest
    · obtain ⟨stored, w₂, hcreate, hafter⟩ := hrest.bind_inv
      have hlapse : OnlySlot at_ w₁ w₂ := createPendingRecord_alone hcreate
      split at hafter
      · exact hlapse.trans (removeNumbers_alone hafter).1
      · obtain ⟨_, rfl⟩ := hafter.ret_inv
        exact hlapse
    · exact (removeNumbers_alone hrest).1
  · exact (removeNumbers_alone hrest).1
  · obtain ⟨_, rfl⟩ := hrest.ret_inv
    exact OnlySlot.refl _ _

theorem sweepSlot_alone (h : Alone codec (sweepSlot now at_ numbers) w k w') :
    OnlySlot at_ w w' := by
  unfold sweepSlot at h
  obtain ⟨key, w₁, hkey, hrest⟩ := h.bind_inv
  obtain ⟨rfl, _⟩ := highestKeyRecord_alone hkey
  split at hrest
  · obtain ⟨_, rfl⟩ := hrest.ret_inv
    exact OnlySlot.refl _ _
  · split_ifs at hrest
    · exact sweepDead_alone hrest
    · exact sweepLive_alone hrest

/-- A record is the highest of its slot, the decoder accepts it, and the key reads as
`key`. -/
structure Stands (codec : Codec) (w : World) (key : HighestKeyRecord) (pending : PendingSignal) :
    Prop where
  key : KeyIs codec w pending.at_.under key
  stored : w.pending pending.at_ pending.number = some (.pending pending)
  top : Top (w.pending pending.at_) pending.number
  head : HeadIs codec w pending.at_ (.found (.pending pending))

/-- What is done to another slot. -/
theorem Stands.elsewhere (h : Stands codec w key pending) (honly : OnlySlot at_ w w')
    (hne : pending.at_ ≠ at_) : Stands codec w' key pending := by
  obtain ⟨hkeys, hothers⟩ := honly
  have hslot := hothers _ hne
  refine ⟨?_, ?_, ?_, ?_⟩
  · unfold KeyIs keyAt
    rw [hkeys]
    exact h.key
  · rw [hslot]
    exact h.stored
  · rw [hslot]
    exact h.top
  · unfold HeadIs pendingAt
    rw [hslot]
    exact h.head

/-- **One slot is swept**: a record that is kept, in a slot the next claim reads,
stays the highest of it. -/
theorem Stands.sweepSlot (h : Stands codec w key pending) (hread : key.readable = some highest)
    (hlive : slotClaimed pending.at_.slot highest = false) (hkept : now ≤ heldUntil pending)
    (hsweep : Alone codec (sweepSlot now at_ numbers) w k w') : Stands codec w' key pending := by
  by_cases hsame : pending.at_ = at_
  case neg => exact h.elsewhere (sweepSlot_alone hsweep) hsame
  case pos =>
    subst hsame
    unfold SignalWaits.sweepSlot at hsweep
    obtain ⟨key', w₁, hkey, hrest⟩ := hsweep.bind_inv
    obtain ⟨rfl, hkey'⟩ := highestKeyRecord_alone hkey
    rw [hkey'.unique h.key] at hrest
    simp only [hread, hlive, Bool.false_eq_true, if_false] at hrest
    unfold sweepLive at hrest
    obtain ⟨head, w₂, hhead, hafter⟩ := hrest.bind_inv
    obtain ⟨rfl, hhead'⟩ := highestPendingRecord_alone hhead
    rw [hhead'.unique h.head] at hafter
    have hgrace : ¬ heldUntil pending + PENDING_SIGNAL_LAPSE_GRACE_MS < now := by
      have hnonneg : (0 : ℤ) ≤ PENDING_SIGNAL_LAPSE_GRACE_MS := by decide
      exact not_lt.mpr (le_add_of_le_of_nonneg hkept hnonneg)
    simp only [hgrace, if_false] at hafter
    obtain ⟨⟨hkeys, _⟩, hothers⟩ := removeNumbers_alone hafter
    -- Only what is below the head is removed.
    have habove : ∀ n, pending.number ≤ n →
        w'.pending pending.at_ n = w₂.pending pending.at_ n := by
      intro n hle
      apply hothers n
      intro hmem
      have hlt := (List.mem_filter.mp hmem).2
      simp only [decide_eq_true_eq] at hlt
      omega
    have hstored : w'.pending pending.at_ pending.number = some (.pending pending) := by
      rw [habove _ (le_refl _)]
      exact h.stored
    have htop : Top (w'.pending pending.at_) pending.number := by
      refine ⟨Or.inr (by rw [hstored]; rfl), fun n hlt => ?_⟩
      rw [habove n (Nat.le_of_lt hlt)]
      exact h.top.2 n hlt
    refine ⟨?_, hstored, htop, pending.number, htop, ?_⟩
    · unfold KeyIs keyAt
      rw [hkeys]
      exact h.key
    · obtain ⟨n, hn, hfound⟩ := h.head
      obtain rfl := hn.unique h.top
      rw [hfound]
      unfold pendingAt
      rw [habove _ (le_refl _)]

theorem Stands.sweepSlots {slots : List (PendingSlot × List ℕ)} (h : Stands codec w key pending)
    (hread : key.readable = some highest) (hlive : slotClaimed pending.at_.slot highest = false)
    (hkept : now ≤ heldUntil pending) (hsweep : Alone codec (sweepSlots now slots) w k w') :
    Stands codec w' key pending := by
  induction slots generalizing w k with
  | nil =>
    unfold SignalWaits.sweepSlots at hsweep
    obtain ⟨_, rfl⟩ := hsweep.ret_inv
    exact h
  | cons entry rest ih =>
    unfold SignalWaits.sweepSlots at hsweep
    obtain ⟨first, w₁, hfirst, hrest⟩ := hsweep.bind_inv
    obtain ⟨others, w₂, hothers, hdone⟩ := hrest.bind_inv
    obtain ⟨_, rfl⟩ := hdone.ret_inv
    exact ih (h.sweepSlot hread hlive hkept hfirst) hothers

/-- **The sweep**: what is held stays the highest of its slot. -/
theorem sweepPendingSignals_keeps (haddressed : Addressed codec w)
    (hheld : HeldAt codec w now under pending)
    (hsweep : Alone codec (sweepPendingSignals now) w k w') :
    w'.pending pending.at_ pending.number = some (.pending pending) ∧
      Top (w'.pending pending.at_) pending.number := by
  obtain ⟨hunder, hkept, hstored, htop, hhead, key, highest, hkey, hread, hslot⟩ :=
    hheld.head haddressed
  unfold sweepPendingSignals at hsweep
  obtain ⟨addresses, w₁, hlist, hrest⟩ := hsweep.bind_inv
  obtain ⟨_, rfl⟩ : Lists addresses (fun a => (w.pending a.1 a.2).isSome = true) ∧ w₁ = w :=
    hlist.perform_inv
  have hstands : Stands codec w₁ key pending := ⟨hunder ▸ hkey, hstored, htop, hhead⟩
  have hafter := hstands.sweepSlots hread (live_unclaimed hslot) hkept hrest
  exact ⟨hafter.stored, hafter.top⟩

end

/-- **A key is listed** exactly when a second signal to it, that no open wait holds,
is refused for the very signal that is listed; and a sweep at the same instant leaves
every listed signal stored, with nothing over it. -/
theorem held_signals_agree (codec : Codec) (w : World) (now : Instant)
    (haddressed : Addressed codec w) {items : List HeldPendingSignal} {w₁ : World}
    (hlist : Alone codec (listHeldPendingSignals now) w items w₁) :
    (∀ receiptId signal arrival w₂, signal.idempotencyKey = none → FreeKey codec w signal.under →
      Alone codec (holdEarlySignal receiptId signal now) w arrival w₂ →
        ∀ item, (item ∈ items ∧ item.under = signal.under) ↔
          ∃ record, arrival = .alreadyPending record ∧ item = heldSignalOf signal.under record) ∧
    ∀ swept w₂, Alone codec (sweepPendingSignals now) w swept w₂ →
      ∀ item ∈ items, ∃ record, HeldAt codec w now item.under record ∧
        item = heldSignalOf item.under record ∧
          w.pending record.at_ record.number = some (.pending record) ∧
          w₂.pending record.at_ record.number = some (.pending record) ∧
            ∀ n, record.number < n → w₂.pending record.at_ n = none := by
  obtain ⟨rfl, hitems⟩ := listHeldPendingSignals_alone haddressed hlist
  refine ⟨?_, ?_⟩
  · intro receiptId signal arrival w₂ hplain hfree hhold item
    have hrefused := holdEarlySignal_alone haddressed hplain hfree hhold
    rw [hitems item]
    constructor
    · intro hlisted
      obtain ⟨⟨record, hheld, heq⟩, hunder⟩ := hlisted
      rw [hunder] at hheld heq
      exact ⟨record, (hrefused record).mpr hheld, heq⟩
    · intro hrefusal
      obtain ⟨record, harrival, rfl⟩ := hrefusal
      exact ⟨ListedAt.of_held ((hrefused record).mp harrival), rfl⟩
  · intro swept w₂ hsweep item hmem
    obtain ⟨record, hheld, heq⟩ := (hitems item).mp hmem
    obtain ⟨_, _, hstored, _⟩ := hheld.head haddressed
    obtain ⟨hkept, htop⟩ := sweepPendingSignals_keeps haddressed hheld hsweep
    exact ⟨record, hheld, heq, hstored, hkept, htop.2⟩

/-! A store with one signal, held in the slot above a release. -/

/-- Every record is readable. -/
def openCodec : Codec :=
  ⟨fun _ => true, fun _ => true, fun _ => true, fun _ => true, fun _ payload => some payload⟩

/-- The key of the signal. -/
def heldKey : WaitKey := ⟨js "workflow", js "key"⟩

/-- A signal in the slot of a release. -/
def heldSignal : PendingSignal where
  at_ := ⟨heldKey, 2⟩
  number := 3
  receiptId := js "receipt"
  receivedAt := 1000
  submittedBy := js "camera"
  payload := .null
  acceptEarly := 500
  authorizedFor := none
  idempotencyKey := none

/-- The store: the key was released, and the signal is pending. -/
def heldWorld : World :=
  (World.empty.setKeyRecord heldKey 2 (some (.release ⟨heldKey, 2, 900⟩))).setPending
    ⟨heldKey, 2⟩ 3 (some (.pending heldSignal))

theorem heldWorld_addressed : Addressed openCodec heldWorld := by
  intro at_ number record hstored _
  simp only [heldWorld, World.setPending, World.setKeyRecord, World.empty] at hstored
  split_ifs at hstored with hsame
  cases hstored
  exact ⟨hsame.1.symm, hsame.2.symm⟩

theorem heldWorld_finite : FiniteStore heldWorld :=
  (FiniteStore.empty.setKeyRecord _ _ _).setPending _ _ _

theorem heldWorld_key :
    KeyIs openCodec heldWorld heldKey (.found (.release ⟨heldKey, 2, 900⟩)) := by
  refine ⟨2, ⟨Or.inr rfl, fun n hlt => ?_⟩, rfl⟩
  have hne : n ≠ 2 := by omega
  simp [heldWorld, World.setPending, World.setKeyRecord, World.empty, hne]

theorem heldWorld_held : HeldAt openCodec heldWorld 1200 heldKey heldSignal := by
  refine ⟨_, _, [.none, .found (.pending heldSignal)], heldWorld_key, rfl, ?_, rfl⟩
  refine List.Forall₂.cons ⟨0, ⟨Or.inl rfl, fun n _ => ?_⟩, rfl⟩
    (List.Forall₂.cons ⟨3, ⟨Or.inr rfl, fun n hlt => ?_⟩, rfl⟩ List.Forall₂.nil)
  · simp [heldWorld, World.setPending, World.setKeyRecord, World.empty]
  · have hne : n ≠ 3 := by omega
    simp [heldWorld, World.setPending, World.setKeyRecord, World.empty, hne]

/-- A second signal to the same key. -/
def secondSignal : EarlySignal := ⟨heldKey, .null, js "camera", 500, none, none⟩

theorem held_signals_heldWorld :
    ∃ items w₁ arrival w₂ swept w₃,
      Alone openCodec (listHeldPendingSignals 1200) heldWorld items w₁ ∧
      Alone openCodec (holdEarlySignal (js "other") secondSignal 1200) heldWorld arrival w₂ ∧
      Alone openCodec (sweepPendingSignals 1200) heldWorld swept w₃ ∧
      heldSignalOf heldKey heldSignal ∈ items ∧
      (∃ record, arrival = .alreadyPending record ∧
        heldSignalOf heldKey heldSignal = heldSignalOf heldKey record) ∧
      ∀ item ∈ items, ∃ record, item = heldSignalOf item.under record ∧
        w₃.pending record.at_ record.number = some (.pending record) := by
  obtain ⟨items, w₁, hlist, _⟩ :=
    @FiniteStore.answers openCodec _ _ heldWorld_finite (listHeldPendingSignals 1200)
  obtain ⟨arrival, w₂, hhold, _⟩ :=
    @FiniteStore.answers openCodec _ _ heldWorld_finite
      (holdEarlySignal (js "other") secondSignal 1200)
  obtain ⟨swept, w₃, hsweep, _⟩ :=
    @FiniteStore.answers openCodec _ _ heldWorld_finite (sweepPendingSignals 1200)
  have hmem : heldSignalOf heldKey heldSignal ∈ items :=
    ((listHeldPendingSignals_alone heldWorld_addressed hlist).2 _).mpr
      (ListedAt.of_held heldWorld_held)
  obtain ⟨hrefused, hkept⟩ := held_signals_agree openCodec heldWorld 1200 heldWorld_addressed hlist
  refine ⟨items, w₁, arrival, w₂, swept, w₃, hlist, hhold, hsweep, hmem, ?_, ?_⟩
  · exact (hrefused (js "other") secondSignal arrival w₂ rfl (FreeKey.of_release heldWorld_key) hhold
      (heldSignalOf heldKey heldSignal)).mp ⟨hmem, rfl⟩
  · intro item hitem
    obtain ⟨record, _, heq, _, hstored, _⟩ := hkept swept w₃ hsweep item hitem
    exact ⟨record, heq, hstored⟩

end Swamp.SignalWaits
