import Swamp.UploadLedger

/-!
# The caps of the upload ledger

Pruning and evicting only take entries away (`Lighter`), so they keep every cap, and
what a request was granted (`Room`) is there still when its upload is recorded.
`Sound.step` carries the books, the caps and the order of the entries over every
operation; `reserve_entries` says which entry a request may evict.
-/

namespace Swamp

namespace Uploads

open Js

variable {limits : Limits} {L L' L'' : UploadLedger} {now clock : ℤ}

/-- The tally of a principal, counted afresh. -/
def UploadLedger.counted (L : UploadLedger) (p : JsString) : PrincipalTally :=
  count L.entries.entries L.reservations p

/-- The entries as they were recorded. -/
def UploadLedger.recorded (L : UploadLedger) : List (JsString × Entry) :=
  L.entries.entries.map (fun x => (x.1, { x.2 with released := false }))

/-- Some entries are gone or released, and nothing else has changed. -/
structure Lighter (L' L : UploadLedger) : Prop where
  recorded : L'.recorded.Sublist L.recorded
  bytes : ∀ p, (L'.counted p).unreferencedBytes + (L'.counted p).reservedBytes ≤
    (L.counted p).unreferencedBytes + (L.counted p).reservedBytes
  share : ∀ p, (L'.counted p).unreferencedCount ≤ (L.counted p).unreferencedCount
  reserved : L'.reserved = L.reserved
  reservations : L'.reservations = L.reservations

theorem Lighter.refl (L : UploadLedger) : Lighter L L :=
  ⟨List.Sublist.refl _, fun _ => Nat.le_refl _, fun _ => Nat.le_refl _, rfl, rfl⟩

theorem Lighter.trans (h : Lighter L'' L') (h' : Lighter L' L) : Lighter L'' L :=
  ⟨h.recorded.trans h'.recorded, fun p => (h.bytes p).trans (h'.bytes p),
    fun p => (h.share p).trans (h'.share p), h.reserved.trans h'.reserved,
    h.reservations.trans h'.reservations⟩

theorem Lighter.length (h : Lighter L' L) :
    L'.entries.entries.length ≤ L.entries.entries.length := by
  have := h.recorded.length_le
  unfold UploadLedger.recorded at this
  rwa [List.length_map, List.length_map] at this

theorem Lighter.delete (L : UploadLedger) (k : JsString) (e : Entry) : Lighter (L.delete k e) L := by
  have hentries : (L.delete k e).entries.entries.Sublist L.entries.entries := List.filter_sublist
  have hwaiting := fun p => List.Sublist.filter
    (fun x : JsString × Entry => decide (x.2.principalId = p) && !x.2.released) hentries
  refine ⟨hentries.map _, fun p => ?_, fun p => ?_, rfl, rfl⟩
  · exact Nat.add_le_add_right (((hwaiting p).map _).sum_le_sum (fun _ _ => Nat.zero_le _)) _
  · have hlength := ((hwaiting p).map Prod.fst).length_le
    exact Nat.add_le_add_right hlength _

theorem Lighter.forget (L : UploadLedger) (k : JsString) : Lighter (L.forget k) L := by
  unfold UploadLedger.forget
  cases L.entries.get k with
  | none => exact Lighter.refl L
  | some e => exact Lighter.delete L k e

theorem Lighter.releaseKey (L : UploadLedger) (k : JsString) : Lighter (L.releaseKey k) L := by
  unfold UploadLedger.releaseKey
  cases hget : L.entries.get k with
  | none => exact Lighter.refl L
  | some e =>
    simp only
    split
    · exact Lighter.refl L
    · obtain ⟨l₁, l₂, heq, h₁, -, -⟩ := split_entries (OrderedMap.mem_entries.mpr hget)
      have hentries := set_entries { e with released := true } heq h₁
      refine ⟨?_, fun p => ?_, fun p => ?_, rfl, rfl⟩
      · unfold UploadLedger.recorded
        rw [hentries, heq]
        simp
      · unfold UploadLedger.counted
        rw [hentries, heq, count_entry l₁ l₂ _ k e,
          count_entry l₁ l₂ _ k { e with released := true }]
        simp only [Bool.true_eq_false, and_false, if_false]
        omega
      · unfold UploadLedger.counted PrincipalTally.unreferencedCount
        rw [hentries, heq, count_entry l₁ l₂ _ k e,
          count_entry l₁ l₂ _ k { e with released := true }]
        simp only [Bool.true_eq_false, and_false, if_false, List.length_append]
        simp

/-- **Pruning drops the oldest entries, as long as they are expired.** -/
theorem Books.prune (hL : Books L) (limits : Limits) (now : ℤ) :
    Books (L.prune limits now) ∧ Lighter (L.prune limits now) L ∧
      (L.prune limits now).entries.entries =
        L.entries.entries.dropWhile (fun x => UploadLedger.expired limits now x.2) := by
  have hfrom : ∀ (l : List (JsString × Entry)) (L : UploadLedger), Books L →
      L.entries.entries = l → Books (UploadLedger.pruneFrom limits now l L) ∧
        Lighter (UploadLedger.pruneFrom limits now l L) L ∧
        (UploadLedger.pruneFrom limits now l L).entries.entries =
          l.dropWhile (fun x => UploadLedger.expired limits now x.2) := by
    intro l
    induction l with
    | nil => exact fun L hL heq => ⟨hL, Lighter.refl L, heq⟩
    | cons x rest ih =>
      intro L hL heq
      obtain ⟨k, e⟩ := x
      unfold UploadLedger.pruneFrom
      by_cases hexpired : UploadLedger.expired limits now e = true
      · have hmem : (k, e) ∈ L.entries.entries := heq ▸ List.mem_cons_self
        have hrest : (L.delete k e).entries.entries = rest := by
          have hnodup := L.entries.nodup
          rw [heq, List.map_cons, List.nodup_cons] at hnodup
          change L.entries.entries.filter _ = _
          rw [heq, List.filter_cons_of_neg (by simp), List.filter_eq_self]
          intro y hy
          refine decide_eq_true (fun h => hnodup.1 ?_)
          exact List.mem_map.mpr ⟨y, hy, h⟩
        obtain ⟨hbooks, hfewer, hentries⟩ := ih (L.delete k e) (hL.delete hmem) hrest
        rw [if_pos hexpired, List.dropWhile_cons, if_pos hexpired]
        exact ⟨hbooks, hfewer.trans (Lighter.delete L k e), hentries⟩
      · rw [if_neg hexpired, List.dropWhile_cons, if_neg hexpired]
        exact ⟨hL, Lighter.refl L, heq⟩
  exact hfrom _ L hL rfl

theorem Books.forget (hL : Books L) (k : JsString) : Books (L.forget k) ∧
    k ∉ (L.forget k).entries.entries.map Prod.fst := by
  unfold UploadLedger.forget
  cases hget : L.entries.get k with
  | none =>
    refine ⟨hL, fun hmem => ?_⟩
    have hsome := OrderedMap.mem_keys.mp hmem
    rw [hget] at hsome
    cases hsome
  | some e =>
    refine ⟨hL.delete (OrderedMap.mem_entries.mpr hget), fun hmem => ?_⟩
    obtain ⟨x, hx, heq⟩ := List.mem_map.mp hmem
    exact of_decide_eq_true (List.mem_filter.mp hx).2 heq

/-- What a request of a principal may evict: a released entry, or, when there is
none, the oldest unreleased one of a principal that holds more. -/
def Displaced (L : UploadLedger) (p : JsString) (x : JsString × Entry) : Prop :=
  x.2.released = true ∨
    (∀ y ∈ L.entries.entries, y.2.released = false) ∧ x.2.principalId ≠ p ∧
      (L.counted p).unreferencedCount < (L.counted x.2.principalId).unreferencedCount ∧
      (waiting L.entries.entries x.2.principalId).head? = some x

variable {p : JsString}

/-- What the loop over the tallies finds is one of them, of another principal, with
an unreleased entry and a count above the bound it started from. -/
theorem heaviest_found {own : ℕ} (tallies : List (JsString × PrincipalTally))
    {found : Option PrincipalTally × ℕ} (hbound : own ≤ found.2) {t : PrincipalTally}
    (h : (UploadLedger.heaviest p tallies found).1 = some t) :
    found.1 = some t ∨ ∃ q, (q, t) ∈ tallies ∧ q ≠ p ∧ t.unreferenced ≠ [] ∧
      own < t.unreferencedCount := by
  induction tallies generalizing found with
  | nil => exact Or.inl h
  | cons x rest ih =>
    obtain ⟨q, t'⟩ := x
    have hlater : ∀ {found' : Option PrincipalTally × ℕ}, own ≤ found'.2 →
        (UploadLedger.heaviest p rest found').1 = some t →
        found'.1 = some t ∨ ∃ q', (q', t) ∈ (q, t') :: rest ∧ q' ≠ p ∧ t.unreferenced ≠ [] ∧
          own < t.unreferencedCount := by
      intro found' hbound' h'
      apply (ih hbound' h').imp_right
      intro hex
      obtain ⟨q', hmem, hrest⟩ := hex
      exact ⟨q', List.mem_cons_of_mem _ hmem, hrest⟩
    unfold UploadLedger.heaviest at h
    split at h
    · exact hlater hbound h
    · rename_i hskip
      rw [not_or] at hskip
      split at h
      · rename_i hlt
        rcases hlater (hbound.trans hlt.le) h with heq | hex
        · obtain rfl := Option.some.inj heq
          exact Or.inr ⟨q, List.mem_cons_self, hskip.1, hskip.2, hbound.trans_lt hlt⟩
        · exact Or.inr hex
      · exact hlater hbound h

/-- **Room is made by evicting one entry that may be.** -/
theorem Books.makeRoom (hL : Books L) (h : L.makeRoom p = some L') :
    ∃ k e, (k, e) ∈ L.entries.entries ∧ L' = L.delete k e ∧ Displaced L p (k, e) := by
  unfold UploadLedger.makeRoom at h
  cases hreleased : L.released with
  | cons k rest =>
    simp only [hreleased] at h
    obtain ⟨e, hget, heq⟩ := Option.map_eq_some_iff.mp h
    obtain ⟨e', hmem, he'⟩ := (hL.released k).mp (hreleased ▸ List.mem_cons_self)
    have hsame := OrderedMap.mem_entries.mp hmem
    rw [hget] at hsame
    obtain rfl := Option.some.inj hsame
    exact ⟨k, e, hmem, heq.symm, Or.inl he'⟩
  | nil =>
    simp only [hreleased] at h
    have hnone : ∀ y ∈ L.entries.entries, y.2.released = false := by
      intro y hy
      by_contra hy'
      have hmem : y.1 ∈ L.released := (hL.released y.1).mpr ⟨y.2, hy, by simpa using hy'⟩
      rw [hreleased] at hmem
      cases hmem
    cases hfound : (UploadLedger.heaviest p L.tallies.entries
        (none, (L.tally p).unreferencedCount)).1 with
    | none =>
      rw [hfound] at h
      cases h
    | some t =>
      simp only [hfound] at h
      rcases heaviest_found L.tallies.entries (Nat.le_refl _) hfound with hno | hex
      · cases hno
      · obtain ⟨q, hmem, hq, hunreferenced, hlt⟩ := hex
        have hget := OrderedMap.mem_entries.mp hmem
        have ht : t = L.counted q := by
          rw [hL.tallies] at hget
          unfold kept at hget
          split at hget
          · cases hget
          · exact (Option.some.inj hget).symm
        subst ht
        cases hwaiting : waiting L.entries.entries q with
        | nil => exact absurd (congrArg (List.map Prod.fst) hwaiting) hunreferenced
        | cons x rest =>
          have hhead : (L.counted q).unreferenced.head? = some x.1 :=
            congrArg (fun l => (List.map Prod.fst l).head?) hwaiting
          rw [hhead, Option.bind_some] at h
          obtain ⟨e, hgete, heq⟩ := Option.map_eq_some_iff.mp h
          have hx : x ∈ waiting L.entries.entries q := hwaiting ▸ List.mem_cons_self
          obtain ⟨hx, hown⟩ := List.mem_filter.mp hx
          simp only [Bool.and_eq_true, decide_eq_true_eq] at hown
          have hsame := OrderedMap.mem_entries.mp hx
          rw [hgete] at hsame
          obtain rfl := Option.some.inj hsame
          refine ⟨x.1, x.2, hx, heq.symm, Or.inr ⟨hnone, ?_, ?_, ?_⟩⟩
          · rw [hown.1]
            exact hq
          · rw [hown.1]
            change (count L.entries.entries L.reservations p).unreferencedCount < _
            rwa [← hL.tally]
          · rw [hown.1, hwaiting]
            rfl

/-- No cap is passed. -/
structure Caps (limits : Limits) (L : UploadLedger) : Prop where
  total : L.entries.entries.length + L.reserved ≤ limits.maxEntries
  bytes : ∀ p, (L.counted p).unreferencedBytes + (L.counted p).reservedBytes ≤
    limits.maxUnreferencedBytesPerPrincipal
  share : ∀ p, (L.counted p).unreferencedCount ≤ limits.maxEntriesPerPrincipal

/-- There is room for one more upload of a principal. -/
structure Room (limits : Limits) (L : UploadLedger) (p : JsString) (size : ℕ) : Prop where
  total : L.entries.entries.length + L.reserved + 1 ≤ limits.maxEntries
  bytes : (L.counted p).unreferencedBytes + (L.counted p).reservedBytes + size ≤
    limits.maxUnreferencedBytesPerPrincipal
  share : (L.counted p).unreferencedCount + 1 ≤ limits.maxEntriesPerPrincipal

theorem Caps.lighter (hcaps : Caps limits L) (h : Lighter L' L) : Caps limits L' := by
  refine ⟨?_, fun p => (h.bytes p).trans (hcaps.bytes p), fun p => (h.share p).trans (hcaps.share p)⟩
  rw [h.reserved]
  exact (Nat.add_le_add_right h.length _).trans hcaps.total

variable {size : ℕ}

theorem Room.lighter (hroom : Room limits L p size) (h : Lighter L' L) : Room limits L' p size := by
  refine ⟨?_, (Nat.add_le_add_right (h.bytes p) _).trans hroom.bytes,
    (Nat.add_le_add_right (h.share p) _).trans hroom.share⟩
  rw [h.reserved]
  exact (Nat.add_le_add_right (Nat.add_le_add_right h.length _) _).trans hroom.total

/-- What is granted is counted. -/
theorem Caps.grant (hcaps : Caps limits L) (hroom : Room limits L p size) :
    Caps limits (L.grant p size).1 := by
  have hcounted : ∀ q, (L.grant p size).1.counted q = { L.counted q with
      reservedEntries := (L.counted q).reservedEntries + if p = q then 1 else 0
      reservedBytes := (L.counted q).reservedBytes + if p = q then size else 0 } :=
    count_grant L.entries.entries L.reservations p size
  refine ⟨hroom.total, fun q => ?_, fun q => ?_⟩
  · rw [hcounted q]
    by_cases hq : p = q
    · subst hq
      have := hroom.bytes
      simp only [if_true]
      omega
    · simp only [hq, if_false, Nat.add_zero]
      exact hcaps.bytes q
  · rw [hcounted q]
    unfold PrincipalTally.unreferencedCount
    by_cases hq : p = q
    · subst hq
      have := hroom.share
      unfold PrincipalTally.unreferencedCount at this
      simp only [if_true]
      omega
    · simp only [hq, if_false, Nat.add_zero]
      exact hcaps.share q

variable {r : ℕ}

theorem Caps.unreserve (hcaps : Caps limits L) (hL : Books L) {reservation : Reservation}
    (hget : L.reservations[r]? = some reservation) (hlive : reservation.settled = false) :
    Caps limits (L.unreserve r) ∧
      Room limits (L.unreserve r) reservation.principalId reservation.size := by
  obtain ⟨hentries, hreservations, hreserved⟩ := unreserve_live hget hlive
  have hpos : 0 < L.reserved := by
    rw [hL.reserved]
    exact List.countP_pos_iff.mpr ⟨reservation, List.mem_of_getElem? hget, by simp [hlive]⟩
  have htotal := hcaps.total
  have hsettle : ∀ p, L.counted p = { (L.unreserve r).counted p with
      reservedEntries := ((L.unreserve r).counted p).reservedEntries +
        if reservation.principalId = p then 1 else 0
      reservedBytes := ((L.unreserve r).counted p).reservedBytes +
        if reservation.principalId = p then reservation.size else 0 } := by
    intro p
    unfold UploadLedger.counted
    rw [hentries, hreservations]
    exact count_settle L.entries.entries hget hlive p
  have hbytes : ∀ p, ((L.unreserve r).counted p).unreferencedBytes +
      ((L.unreserve r).counted p).reservedBytes +
        (if reservation.principalId = p then reservation.size else 0) ≤
      limits.maxUnreferencedBytesPerPrincipal := by
    intro p
    have := hcaps.bytes p
    rw [hsettle p] at this
    simp only at this
    omega
  have hshare : ∀ p, ((L.unreserve r).counted p).unreferencedCount +
      (if reservation.principalId = p then 1 else 0) ≤ limits.maxEntriesPerPrincipal := by
    intro p
    have := hcaps.share p
    rw [hsettle p] at this
    unfold PrincipalTally.unreferencedCount at this ⊢
    simp only at this
    omega
  constructor
  · refine ⟨?_, fun p => ?_, fun p => ?_⟩
    · rw [hentries, hreserved]
      omega
    · exact (Nat.le_add_right _ _).trans (hbytes p)
    · exact (Nat.le_add_right _ _).trans (hshare p)
  · refine ⟨?_, ?_, ?_⟩
    · rw [hentries, hreserved]
      omega
    · have := hbytes reservation.principalId
      rwa [if_pos rfl] at this
    · have := hshare reservation.principalId
      rwa [if_pos rfl] at this

theorem Caps.enter (hcaps : Caps limits L) (hL : Books L) {e : Entry}
    (hreleased : e.released = false) (hroom : Room limits L e.principalId e.size)
    (hnew : entryKey e.principalId e.ns e.sha256 ∉ L.entries.entries.map Prod.fst) :
    Caps limits (L.enter e) := by
  have hentries := (hL.enter hreleased hnew).1
  have hcounted : ∀ p, (L.enter e).counted p = { L.counted p with
      held := (L.counted p).held + if e.principalId = p then 1 else 0
      unreferenced := (L.counted p).unreferenced ++
        if e.principalId = p then [entryKey e.principalId e.ns e.sha256] else []
      unreferencedBytes := (L.counted p).unreferencedBytes +
        if e.principalId = p then e.size else 0 } := by
    intro p
    unfold UploadLedger.counted
    rw [hentries, count_concat]
    simp only [hreleased, and_true]
    rfl
  refine ⟨?_, fun p => ?_, fun p => ?_⟩
  · rw [hentries, List.length_append, List.length_singleton]
    have := hroom.total
    change _ + L.reserved ≤ _
    omega
  · rw [hcounted p]
    by_cases hp : e.principalId = p
    · subst hp
      have := hroom.bytes
      simp only [if_true]
      omega
    · simp only [hp, if_false, Nat.add_zero]
      exact hcaps.bytes p
  · rw [hcounted p]
    unfold PrincipalTally.unreferencedCount
    by_cases hp : e.principalId = p
    · subst hp
      have := hroom.share
      unfold PrincipalTally.unreferencedCount at this
      simp only [if_true, List.length_append, List.length_singleton]
      omega
    · simp only [hp, if_false, List.append_nil]
      exact hcaps.share p

/-- The entries stand in the order they were recorded, none after the clock, and no
namespace holds a NUL. -/
structure Ordered (L : UploadLedger) (clock : ℤ) : Prop where
  sorted : (L.recorded.map (·.2.recordedAt)).Pairwise (· ≤ ·)
  past : ∀ x ∈ L.recorded, x.2.recordedAt ≤ clock
  plain : ∀ x ∈ L.recorded, (0 : CodeUnit) ∉ x.2.ns

theorem Ordered.lighter (h : Ordered L clock) (hlighter : Lighter L' L) : Ordered L' clock :=
  ⟨h.sorted.sublist (hlighter.recorded.map _),
    fun x hx => h.past x (hlighter.recorded.subset hx),
    fun x hx => h.plain x (hlighter.recorded.subset hx)⟩

theorem Ordered.same (h : Ordered L clock) (heq : L'.entries = L.entries) : Ordered L' clock := by
  have hrecorded : L'.recorded = L.recorded := by
    unfold UploadLedger.recorded
    rw [heq]
  exact ⟨hrecorded ▸ h.sorted, hrecorded ▸ h.past, hrecorded ▸ h.plain⟩

/-- What holds in every state of a run. -/
structure Sound (limits : Limits) (L : UploadLedger) (clock : ℤ) : Prop where
  books : Books L
  caps : Caps limits L
  ordered : Ordered L clock

/-- A call, with the time it reads if it reads one. -/
inductive Op where
  | reserve (principalId : JsString) (size : ℕ) (now : ℤ)
  | cancel (reservation : ℕ)
  | record (reservation : ℕ) (ns sha256 : JsString) (now : ℤ)
  | holds (principalId ns sha256 : JsString) (now : ℤ)
  | release (ns : JsString) (sha256s : List JsString)
  | unreferencedBytes (principalId : JsString) (now : ℤ)

/-- The time once a call has read it. -/
def Op.time (before : ℤ) : Op → ℤ
  | reserve _ _ now | record _ _ _ now | holds _ _ _ now | unreferencedBytes _ now => now
  | cancel _ | release _ _ => before

/-- No namespace recorded under holds a NUL. -/
def Op.Plain : Op → Prop
  | record _ ns _ _ => (0 : CodeUnit) ∉ ns
  | _ => True

/-- The ledger after a call; one that throws leaves it as it was. -/
def step (limits : Limits) (L : UploadLedger) : Op → UploadLedger
  | .reserve principalId size now => (L.reserve limits principalId size now).1
  | .cancel r => L.unreserve r
  | .record r ns sha256 now => (L.record limits r ns sha256 now).getD L
  | .holds principalId ns sha256 now => (L.holds limits principalId ns sha256 now).1
  | .release ns sha256s => L.release ns sha256s
  | .unreferencedBytes principalId now => (L.unreferencedBytes limits principalId now).1

/-- The ledgers that calls at times that do not decrease lead to, with the clock. -/
inductive Run (limits : Limits) : UploadLedger → ℤ → Prop
  | start (time : ℤ) : Run limits .initial time
  | call {L : UploadLedger} {clock : ℤ} (op : Op) (h : Run limits L clock) (htime : clock ≤ op.time clock)
      (hplain : op.Plain) : Run limits (step limits L op) (op.time clock)

theorem Sound.lighter (h : Sound limits L clock) (hL : Books L') (hlighter : Lighter L' L) :
    Sound limits L' clock :=
  ⟨hL, h.caps.lighter hlighter, h.ordered.lighter hlighter⟩

theorem Sound.later (h : Sound limits L clock) (hle : clock ≤ now) : Sound limits L now :=
  ⟨h.books, h.caps, h.ordered.sorted, fun x hx => (h.ordered.past x hx).trans hle,
    h.ordered.plain⟩

theorem Sound.prune (h : Sound limits L clock) (now : ℤ) :
    Sound limits (L.prune limits now) clock := by
  obtain ⟨hbooks, hlighter, -⟩ := h.books.prune limits now
  exact h.lighter hbooks hlighter

/-- A reservation granted where there is room. -/
theorem Sound.grant (h : Sound limits L clock) (hroom : Room limits L p size) :
    Sound limits (L.grant p size).1 clock :=
  ⟨h.books.grant p size, h.caps.grant hroom, h.ordered.same rfl⟩

/-- **What a request leaves**: the entries that are not expired, but for one it may
have evicted. -/
theorem Sound.reserve (h : Sound limits L clock) (p : JsString) (size : ℕ) (now : ℤ) :
    Sound limits (L.reserve limits p size now).1 clock ∧
      ((L.reserve limits p size now).1.entries = (L.prune limits now).entries ∨
        ∃ x ∈ (L.prune limits now).entries.entries, Displaced (L.prune limits now) p x ∧
          (L.reserve limits p size now).1.entries = (L.prune limits now).entries.delete x.1) := by
  have hpruned := h.prune now
  have htally := hpruned.books.tally p
  unfold UploadLedger.reserve
  generalize L.prune limits now = M at hpruned htally
  simp only
  split
  · exact ⟨hpruned, Or.inl rfl⟩
  · rename_i hbytes
    split
    · exact ⟨hpruned, Or.inl rfl⟩
    · rename_i hshare
      rw [htally, not_lt] at hbytes
      rw [htally, not_le] at hshare
      split
      · rename_i hfull
        split
        · exact ⟨hpruned, Or.inl rfl⟩
        · rename_i M' hroom
          obtain ⟨k, e, hmem, rfl, hdisplaced⟩ := hpruned.books.makeRoom hroom
          have hlighter := Lighter.delete M k e
          have hsound := hpruned.lighter (hpruned.books.delete hmem) hlighter
          refine ⟨hsound.grant ⟨?_, ?_, ?_⟩, Or.inr ⟨(k, e), hmem, hdisplaced, rfl⟩⟩
          · have hlt : (M.delete k e).entries.entries.length < M.entries.entries.length := by
              obtain ⟨l₁, l₂, heq, -, -, hdelete⟩ := split_entries hmem
              change (M.entries.delete k).entries.length < _
              rw [hdelete, heq]
              simp
            have := hpruned.caps.total
            have hreserved := hlighter.reserved
            omega
          · exact (Nat.add_le_add_right (hlighter.bytes p) _).trans hbytes
          · exact (hlighter.share p).trans_lt hshare
      · rename_i hfree
        exact ⟨hpruned.grant ⟨Nat.lt_of_not_le hfree, hbytes, hshare⟩, Or.inl rfl⟩

/-- An upload entered where there is room for it. -/
theorem Sound.enter (h : Sound limits L now) {e : Entry} (hreleased : e.released = false)
    (hroom : Room limits L e.principalId e.size)
    (hnew : entryKey e.principalId e.ns e.sha256 ∉ L.entries.entries.map Prod.fst)
    (hat : e.recordedAt = now) (hplain : (0 : CodeUnit) ∉ e.ns) : Sound limits (L.enter e) now := by
  obtain ⟨hentries, hbooks⟩ := h.books.enter hreleased hnew
  have hrecorded : (L.enter e).recorded =
      L.recorded ++ [(entryKey e.principalId e.ns e.sha256, { e with released := false })] := by
    unfold UploadLedger.recorded
    rw [hentries, List.map_append]
    rfl
  refine ⟨hbooks, h.caps.enter h.books hreleased hroom hnew, ?_, ?_, ?_⟩
  · rw [hrecorded, List.map_append, List.pairwise_append]
    refine ⟨h.ordered.sorted, List.pairwise_singleton _ _, fun t ht t' ht' => ?_⟩
    obtain ⟨x, hx, rfl⟩ := List.mem_map.mp ht
    rw [List.mem_singleton.mp ht', hat]
    exact h.ordered.past x hx
  · intro x hx
    rw [hrecorded, List.mem_append, List.mem_singleton] at hx
    rcases hx with hold | rfl
    · exact h.ordered.past x hold
    · exact hat.le
  · intro x hx
    rw [hrecorded, List.mem_append, List.mem_singleton] at hx
    rcases hx with hold | rfl
    · exact h.ordered.plain x hold
    · exact hplain

variable {ns : JsString}

theorem Sound.record (h : Sound limits L clock) {sha256 : JsString} (hle : clock ≤ now)
    (hplain : (0 : CodeUnit) ∉ ns) (hrecord : L.record limits r ns sha256 now = some L') :
    Sound limits L' now := by
  unfold UploadLedger.record at hrecord
  cases hget : L.reservations[r]? with
  | none =>
    rw [hget] at hrecord
    cases hrecord
  | some reservation =>
    simp only [hget] at hrecord
    split at hrecord
    · cases hrecord
    · rename_i hlive
      rw [Bool.not_eq_true] at hlive
      obtain rfl := Option.some.inj hrecord
      obtain ⟨hentries, -, -⟩ := unreserve_live hget hlive
      obtain ⟨hcaps, hroom⟩ := h.caps.unreserve h.books hget hlive
      have hunreserved : Sound limits (L.unreserve r) now :=
        ⟨h.books.unreserve r, hcaps, (h.later hle).ordered.same hentries⟩
      obtain ⟨-, hlighter, -⟩ := hunreserved.books.prune limits now
      have hpruned := hunreserved.prune now
      obtain ⟨hbooks, hnew⟩ := hpruned.books.forget
        (entryKey reservation.principalId ns sha256)
      have hforget := Lighter.forget ((L.unreserve r).prune limits now)
        (entryKey reservation.principalId ns sha256)
      exact (hpruned.lighter hbooks hforget).enter rfl
        ((hroom.lighter hlighter).lighter hforget) hnew rfl hplain

theorem Sound.release (h : Sound limits L clock) (ns : JsString) (sha256s : List JsString) :
    Sound limits (L.release ns sha256s) clock := by
  have hkeys : ∀ (keys : List JsString) (L : UploadLedger), Sound limits L clock →
      Sound limits (keys.foldl UploadLedger.releaseKey L) clock := by
    intro keys
    induction keys with
    | nil => exact fun L hL => hL
    | cons k rest ih =>
      intro L hL
      exact ih _ (hL.lighter (hL.books.releaseKey k) (Lighter.releaseKey L k))
  unfold UploadLedger.release
  induction sha256s generalizing L with
  | nil => exact h
  | cons sha256 rest ih => exact ih (hkeys _ L h)

theorem Sound.unreserve (h : Sound limits L clock) (r : ℕ) : Sound limits (L.unreserve r) clock := by
  cases hget : L.reservations[r]? with
  | none =>
    have hsame : L.unreserve r = L := by
      unfold UploadLedger.unreserve
      rw [hget]
    rw [hsame]
    exact h
  | some reservation =>
    by_cases hlive : reservation.settled = true
    · have hsame : L.unreserve r = L := by
        unfold UploadLedger.unreserve
        simp only [hget, hlive, if_true]
      rw [hsame]
      exact h
    · rw [Bool.not_eq_true] at hlive
      obtain ⟨hentries, -, -⟩ := unreserve_live hget hlive
      exact ⟨h.books.unreserve r, (h.caps.unreserve h.books hget hlive).1,
        h.ordered.same hentries⟩

theorem Sound.step (h : Sound limits L clock) (op : Op) (htime : clock ≤ op.time clock)
    (hplain : op.Plain) : Sound limits (step limits L op) (op.time clock) := by
  cases op with
  | reserve p size now => exact (h.later htime).reserve p size now |>.1
  | cancel r => exact h.unreserve r
  | record r ns sha256 now =>
    change Sound limits ((L.record limits r ns sha256 now).getD L) now
    cases hrecord : L.record limits r ns sha256 now with
    | none => exact h.later htime
    | some L' => exact h.record htime hplain hrecord
  | holds p ns sha256 now | unreferencedBytes p now => exact (h.later htime).prune now
  | release ns sha256s => exact h.release ns sha256s

theorem Run.sound (hrun : Run limits L clock) : Sound limits L clock := by
  induction hrun with
  | start time =>
    refine ⟨⟨?_, List.nodup_nil, ?_, fun _ => rfl, fun _ => rfl, rfl⟩,
      ⟨Nat.zero_le _, fun _ => Nat.zero_le _, fun _ => Nat.zero_le _⟩,
      ⟨List.Pairwise.nil, ?_, ?_⟩⟩
    · intro x hx
      cases hx
    · intro k
      exact ⟨fun hk => (by cases hk), fun ⟨_, hmem, _⟩ => (by cases hmem)⟩
    · intro x hx
      cases hx
    · intro x hx
      cases hx
  | call op _ htime hplain ih => exact ih.step op htime hplain

/-- **Pruning leaves exactly the entries that are not expired.** -/
theorem Sound.prune_entries (h : Sound limits L clock) (now : ℤ) :
    (L.prune limits now).entries.entries =
      L.entries.entries.filter (fun x => !UploadLedger.expired limits now x.2) := by
  rw [(h.books.prune limits now).2.2]
  have hsorted := h.ordered.sorted
  unfold UploadLedger.recorded at hsorted
  rw [List.map_map] at hsorted
  generalize L.entries.entries = l at hsorted
  induction l with
  | nil => rfl
  | cons x rest ih =>
    rw [List.map_cons, List.pairwise_cons] at hsorted
    by_cases hexpired : UploadLedger.expired limits now x.2 = true
    · rw [List.dropWhile_cons, if_pos hexpired, List.filter_cons_of_neg (by simp [hexpired])]
      exact ih hsorted.2
    · rw [List.dropWhile_cons, if_neg hexpired, List.filter_eq_self.mpr]
      intro y hy
      unfold UploadLedger.expired at hexpired ⊢
      rw [decide_eq_true_eq] at hexpired
      rcases List.mem_cons.mp hy with rfl | hy
      · simpa using hexpired
      · have hle := hsorted.1 _ (List.mem_map.mpr ⟨y, hy, rfl⟩)
        simp only [Function.comp_apply] at hle
        rw [Bool.not_eq_true', decide_eq_false_iff_not]
        omega

theorem Sound.chunk (h : Sound limits L clock) (hns : (0 : CodeUnit) ∉ ns) (sha256 : JsString) :
    L.byChunk.get (chunkKey ns sha256) =
      listed ((L.entries.entries.filter (fun x => x.2.ns = ns ∧ x.2.sha256 = sha256)).map
        Prod.fst) := by
  rw [h.books.chunks, keysOf]
  congr 2
  apply List.filter_congr
  intro x hx
  have hplain := h.ordered.plain (x.1, { x.2 with released := false })
    (List.mem_map.mpr ⟨x, hx, rfl⟩)
  refine decide_eq_decide.mpr ⟨fun heq => ?_, fun heq => ?_⟩
  · exact append_separator_inj hplain hns heq
  · rw [heq.1, heq.2]

theorem Sound.record_settles (h : Sound limits L clock) {sha256 : JsString}
    (hrecord : L.record limits r ns sha256 now = some L') :
    ∃ reservation, L.reservations[r]? = some reservation ∧ reservation.settled = false ∧
      L'.reservations = L.reservations.set r { reservation with settled := true } := by
  unfold UploadLedger.record at hrecord
  cases hget : L.reservations[r]? with
  | none =>
    rw [hget] at hrecord
    cases hrecord
  | some reservation =>
    simp only [hget] at hrecord
    split at hrecord
    · cases hrecord
    · rename_i hlive
      rw [Bool.not_eq_true] at hlive
      obtain rfl := Option.some.inj hrecord
      obtain ⟨-, hreservations, -⟩ := unreserve_live hget hlive
      refine ⟨reservation, rfl, hlive, ?_⟩
      have hforget := Lighter.forget ((L.unreserve r).prune limits now)
        (entryKey reservation.principalId ns sha256)
      have hprune := ((h.books.unreserve r).prune limits now).2.1
      exact (hforget.reservations.trans hprune.reservations).trans hreservations

/-- **The accounts are exact and the caps hold.**  In every state of a run no cap is
passed, every tally, the count of reservations, the index by chunk and the list of
released entries are what the entries and the live reservations make them, and a
settled reservation is not spent again.  A request drops the expired entries and
evicts at most one other, and that one only if it is released or, none being
released, the oldest of a principal that holds strictly more than the requester. -/
theorem ledger_accounts (limits : Limits) (L : UploadLedger) (clock : ℤ)
    (hrun : Run limits L clock) :
    (L.entries.entries.length + L.reserved ≤ limits.maxEntries ∧
      ∀ p, (L.counted p).unreferencedBytes + (L.counted p).reservedBytes ≤
          limits.maxUnreferencedBytesPerPrincipal ∧
        (L.counted p).unreferenced.length + (L.counted p).reservedEntries ≤
          limits.maxEntriesPerPrincipal) ∧
    ((∀ p, L.tallies.get p = kept (L.counted p)) ∧
      L.reserved = L.reservations.countP (fun r => !r.settled)) ∧
    (∀ ns sha256, (0 : CodeUnit) ∉ ns → L.byChunk.get (chunkKey ns sha256) =
      listed ((L.entries.entries.filter (fun x => x.2.ns = ns ∧ x.2.sha256 = sha256)).map
        Prod.fst)) ∧
    (L.released.Nodup ∧
      ∀ k, k ∈ L.released ↔ ∃ e, (k, e) ∈ L.entries.entries ∧ e.released = true) ∧
    (∀ r reservation, L.reservations[r]? = some reservation → reservation.settled = true →
      L.unreserve r = L ∧ ∀ ns sha256 now, L.record limits r ns sha256 now = none) ∧
    (∀ r ns sha256 now L', L.record limits r ns sha256 now = some L' →
      ∃ reservation, L.reservations[r]? = some reservation ∧ reservation.settled = false ∧
        L'.reservations = L.reservations.set r { reservation with settled := true }) ∧
    (∀ p size now, clock ≤ now →
      (L.prune limits now).entries.entries =
        L.entries.entries.filter (fun x => !UploadLedger.expired limits now x.2) ∧
      ((L.reserve limits p size now).1.entries = (L.prune limits now).entries ∨
        ∃ x ∈ (L.prune limits now).entries.entries, Displaced (L.prune limits now) p x ∧
          (L.reserve limits p size now).1.entries = (L.prune limits now).entries.delete x.1)) := by
  have h := hrun.sound
  refine ⟨⟨h.caps.total, fun p => ⟨h.caps.bytes p, h.caps.share p⟩⟩,
    ⟨h.books.tallies, h.books.reserved⟩, fun ns sha256 hns => h.chunk hns sha256,
    ⟨h.books.releasedOnce, h.books.released⟩, ?_, ?_, ?_⟩
  · intro r reservation hget hsettled
    unfold UploadLedger.unreserve UploadLedger.record
    simp [hget, hsettled]
  · intro r ns sha256 now L' hrecord
    exact h.record_settles hrecord
  · intro p size now _
    exact ⟨h.prune_entries now, (h.reserve p size now).2⟩

/-- With room for one entry in all, a second principal's request takes the room of
the first one's upload. -/
theorem ledger_accounts_sample :
    let limits : Limits := ⟨10, 100, 5, 1⟩
    let L := step limits (step limits (step limits .initial (.reserve (js "a") 3 0))
      (.record 0 (js "ns") (js "h") 1)) (.reserve (js "b") 3 2)
    L.tallies.get (js "a") = none ∧ L.entries.entries.length + L.reserved ≤ 1 := by
  have hrun := ((@Run.start ⟨10, 100, 5, 1⟩ 0).call (.reserve (js "a") 3 0)
    (by decide) trivial).call (.record 0 (js "ns") (js "h") 1) (by decide)
    (by unfold Op.Plain; decide)
  have h := ledger_accounts _ _ _ (hrun.call (.reserve (js "b") 3 2) (by decide) trivial)
  refine ⟨?_, h.1.1⟩
  rw [h.2.1.1]
  decide

end Uploads

end Swamp
