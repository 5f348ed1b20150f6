import Mathlib.Algebra.Order.BigOperators.Group.List
import Mathlib.Data.List.TakeWhile
import Swamp.OrderedMap
import Swamp.JsValue

/-!
# The upload ledger

Who uploaded which chunk, and how much of it no commit refers to yet.  The ledger
keeps its entries in the order they were recorded, and beside them the released
ones, an index by chunk and a tally for each principal.  An upload is reserved
before it is recorded, so requests under way cannot pass the caps between them.

`count` is the tally that the entries and the reservations themselves make up;
`Books` says that everything kept beside the entries is what they make it.
-/

namespace Swamp

namespace Uploads

open Js

/-- The options, positive integers all. -/
structure Limits where
  graceMs : ℕ
  maxUnreferencedBytesPerPrincipal : ℕ
  maxEntriesPerPrincipal : ℕ
  maxEntries : ℕ

/-- An outbox entry: the ops of a commit prepared at a head. -/
structure Entry where
  principalId : JsString
  ns : JsString
  sha256 : JsString
  size : ℕ
  recordedAt : ℤ
  released : Bool

structure PrincipalTally where
  held : ℕ
  unreferenced : List JsString
  unreferencedBytes : ℕ
  reservedEntries : ℕ
  reservedBytes : ℕ

structure Reservation where
  principalId : JsString
  size : ℕ
  settled : Bool

def entryKey (principalId ns sha256 : JsString) : JsString :=
  principalId ++ 0 :: (ns ++ 0 :: sha256)

def chunkKey (ns sha256 : JsString) : JsString := ns ++ 0 :: sha256

/-- The ledger, with the reservations it has handed out, by their number. -/
structure UploadLedger where
  entries : OrderedMap JsString Entry
  released : List JsString
  byChunk : OrderedMap JsString (List JsString)
  tallies : OrderedMap JsString PrincipalTally
  reserved : ℕ
  reservations : List Reservation

/-- The answer to a request. -/
inductive UploadAdmission where
  | allowed (reservation : ℕ)
  | bytes (unreferencedBytes : ℕ)
  | entries (unreferencedBytes : ℕ)
  | full (unreferencedBytes : ℕ)

def PrincipalTally.empty : PrincipalTally := ⟨0, [], 0, 0, 0⟩

/-- `#unreferencedCount` of a tally that is there. -/
def PrincipalTally.unreferencedCount (t : PrincipalTally) : ℕ :=
  t.unreferenced.length + t.reservedEntries

/-- `#dropIfEmpty`, of a tally that has changed. -/
def putTally (tallies : OrderedMap JsString PrincipalTally) (principalId : JsString)
    (t : PrincipalTally) : OrderedMap JsString PrincipalTally :=
  if t.held = 0 ∧ t.reservedEntries = 0 then tallies.delete principalId
  else tallies.set principalId t

/-- A tally once an entry is deleted. -/
def PrincipalTally.without (t : PrincipalTally) (key : JsString) (entry : Entry) :
    PrincipalTally :=
  { t with
    held := t.held - 1
    unreferenced := if entry.released then t.unreferenced else t.unreferenced.erase key
    unreferencedBytes :=
      if entry.released then t.unreferencedBytes else t.unreferencedBytes - entry.size }

/-- A tally once an entry is released. -/
def PrincipalTally.release (t : PrincipalTally) (key : JsString) (entry : Entry) :
    PrincipalTally :=
  { t with
    unreferenced := t.unreferenced.erase key
    unreferencedBytes := t.unreferencedBytes - entry.size }

namespace UploadLedger

def initial : UploadLedger := ⟨.empty, [], .empty, .empty, 0, []⟩

/-- `#tally`. -/
def tally (L : UploadLedger) (principalId : JsString) : PrincipalTally :=
  (L.tallies.get principalId).getD .empty

/-- `#delete`. -/
def delete (L : UploadLedger) (key : JsString) (entry : Entry) : UploadLedger :=
  { L with
    entries := L.entries.delete key
    released := L.released.erase key
    byChunk :=
      let ck := chunkKey entry.ns entry.sha256
      match L.byChunk.get ck with
      | none => L.byChunk
      | some keys =>
        if keys.erase key = [] then L.byChunk.delete ck else L.byChunk.set ck (keys.erase key)
    tallies :=
      match L.tallies.get entry.principalId with
      | none => L.tallies
      | some t => putTally L.tallies entry.principalId (t.without key entry) }

/-- `#expired`. -/
def expired (limits : Limits) (now : ℤ) (entry : Entry) : Bool :=
  decide (limits.graceMs ≤ now - entry.recordedAt)

/-- The loop of `#prune`, over the entries from the oldest on. -/
def pruneFrom (limits : Limits) (now : ℤ) :
    List (JsString × Entry) → UploadLedger → UploadLedger
  | [], L => L
  | (key, entry) :: rest, L =>
    if expired limits now entry then pruneFrom limits now rest (L.delete key entry) else L

/-- `#prune`. -/
def prune (limits : Limits) (now : ℤ) (L : UploadLedger) : UploadLedger :=
  pruneFrom limits now L.entries.entries L

/-- `#unreserve`. -/
def unreserve (L : UploadLedger) (r : ℕ) : UploadLedger :=
  match L.reservations[r]? with
  | none => L
  | some reservation =>
    if reservation.settled then L
    else
      { L with
        reservations := L.reservations.set r { reservation with settled := true }
        reserved := L.reserved - 1
        tallies :=
          match L.tallies.get reservation.principalId with
          | none => L.tallies
          | some t => putTally L.tallies reservation.principalId
              { t with
                reservedEntries := t.reservedEntries - 1
                reservedBytes := t.reservedBytes - reservation.size } }

/-- The loop of `#makeRoom` over the tallies: the heaviest so far, and its count. -/
def heaviest (principalId : JsString) :
    List (JsString × PrincipalTally) → Option PrincipalTally × ℕ → Option PrincipalTally × ℕ
  | [], found => found
  | (id, t) :: rest, found =>
    if id = principalId ∨ t.unreferenced = [] then heaviest principalId rest found
    else if found.2 < t.unreferencedCount then
      heaviest principalId rest (some t, t.unreferencedCount)
    else heaviest principalId rest found

/-- Delete the entry of a key, which is there. -/
def evict (L : UploadLedger) (key : JsString) : Option UploadLedger :=
  (L.entries.get key).map (L.delete key)

/-- `#makeRoom`; `none` where it answers `false`. -/
def makeRoom (L : UploadLedger) (principalId : JsString) : Option UploadLedger :=
  match L.released with
  | oldestReleased :: _ => L.evict oldestReleased
  | [] =>
    match (heaviest principalId L.tallies.entries
      (none, (L.tally principalId).unreferencedCount)).1 with
    | none => none
    | some t => t.unreferenced.head?.bind L.evict

/-- Count a reservation that is granted, and hand it out. -/
def grant (L : UploadLedger) (principalId : JsString) (size : ℕ) : UploadLedger × UploadAdmission :=
  let held := L.tally principalId
  ({ L with
      tallies := L.tallies.set principalId
        { held with
          reservedEntries := held.reservedEntries + 1
          reservedBytes := held.reservedBytes + size }
      reserved := L.reserved + 1
      reservations := L.reservations ++ [⟨principalId, size, false⟩] },
    .allowed L.reservations.length)

/-- A size that is not a natural number is refused before anything is read. -/
def reserve (limits : Limits) (L : UploadLedger) (principalId : JsString) (size : ℕ) (now : ℤ) :
    UploadLedger × UploadAdmission :=
  let L := L.prune limits now
  let t := L.tally principalId
  let unreferencedBytes := t.unreferencedBytes + t.reservedBytes
  if limits.maxUnreferencedBytesPerPrincipal < unreferencedBytes + size then
    (L, .bytes unreferencedBytes)
  else if limits.maxEntriesPerPrincipal ≤ t.unreferencedCount then (L, .entries unreferencedBytes)
  else if limits.maxEntries ≤ L.entries.entries.length + L.reserved then
    match L.makeRoom principalId with
    | none => (L, .full unreferencedBytes)
    | some L => L.grant principalId size
  else L.grant principalId size

/-- Delete the entry of a key, if there is one. -/
def forget (L : UploadLedger) (key : JsString) : UploadLedger :=
  match L.entries.get key with
  | none => L
  | some existing => L.delete key existing

/-- Enter an upload whose key has no entry. -/
def enter (L : UploadLedger) (entry : Entry) : UploadLedger :=
  let key := entryKey entry.principalId entry.ns entry.sha256
  let ck := chunkKey entry.ns entry.sha256
  let t := L.tally entry.principalId
  { L with
    entries := L.entries.set key entry
    byChunk := L.byChunk.set ck ((L.byChunk.get ck).getD [] ++ [key])
    tallies := L.tallies.set entry.principalId
      { t with
        held := t.held + 1
        unreferenced := t.unreferenced ++ [key]
        unreferencedBytes := t.unreferencedBytes + entry.size } }

/-- `record`; `none` where it throws, for a reservation that is not live. -/
def record (limits : Limits) (L : UploadLedger) (r : ℕ) (ns sha256 : JsString) (now : ℤ) :
    Option UploadLedger :=
  match L.reservations[r]? with
  | none => none
  | some reservation =>
    if reservation.settled then none
    else
      let L := (L.unreserve r).prune limits now
      let L := L.forget (entryKey reservation.principalId ns sha256)
      some (L.enter ⟨reservation.principalId, ns, sha256, reservation.size, now, false⟩)

def holds (limits : Limits) (L : UploadLedger) (principalId ns sha256 : JsString) (now : ℤ) :
    UploadLedger × Bool :=
  let L := L.prune limits now
  (L, (L.entries.get (entryKey principalId ns sha256)).any (fun e => !expired limits now e))

/-- Release the entry of a key, unless it is released. -/
def releaseKey (L : UploadLedger) (key : JsString) : UploadLedger :=
  match L.entries.get key with
  | none => L
  | some entry =>
    if entry.released then L
    else
      { L with
        entries := L.entries.set key { entry with released := true }
        released := L.released ++ [key]
        tallies := L.tallies.set entry.principalId
          ((L.tally entry.principalId).release key entry) }

def release (L : UploadLedger) (ns : JsString) (sha256s : List JsString) : UploadLedger :=
  sha256s.foldl (fun L sha256 =>
    ((L.byChunk.get (chunkKey ns sha256)).getD []).foldl releaseKey L) L

def unreferencedBytes (limits : Limits) (L : UploadLedger) (principalId : JsString) (now : ℤ) :
    UploadLedger × ℕ :=
  let L := L.prune limits now
  (L, (L.tally principalId).unreferencedBytes)

end UploadLedger

/-- The entries of a principal that no commit refers to yet. -/
def waiting (entries : List (JsString × Entry)) (p : JsString) : List (JsString × Entry) :=
  entries.filter (fun x => decide (x.2.principalId = p) && !x.2.released)

/-- The reservations of a principal that are not settled. -/
def unsettled (reservations : List Reservation) (p : JsString) : List Reservation :=
  reservations.filter (fun r => decide (r.principalId = p) && !r.settled)

/-- The tally of a principal, counted afresh. -/
def count (entries : List (JsString × Entry)) (reservations : List Reservation) (p : JsString) :
    PrincipalTally where
  held := entries.countP (fun x => x.2.principalId = p)
  unreferenced := (waiting entries p).map Prod.fst
  unreferencedBytes := ((waiting entries p).map (·.2.size)).sum
  reservedEntries := (unsettled reservations p).length
  reservedBytes := ((unsettled reservations p).map (·.size)).sum

/-- No tally is kept for a principal with no entry and no reservation. -/
def kept (t : PrincipalTally) : Option PrincipalTally :=
  if t.held = 0 ∧ t.reservedEntries = 0 then none else some t

theorem kept_of_held {t : PrincipalTally} (h : t.held ≠ 0) : kept t = some t :=
  if_neg (fun hzero => h hzero.1)

/-- The keys of the entries of a chunk. -/
def keysOf (entries : List (JsString × Entry)) (ck : JsString) : List JsString :=
  (entries.filter (fun x => chunkKey x.2.ns x.2.sha256 = ck)).map Prod.fst

/-- No chunk is kept in the index without a key. -/
def listed (keys : List JsString) : Option (List JsString) := if keys = [] then none else some keys

/-- Everything kept beside the entries and the reservations is what they make it. -/
structure Books (L : UploadLedger) : Prop where
  keyed : ∀ x ∈ L.entries.entries, x.1 = entryKey x.2.principalId x.2.ns x.2.sha256
  releasedOnce : L.released.Nodup
  released : ∀ k, k ∈ L.released ↔ ∃ e, (k, e) ∈ L.entries.entries ∧ e.released = true
  chunks : ∀ ck, L.byChunk.get ck = listed (keysOf L.entries.entries ck)
  tallies : ∀ p, L.tallies.get p = kept (count L.entries.entries L.reservations p)
  reserved : L.reserved = L.reservations.countP (fun r => !r.settled)

theorem get_putTally (tallies : OrderedMap JsString PrincipalTally) (p q : JsString)
    (t : PrincipalTally) :
    (putTally tallies p t).get q = if q = p then kept t else tallies.get q := by
  unfold putTally kept
  split
  · rw [OrderedMap.get_delete]
  · rw [OrderedMap.get_set]

variable {k : JsString} {e : Entry}

theorem split_entries {m : OrderedMap JsString Entry} (h : (k, e) ∈ m.entries) :
    ∃ l₁ l₂, m.entries = l₁ ++ (k, e) :: l₂ ∧
      k ∉ l₁.map Prod.fst ∧ k ∉ l₂.map Prod.fst ∧ (m.delete k).entries = l₁ ++ l₂ := by
  obtain ⟨l₁, l₂, heq⟩ := List.append_of_mem h
  have hnodup := m.nodup
  rw [heq, List.map_append, List.map_cons, List.nodup_append, List.nodup_cons] at hnodup
  have h₁ : k ∉ l₁.map Prod.fst := fun hmem => hnodup.2.2 k hmem k List.mem_cons_self rfl
  have hall : ∀ l : List (JsString × Entry), k ∉ l.map Prod.fst →
      l.filter (fun x => x.1 ≠ k) = l := by
    intro l hl
    refine List.filter_eq_self.mpr (fun x hx => decide_eq_true (fun heq => hl ?_))
    exact List.mem_map.mpr ⟨x, hx, heq⟩
  refine ⟨l₁, l₂, heq, h₁, hnodup.2.1.1, ?_⟩
  change m.entries.filter _ = _
  rw [heq, List.filter_append, List.filter_cons_of_neg (by simp), hall l₁ h₁, hall l₂ hnodup.2.1.1]

/-- Setting the key of an entry leaves it in its place. -/
theorem set_entries {m : OrderedMap JsString Entry} {l₁ l₂ : List (JsString × Entry)} (e' : Entry)
    (heq : m.entries = l₁ ++ (k, e) :: l₂) (h₁ : k ∉ l₁.map Prod.fst) :
    (m.set k e').entries = l₁ ++ (k, e') :: l₂ := by
  change OrderedMap.setEntry k e' m.entries = _
  rw [heq]
  clear heq
  induction l₁ with
  | nil => rw [List.nil_append, OrderedMap.setEntry, if_pos rfl, List.nil_append]
  | cons x l₁ ih =>
    rw [List.map_cons, List.mem_cons, not_or] at h₁
    rw [List.cons_append, OrderedMap.setEntry, if_neg (fun h => h₁.1 h.symm), ih h₁.2,
      List.cons_append]

theorem waiting_append (l₁ l₂ : List (JsString × Entry)) (p : JsString) :
    waiting (l₁ ++ l₂) p = waiting l₁ p ++ waiting l₂ p := List.filter_append ..

theorem not_mem_waiting {l : List (JsString × Entry)} (h : k ∉ l.map Prod.fst) (p : JsString) :
    k ∉ (waiting l p).map Prod.fst :=
  fun hmem => h ((List.filter_sublist.map Prod.fst).subset hmem)

theorem count_entry (l₁ l₂ : List (JsString × Entry)) (rs : List Reservation) (k : JsString)
    (e : Entry) (p : JsString) :
    count (l₁ ++ (k, e) :: l₂) rs p =
      { count (l₁ ++ l₂) rs p with
        held := (count (l₁ ++ l₂) rs p).held + if e.principalId = p then 1 else 0
        unreferenced := (waiting l₁ p).map Prod.fst ++
          (if e.principalId = p ∧ e.released = false then [k] else []) ++
          (waiting l₂ p).map Prod.fst
        unreferencedBytes := (count (l₁ ++ l₂) rs p).unreferencedBytes +
          if e.principalId = p ∧ e.released = false then e.size else 0 } := by
  have hwaiting : waiting ((k, e) :: l₂) p =
      (if e.principalId = p ∧ e.released = false then [(k, e)] else []) ++ waiting l₂ p := by
    unfold waiting
    rw [List.filter_cons]
    by_cases h : e.principalId = p ∧ e.released = false
    · simp [h]
    · rw [if_neg h, if_neg (by simpa using h), List.nil_append]
  unfold count
  rw [waiting_append, waiting_append, hwaiting]
  congr 1
  · rw [List.countP_append, List.countP_append, List.countP_cons]
    simp only [decide_eq_true_eq]
    omega
  · split
    · simp
    · simp
  · split
    · simp only [List.map_append, List.map_cons, List.map_nil, List.sum_append, List.sum_cons,
        List.sum_nil]
      omega
    · simp

theorem count_concat (l : List (JsString × Entry)) (rs : List Reservation) (k : JsString)
    (e : Entry) (p : JsString) :
    count (l ++ [(k, e)]) rs p =
      { count l rs p with
        held := (count l rs p).held + if e.principalId = p then 1 else 0
        unreferenced := (count l rs p).unreferenced ++
          if e.principalId = p ∧ e.released = false then [k] else []
        unreferencedBytes := (count l rs p).unreferencedBytes +
          if e.principalId = p ∧ e.released = false then e.size else 0 } := by
  have hnil : (waiting [] p).map Prod.fst = [] := rfl
  rw [count_entry, hnil, List.append_nil, List.append_nil]
  rfl

theorem keysOf_entry (l₁ l₂ : List (JsString × Entry)) (k : JsString) (e : Entry)
    (ck : JsString) :
    keysOf (l₁ ++ (k, e) :: l₂) ck =
      keysOf l₁ ck ++ (if chunkKey e.ns e.sha256 = ck then [k] else []) ++ keysOf l₂ ck := by
  unfold keysOf
  rw [List.filter_append, List.filter_cons]
  split
  · rename_i h
    rw [if_pos (of_decide_eq_true h)]
    simp
  · rename_i h
    rw [if_neg (fun heq => h (decide_eq_true heq))]
    simp

theorem keysOf_append (l₁ l₂ : List (JsString × Entry)) (ck : JsString) :
    keysOf (l₁ ++ l₂) ck = keysOf l₁ ck ++ keysOf l₂ ck := by
  unfold keysOf
  rw [List.filter_append, List.map_append]

theorem not_mem_keysOf {l : List (JsString × Entry)} (h : k ∉ l.map Prod.fst) (ck : JsString) :
    k ∉ keysOf l ck :=
  fun hmem => h ((List.filter_sublist.map Prod.fst).subset hmem)

theorem erase_middle {a : List JsString} (b : List JsString) (h : k ∉ a) :
    (a ++ [k] ++ b).erase k = a ++ b := by
  rw [List.append_assoc, List.erase_append_right _ h, List.singleton_append, List.erase_cons_head]

variable {rs : List Reservation}

theorem count_of_none {entries : List (JsString × Entry)} {p : JsString}
    (h : kept (count entries rs p) = none) : count entries rs p = .empty := by
  unfold kept at h
  split at h
  · rename_i hzero
    have hwaiting : waiting entries p = [] := by
      apply List.filter_eq_nil_iff.mpr
      intro x hx hown
      have := List.countP_eq_zero.mp hzero.1 x hx
      simp only [Bool.and_eq_true] at hown
      exact this hown.1
    have hunsettled : unsettled rs p = [] := List.length_eq_zero_iff.mp hzero.2
    have hheld : entries.countP (fun x => x.2.principalId = p) = 0 := hzero.1
    unfold count PrincipalTally.empty
    rw [hwaiting, hunsettled, hheld]
    rfl
  · cases h

variable {L : UploadLedger}

theorem Books.tally (hL : Books L) (p : JsString) :
    L.tally p = count L.entries.entries L.reservations p := by
  unfold UploadLedger.tally
  rw [hL.tallies]
  by_cases h : kept (count L.entries.entries L.reservations p) = none
  · rw [h, count_of_none h, Option.getD_none]
  · unfold kept at h ⊢
    split
    · rename_i hzero
      rw [if_pos hzero] at h
      exact absurd rfl h
    · rfl

/-- A principal with an entry has a tally. -/
theorem Books.get_tally (hL : Books L) (h : (k, e) ∈ L.entries.entries) :
    L.tallies.get e.principalId =
      some (count L.entries.entries L.reservations e.principalId) := by
  rw [hL.tallies, kept_of_held]
  intro hzero
  have := List.countP_eq_zero.mp hzero (k, e) h
  simp at this

/-- **Deleting an entry keeps the books.** -/
theorem Books.delete (hL : Books L) (h : (k, e) ∈ L.entries.entries) : Books (L.delete k e) := by
  obtain ⟨l₁, l₂, heq, h₁, h₂, hdelete⟩ := split_entries h
  have hentries : (L.delete k e).entries.entries = l₁ ++ l₂ := hdelete
  refine ⟨?_, hL.releasedOnce.erase k, ?_, ?_, ?_, hL.reserved⟩
  · intro x hx
    apply hL.keyed x
    rw [hentries] at hx
    rw [heq]
    exact List.mem_append.mpr ((List.mem_append.mp hx).imp_right (List.mem_cons_of_mem _))
  · intro k'
    change k' ∈ L.released.erase k ↔ _
    rw [hL.releasedOnce.mem_erase_iff, hL.released k', heq, hentries]
    constructor
    · intro hk
      obtain ⟨hne, e', hmem, hreleased⟩ := hk
      refine ⟨e', ?_, hreleased⟩
      simp only [List.mem_append, List.mem_cons, Prod.mk.injEq, hne, false_and, false_or] at hmem ⊢
      exact hmem
    · intro hk
      obtain ⟨e', hmem, hreleased⟩ := hk
      refine ⟨fun hk => ?_, e', ?_, hreleased⟩
      · subst hk
        rcases List.mem_append.mp hmem with hmem | hmem
        · exact h₁ (List.mem_map.mpr ⟨_, hmem, rfl⟩)
        · exact h₂ (List.mem_map.mpr ⟨_, hmem, rfl⟩)
      · exact List.mem_append.mpr ((List.mem_append.mp hmem).imp_right (List.mem_cons_of_mem _))
  · intro ck
    have hkeys := hL.chunks (chunkKey e.ns e.sha256)
    rw [heq, keysOf_entry, if_pos rfl, listed, if_neg (by simp)] at hkeys
    rw [hentries]
    unfold UploadLedger.delete
    simp only [hkeys]
    rw [erase_middle _ (not_mem_keysOf h₁ _), ← keysOf_append]
    have hother := hL.chunks ck
    rw [heq, keysOf_entry] at hother
    by_cases hck : ck = chunkKey e.ns e.sha256
    · subst hck
      split
      · rename_i hnil
        rw [OrderedMap.get_delete, if_pos rfl, listed, if_pos hnil]
      · rename_i hcons
        rw [OrderedMap.get_set_self, listed, if_neg hcons]
    · rw [if_neg (fun heq => hck heq.symm), List.append_nil, ← keysOf_append] at hother
      split
      · rw [OrderedMap.get_delete, if_neg hck, hother]
      · rw [OrderedMap.get_set_ne _ _ hck, hother]
  · intro p
    rw [hentries]
    change OrderedMap.get (match L.tallies.get e.principalId with
      | none => L.tallies
      | some t => putTally L.tallies e.principalId (t.without k e)) p =
        kept (count (l₁ ++ l₂) L.reservations p)
    rw [hL.get_tally h]
    simp only
    rw [get_putTally, heq]
    by_cases hp : p = e.principalId
    · subst hp
      rw [if_pos rfl]
      congr 1
      rw [count_entry]
      unfold PrincipalTally.without count
      rw [waiting_append, List.map_append]
      by_cases hreleased : e.released = true
      · simp [hreleased]
      · rw [Bool.not_eq_true] at hreleased
        have herase := erase_middle ((waiting l₂ e.principalId).map Prod.fst)
          (not_mem_waiting h₁ e.principalId)
        simp only [hreleased, and_true, if_true, Nat.add_sub_cancel, Bool.false_eq_true, if_false,
          herase]
    · have hne : ¬ e.principalId = p := fun heq => hp heq.symm
      rw [if_neg hp, hL.tallies, heq, count_entry]
      congr 1
      unfold count
      rw [waiting_append, List.map_append]
      simp [hne]

variable {r : ℕ} {reservation : Reservation}

theorem unsettled_set (h : rs[r]? = some reservation) : ∃ r₁ r₂,
      rs = r₁ ++ reservation :: r₂ ∧
        rs.set r { reservation with settled := true } =
          r₁ ++ { reservation with settled := true } :: r₂ := by
  obtain ⟨hlt, heq⟩ := List.getElem?_eq_some_iff.mp h
  refine ⟨rs.take r, rs.drop (r + 1), ?_, List.set_eq_take_append_cons_drop.trans (if_pos hlt)⟩
  rw [← heq, List.getElem_cons_drop, List.take_append_drop]

theorem unsettled_cons (r₁ r₂ : List Reservation) (reservation : Reservation) (p : JsString) :
    unsettled (r₁ ++ reservation :: r₂) p =
      unsettled r₁ p ++ (if reservation.principalId = p ∧ reservation.settled = false
        then [reservation] else []) ++ unsettled r₂ p := by
  unfold unsettled
  rw [List.filter_append, List.filter_cons]
  by_cases h : reservation.principalId = p ∧ reservation.settled = false
  · simp [h]
  · rw [if_neg h, if_neg (by simpa using h), List.append_nil]

theorem count_settle (entries : List (JsString × Entry)) (h : rs[r]? = some reservation)
    (hlive : reservation.settled = false) (p : JsString) :
    count entries rs p =
      { count entries (rs.set r { reservation with settled := true }) p with
        reservedEntries :=
          (count entries (rs.set r { reservation with settled := true }) p).reservedEntries +
            if reservation.principalId = p then 1 else 0
        reservedBytes :=
          (count entries (rs.set r { reservation with settled := true }) p).reservedBytes +
            if reservation.principalId = p then reservation.size else 0 } := by
  obtain ⟨r₁, r₂, heq, hset⟩ := unsettled_set h
  unfold count
  rw [hset, heq, unsettled_cons, unsettled_cons]
  by_cases hp : reservation.principalId = p
  · simp only [hp, hlive, and_self, if_true, Bool.true_eq_false, and_false, if_false,
      List.append_nil, List.length_append, List.length_singleton, List.map_append, List.map_cons,
      List.map_nil, List.sum_append, List.sum_cons, List.sum_nil]
    congr 1
    · omega
    · omega
  · simp [hp]

/-- What settling a live reservation leaves. -/
theorem unreserve_live {L : UploadLedger} (h : L.reservations[r]? = some reservation)
    (hlive : reservation.settled = false) :
    (L.unreserve r).entries = L.entries ∧
      (L.unreserve r).reservations = L.reservations.set r { reservation with settled := true } ∧
      (L.unreserve r).reserved = L.reserved - 1 := by
  unfold UploadLedger.unreserve
  simp [h, hlive]

/-- **Settling a reservation keeps the books.** -/
theorem Books.unreserve (hL : Books L) (r : ℕ) : Books (L.unreserve r) := by
  unfold UploadLedger.unreserve
  cases hget : L.reservations[r]? with
  | none => exact hL
  | some reservation =>
    simp only
    split
    · exact hL
    · rename_i hlive
      rw [Bool.not_eq_true] at hlive
      have hsettle := count_settle L.entries.entries hget hlive
      refine ⟨hL.keyed, hL.releasedOnce, hL.released, hL.chunks, ?_, ?_⟩
      · intro p
        have hkept : L.tallies.get reservation.principalId =
            some (count L.entries.entries L.reservations reservation.principalId) := by
          rw [hL.tallies, kept, if_neg]
          intro hzero
          have hreserved := hzero.2
          rw [hsettle reservation.principalId] at hreserved
          simp at hreserved
        simp only [hkept]
        rw [get_putTally, hsettle reservation.principalId]
        by_cases hp : p = reservation.principalId
        · subst hp
          simp
        · have hne : ¬ reservation.principalId = p := fun h => hp h.symm
          rw [if_neg hp, hL.tallies, hsettle p]
          simp [hne]
      · obtain ⟨r₁, r₂, heq, hset⟩ := unsettled_set hget
        change L.reserved - 1 = List.countP _ (L.reservations.set r _)
        rw [hL.reserved, hset, heq]
        simp [hlive]

theorem count_grant (entries : List (JsString × Entry)) (rs : List Reservation) (p : JsString)
    (size : ℕ) (q : JsString) :
    count entries (rs ++ [⟨p, size, false⟩]) q =
      { count entries rs q with
        reservedEntries := (count entries rs q).reservedEntries + if p = q then 1 else 0
        reservedBytes := (count entries rs q).reservedBytes + if p = q then size else 0 } := by
  unfold count
  rw [unsettled_cons]
  by_cases hq : p = q
  · simp [hq, unsettled]
  · simp [hq, unsettled]

/-- **Granting a reservation keeps the books.** -/
theorem Books.grant (hL : Books L) (p : JsString) (size : ℕ) : Books (L.grant p size).1 := by
  refine ⟨hL.keyed, hL.releasedOnce, hL.released, hL.chunks, ?_, ?_⟩
  · intro q
    change (L.tallies.set p _).get q =
      kept (count L.entries.entries (L.reservations ++ [⟨p, size, false⟩]) q)
    rw [OrderedMap.get_set, hL.tally, count_grant]
    by_cases hq : q = p
    · subst hq
      simp [kept]
    · have hne : ¬ p = q := fun h => hq h.symm
      rw [if_neg hq, hL.tallies]
      simp [hne]
  · change L.reserved + 1 = List.countP _ (L.reservations ++ [_])
    rw [hL.reserved, List.countP_append]
    simp

@[simp] theorem listed_getD (keys : List JsString) : (listed keys).getD [] = keys := by
  unfold listed
  split
  · rename_i h
    rw [h, Option.getD_none]
  · rfl

/-- **Entering an upload keeps the books.** -/
theorem Books.enter (hL : Books L) (hreleased : e.released = false)
    (hnew : entryKey e.principalId e.ns e.sha256 ∉ L.entries.entries.map Prod.fst) :
    (L.enter e).entries.entries =
        L.entries.entries ++ [(entryKey e.principalId e.ns e.sha256, e)] ∧
      Books (L.enter e) := by
  have hentries : (L.enter e).entries.entries =
      L.entries.entries ++ [(entryKey e.principalId e.ns e.sha256, e)] :=
    OrderedMap.setEntry_of_not_mem hnew
  refine ⟨hentries, ⟨?_, hL.releasedOnce, ?_, ?_, ?_, hL.reserved⟩⟩
  · intro x hx
    rw [hentries, List.mem_append, List.mem_singleton] at hx
    rcases hx with hold | rfl
    · exact hL.keyed x hold
    · rfl
  · intro k
    change k ∈ L.released ↔ _
    rw [hL.released, hentries]
    simp only [List.mem_append, List.mem_singleton, Prod.mk.injEq]
    constructor
    · intro h
      obtain ⟨e', hmem, h⟩ := h
      exact ⟨e', Or.inl hmem, h⟩
    · intro h
      obtain ⟨e', hmem | ⟨-, rfl⟩, h⟩ := h
      · exact ⟨e', hmem, h⟩
      · rw [hreleased] at h
        cases h
  · intro ck
    have hkeys := keysOf_entry L.entries.entries [] (entryKey e.principalId e.ns e.sha256) e ck
    have hnil : keysOf [] ck = [] := rfl
    rw [hentries, hkeys, hnil, List.append_nil]
    change (L.byChunk.set _ _).get ck = _
    rw [OrderedMap.get_set, hL.chunks, hL.chunks, listed_getD]
    by_cases hck : ck = chunkKey e.ns e.sha256
    · subst hck
      rw [if_pos rfl, if_pos rfl, listed, if_neg]
      simp
    · rw [if_neg hck, if_neg (fun heq => hck heq.symm), List.append_nil]
  · intro p
    rw [hentries]
    change (L.tallies.set _ _).get p = kept (count _ L.reservations p)
    rw [OrderedMap.get_set, hL.tally, count_concat]
    by_cases hp : p = e.principalId
    · subst hp
      rw [if_pos rfl, kept_of_held (by simp)]
      simp [hreleased]
    · have hne : ¬ e.principalId = p := fun heq => hp heq.symm
      rw [if_neg hp, hL.tallies]
      simp [hne]

/-- **Releasing a key keeps the books.** -/
theorem Books.releaseKey (hL : Books L) (k : JsString) : Books (L.releaseKey k) := by
  unfold UploadLedger.releaseKey
  cases hget : L.entries.get k with
  | none => exact hL
  | some e =>
    simp only
    split
    · exact hL
    · rename_i hlive
      rw [Bool.not_eq_true] at hlive
      have hmem := OrderedMap.mem_entries.mpr hget
      obtain ⟨l₁, l₂, heq, h₁, h₂, -⟩ := split_entries hmem
      have hentries := set_entries { e with released := true } heq h₁
      have hnot : k ∉ L.released := by
        intro hk
        obtain ⟨e', hmem', hreleased⟩ := (hL.released k).mp hk
        rw [OrderedMap.mem_entries, hget] at hmem'
        rw [← Option.some.inj hmem', hlive] at hreleased
        cases hreleased
      have hmem_iff : ∀ x, x ∈ (L.entries.set k { e with released := true }).entries ↔
          x = (k, { e with released := true }) ∨ x.1 ≠ k ∧ x ∈ L.entries.entries := by
        intro x
        obtain ⟨k', v⟩ := x
        rw [OrderedMap.mem_entries, OrderedMap.get_set, OrderedMap.mem_entries]
        by_cases hk : k' = k
        · simp [hk, eq_comm]
        · simp [hk]
      refine ⟨?_, ?_, ?_, ?_, ?_, hL.reserved⟩
      · intro x hx
        rcases (hmem_iff x).mp hx with rfl | hx
        · exact hL.keyed (k, e) hmem
        · exact hL.keyed x hx.2
      · exact List.nodup_append.mpr ⟨hL.releasedOnce, List.nodup_singleton k, by
          intro a ha b hb
          rw [List.mem_singleton.mp hb]
          exact fun h => hnot (h ▸ ha)⟩
      · intro k'
        change k' ∈ L.released ++ [k] ↔ _
        simp only [hmem_iff, List.mem_append, List.mem_singleton, hL.released, Prod.mk.injEq]
        constructor
        · intro h
          rcases h with h | rfl
          · obtain ⟨e', hmem', hreleased⟩ := h
            refine ⟨e', Or.inr ⟨fun hk => hnot ?_, hmem'⟩, hreleased⟩
            exact (hL.released k).mpr ⟨e', hk ▸ hmem', hreleased⟩
          · exact ⟨_, Or.inl ⟨rfl, rfl⟩, rfl⟩
        · intro h
          obtain ⟨e', hcase | hcase, hreleased⟩ := h
          · exact Or.inr hcase.1
          · exact Or.inl ⟨e', hcase.2, hreleased⟩
      · intro ck
        change L.byChunk.get ck = listed (keysOf (L.entries.set k _).entries ck)
        rw [hL.chunks, hentries, heq, keysOf_entry, keysOf_entry]
      · intro p
        change (L.tallies.set _ _).get p = kept (count (L.entries.set k _).entries _ p)
        rw [hentries, OrderedMap.get_set, hL.tally, hL.tallies, heq, count_entry l₁ l₂ _ k e,
          count_entry l₁ l₂ _ k e, count_entry l₁ l₂ _ k { e with released := true }]
        by_cases hp : p = e.principalId
        · subst hp
          rw [if_pos rfl]
          have herase := erase_middle ((waiting l₂ e.principalId).map Prod.fst)
            (not_mem_waiting h₁ e.principalId)
          rw [kept_of_held (by simp)]
          unfold PrincipalTally.release
          simp only [hlive, and_self, if_true, herase]
          simp
        · have hne : ¬ e.principalId = p := fun heq => hp heq.symm
          rw [if_neg hp]
          simp [hne]

end Uploads

end Swamp
