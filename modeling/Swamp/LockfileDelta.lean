import Mathlib.Data.List.Sort
import Swamp.CanonicalJson
import Swamp.OrderedMap

/-!
# Lockfile deltas act on lockfiles

A checkout that cannot reach its datastore queues what it changed in the lockfile
and replays it later, onto a lockfile that has moved.  What one delta does to one
name is an `Edit`: leave it, remove it, or set it.  `edit_merge` and
`get_applyLockfileDelta` say that the deltas of the source compose and act as
their edits do, and the laws of the deltas are read off the laws of edits.
-/

namespace Swamp

namespace LockfileDeltas

open Js

/-- What a delta does at each key: nothing, or leave this value there. -/
abbrev Edit (K V : Type*) := K → Option (Option V)

namespace Edit

variable {K V : Type*}

/-- What stands at a key once an edit is made. -/
def act (x : K → Option V) (e : Edit K V) : K → Option V := fun k => (e k).getD (x k)

/-- The later of two edits wins where it does anything. -/
def after (older newer : Edit K V) : Edit K V := fun k => (newer k).or (older k)

theorem act_after (x : K → Option V) (older newer : Edit K V) :
    act x (after older newer) = act (act x older) newer := by
  funext k
  unfold act after
  cases newer k with
  | none | some v => rfl

theorem after_assoc (e₁ e₂ e₃ : Edit K V) :
    after (after e₁ e₂) e₃ = after e₁ (after e₂ e₃) := by
  funext k
  exact Option.or_assoc.symm

/-- **Edits of disjoint keys commute.** -/
theorem act_comm (x : K → Option V) {e₁ e₂ : Edit K V} (h : ∀ k, e₁ k = none ∨ e₂ k = none) :
    act (act x e₁) e₂ = act (act x e₂) e₁ := by
  funext k
  unfold act
  rcases h k with h₁ | h₂
  · rw [h₁, Option.getD_none, Option.getD_none]
  · rw [h₂, Option.getD_none, Option.getD_none]

end Edit

/-- The entries of a lockfile by name. -/
abbrev Entries := OrderedMap JsString Json

/-- `LockfileDelta`. -/
structure LockfileDelta where
  upserts : Entries
  removals : List JsString

/-- `result[name] = entry` for each entry in turn.  `__proto__` is a name like any
other, the runtime having no accessor for it. -/
def assignAll (result : Entries) (entries : List (JsString × Json)) : Entries :=
  result.setAll entries

/-- `removals.sort()`. -/
def sortNames (names : List JsString) : List JsString := names.insertionSort (· ≤ ·)

def emptyLockfileDelta : LockfileDelta := ⟨.empty, []⟩

def diffLockfileEntries (before after : Entries) : LockfileDelta where
  upserts := assignAll .empty (after.entries.filter (fun entry =>
    !before.has entry.1 || !Json.same (before.get entry.1) (some entry.2)))
  removals := sortNames (before.keys.filter (fun name => !after.has name))

def applyLockfileDelta (entries : Entries) (delta : LockfileDelta) : Entries :=
  assignAll (delta.removals.foldl OrderedMap.delete entries) delta.upserts.entries

def mergeLockfileDeltas (older newer : LockfileDelta) : LockfileDelta where
  upserts := assignAll
    (assignAll .empty (older.upserts.entries.filter (fun entry => entry.1 ∉ newer.removals)))
    newer.upserts.entries
  removals := sortNames
    (older.removals.filter (fun name => !newer.upserts.has name) ++ newer.removals).dedup

/-- A delta as the source has it: a name is upserted or removed, not both. -/
structure LockfileDelta.Ok (d : LockfileDelta) : Prop where
  disjoint : ∀ name ∈ d.removals, d.upserts.get name = none

/-- Equal entries under the same names. -/
def Alike (a b : Entries) : Prop := ∀ name, Json.same (a.get name) (b.get name) = true

/-- What a delta does at each name. -/
def LockfileDelta.edit (d : LockfileDelta) : Edit JsString Json := fun name =>
  match d.upserts.get name with
  | some entry => some (some entry)
  | none => if name ∈ d.removals then some none else none

/-- What is assigned of a map's entries is what the filter keeps of them. -/
theorem get_assignAll (result m : Entries) (p : JsString × Json → Bool) (name : JsString) :
    (assignAll result (m.entries.filter p)).get name =
      ((m.get name).filter (fun entry => p (name, entry))).or (result.get name) :=
  OrderedMap.get_setAll_filter result m p name

/-- Every entry of a map is assigned. -/
theorem get_assignAll_entries (result m : Entries) (name : JsString) :
    (assignAll result m.entries).get name = (m.get name).or (result.get name) := by
  have h := get_assignAll result m (fun _ => true) name
  rw [List.filter_true] at h
  rw [h]
  cases m.get name with
  | none | some entry => rfl

theorem get_deleteAll (x : Entries) (names : List JsString) (name : JsString) :
    (names.foldl OrderedMap.delete x).get name = if name ∈ names then none else x.get name := by
  induction names generalizing x with
  | nil => rfl
  | cons first rest ih =>
    rw [List.foldl_cons, ih, OrderedMap.get_delete]
    by_cases hrest : name ∈ rest
    · rw [if_pos hrest, if_pos (List.mem_cons_of_mem _ hrest)]
    · simp [hrest]

variable {name : JsString} {names : List JsString}

theorem mem_sortNames : name ∈ sortNames names ↔ name ∈ names :=
  (List.perm_insertionSort _ _).mem_iff

variable {d : LockfileDelta}

/-- **A delta acts as its edit.** -/
theorem get_applyLockfileDelta (x : Entries) (d : LockfileDelta) :
    (applyLockfileDelta x d).get = Edit.act x.get d.edit := by
  funext name
  rw [applyLockfileDelta, get_assignAll_entries, get_deleteAll]
  unfold Edit.act LockfileDelta.edit
  cases d.upserts.get name with
  | some entry => rfl
  | none =>
    simp only [Option.none_or]
    split
    · rfl
    · rfl

variable {older newer : LockfileDelta}

theorem get_merge_upserts (older newer : LockfileDelta) (name : JsString) :
    (mergeLockfileDeltas older newer).upserts.get name =
      (newer.upserts.get name).or
        (if name ∈ newer.removals then none else older.upserts.get name) := by
  rw [mergeLockfileDeltas, get_assignAll_entries, get_assignAll, OrderedMap.get_empty,
    Option.or_none]
  by_cases h : name ∈ newer.removals
  · simp [h]
  · cases older.upserts.get name with
    | none | some entry => simp [h, Option.filter_some]

theorem mem_merge_removals :
    name ∈ (mergeLockfileDeltas older newer).removals ↔
      name ∈ older.removals ∧ newer.upserts.get name = none ∨ name ∈ newer.removals := by
  rw [mergeLockfileDeltas, mem_sortNames, List.mem_dedup, List.mem_append, List.mem_filter]
  simp [OrderedMap.has]

/-- **Merging deltas makes one edit after the other.** -/
theorem edit_merge (older newer : LockfileDelta) :
    (mergeLockfileDeltas older newer).edit = Edit.after older.edit newer.edit := by
  funext name
  unfold Edit.after LockfileDelta.edit
  rw [get_merge_upserts]
  simp only [mem_merge_removals]
  cases newer.upserts.get name with
  | some entry => rfl
  | none =>
    by_cases hrem : name ∈ newer.removals
    · simp [hrem]
    · cases older.upserts.get name with
      | none | some entry => simp [hrem]

theorem merge_ok (ho : older.Ok) (hn : newer.Ok) : (mergeLockfileDeltas older newer).Ok := by
  constructor
  intro name hname
  rw [get_merge_upserts]
  rcases mem_merge_removals.mp hname with hold | hnew
  · rw [hold.2, ho.disjoint name hold.1, ite_self]
    rfl
  · rw [hn.disjoint name hnew, if_pos hnew]
    rfl

theorem eq_of_edit {d' : LockfileDelta} (hd : d.Ok) (hd' : d'.Ok) (h : d.edit = d'.edit) :
    d.upserts.get = d'.upserts.get ∧ ∀ name, name ∈ d.removals ↔ name ∈ d'.removals := by
  have hup : ∀ e : LockfileDelta, e.upserts.get = fun name => (e.edit name).join := by
    intro e
    funext name
    unfold LockfileDelta.edit
    cases e.upserts.get name with
    | some entry => rfl
    | none =>
      simp only
      split
      · rfl
      · rfl
  have hrem : ∀ e : LockfileDelta, e.Ok →
      ∀ name, name ∈ e.removals ↔ e.edit name = some none := by
    intro e he name
    unfold LockfileDelta.edit
    by_cases hname : name ∈ e.removals
    · simp [he.disjoint name hname, hname]
    · cases e.upserts.get name with
      | none | some entry => simp [hname]
  constructor
  · rw [hup d, hup d', h]
  · intro name
    rw [hrem d hd, hrem d' hd', h]

theorem sortNames_sorted (names : List JsString) : (sortNames names).Pairwise (· ≤ ·) :=
  List.pairwise_insertionSort _ _

theorem sortNames_nodup (h : names.Nodup) : (sortNames names).Nodup :=
  (List.perm_insertionSort _ _).nodup_iff.mpr h

theorem eq_of_mem_iff {names' : List JsString} (hs : names.Pairwise (· ≤ ·)) (hn : names.Nodup)
    (hs' : names'.Pairwise (· ≤ ·)) (hn' : names'.Nodup) (h : ∀ name, name ∈ names ↔ name ∈ names')
    :
    names = names' :=
  List.Perm.eq_of_pairwise (fun _ _ _ _ => le_antisymm) hs hs'
    ((List.perm_ext_iff_of_nodup hn hn').mpr h)

/-- **What the change from one lockfile to another does at each name.** -/
theorem edit_diff (before after : Entries) (name : JsString) :
    (diffLockfileEntries before after).edit name =
      if Json.same (before.get name) (after.get name) then none else some (after.get name) := by
  have hmem : name ∈ (diffLockfileEntries before after).removals ↔
      (before.get name).isSome ∧ after.get name = none := by
    rw [diffLockfileEntries, mem_sortNames, List.mem_filter, OrderedMap.mem_keys]
    simp [OrderedMap.has]
  unfold LockfileDelta.edit
  rw [diffLockfileEntries, get_assignAll, OrderedMap.get_empty, Option.or_none]
  have hmem' := hmem
  rw [diffLockfileEntries] at hmem'
  simp only [hmem']
  cases hafter : after.get name with
  | none =>
    cases before.get name with
    | none | some entry => simp
  | some entry =>
    cases hbefore : before.get name with
    | none => simp [OrderedMap.has, hbefore, Option.filter_some]
    | some old =>
      by_cases hsame : Json.same (some old) (some entry) = true
      · simp [OrderedMap.has, hbefore, hsame, Option.filter_some]
      · simp [OrderedMap.has, hbefore, hsame, Option.filter_some]

/-- The same entries upserted and the same names removed. -/
def LockfileDelta.Alike (d d' : LockfileDelta) : Prop :=
  d.upserts.get = d'.upserts.get ∧ ∀ name, name ∈ d.removals ↔ name ∈ d'.removals

theorem empty_ok : emptyLockfileDelta.Ok where
  disjoint := fun _ _ => rfl

theorem empty_edit : emptyLockfileDelta.edit = fun _ => none := rfl

theorem diff_ok (before after : Entries) : (diffLockfileEntries before after).Ok where
  disjoint := by
    intro name hname
    rw [diffLockfileEntries, mem_sortNames, List.mem_filter, OrderedMap.has,
      Bool.not_eq_true', Option.isSome_eq_false_iff, Option.isNone_iff_eq_none] at hname
    rw [diffLockfileEntries, get_assignAll, hname.2]
    rfl

theorem merge_removals_nodup (older newer : LockfileDelta) :
    (mergeLockfileDeltas older newer).removals.Nodup :=
  sortNames_nodup (List.nodup_dedup _)

/-- **Replaying a change onto the lockfile it was made from gives the lockfile it
led to.** -/
theorem apply_diff (a b : Entries) :
    Alike (applyLockfileDelta a (diffLockfileEntries a b)) b := by
  intro name
  rw [get_applyLockfileDelta, Edit.act, edit_diff]
  split
  · rename_i hsame
    exact hsame
  · exact Json.same_iff.mpr rfl

theorem apply_merge (x : Entries) (d₁ d₂ : LockfileDelta) :
    (applyLockfileDelta (applyLockfileDelta x d₁) d₂).get =
      (applyLockfileDelta x (mergeLockfileDeltas d₁ d₂)).get := by
  rw [get_applyLockfileDelta, get_applyLockfileDelta, get_applyLockfileDelta, edit_merge,
    Edit.act_after]

theorem merge_assoc {d₁ d₂ d₃ : LockfileDelta} (h₁ : d₁.Ok) (h₂ : d₂.Ok) (h₃ : d₃.Ok) :
    (mergeLockfileDeltas (mergeLockfileDeltas d₁ d₂) d₃).Alike
      (mergeLockfileDeltas d₁ (mergeLockfileDeltas d₂ d₃)) := by
  have h₁₂ := merge_ok h₁ h₂
  have h₂₃ := merge_ok h₂ h₃
  apply eq_of_edit (merge_ok h₁₂ h₃) (merge_ok h₁ h₂₃)
  rw [edit_merge, edit_merge, edit_merge, edit_merge, Edit.after_assoc]

theorem merge_empty (hd : d.Ok) :
    (mergeLockfileDeltas emptyLockfileDelta d).Alike d ∧
      (mergeLockfileDeltas d emptyLockfileDelta).Alike d := by
  constructor
  · apply eq_of_edit (merge_ok empty_ok hd) hd
    rw [edit_merge, empty_edit]
    exact funext fun name => Option.or_none
  · apply eq_of_edit (merge_ok hd empty_ok) hd
    rw [edit_merge, empty_edit]
    exact funext fun name => Option.none_or

/-- **An entry that a change leaves as it was survives the replay.** -/
theorem apply_untouched (x a b : Entries)
    (h : Json.same (a.get name) (b.get name) = true) :
    (applyLockfileDelta x (diffLockfileEntries a b)).get name = x.get name := by
  rw [get_applyLockfileDelta, Edit.act, edit_diff, if_pos h]
  rfl

/-- **Changes of disjoint names are replayed in either order.** -/
theorem apply_diffs_comm (x a₁ a₂ b₁ b₂ : Entries)
    (h : ∀ name, Json.same (a₁.get name) (b₁.get name) = true ∨
      Json.same (a₂.get name) (b₂.get name) = true) :
    (applyLockfileDelta (applyLockfileDelta x (diffLockfileEntries a₁ b₁))
        (diffLockfileEntries a₂ b₂)).get =
      (applyLockfileDelta (applyLockfileDelta x (diffLockfileEntries a₂ b₂))
        (diffLockfileEntries a₁ b₁)).get := by
  rw [get_applyLockfileDelta, get_applyLockfileDelta, get_applyLockfileDelta,
    get_applyLockfileDelta]
  apply Edit.act_comm
  intro name
  rw [edit_diff, edit_diff]
  rcases h name with h₁ | h₂
  · exact Or.inl (if_pos h₁)
  · exact Or.inr (if_pos h₂)

/-- **Lockfile deltas are a monoid that acts on lockfiles.**  The removals of a
merge are written in order, so the two ways to merge three deltas write them
alike, and a delta whose removals are in order keeps them beside the empty one. -/
theorem lockfile_delta_laws (a b x a' b' : Entries) (d₁ d₂ d₃ : LockfileDelta) (h₁ : d₁.Ok)
    (h₂ : d₂.Ok) (h₃ : d₃.Ok) :
    Alike (applyLockfileDelta a (diffLockfileEntries a b)) b ∧
    (diffLockfileEntries a b).Ok ∧
    (applyLockfileDelta (applyLockfileDelta x d₁) d₂).get =
      (applyLockfileDelta x (mergeLockfileDeltas d₁ d₂)).get ∧
    (mergeLockfileDeltas d₁ d₂).Ok ∧
    ((mergeLockfileDeltas (mergeLockfileDeltas d₁ d₂) d₃).Alike
        (mergeLockfileDeltas d₁ (mergeLockfileDeltas d₂ d₃)) ∧
      (mergeLockfileDeltas (mergeLockfileDeltas d₁ d₂) d₃).removals =
        (mergeLockfileDeltas d₁ (mergeLockfileDeltas d₂ d₃)).removals) ∧
    (∀ e, e = mergeLockfileDeltas emptyLockfileDelta d₁ ∨
        e = mergeLockfileDeltas d₁ emptyLockfileDelta →
      e.Alike d₁ ∧
        (d₁.removals.Pairwise (· ≤ ·) → d₁.removals.Nodup → e.removals = d₁.removals)) ∧
    (∀ name, Json.same (a.get name) (b.get name) = true →
      (applyLockfileDelta x (diffLockfileEntries a b)).get name = x.get name) ∧
    ((∀ name, Json.same (a.get name) (b.get name) = true ∨
        Json.same (a'.get name) (b'.get name) = true) →
      (applyLockfileDelta (applyLockfileDelta x (diffLockfileEntries a b))
          (diffLockfileEntries a' b')).get =
        (applyLockfileDelta (applyLockfileDelta x (diffLockfileEntries a' b'))
          (diffLockfileEntries a b)).get) := by
  have hassoc := merge_assoc h₁ h₂ h₃
  refine ⟨apply_diff a b, diff_ok a b, apply_merge x d₁ d₂, merge_ok h₁ h₂, ⟨hassoc, ?_⟩, ?_,
    fun name h => apply_untouched x a b h, apply_diffs_comm x a a' b b'⟩
  · exact eq_of_mem_iff (sortNames_sorted _) (merge_removals_nodup _ _) (sortNames_sorted _)
      (merge_removals_nodup _ _) hassoc.2
  · intro e he
    have halike : e.Alike d₁ := by
      rcases he with rfl | rfl
      · exact (merge_empty h₁).1
      · exact (merge_empty h₁).2
    refine ⟨halike, fun hsorted hnodup => ?_⟩
    rcases he with rfl | rfl
    · exact eq_of_mem_iff (sortNames_sorted _) (merge_removals_nodup _ _) hsorted hnodup halike.2
    · exact eq_of_mem_iff (sortNames_sorted _) (merge_removals_nodup _ _) hsorted hnodup halike.2

/-- One entry added by one checkout, another removed by a second. -/
theorem lockfile_delta_laws_sample :
    (applyLockfileDelta (.ofList [(js "b", .null)])
        (mergeLockfileDeltas ⟨.ofList [(js "a", .str [])], []⟩ ⟨.empty, [js "b"]⟩)).get (js "a") =
      some (.str []) := by
  have h := lockfile_delta_laws .empty .empty (.ofList [(js "b", .null)]) .empty .empty
    ⟨.ofList [(js "a", .str [])], []⟩ ⟨.empty, [js "b"]⟩ emptyLockfileDelta ⟨by simp⟩
    ⟨fun _ _ => rfl⟩ empty_ok
  rw [← h.2.2.1]
  decide

end LockfileDeltas

end Swamp
