import Mathlib.Data.List.Sort
import Mathlib.Order.Basic
import Mathlib.Tactic.Ring

/-!
# Sets of naturals as sorted ranges

A finite set of naturals is kept as the list of its maximal runs `(first, last)`.
Such a list is `Canonical` when its ranges are non-empty, sorted, and leave a
gap of at least one number between neighbours.
-/

namespace RangeSet

/-- A run of naturals, both ends included. -/
abbrev Range := ℕ × ℕ

/-- `n` lies in the range. -/
def Covers (r : Range) (n : ℕ) : Prop := r.1 ≤ n ∧ n ≤ r.2

/-- The set a list of ranges covers. -/
def Mem (rs : List Range) (n : ℕ) : Prop := ∃ r ∈ rs, Covers r n

/-- Non-empty ranges in ascending order, no two of them touching. -/
structure Canonical (rs : List Range) : Prop where
  ordered : ∀ r ∈ rs, r.1 ≤ r.2
  apart : rs.Pairwise (fun a b => a.2 + 1 < b.1)

@[simp] theorem mem_nil (n : ℕ) : ¬ Mem [] n := by
  simp [Mem]

@[simp] theorem mem_cons (r : Range) (rs : List Range) (n : ℕ) :
    Mem (r :: rs) n ↔ Covers r n ∨ Mem rs n := by
  simp [Mem]

@[simp] theorem mem_append (rs ss : List Range) (n : ℕ) :
    Mem (rs ++ ss) n ↔ Mem rs n ∨ Mem ss n := by
  simp only [Mem, List.mem_append]
  constructor
  · rintro ⟨r, hr | hr, hn⟩
    · exact Or.inl ⟨r, hr, hn⟩
    · exact Or.inr ⟨r, hr, hn⟩
  · rintro (⟨r, hr, hn⟩ | ⟨r, hr, hn⟩)
    · exact ⟨r, Or.inl hr, hn⟩
    · exact ⟨r, Or.inr hr, hn⟩

theorem canonical_nil : Canonical [] :=
  ⟨by simp, List.Pairwise.nil⟩

variable {r : Range} {rs : List Range}

theorem Canonical.tail (h : Canonical (r :: rs)) : Canonical rs :=
  ⟨fun s hs => h.ordered s (List.mem_cons_of_mem _ hs), (List.pairwise_cons.mp h.apart).2⟩

variable {n : ℕ}

/-- Everything covered after the first range lies past the gap behind it. -/
theorem Canonical.gap (h : Canonical (r :: rs)) (hn : Mem rs n) : r.2 + 1 < n := by
  obtain ⟨s, hs, hcover⟩ := hn
  have hapart := (List.pairwise_cons.mp h.apart).1 s hs
  exact lt_of_lt_of_le hapart hcover.1

/-- The first number of the first range is the least one covered. -/
theorem Canonical.head_le (h : Canonical (r :: rs)) (hn : Mem (r :: rs) n) : r.1 ≤ n := by
  rcases (mem_cons r rs n).mp hn with hcover | hrest
  · exact hcover.1
  · have hgap := h.gap hrest
    have hordered := h.ordered r List.mem_cons_self
    omega

/-- The run of the first range stops at its last number. -/
theorem Canonical.not_mem_succ_head (h : Canonical (r :: rs)) : ¬ Mem (r :: rs) (r.2 + 1) := by
  intro hn
  rcases (mem_cons r rs _).mp hn with hcover | hrest
  · have := hcover.2
    omega
  · exact absurd (h.gap hrest) (lt_irrefl _)

private theorem head_last_le {a b : Range} {as bs : List Range}
    (ha : Canonical (a :: as))
    (hsame : ∀ n, Mem (a :: as) n ↔ Mem (b :: bs) n) (hfirst : a.1 = b.1) :
    b.2 ≤ a.2 := by
  by_contra hlt
  have hordered := ha.ordered a List.mem_cons_self
  have hin : Mem (b :: bs) (a.2 + 1) :=
    (mem_cons b bs _).mpr (Or.inl ⟨by omega, by omega⟩)
  exact ha.not_mem_succ_head ((hsame _).mpr hin)

/-- **Canonical lists are sets.**  Two canonical lists that cover the same
numbers are the same list. -/
theorem Canonical.ext {as bs : List Range} (ha : Canonical as) (hb : Canonical bs)
    (hsame : ∀ n, Mem as n ↔ Mem bs n) : as = bs := by
  induction as generalizing bs with
  | nil =>
    cases bs with
    | nil => rfl
    | cons b bs =>
      have hin : Mem (b :: bs) b.1 :=
        (mem_cons b bs _).mpr (Or.inl ⟨le_refl _, hb.ordered b List.mem_cons_self⟩)
      exact absurd ((hsame _).mpr hin) (mem_nil _)
  | cons a as ih =>
    cases bs with
    | nil =>
      have hin : Mem (a :: as) a.1 :=
        (mem_cons a as _).mpr (Or.inl ⟨le_refl _, ha.ordered a List.mem_cons_self⟩)
      exact absurd ((hsame _).mp hin) (mem_nil _)
    | cons b bs =>
      have haIn : Mem (a :: as) a.1 :=
        (mem_cons a as _).mpr (Or.inl ⟨le_refl _, ha.ordered a List.mem_cons_self⟩)
      have hbIn : Mem (b :: bs) b.1 :=
        (mem_cons b bs _).mpr (Or.inl ⟨le_refl _, hb.ordered b List.mem_cons_self⟩)
      have hfirst : a.1 = b.1 :=
        le_antisymm (ha.head_le ((hsame _).mpr hbIn)) (hb.head_le ((hsame _).mp haIn))
      have hlast : a.2 = b.2 :=
        le_antisymm (head_last_le hb (fun n => (hsame n).symm) hfirst.symm)
          (head_last_le ha hsame hfirst)
      have hhead : a = b := Prod.ext hfirst hlast
      subst hhead
      have htail : ∀ n, Mem as n ↔ Mem bs n := by
        intro n
        have hn := hsame n
        simp only [mem_cons] at hn
        constructor
        · intro h
          rcases hn.mp (Or.inr h) with hcover | hrest
          · have := ha.gap h
            have := hcover.2
            omega
          · exact hrest
        · intro h
          rcases hn.mpr (Or.inr h) with hcover | hrest
          · have := hb.gap h
            have := hcover.2
            omega
          · exact hrest
      rw [ih ha.tail hb.tail htail]

/-- Merge ranges sorted by their first number into `previous`, the last merged
range: a range that overlaps or touches it extends it, any other starts the
next one. -/
def mergeInto (previous : Range) : List Range → List Range
  | [] => [previous]
  | r :: rs =>
    if r.1 ≤ previous.2 + 1 then mergeInto (previous.1, max previous.2 r.2) rs
    else previous :: mergeInto r rs

/-- Merge ranges already sorted by their first number. -/
def mergeSorted : List Range → List Range
  | [] => []
  | r :: rs => mergeInto r rs

/-- Sort by the first number and merge. -/
def merge (rs : List Range) : List Range :=
  mergeSorted (rs.insertionSort (fun a b => a.1 ≤ b.1))

variable {previous : Range}

/-- Merging covers exactly what the ranges cover. -/
theorem mem_mergeInto (hprevious : previous.1 ≤ previous.2) (hlow : ∀ r ∈ rs, previous.1 ≤ r.1)
    (hsorted : rs.Pairwise (fun a b => a.1 ≤ b.1)) (hordered : ∀ r ∈ rs, r.1 ≤ r.2) (n : ℕ) :
    Mem (mergeInto previous rs) n ↔ Covers previous n ∨ Mem rs n := by
  induction rs generalizing previous with
  | nil => simp [mergeInto]
  | cons r rs ih =>
    have hr := hordered r List.mem_cons_self
    have hrLow := hlow r List.mem_cons_self
    have hrest := List.pairwise_cons.mp hsorted
    have hordered' : ∀ s ∈ rs, s.1 ≤ s.2 := fun s hs =>
      hordered s (List.mem_cons_of_mem _ hs)
    by_cases htouch : r.1 ≤ previous.2 + 1
    · have hmerged := @ih (previous.1, max previous.2 r.2) (le_max_of_le_left hprevious)
        (fun s hs => hlow s (List.mem_cons_of_mem _ hs)) hrest.2 hordered'
      have hunion : Covers (previous.1, max previous.2 r.2) n ↔
          Covers previous n ∨ Covers r n := by
        simp only [Covers]
        omega
      rw [mergeInto, if_pos htouch, hmerged, hunion, mem_cons, or_assoc]
    · rw [mergeInto, if_neg htouch, mem_cons, ih hr hrest.1 hrest.2 hordered', mem_cons]

theorem low_le_of_mem_mergeInto {low : ℕ} (hprevious : low ≤ previous.1)
    (hlow : ∀ r ∈ rs, low ≤ r.1) {s : Range} (hs : s ∈ mergeInto previous rs) : low ≤ s.1 := by
  induction rs generalizing previous with
  | nil =>
    have heq : s = previous := by simpa [mergeInto] using hs
    rw [heq]
    exact hprevious
  | cons r rs ih =>
    have hlow' : ∀ t ∈ rs, low ≤ t.1 := fun t ht => hlow t (List.mem_cons_of_mem _ ht)
    by_cases htouch : r.1 ≤ previous.2 + 1
    · rw [mergeInto, if_pos htouch] at hs
      exact @ih (previous.1, max previous.2 r.2) hprevious hlow' hs
    · rw [mergeInto, if_neg htouch] at hs
      rcases List.mem_cons.mp hs with rfl | hs
      · exact hprevious
      · exact ih (hlow r List.mem_cons_self) hlow' hs

theorem mergeInto_canonical (hprevious : previous.1 ≤ previous.2)
    (hsorted : rs.Pairwise (fun a b => a.1 ≤ b.1)) (hordered : ∀ r ∈ rs, r.1 ≤ r.2) :
    Canonical (mergeInto previous rs) := by
  induction rs generalizing previous with
  | nil => exact ⟨by simpa [mergeInto] using hprevious, by simp [mergeInto]⟩
  | cons r rs ih =>
    have hr := hordered r List.mem_cons_self
    have hrest := List.pairwise_cons.mp hsorted
    have hordered' : ∀ s ∈ rs, s.1 ≤ s.2 := fun s hs =>
      hordered s (List.mem_cons_of_mem _ hs)
    by_cases htouch : r.1 ≤ previous.2 + 1
    · rw [mergeInto, if_pos htouch]
      exact ih (le_max_of_le_left hprevious) hrest.2 hordered'
    · rw [mergeInto, if_neg htouch]
      have htail := ih hr hrest.2 hordered'
      refine ⟨?_, List.pairwise_cons.mpr ⟨?_, htail.apart⟩⟩
      · intro s hs
        rcases List.mem_cons.mp hs with rfl | hs
        · exact hprevious
        · exact htail.ordered s hs
      · intro s hs
        have hfirst := low_le_of_mem_mergeInto (le_refl r.1) hrest.1 hs
        omega

private theorem sorted_by_first (rs : List Range) :
    (rs.insertionSort (fun a b => a.1 ≤ b.1)).Pairwise (fun a b => a.1 ≤ b.1) := by
  have htotal : Std.Total (fun a b : Range => a.1 ≤ b.1) := ⟨fun a b => le_total a.1 b.1⟩
  have htrans : IsTrans Range (fun a b => a.1 ≤ b.1) := ⟨fun _ _ _ => le_trans⟩
  exact List.pairwise_insertionSort _ rs

private theorem mem_sorted : r ∈ rs.insertionSort (fun a b => a.1 ≤ b.1) ↔ r ∈ rs :=
  (List.perm_insertionSort _ rs).mem_iff

/-- Merged ranges are canonical. -/
theorem merge_canonical (hordered : ∀ r ∈ rs, r.1 ≤ r.2) : Canonical (merge rs) := by
  have hsorted := sorted_by_first rs
  have hordered' : ∀ r ∈ rs.insertionSort (fun a b => a.1 ≤ b.1), r.1 ≤ r.2 :=
    fun r hr => hordered r (mem_sorted.mp hr)
  unfold merge
  cases hlist : rs.insertionSort (fun a b => a.1 ≤ b.1) with
  | nil => exact canonical_nil
  | cons r rest =>
    rw [hlist] at hsorted hordered'
    exact mergeInto_canonical (hordered' r List.mem_cons_self)
      (List.pairwise_cons.mp hsorted).2
      (fun s hs => hordered' s (List.mem_cons_of_mem _ hs))

/-- Merging keeps the set. -/
theorem mem_merge (hordered : ∀ r ∈ rs, r.1 ≤ r.2) (n : ℕ) : Mem (merge rs) n ↔ Mem rs n := by
  have hsorted := sorted_by_first rs
  have hordered' : ∀ r ∈ rs.insertionSort (fun a b => a.1 ≤ b.1), r.1 ≤ r.2 :=
    fun r hr => hordered r (mem_sorted.mp hr)
  have hsame : Mem (rs.insertionSort (fun a b => a.1 ≤ b.1)) n ↔ Mem rs n := by
    simp only [Mem, mem_sorted]
  rw [← hsame]
  unfold merge
  cases hlist : rs.insertionSort (fun a b => a.1 ≤ b.1) with
  | nil => exact Iff.rfl
  | cons r rest =>
    rw [hlist] at hsorted hordered'
    have hrest := List.pairwise_cons.mp hsorted
    rw [mem_cons]
    exact mem_mergeInto (hordered' r List.mem_cons_self) hrest.1 hrest.2
      (fun s hs => hordered' s (List.mem_cons_of_mem _ hs)) n

/-- Merging bounds nothing new: a bound of every last number bounds the merge. -/
theorem merge_last_le (hordered : ∀ r ∈ rs, r.1 ≤ r.2) {top : ℕ} (htop : ∀ r ∈ rs, r.2 ≤ top) :
    ∀ r ∈ merge rs, r.2 ≤ top := by
  intro r hr
  have hin : Mem (merge rs) r.2 := ⟨r, hr, (merge_canonical hordered).ordered r hr, le_refl _⟩
  obtain ⟨s, hs, hcover⟩ := (mem_merge hordered _).mp hin
  exact le_trans hcover.2 (htop s hs)

/-- Merging starts nowhere new: a lower bound of every first number holds of
the merge. -/
theorem le_merge_first (hordered : ∀ r ∈ rs, r.1 ≤ r.2) {low : ℕ} (hlow : ∀ r ∈ rs, low ≤ r.1) :
    ∀ r ∈ merge rs, low ≤ r.1 := by
  intro r hr
  have hin : Mem (merge rs) r.1 := ⟨r, hr, le_refl _, (merge_canonical hordered).ordered r hr⟩
  obtain ⟨s, hs, hcover⟩ := (mem_merge hordered _).mp hin
  exact le_trans (hlow s hs) hcover.1

/-- What is left of a range without `n`. -/
def cut (n : ℕ) (r : Range) : List Range :=
  if n < r.1 ∨ r.2 < n then [r]
  else
    (if r.1 < n then [(r.1, n - 1)] else []) ++ (if n < r.2 then [(n + 1, r.2)] else [])

/-- Take one number out of every range. -/
def remove (rs : List Range) (n : ℕ) : List Range := rs.flatMap (cut n)

theorem cut_inside {s : Range} (hr : r.1 ≤ r.2) (hs : s ∈ cut n r) :
    r.1 ≤ s.1 ∧ s.1 ≤ s.2 ∧ s.2 ≤ r.2 := by
  unfold cut at hs
  split at hs
  · have heq : s = r := by simpa using hs
    rw [heq]
    exact ⟨le_refl _, hr, le_refl _⟩
  · rcases List.mem_append.mp hs with hs | hs
    · split at hs
      · have heq : s = (r.1, n - 1) := by simpa using hs
        rw [heq]
        refine ⟨le_refl _, ?_, ?_⟩ <;> simp only <;> omega
      · simp at hs
    · split at hs
      · have heq : s = (n + 1, r.2) := by simpa using hs
        rw [heq]
        refine ⟨?_, ?_, le_refl _⟩ <;> simp only <;> omega
      · simp at hs

theorem mem_cut (n : ℕ) (r : Range) (m : ℕ) : Mem (cut n r) m ↔ Covers r m ∧ m ≠ n := by
  unfold cut
  by_cases hout : n < r.1 ∨ r.2 < n
  · simp only [if_pos hout, mem_cons, mem_nil, or_false, Covers]
    omega
  · rw [if_neg hout, mem_append]
    by_cases hlow : r.1 < n <;> by_cases hhigh : n < r.2 <;>
      simp only [hlow, hhigh, if_true, if_false, mem_cons, mem_nil, or_false, false_or,
        Covers]
    · omega
    · omega
    · omega
    · constructor
      · exact False.elim
      · rintro ⟨hcover, hne⟩
        omega

/-- Removing a number removes it and nothing else. -/
theorem mem_remove (rs : List Range) (n m : ℕ) :
    Mem (remove rs n) m ↔ Mem rs m ∧ m ≠ n := by
  induction rs with
  | nil => simp [remove]
  | cons r rs ih =>
    have hsplit : remove (r :: rs) n = cut n r ++ remove rs n := by simp [remove]
    rw [hsplit, mem_append, ih, mem_cut, mem_cons]
    tauto

theorem cut_apart (n : ℕ) (r : Range) : (cut n r).Pairwise (fun a b => a.2 + 1 < b.1) := by
  unfold cut
  split
  · exact List.pairwise_singleton _ _
  · split <;> split <;> simp
    omega

theorem remove_canonical (h : Canonical rs) (n : ℕ) : Canonical (remove rs n) := by
  constructor
  · intro s hs
    obtain ⟨r, hr, hsr⟩ := List.mem_flatMap.mp hs
    exact (cut_inside (h.ordered r hr) hsr).2.1
  · refine List.pairwise_flatMap.mpr ⟨fun r _ => cut_apart n r, ?_⟩
    apply h.apart.imp_of_mem
    intro a b ha hb hab s hs t ht
    have hsa := cut_inside (h.ordered a ha) hs
    have htb := cut_inside (h.ordered b hb) ht
    omega

/-- Binary search for the range that holds `n`, between the indices `low` and
`high`, `high` excluded.  Each round of the loop takes one unit of fuel. -/
def search (rs : List Range) (n : ℕ) : ℕ → ℕ → ℕ → Bool
  | 0, _, _ => false
  | fuel + 1, low, high =>
    if low < high then
      let mid := (low + (high - 1)) / 2
      match rs[mid]? with
      | none => false
      | some (first, last) =>
        if n < first then search rs n fuel low mid
        else if last < n then search rs n fuel (mid + 1) high
        else true
    else false

theorem Canonical.lt_of_lt (h : Canonical rs) {i j : ℕ} {a b : Range} (ha : rs[i]? = some a)
    (hb : rs[j]? = some b) (hij : i < j) : a.2 < b.1 := by
  obtain ⟨hi, rfl⟩ := List.getElem?_eq_some_iff.mp ha
  obtain ⟨hj, rfl⟩ := List.getElem?_eq_some_iff.mp hb
  have := List.pairwise_iff_getElem.mp h.apart i j hi hj hij
  omega

/-- **Binary search is membership.**  With fuel for every index of the window,
the search finds `n` exactly when a range of the window covers it. -/
theorem search_iff (h : Canonical rs) (n : ℕ) :
    ∀ fuel low high, high ≤ rs.length → high - low ≤ fuel →
      (search rs n fuel low high = true ↔
        ∃ i r, low ≤ i ∧ i < high ∧ rs[i]? = some r ∧ Covers r n) := by
  intro fuel
  induction fuel with
  | zero =>
    intro low high _ hfuel
    simp only [search, Bool.false_eq_true, false_iff]
    rintro ⟨i, r, hlow, hhigh, -, -⟩
    omega
  | succ fuel ih =>
    intro low high hlen hfuel
    by_cases hwindow : low < high
    · have hmid : (low + (high - 1)) / 2 < rs.length := by omega
      obtain ⟨first, last⟩ : Range := rs[(low + (high - 1)) / 2]
      have hsome := List.getElem?_eq_getElem hmid
      rw [search, if_pos hwindow]
      simp only [hsome]
      generalize hm : (low + (high - 1)) / 2 = mid at *
      have hlo : low ≤ mid := by omega
      have hhi : mid < high := by omega
      by_cases hbelow : n < rs[mid].1
      · rw [if_pos hbelow, ih low mid (by omega) (by omega)]
        constructor
        · rintro ⟨i, r, h1, h2, h3, h4⟩
          exact ⟨i, r, h1, by omega, h3, h4⟩
        · rintro ⟨i, r, h1, h2, h3, h4⟩
          refine ⟨i, r, h1, ?_, h3, h4⟩
          by_contra hge
          rcases Nat.lt_or_eq_of_le (Nat.le_of_not_lt hge) with hlt | heq
          · have := h.lt_of_lt hsome h3 hlt
            have := h.ordered _ (List.getElem_mem hmid)
            have := h4.1
            omega
          · subst heq
            rw [hsome] at h3
            have := (Option.some.inj h3) ▸ h4.1
            omega
      · rw [if_neg hbelow]
        by_cases habove : rs[mid].2 < n
        · rw [if_pos habove, ih (mid + 1) high hlen (by omega)]
          constructor
          · rintro ⟨i, r, h1, h2, h3, h4⟩
            exact ⟨i, r, by omega, h2, h3, h4⟩
          · rintro ⟨i, r, h1, h2, h3, h4⟩
            refine ⟨i, r, ?_, h2, h3, h4⟩
            by_contra hle
            rcases Nat.lt_or_eq_of_le (Nat.lt_succ_iff.mp (Nat.lt_of_not_le hle)) with hlt | heq
            · have := h.lt_of_lt h3 hsome hlt
              have := h.ordered _ (List.getElem_mem hmid)
              have := h4.2
              omega
            · subst heq
              rw [hsome] at h3
              have := (Option.some.inj h3) ▸ h4.2
              omega
        · rw [if_neg habove]
          simp only [true_iff]
          exact ⟨mid, rs[mid], hlo, hhi, hsome, by omega, by omega⟩
    · rw [search, if_neg hwindow]
      simp only [Bool.false_eq_true, false_iff]
      rintro ⟨i, r, hlow, hhigh, -, -⟩
      omega

/-- Searching the whole list decides membership. -/
theorem search_all_iff (h : Canonical rs) (n : ℕ) :
    search rs n rs.length 0 rs.length = true ↔ Mem rs n := by
  rw [search_iff h n rs.length 0 rs.length (le_refl _) (by omega)]
  constructor
  · rintro ⟨i, r, -, -, hr, hcover⟩
    exact ⟨r, List.mem_of_getElem? hr, hcover⟩
  · rintro ⟨r, hr, hcover⟩
    obtain ⟨i, hi, rfl⟩ := List.mem_iff_getElem.mp hr
    exact ⟨i, rs[i], Nat.zero_le _, hi, List.getElem?_eq_getElem hi, hcover⟩

end RangeSet
