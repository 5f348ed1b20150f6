import Swamp.ExceptRules
import Swamp.OfflineRebase
import Swamp.PartitionHistory

/-!
# The numbers a rebase gives

Fresh versions of a name are numbered in order from above its mark on, each at
its own number or above, past the reserved ones.
-/

namespace Swamp

open Js

/-- **The loop over reserved numbers** passes reserved ones only and ends at a
number that is free, or the version's own. -/
theorem skipReserved_spec {version : ℕ} {reserved : Finset ℕ} {fuel target : ℕ}
    (h : reserved.sup id + 1 ≤ target + fuel) :
    target ≤ skipReserved version reserved fuel target ∧
      (skipReserved version reserved fuel target = version ∨
        skipReserved version reserved fuel target ∉ reserved) ∧
      ∀ n, target ≤ n → n < skipReserved version reserved fuel target →
        n ≠ version ∧ n ∈ reserved := by
  induction fuel generalizing target with
  | zero =>
    refine ⟨le_refl _, Or.inr ?_, ?_⟩
    · intro hmem
      have hle : target ≤ reserved.sup id := Finset.le_sup (f := id) hmem
      omega
    · intro n hle hlt
      have : n < target := hlt
      omega
  | succ fuel ih =>
    unfold skipReserved
    split
    · rename_i hskip
      obtain ⟨hle, hfree, hpassed⟩ := @ih (target + 1) (by omega)
      refine ⟨by omega, hfree, ?_⟩
      intro n hn hlt
      by_cases heq : n = target
      · rw [heq]
        exact hskip
      · exact hpassed n (by omega) hlt
    · rename_i hstop
      refine ⟨le_refl _, ?_, ?_⟩
      · by_cases heq : target = version
        · exact Or.inl heq
        · exact Or.inr (fun hmem => hstop ⟨heq, hmem⟩)
      · intro n hn hlt
        omega

theorem le_targetOf (reserved : Finset ℕ) (next version : ℕ) :
    max version next ≤ targetOf reserved next version :=
  (skipReserved_spec (by omega)).1

theorem assignNumbers_spec (reserved : Finset ℕ) (next : ℕ) (versions : List ℕ) :
    (assignNumbers reserved next versions).map Prod.fst = versions ∧
      (∀ pair ∈ assignNumbers reserved next versions, next ≤ pair.2) ∧
      ((assignNumbers reserved next versions).map Prod.snd).Pairwise (· < ·) := by
  induction versions generalizing next with
  | nil => exact ⟨rfl, (fun pair hpair => by cases hpair), List.Pairwise.nil⟩
  | cons version rest ih =>
    obtain ⟨hkeys, hbounds, hsorted⟩ := ih (targetOf reserved next version + 1)
    have hle := le_targetOf reserved next version
    refine ⟨?_, ?_, ?_⟩
    · rw [assignNumbers, List.map_cons, hkeys]
    · intro pair hpair
      rcases List.mem_cons.mp hpair with rfl | hpair
      · exact le_trans (le_max_right _ _) hle
      · have hrest := hbounds pair hpair
        have hnext := le_max_right version next
        omega
    · rw [assignNumbers, List.map_cons, List.pairwise_cons]
      refine ⟨?_, hsorted⟩
      intro target htarget
      obtain ⟨pair, hpair, rfl⟩ := List.mem_map.mp htarget
      have hrest := hbounds pair hpair
      omega

/-- The entries of a name's numbers. -/
theorem numbersOf_entries (reserved : Finset ℕ) (highWater : ℕ) (versions : List ℕ) :
    (numbersOf reserved highWater versions).entries =
      assignNumbers reserved (highWater + 1) (versions.dedup.insertionSort (· ≤ ·)) := by
  apply OrderedMap.entries_ofList
  rw [(assignNumbers_spec _ _ _).1]
  exact (List.perm_insertionSort (· ≤ ·) versions.dedup).nodup_iff.mpr (List.nodup_dedup _)

end Swamp
