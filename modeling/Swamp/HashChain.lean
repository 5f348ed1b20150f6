import Mathlib.Data.List.Basic
import Mathlib.Data.List.Induction

/-!
# Chains of digests

A log of bodies is chained when the digest beside each is that of the body and
of the digest before it.  Its last digest commits to the whole log, under two
assumptions on the digests met: none is met twice for different inputs, and
none is the one the chain starts from.  The second does not follow from the
first, since a collision-free digest may still return to where it started.
-/

namespace HashChain

variable {D B : Type*} (digest : D → B → D)

/-- Whether a log is chained from a digest. -/
def Chained : D → List (D × B) → Prop
  | _, [] => True
  | start, entry :: log => entry.1 = digest start entry.2 ∧ Chained entry.1 log

/-- The digest a log ends in. -/
def lastDigest : D → List (D × B) → D
  | start, [] => start
  | _, entry :: log => lastDigest entry.1 log

/-- What is hashed along a log. -/
def hashed : D → List (D × B) → List (D × B)
  | _, [] => []
  | start, entry :: log => (start, entry.2) :: hashed entry.1 log

theorem lastDigest_append (start : D) (log rest : List (D × B)) :
    lastDigest start (log ++ rest) = lastDigest (lastDigest start log) rest := by
  induction log generalizing start with
  | nil => rfl
  | cons entry log ih => exact ih entry.1

theorem chained_append (start : D) (log rest : List (D × B)) :
    Chained digest start (log ++ rest) ↔
      Chained digest start log ∧ Chained digest (lastDigest start log) rest := by
  induction log generalizing start with
  | nil => simp [Chained, lastDigest]
  | cons entry log ih =>
    simp only [List.cons_append, Chained, lastDigest, ih, and_assoc]

theorem hashed_append (start : D) (log rest : List (D × B)) :
    hashed start (log ++ rest) = hashed start log ++ hashed (lastDigest start log) rest := by
  induction log generalizing start with
  | nil => rfl
  | cons entry log ih => simp only [List.cons_append, hashed, lastDigest, ih]

/-- No two inputs hashed along two logs have one digest. -/
def CollisionFree (start : D) (a b : List (D × B)) : Prop :=
  ∀ x ∈ hashed start a, ∀ y ∈ hashed start b, digest x.1 x.2 = digest y.1 y.2 → x = y

/-- No digest of a log is the one it starts from. -/
def Leaves (start : D) (log : List (D × B)) : Prop := ∀ entry ∈ log, entry.1 ≠ start

variable {digest}

variable {start : D}

/-- The last entry of a chained log. -/
theorem Chained.last {log : List (D × B)} {entry : D × B}
    (h : Chained digest start (log ++ [entry])) :
    Chained digest start log ∧ entry.1 = digest (lastDigest start log) entry.2 := by
  obtain ⟨hlog, hentry⟩ := (chained_append digest start log [entry]).mp h
  exact ⟨hlog, hentry.1⟩

theorem lastDigest_concat (start : D) (log : List (D × B)) (entry : D × B) :
    lastDigest start (log ++ [entry]) = entry.1 := lastDigest_append start log [entry]

theorem mem_hashed_concat (start : D) (log : List (D × B)) (entry : D × B) :
    (lastDigest start log, entry.2) ∈ hashed start (log ++ [entry]) := by
  rw [hashed_append]
  exact List.mem_append_right _ List.mem_cons_self

theorem CollisionFree.init {a b : List (D × B)} {x y : D × B}
    (h : CollisionFree digest start (a ++ [x]) (b ++ [y])) : CollisionFree digest start a b := by
  intro p hp q hq
  refine h p ?_ q ?_
  · rw [hashed_append]
    exact List.mem_append_left _ hp
  · rw [hashed_append]
    exact List.mem_append_left _ hq

/-- **The last digest commits to the log.**  By induction from the end: equal
digests are of equal inputs, which hold the digests before them. -/
theorem eq_of_lastDigest_eq {a b : List (D × B)} (ha : Chained digest start a)
    (hb : Chained digest start b) (hfree : CollisionFree digest start a b)
    (haLeaves : Leaves start a) (hbLeaves : Leaves start b)
    (hlast : lastDigest start a = lastDigest start b) : a = b := by
  induction a using List.reverseRecOn generalizing b with
  | nil =>
    rcases List.eq_nil_or_concat' b with rfl | ⟨log, entry, rfl⟩
    · rfl
    · rw [lastDigest_concat] at hlast
      exact absurd hlast.symm (hbLeaves entry (by simp))
  | append_singleton a x ih =>
    rcases List.eq_nil_or_concat' b with rfl | ⟨log, y, rfl⟩
    · rw [lastDigest_concat] at hlast
      exact absurd hlast (haLeaves x (by simp))
    · rw [lastDigest_concat, lastDigest_concat] at hlast
      obtain ⟨haInit, hx⟩ := ha.last
      obtain ⟨hbInit, hy⟩ := hb.last
      have hinput : (lastDigest start a, x.2) = (lastDigest start log, y.2) := by
        apply hfree _ (mem_hashed_concat start a x) _ (mem_hashed_concat start log y)
        rw [← hx, ← hy, hlast]
      obtain ⟨hprevious, hbody⟩ := Prod.mk.inj hinput
      have hinit := ih haInit hbInit hfree.init
        (fun entry hentry => haLeaves entry (List.mem_append_left _ hentry))
        (fun entry hentry => hbLeaves entry (List.mem_append_left _ hentry)) hprevious
      rw [hinit, Prod.ext hlast hbody]

end HashChain
