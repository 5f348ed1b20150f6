import Mathlib.Data.List.Nodup
import Mathlib.Logic.Relation
import Mathlib.Data.Nat.Notation

/-!
# Lending locks to children

A run lends the ids of the locks it holds to the processes and workers it starts,
and takes them back by re-keying the locks once the last of those is done.  The
scopes of `runHolding` nest, so a hand-off counts in its own scope and in every
one around it, and an end takes back the locks of each scope whose count it
brings to zero.

Hand-offs begin and end, and reclaims settle, in any order.  Between two awaits
the source runs undisturbed, so each stretch up to the next await is one step:
`Step.begin` and `Step.resume` look for a reclaim in progress and, finding none,
count the hand-off in the same step.

`Inv` is the invariant; `Inv.reach` carries it over a run.
-/

namespace Swamp

namespace LockHandOffs

/-- A scope of `runHolding`, by the scopes it was opened in: `n :: p` is the `n`-th
opened in `p`, and `[]` is outside every scope. -/
abbrev Scope := List ℕ

/-- The scope and those around it, the innermost first. -/
def scopeChain : Scope → List Scope
  | [] => []
  | n :: p => (n :: p) :: scopeChain p

/-- What `runHolding` was given for each scope: locks it lends, or plain ids. -/
structure Locks (Id : Type) where
  lent : Scope → Bool
  fixed : Scope → List Id

/-- The promise of a reclaim: the locks are being re-keyed, it has settled, or it
has settled and its `finally` has run. -/
inductive Progress where
  | running
  | settled (ok : Bool)
  | done (ok : Bool)

/-- A call of `reclaim`. -/
structure Reclaim where
  scope : Scope
  signal : Bool
  progress : Progress

/-- How far a hand-off is. -/
inductive Phase (Id : Type) where
  | waiting (reclaims : List ℕ)
  | begun
  | lent (ids : List Id)
  | ending (reclaims : List ℕ)
  | ended
  | beginFailed
  | endFailed

structure HandOff (Id : Type) where
  scope : Scope
  phase : Phase Id

/-- `live` and `reclaiming` of every scope, the reclaims started so far, what
`lockIds` of each scope answers, and the hand-offs begun so far. -/
structure State (Id : Type) where
  live : Scope → ℕ
  reclaiming : Scope → Option ℕ
  reclaims : List Reclaim
  ids : Scope → List Id
  handOffs : List (HandOff Id)

variable {Id : Type}

/-- `heldIn`. -/
def heldIn [DecidableEq Id] (L : Locks Id) (st : State Id) (scope : Scope) : List Id :=
  ((scopeChain scope).reverse.flatMap (fun s =>
    L.fixed s ++ if L.lent s then st.ids s else [])).eraseDups

namespace State

/-- The reclaims in progress on a scope or around it. -/
def inProgress (st : State Id) (scope : Scope) : List ℕ :=
  (scopeChain scope).filterMap st.reclaiming

/-- One turn of the loop of `#begin`: with no reclaim in progress the hand-off is
counted, else it waits for all there are. -/
def check (st : State Id) (scope : Scope) : State Id × Phase Id :=
  if st.inProgress scope = [] then
    ({ st with live := fun s => st.live s + (scopeChain scope).count s }, .begun)
  else (st, .waiting (st.inProgress scope))

/-- The scopes whose count an end brings to zero and whose locks are lent. -/
def due (L : Locks Id) (st : State Id) (scope : Scope) : List Scope :=
  (scopeChain scope).filter (fun s => st.live s - 1 = 0 && L.lent s)

/-- What an end does up to its await.  A scope stands once in the chain, so what
the loop does to it is told by its count before. -/
def release (L : Locks Id) (st : State Id) (scope : Scope) (signal : Bool) : State Id :=
  { st with
    live := fun s => st.live s - (scopeChain scope).count s
    reclaiming := fun s =>
      if s ∈ st.due L scope then some (st.reclaims.length + (st.due L scope).idxOf s)
      else st.reclaiming s
    reclaims := st.reclaims ++
      (st.due L scope).map (fun s => ⟨s, decide (s = scope) && signal, .running⟩) }

/-- The reclaims an end awaits. -/
def started (L : Locks Id) (st : State Id) (scope : Scope) : List ℕ :=
  (List.range (st.due L scope).length).map (st.reclaims.length + ·)

def setHandOff (st : State Id) (h : ℕ) (handOff : HandOff Id) : State Id :=
  { st with handOffs := st.handOffs.set h handOff }

def setReclaim (st : State Id) (r : ℕ) (reclaim : Reclaim) : State Id :=
  { st with reclaims := st.reclaims.set r reclaim }

/-- The `finally` of a reclaim. -/
def clear (st : State Id) (s : Scope) (r : ℕ) : State Id :=
  { st with reclaiming := fun s' => if s' = s ∧ st.reclaiming s = some r then none
      else st.reclaiming s' }

/-- Reclaim `r` is done, and well or not. -/
def Done (st : State Id) (ok : Bool) (r : ℕ) : Prop :=
  ∃ reclaim, st.reclaims[r]? = some reclaim ∧ reclaim.progress = .done ok

/-- Reclaim `r` has failed, whether or not its `finally` has run. -/
def Failed (st : State Id) (r : ℕ) : Prop :=
  ∃ reclaim, st.reclaims[r]? = some reclaim ∧
    (reclaim.progress = .settled false ∨ reclaim.progress = .done false)

end State

/-- One step.  `begin` and `end` may come from any scope at any time; the ids of a
scope's locks change as locks are taken, and go only while it is reclaimed. -/
inductive Step [DecidableEq Id] (L : Locks Id) : State Id → State Id → Prop
  | begin {st} (scope : Scope) :
      Step L st { (st.check scope).1 with
        handOffs := st.handOffs ++ [⟨scope, (st.check scope).2⟩] }
  | resume {st h scope rs} (hget : st.handOffs[h]? = some ⟨scope, .waiting rs⟩)
      (hdone : ∀ r ∈ rs, st.Done true r) :
      Step L st ((st.check scope).1.setHandOff h ⟨scope, (st.check scope).2⟩)
  | reject {st h scope rs r} (hget : st.handOffs[h]? = some ⟨scope, .waiting rs⟩) (hr : r ∈ rs)
      (hdone : st.Done false r) : Step L st (st.setHandOff h ⟨scope, .beginFailed⟩)
  | lend {st h scope} (hget : st.handOffs[h]? = some ⟨scope, .begun⟩) :
      Step L st (st.setHandOff h ⟨scope, .lent (heldIn L st scope)⟩)
  | finish {st h scope ids} (signal : Bool) (hget : st.handOffs[h]? = some ⟨scope, .lent ids⟩) :
      Step L st ((st.release L scope signal).setHandOff h ⟨scope, .ending (st.started L scope)⟩)
  | finishAgain {st} : Step L st st
  | finished {st h scope rs} (hget : st.handOffs[h]? = some ⟨scope, .ending rs⟩)
      (hdone : ∀ r ∈ rs, st.Done true r) : Step L st (st.setHandOff h ⟨scope, .ended⟩)
  | finishedFailed {st h scope rs r} (hget : st.handOffs[h]? = some ⟨scope, .ending rs⟩)
      (hdone : ∀ r ∈ rs, ∃ ok, st.Done ok r) (hr : r ∈ rs) (hfailed : st.Done false r) :
      Step L st (st.setHandOff h ⟨scope, .endFailed⟩)
  | settle {st : State Id} {r : ℕ} {reclaim : Reclaim} (ok : Bool)
      (hget : st.reclaims[r]? = some reclaim) (hrunning : reclaim.progress = .running) :
      Step L st (st.setReclaim r { reclaim with progress := .settled ok })
  | clear {st : State Id} {r : ℕ} {reclaim : Reclaim} {ok : Bool}
      (hget : st.reclaims[r]? = some reclaim)
      (hsettled : reclaim.progress = .settled ok) :
      Step L st ((st.clear reclaim.scope r).setReclaim r { reclaim with progress := .done ok })
  | rekey {st : State Id} {r : ℕ} {reclaim : Reclaim} (ids : List Id)
      (hget : st.reclaims[r]? = some reclaim) (hrunning : reclaim.progress = .running) :
      Step L st { st with ids := Function.update st.ids reclaim.scope ids }
  | acquire {st} (s : Scope) (id : Id) :
      Step L st { st with ids := Function.update st.ids s (st.ids s ++ [id]) }

/-- Any number of steps. -/
def Run [DecidableEq Id] (L : Locks Id) : State Id → State Id → Prop := Relation.ReflTransGen (Step L)

/-- No hand-off and no reclaim yet. -/
def State.initial (ids : Scope → List Id) : State Id := ⟨fun _ => 0, fun _ => none, [], ids, []⟩

/-- The hand-off has begun and its end has not been called. -/
def HandOff.isLive (handOff : HandOff Id) : Bool :=
  match handOff.phase with
  | .begun | .lent _ => true
  | _ => false

/-- A live hand-off begun from a scope or from one inside it. -/
def HandOff.counts (s : Scope) (handOff : HandOff Id) : Bool :=
  handOff.isLive && decide (s ∈ scopeChain handOff.scope)

/-- How many live hand-offs were begun from a scope or inside it. -/
def State.hands (st : State Id) (s : Scope) : ℕ := st.handOffs.countP (HandOff.counts s)

/-- How often a scope was reclaimed. -/
def State.reclaimed (st : State Id) (s : Scope) : ℕ :=
  st.reclaims.countP (fun reclaim => reclaim.scope == s)

/-- A reclaim that is not over: it is running, or its `finally` is yet to run. -/
def Reclaim.open (reclaim : Reclaim) : Prop := ∀ ok, reclaim.progress ≠ .done ok

variable {s : Scope}

theorem length_of_mem_scopeChain {p : Scope} (h : s ∈ scopeChain p) : s.length ≤ p.length := by
  induction p with
  | nil => cases h
  | cons n p ih =>
    rcases List.mem_cons.mp h with rfl | hmem
    · exact Nat.le_refl _
    · exact Nat.le_succ_of_le (ih hmem)

theorem scopeChain_nodup (p : Scope) : (scopeChain p).Nodup := by
  induction p with
  | nil => exact List.nodup_nil
  | cons n p ih =>
    refine List.nodup_cons.mpr ⟨fun hmem => ?_, ih⟩
    have := length_of_mem_scopeChain hmem
    rw [List.length_cons] at this
    omega

theorem count_scopeChain (s p : Scope) :
    (scopeChain p).count s = if s ∈ scopeChain p then 1 else 0 := by
  split
  · rename_i h
    exact List.count_eq_one_of_mem (scopeChain_nodup p) h
  · rename_i h
    exact List.count_eq_zero_of_not_mem h

theorem mem_heldIn [DecidableEq Id] {L : Locks Id} {st : State Id} {scope : Scope} {id : Id} :
    id ∈ heldIn L st scope ↔
      ∃ s ∈ scopeChain scope, id ∈ L.fixed s ∨ L.lent s = true ∧ id ∈ st.ids s := by
  unfold heldIn
  rw [List.mem_eraseDups, List.mem_flatMap]
  constructor
  · intro h
    obtain ⟨s, hs, hid⟩ := h
    refine ⟨s, List.mem_reverse.mp hs, ?_⟩
    rcases List.mem_append.mp hid with hfixed | hids
    · exact Or.inl hfixed
    · split at hids
      · rename_i hlent
        exact Or.inr ⟨hlent, hids⟩
      · cases hids
  · intro h
    obtain ⟨s, hs, hid⟩ := h
    refine ⟨s, List.mem_reverse.mpr hs, List.mem_append.mpr ?_⟩
    rcases hid with hfixed | hids
    · exact Or.inl hfixed
    · rw [if_pos hids.1]
      exact Or.inr hids.2

variable {handOff : HandOff Id}

theorem hands_pos {st : State Id} {h : ℕ} (hget : st.handOffs[h]? = some handOff)
    (hlive : handOff.isLive = true) (hs : s ∈ scopeChain handOff.scope) : 0 < st.hands s := by
  refine List.countP_pos_iff.mpr ⟨handOff, List.mem_of_getElem? hget, ?_⟩
  simp [HandOff.counts, hlive, hs]

variable {before : HandOff Id}

/-- What replacing one hand-off does to the counts. -/
theorem hands_set {st : State Id} {h : ℕ} {after : HandOff Id}
    (hget : st.handOffs[h]? = some before) (s : Scope) :
    (st.handOffs.set h after).countP (HandOff.counts s) + (if before.counts s then 1 else 0) =
      st.hands s + (if after.counts s then 1 else 0) := by
  obtain ⟨hlt, heq⟩ := List.getElem?_eq_some_iff.mp hget
  have hpos : before.counts s = true → 0 < st.hands s := by
    intro hcounts
    exact List.countP_pos_iff.mpr ⟨before, List.mem_of_getElem? hget, hcounts⟩
  rw [List.countP_set hlt, heq]
  unfold State.hands at hpos ⊢
  split
  · rename_i hbefore
    have := hpos hbefore
    omega
  · omega

theorem hands_same {st : State Id} {h : ℕ} {after : HandOff Id}
    (hget : st.handOffs[h]? = some before) (hscope : after.scope = before.scope)
    (hlive : after.isLive = before.isLive) (s : Scope) :
    (st.setHandOff h after).hands s = st.hands s := by
  have hset := @hands_set _ _ _ _ after hget s
  have hcounts : after.counts s = before.counts s := by
    unfold HandOff.counts
    rw [hscope, hlive]
  rw [hcounts] at hset
  exact Nat.add_right_cancel hset

/-- What holds in every state: the counts are right, a scope being reclaimed counts
no hand-off, a reclaim that is not over is the one its scope shows, and the ids a
live hand-off was lent are held. -/
structure Inv [DecidableEq Id] (L : Locks Id) (st : State Id) : Prop where
  live : ∀ s, st.live s = st.hands s
  idle : ∀ s r, st.reclaiming s = some r → st.live s = 0
  shown : ∀ r reclaim, st.reclaims[r]? = some reclaim → reclaim.open →
    st.reclaiming reclaim.scope = some r
  held : ∀ (h : ℕ) (scope : Scope) (ids : List Id), st.handOffs[h]? = some ⟨scope, .lent ids⟩ →
    ∀ id ∈ ids, id ∈ heldIn L st scope

variable [DecidableEq Id] {L : Locks Id} {st st' : State Id}

theorem Inv.initial (ids : Scope → List Id) : Inv L (State.initial ids) where
  live := fun _ => rfl
  idle := fun _ _ h => by cases h
  shown := fun _ _ h _ => by cases h
  held := fun _ _ _ h => by cases h

variable {r : ℕ}

/-- Nothing is reclaimed under a live hand-off. -/
theorem Inv.not_open (hinv : Inv L st) {h : ℕ} (hget : st.handOffs[h]? = some handOff)
    (hlive : handOff.isLive = true) {reclaim : Reclaim} (hr : st.reclaims[r]? = some reclaim)
    (hscope : reclaim.scope ∈ scopeChain handOff.scope) : ¬ reclaim.open := by
  intro hopen
  have hzero := hinv.idle _ _ (hinv.shown r reclaim hr hopen)
  have hpos := hands_pos hget hlive hscope
  rw [← hinv.live] at hpos
  omega

theorem Inv.setHandOff (hinv : Inv L st) {h : ℕ} {after : HandOff Id}
    (hget : st.handOffs[h]? = some before) (hscope : after.scope = before.scope)
    (hlive : after.isLive = before.isLive)
    (hheld : ∀ ids, after.phase = .lent ids → ∀ id ∈ ids, id ∈ heldIn L st after.scope) :
    Inv L (st.setHandOff h after) where
  live := by
    intro s
    rw [hands_same hget hscope hlive]
    exact hinv.live s
  idle := hinv.idle
  shown := hinv.shown
  held := by
    intro h' scope ids hget'
    have hlt := (List.getElem?_eq_some_iff.mp hget).1
    change (st.handOffs.set h after)[h']? = _ at hget'
    by_cases heq : h = h'
    · subst heq
      rw [List.getElem?_set_self hlt] at hget'
      obtain rfl := Option.some.inj hget'
      exact hheld ids rfl
    · rw [List.getElem?_set_ne heq] at hget'
      exact hinv.held h' scope ids hget'

theorem Inv.check (hinv : Inv L st) {scope : Scope} {handOffs : List (HandOff Id)}
    (hcount : ∀ s, handOffs.countP (HandOff.counts s) =
      st.hands s + if HandOff.counts s ⟨scope, (st.check scope).2⟩ then 1 else 0)
    (hold : ∀ (h : ℕ) (handOff : HandOff Id), handOffs[h]? = some handOff →
      st.handOffs[h]? = some handOff ∨ handOff = ⟨scope, (st.check scope).2⟩) :
    Inv L { (st.check scope).1 with handOffs := handOffs } := by
  unfold State.check at hcount hold ⊢
  by_cases hnone : st.inProgress scope = []
  · rw [if_pos hnone] at hcount hold ⊢
    constructor
    · intro s
      change st.live s + (scopeChain scope).count s = handOffs.countP (HandOff.counts s)
      rw [hcount s, hinv.live s, count_scopeChain]
      simp [HandOff.counts, HandOff.isLive]
    · intro s r hr
      have hs : s ∉ scopeChain scope := by
        intro hmem
        have hin : r ∈ st.inProgress scope := List.mem_filterMap.mpr ⟨s, hmem, hr⟩
        rw [hnone] at hin
        cases hin
      change st.live s + (scopeChain scope).count s = 0
      rw [hinv.idle s r hr, count_scopeChain, if_neg hs]
    · exact hinv.shown
    · intro h scope' ids hget
      rcases hold h _ hget with hget | hnew
      · exact hinv.held h scope' ids hget
      · cases hnew
  · rw [if_neg hnone] at hcount hold ⊢
    constructor
    · intro s
      change st.live s = handOffs.countP (HandOff.counts s)
      rw [hcount s, hinv.live s]
      simp [HandOff.counts, HandOff.isLive]
    · exact hinv.idle
    · exact hinv.shown
    · intro h scope' ids hget
      rcases hold h _ hget with hget | hnew
      · exact hinv.held h scope' ids hget
      · cases hnew

omit [DecidableEq Id] in
theorem mem_due {scope : Scope} :
    s ∈ st.due L scope ↔ s ∈ scopeChain scope ∧ st.live s - 1 = 0 ∧ L.lent s = true := by
  simp [State.due]

/-- An end, with the counts of the scopes around it. -/
theorem Inv.release (hinv : Inv L st) {h : ℕ} {scope : Scope} {ids : List Id} {signal : Bool}
    (hget : st.handOffs[h]? = some ⟨scope, .lent ids⟩) :
    Inv L ((st.release L scope signal).setHandOff h ⟨scope, .ending (st.started L scope)⟩) ∧
      ∀ s, ((st.release L scope signal).setHandOff h
        ⟨scope, .ending (st.started L scope)⟩).hands s =
          st.hands s - (scopeChain scope).count s := by
  have hlt := (List.getElem?_eq_some_iff.mp hget).1
  have hhands : ∀ s, ((st.release L scope signal).setHandOff h
      ⟨scope, .ending (st.started L scope)⟩).hands s =
        st.hands s - (scopeChain scope).count s := by
    intro s
    have hset := @hands_set _ _ _ _ ⟨scope, .ending (st.started L scope)⟩ hget s
    rw [count_scopeChain]
    simp only [HandOff.counts, HandOff.isLive, Bool.true_and, Bool.false_and, decide_eq_true_eq,
      Bool.false_eq_true, if_false, Nat.add_zero] at hset
    change (st.handOffs.set h _).countP (HandOff.counts s) = _
    omega
  have hpos : ∀ s ∈ scopeChain scope, 0 < st.live s := by
    intro s hs
    rw [hinv.live]
    exact hands_pos hget rfl hs
  refine ⟨⟨?_, ?_, ?_, ?_⟩, hhands⟩
  · intro s
    rw [hhands s, ← hinv.live s]
    rfl
  · intro s r hr
    change (if s ∈ st.due L scope then _ else _) = _ at hr
    change st.live s - (scopeChain scope).count s = 0
    split at hr
    · rename_i hdue
      have hdue := mem_due.mp hdue
      rw [count_scopeChain, if_pos hdue.1]
      exact hdue.2.1
    · rw [hinv.idle s r hr, Nat.zero_sub]
  · intro r reclaim hr hopen
    change (if reclaim.scope ∈ st.due L scope then _ else _) = _
    change (st.reclaims ++ (st.due L scope).map _)[r]? = _ at hr
    by_cases hr' : r < st.reclaims.length
    · rw [List.getElem?_append_left hr'] at hr
      have hshown := hinv.shown r reclaim hr hopen
      have hnot : reclaim.scope ∉ st.due L scope := by
        intro hdue
        have hzero := hinv.idle _ _ hshown
        have := hpos _ (mem_due.mp hdue).1
        omega
      rw [if_neg hnot]
      exact hshown
    · rw [List.getElem?_append_right (Nat.le_of_not_lt hr'), List.getElem?_map] at hr
      obtain ⟨s, hs, rfl⟩ := Option.map_eq_some_iff.mp hr
      obtain ⟨hidx, hs⟩ := List.getElem?_eq_some_iff.mp hs
      have hnodup : (st.due L scope).Nodup := (scopeChain_nodup scope).filter _
      subst hs
      rw [if_pos (List.getElem_mem hidx), hnodup.idxOf_getElem]
      congr 1
      omega
  · intro h' scope' ids' hget'
    change (st.handOffs.set h _)[h']? = _ at hget'
    by_cases heq : h = h'
    · subst heq
      rw [List.getElem?_set_self hlt] at hget'
      cases hget'
    · rw [List.getElem?_set_ne heq] at hget'
      exact hinv.held h' scope' ids' hget'

omit [DecidableEq Id] in
theorem clear_reclaiming {s' : Scope} {r' : ℕ} :
    (st.clear s r).reclaiming s' = some r' ↔
      st.reclaiming s' = some r' ∧ ¬ (s' = s ∧ r' = r) := by
  change (if s' = s ∧ st.reclaiming s = some r then none else st.reclaiming s') = _ ↔ _
  split
  · rename_i h
    obtain ⟨rfl, hr⟩ := h
    rw [hr]
    simp only [reduceCtorEq, Option.some.injEq, true_and, false_iff, not_and, not_not]
    exact fun heq => heq.symm
  · rename_i h
    constructor
    · intro hr
      refine ⟨hr, fun heq => h ⟨heq.1, ?_⟩⟩
      rw [← heq.1, ← heq.2, hr]
    · exact And.left

theorem Inv.setReclaim (hinv : Inv L st) {reclaiming : Scope → Option ℕ} {before after : Reclaim}
    (hget : st.reclaims[r]? = some before) (hscope : after.scope = before.scope)
    (hopen : after.open → before.open)
    (hless : ∀ s r', reclaiming s = some r' → st.reclaiming s = some r')
    (hkeep : ∀ s r', st.reclaiming s = some r' → (r' = r → after.open) → reclaiming s = some r') :
    Inv L { st with reclaiming := reclaiming, reclaims := st.reclaims.set r after } where
  live := hinv.live
  idle := fun s r' h => hinv.idle s r' (hless s r' h)
  shown := by
    intro r' reclaim hget' hopen'
    have hlt := (List.getElem?_eq_some_iff.mp hget).1
    change (st.reclaims.set r after)[r']? = _ at hget'
    by_cases heq : r = r'
    · subst heq
      rw [List.getElem?_set_self hlt] at hget'
      obtain rfl := Option.some.inj hget'
      rw [hscope]
      exact hkeep _ _ (hinv.shown r before hget (hopen hopen')) (fun _ => hopen')
    · rw [List.getElem?_set_ne heq] at hget'
      exact hkeep _ _ (hinv.shown r' reclaim hget' hopen') (fun h => absurd h.symm heq)
  held := hinv.held

/-- The ids of a scope's locks change: under no live hand-off, or by more. -/
theorem Inv.setIds (hinv : Inv L st) {ids : List Id} (h : st.live s = 0 ∨ ∀ id ∈ st.ids s, id ∈ ids)
    :
    Inv L { st with ids := Function.update st.ids s ids } where
  live := hinv.live
  idle := hinv.idle
  shown := hinv.shown
  held := by
    intro h' scope lent hget id hid
    obtain ⟨s', hs', hheld⟩ := mem_heldIn.mp (hinv.held h' scope lent hget id hid)
    refine mem_heldIn.mpr ⟨s', hs', hheld.imp_right (fun hlent => ⟨hlent.1, ?_⟩)⟩
    change id ∈ Function.update st.ids s ids s'
    by_cases heq : s' = s
    · subst heq
      rw [Function.update_self]
      rcases h with hzero | hmore
      · have hpos : 0 < st.hands s' := hands_pos hget rfl hs'
        rw [← hinv.live, hzero] at hpos
        cases hpos
      · exact hmore id hlent.2
    · rw [Function.update_of_ne heq]
      exact hlent.2

/-- Whether the count of a scope whose locks are lent has returned to zero. -/
def Returned (L : Locks Id) (st st' : State Id) (s : Scope) : Prop :=
  L.lent s = true ∧ 0 < st.hands s ∧ st'.hands s = 0

instance (s : Scope) : Decidable (Returned L st st' s) := inferInstanceAs (Decidable (_ ∧ _ ∧ _))

omit [DecidableEq Id] in
theorem reclaimed_same (hreclaims : st'.reclaimed s = st.reclaimed s)
    (hhands : st.hands s ≤ st'.hands s) :
    st'.reclaimed s = st.reclaimed s + if Returned L st st' s then 1 else 0 := by
  rw [if_neg, hreclaims, Nat.add_zero]
  intro hreturned
  unfold Returned at hreturned
  omega

omit [DecidableEq Id] in
theorem reclaimed_setHandOff {h : ℕ} {after : HandOff Id} (hget : st.handOffs[h]? = some before)
    (hscope : after.scope = before.scope) (hlive : after.isLive = before.isLive) (s : Scope) :
    (st.setHandOff h after).reclaimed s =
      st.reclaimed s + if Returned L st (st.setHandOff h after) s then 1 else 0 :=
  reclaimed_same rfl (Nat.le_of_eq (hands_same hget hscope hlive s).symm)

omit [DecidableEq Id] in
theorem reclaimed_set {reclaiming : Scope → Option ℕ} {before after : Reclaim}
    (hget : st.reclaims[r]? = some before) (hscope : after.scope = before.scope) (s : Scope) :
    State.reclaimed { st with reclaiming := reclaiming, reclaims := st.reclaims.set r after } s =
      st.reclaimed s := by
  obtain ⟨hlt, heq⟩ := List.getElem?_eq_some_iff.mp hget
  have hpos : (before.scope == s) = true → 0 < st.reclaims.countP (fun r => r.scope == s) := by
    intro hs
    exact List.countP_pos_iff.mpr ⟨before, List.mem_of_getElem? hget, hs⟩
  unfold State.reclaimed
  rw [List.countP_set hlt, heq, hscope]
  split
  · rename_i hs
    have := hpos hs
    omega
  · rfl

omit [DecidableEq Id] in
theorem check_fields (scope : Scope) : (st.check scope).1.handOffs = st.handOffs ∧
    (st.check scope).1.reclaims = st.reclaims := by
  unfold State.check
  split
  · exact ⟨rfl, rfl⟩
  · exact ⟨rfl, rfl⟩

omit [DecidableEq Id] in
theorem getElem?_set_cases {h h' : ℕ} {after : HandOff Id} (hget : st.handOffs[h]? = some before)
    (hget' : (st.handOffs.set h after)[h']? = some handOff) :
    h' = h ∧ handOff = after ∨ h' ≠ h ∧ st.handOffs[h']? = some handOff := by
  by_cases heq : h' = h
  · rw [heq, List.getElem?_set_self (List.getElem?_eq_some_iff.mp hget).1] at hget'
    exact Or.inl ⟨heq, (Option.some.inj hget').symm⟩
  · rw [List.getElem?_set_ne (fun h => heq h.symm)] at hget'
    exact Or.inr ⟨heq, hget'⟩

theorem getElem?_concat_cases {α : Type} {xs : List α} {x y : α} {k : ℕ}
    (hget : (xs ++ [x])[k]? = some y) : k = xs.length ∧ y = x ∨ xs[k]? = some y := by
  rcases Nat.lt_trichotomy k xs.length with hlt | heq | hgt
  · rw [List.getElem?_append_left hlt] at hget
    exact Or.inr hget
  · rw [heq, List.getElem?_concat_length] at hget
    exact Or.inl ⟨heq, (Option.some.inj hget).symm⟩
  · have hlen : (xs ++ [x]).length ≤ k := by
      rw [List.length_append, List.length_singleton]
      exact hgt
    rw [List.getElem?_eq_none hlen] at hget
    cases hget

theorem Step.inv (hstep : Step L st st') (hinv : Inv L st) : Inv L st' := by
  cases hstep with
  | begin scope =>
    refine hinv.check (fun s => ?_) (fun h handOff hget => ?_)
    · rw [List.countP_append, List.countP_singleton]
      rfl
    · exact (getElem?_concat_cases hget).symm.imp_right And.right
  | @resume h scope rs hget hdone =>
    refine Inv.check hinv (fun s => ?_) (fun h' handOff hget' => ?_)
    · rw [(check_fields scope).1]
      exact hands_set hget s
    · rw [(check_fields scope).1] at hget'
      rcases getElem?_set_cases hget hget' with hnew | hold
      · exact Or.inr hnew.2
      · exact Or.inl hold.2
  | reject hget hr hdone
  | finished hget hdone => exact hinv.setHandOff hget rfl rfl (fun _ h => by cases h)
  | @lend h scope hget =>
    refine hinv.setHandOff hget rfl rfl (fun ids heq id hid => ?_)
    obtain rfl := Phase.lent.inj heq
    exact hid
  | finish signal hget => exact (hinv.release hget).1
  | finishAgain => exact hinv
  | finishedFailed hget hdone hr hfailed =>
    exact hinv.setHandOff hget rfl rfl (fun _ h => by cases h)
  | settle ok hget hrunning =>
    refine hinv.setReclaim hget rfl (fun _ ok' h => ?_) (fun _ _ h => h) (fun _ _ h _ => h)
    rw [hrunning] at h
    cases h
  | @clear r reclaim ok hget hsettled =>
    refine hinv.setReclaim hget rfl (fun h => absurd rfl (h ok)) (fun s r' h => ?_)
      (fun s r' h hne => ?_)
    · exact (clear_reclaiming.mp h).1
    · exact clear_reclaiming.mpr ⟨h, fun heq => hne heq.2 ok rfl⟩
  | rekey ids hget hrunning =>
    refine hinv.setIds (Or.inl (hinv.idle _ _ (hinv.shown _ _ hget (fun ok h => ?_))))
    rw [hrunning] at h
    cases h
  | acquire s id => exact hinv.setIds (Or.inr (fun _ h => List.mem_append_left _ h))

/-- **A step reclaims a scope just when its count returns to zero.** -/
theorem Step.reclaims (hstep : Step L st st') (hinv : Inv L st) (s : Scope) :
    st'.reclaimed s = st.reclaimed s + if Returned L st st' s then 1 else 0 := by
  cases hstep with
  | begin scope =>
    apply reclaimed_same
    · exact congrArg (List.countP _) (check_fields scope).2
    · change _ ≤ (st.handOffs ++ _).countP _
      rw [List.countP_append]
      exact Nat.le_add_right _ _
  | @resume h scope rs hget hdone =>
    apply reclaimed_same
    · exact congrArg (List.countP _) (check_fields scope).2
    · change _ ≤ ((st.check scope).1.handOffs.set h _).countP _
      rw [(check_fields scope).1]
      have hset := @hands_set _ _ _ _ ⟨scope, (st.check scope).2⟩ hget s
      have hbefore : HandOff.counts s (⟨scope, .waiting rs⟩ : HandOff Id) = false := rfl
      rw [hbefore] at hset
      simp only [Bool.false_eq_true, if_false, Nat.add_zero] at hset
      rw [hset]
      exact Nat.le_add_right _ _
  | reject hget | lend hget | finished hget | finishedFailed hget =>
    refine reclaimed_setHandOff hget ?_ ?_ s
    · rfl
    · rfl
  | @finish h scope ids signal hget =>
    have hhands := (@Inv.release _ _ _ _ hinv _ _ _ signal hget).2 s
    change (st.reclaims ++ (st.due L scope).map _).countP _ = _
    rw [List.countP_append, List.countP_map]
    change st.reclaimed s + (st.due L scope).count s = _
    congr 1
    have hnodup : (st.due L scope).Nodup := (scopeChain_nodup scope).filter _
    have hreturned : s ∈ st.due L scope ↔ Returned L st
        ((st.release L scope signal).setHandOff h ⟨scope, .ending (st.started L scope)⟩) s := by
      unfold Returned
      rw [mem_due, hhands, count_scopeChain, hinv.live]
      by_cases hs : s ∈ scopeChain scope
      · have hpos := hands_pos hget rfl hs
        simp [hs, hpos, and_comm]
      · simp only [hs, false_and, if_false, false_iff]
        omega
    by_cases hdue : s ∈ st.due L scope
    · rw [if_pos (hreturned.mp hdue), List.count_eq_one_of_mem hnodup hdue]
    · rw [if_neg (fun h => hdue (hreturned.mpr h)), List.count_eq_zero_of_not_mem hdue]
  | settle ok hget | clear hget =>
    refine reclaimed_same (reclaimed_set hget ?_ s) (Nat.le_refl _)
    rfl
  | finishAgain | rekey | acquire => exact reclaimed_same rfl (Nat.le_refl _)

theorem Inv.reach {st₀ : State Id} (hrun : Run L st₀ st) (hinv : Inv L st₀) : Inv L st := by
  induction hrun with
  | refl => exact hinv
  | tail _ hstep ih => exact hstep.inv ih

theorem Step.begins (hstep : Step L st st') {h : ℕ} (hget : st'.handOffs[h]? = some handOff)
    (hlive : handOff.isLive = true)
    (hbefore : ∀ before, st.handOffs[h]? = some before → before.isLive = false) :
    st.inProgress handOff.scope = [] := by
  have hkept : st.handOffs[h]? ≠ some handOff := by
    intro hget'
    rw [hbefore handOff hget'] at hlive
    cases hlive
  have hcheck : ∀ scope, handOff = ⟨scope, (st.check scope).2⟩ →
      st.inProgress handOff.scope = [] := by
    intro scope heq
    subst heq
    by_cases hnone : st.inProgress scope = []
    · exact hnone
    · rw [State.check, if_neg hnone] at hlive
      cases hlive
  have hset : ∀ {h' : ℕ} {before after : HandOff Id}, st.handOffs[h']? = some before →
      (st.handOffs.set h' after)[h]? = some handOff →
      (after.isLive = true → before.isLive = true) → st.inProgress handOff.scope = [] := by
    intro h' before after hbefore' hget' hstays
    rcases getElem?_set_cases hbefore' hget' with hnew | hold
    · rw [← hnew.1] at hbefore'
      rw [hnew.2] at hlive
      have hfalse := hbefore before hbefore'
      rw [hstays hlive] at hfalse
      cases hfalse
    · exact absurd hold.2 hkept
  cases hstep with
  | begin scope =>
    rcases getElem?_concat_cases hget with hnew | hold
    · exact hcheck scope hnew.2
    · exact absurd hold hkept
  | @resume h' scope rs hget' hdone =>
    change ((st.check scope).1.handOffs.set h' _)[h]? = _ at hget
    rw [(check_fields scope).1] at hget
    rcases getElem?_set_cases hget' hget with hnew | hold
    · exact hcheck scope hnew.2
    · exact absurd hold.2 hkept
  | reject hget' | finished hget' | finishedFailed hget' | finish signal hget' =>
    exact hset hget' hget (fun h => by cases h)
  | lend hget' => exact hset hget' hget (fun _ => rfl)
  | finishAgain | settle | clear | rekey | acquire => exact absurd hget hkept

omit [DecidableEq Id] in
theorem State.Failed.progress {reclaim : Reclaim} (h : st.Failed r)
    (hget : st.reclaims[r]? = some reclaim) :
    reclaim.progress = .settled false ∨ reclaim.progress = .done false := by
  obtain ⟨reclaim', hget', hprogress⟩ := h
  rw [hget] at hget'
  rwa [Option.some.inj hget']

/-- A failed reclaim stays failed. -/
theorem Step.failed (hstep : Step L st st') (h : st.Failed r) : st'.Failed r := by
  have hset : ∀ {r' : ℕ} {before after : Reclaim}, st.reclaims[r']? = some before →
      st'.reclaims = st.reclaims.set r' after →
      (r' = r → after.progress = .settled false ∨ after.progress = .done false) →
      st'.Failed r := by
    intro r' before after hget heq hafter
    unfold State.Failed
    rw [heq]
    by_cases hr : r' = r
    · subst hr
      exact ⟨after, List.getElem?_set_self (List.getElem?_eq_some_iff.mp hget).1, hafter rfl⟩
    · obtain ⟨reclaim, hget', hprogress⟩ := h
      exact ⟨reclaim, by rw [List.getElem?_set_ne hr, hget'], hprogress⟩
  cases hstep with
  | begin scope | resume =>
    unfold State.Failed
    change ∃ reclaim, (st.check _).1.reclaims[r]? = _ ∧ _
    rw [(check_fields _).2]
    exact h
  | reject | lend | finishAgain | finished | finishedFailed | rekey | acquire => exact h
  | finish signal hget =>
    obtain ⟨reclaim, hget', hprogress⟩ := h
    refine ⟨reclaim, ?_, hprogress⟩
    change (st.reclaims ++ _)[r]? = _
    rw [List.getElem?_append_left (List.getElem?_eq_some_iff.mp hget').1, hget']
  | @settle r' reclaim ok hget hrunning =>
    apply hset hget rfl
    intro hr
    rw [hr] at hget
    have := h.progress hget
    rw [hrunning] at this
    simp at this
  | @clear r' reclaim ok hget hsettled =>
    apply hset hget rfl
    intro hr
    rw [hr] at hget
    have := h.progress hget
    rw [hsettled] at this
    simpa using this

/-- The reclaims a hand-off awaits. -/
def Phase.awaited : Phase Id → List ℕ
  | .waiting rs | .ending rs => rs
  | _ => []

/-- What a hand-off comes to when what it awaits fails. -/
def Phase.rejected : Phase Id → Phase Id
  | .waiting _ => .beginFailed
  | .ending _ => .endFailed
  | phase => phase

theorem Step.doomed (hstep : Step L st st') {h : ℕ} (hget : st.handOffs[h]? = some handOff)
    (hr : r ∈ handOff.phase.awaited) (hfailed : st.Failed r) :
    st'.handOffs[h]? = some handOff ∨
      st'.handOffs[h]? = some ⟨handOff.scope, handOff.phase.rejected⟩ := by
  have hnot : ¬ ∀ r ∈ handOff.phase.awaited, st.Done true r := by
    intro hdone
    obtain ⟨reclaim, hget', hprogress⟩ := hdone r hr
    have := hfailed.progress hget'
    rw [hprogress] at this
    simp at this
  have hset : ∀ {h' : ℕ} {before after : HandOff Id}, st.handOffs[h']? = some before →
      (before = handOff → after = ⟨handOff.scope, handOff.phase.rejected⟩) →
      (st.handOffs.set h' after)[h]? = some handOff ∨
        (st.handOffs.set h' after)[h]? = some ⟨handOff.scope, handOff.phase.rejected⟩ := by
    intro h' before after hbefore hafter
    by_cases heq : h' = h
    · subst heq
      rw [hget] at hbefore
      rw [List.getElem?_set_self (List.getElem?_eq_some_iff.mp hget).1,
        hafter (Option.some.inj hbefore).symm]
      exact Or.inr rfl
    · rw [List.getElem?_set_ne heq]
      exact Or.inl hget
  cases hstep with
  | begin scope =>
    apply Or.inl
    change (st.handOffs ++ _)[h]? = _
    rw [List.getElem?_append_left (List.getElem?_eq_some_iff.mp hget).1, hget]
  | @resume h' scope rs hget' hdone =>
    change ((st.check scope).1.handOffs.set h' _)[h]? = _ ∨
      ((st.check scope).1.handOffs.set h' _)[h]? = _
    rw [(check_fields scope).1]
    apply hset hget'
    intro heq
    subst heq
    exact absurd hdone hnot
  | finished hget' hdone =>
    apply hset hget'
    intro heq
    subst heq
    exact absurd hdone hnot
  | reject hget' | finishedFailed hget' =>
    apply hset hget'
    intro heq
    subst heq
    rfl
  | lend hget' | finish signal hget' =>
    apply hset hget'
    intro heq
    subst heq
    cases hr
  | finishAgain | settle | clear | rekey | acquire => exact Or.inl hget

/-- A rejected hand-off stays rejected. -/
theorem Step.final (hstep : Step L st st') {h : ℕ} (hget : st.handOffs[h]? = some handOff)
    (hfinal : handOff.phase = .beginFailed ∨ handOff.phase = .endFailed) :
    st'.handOffs[h]? = some handOff := by
  have hset : ∀ {h' : ℕ} {before after : HandOff Id}, st.handOffs[h']? = some before →
      before ≠ handOff → (st.handOffs.set h' after)[h]? = some handOff := by
    intro h' before after hbefore hne
    rw [List.getElem?_set_ne, hget]
    intro heq
    rw [heq, hget] at hbefore
    exact hne (Option.some.inj hbefore).symm
  cases hstep with
  | begin scope =>
    change (st.handOffs ++ _)[h]? = _
    rw [List.getElem?_append_left (List.getElem?_eq_some_iff.mp hget).1, hget]
  | @resume h' scope rs hget' hdone =>
    change ((st.check scope).1.handOffs.set h' _)[h]? = _
    rw [(check_fields scope).1]
    apply hset hget'
    intro heq
    subst heq
    simp at hfinal
  | reject hget' | lend hget' | finish signal hget' | finished hget' | finishedFailed hget' =>
    apply hset hget'
    intro heq
    subst heq
    simp at hfinal
  | finishAgain | settle | clear | rekey | acquire => exact hget

/-- **What awaits a failed reclaim is rejected if it settles at all.** -/
theorem Run.doomed (hrun : Run L st st') {h : ℕ} (hget : st.handOffs[h]? = some handOff)
    (hr : r ∈ handOff.phase.awaited) (hfailed : st.Failed r) :
    st'.handOffs[h]? = some handOff ∨
      st'.handOffs[h]? = some ⟨handOff.scope, handOff.phase.rejected⟩ := by
  have hall : st'.Failed r ∧ (st'.handOffs[h]? = some handOff ∨
      st'.handOffs[h]? = some ⟨handOff.scope, handOff.phase.rejected⟩) := by
    induction hrun with
    | refl => exact ⟨hfailed, Or.inl hget⟩
    | tail _ hstep ih =>
      refine ⟨hstep.failed ih.1, ?_⟩
      rcases ih.2 with hsame | hrejected
      · exact hstep.doomed hsame hr ih.1
      · refine Or.inr (hstep.final hrejected ?_)
        obtain ⟨scope, phase⟩ := handOff
        cases phase with
        | waiting rs => exact Or.inl rfl
        | ending rs => exact Or.inr rfl
        | begun | lent | ended | beginFailed | endFailed => cases hr
  exact hall.2

theorem rejects {h : ℕ} (hget : st.handOffs[h]? = some handOff) (hr : r ∈ handOff.phase.awaited)
    (hfailed : st.Done false r) (hdone : ∀ r ∈ handOff.phase.awaited, ∃ ok, st.Done ok r) :
    Step L st (st.setHandOff h ⟨handOff.scope, handOff.phase.rejected⟩) := by
  obtain ⟨scope, phase⟩ := handOff
  cases phase with
  | waiting rs => exact Step.reject hget hr hfailed
  | ending rs => exact Step.finishedFailed hget hdone hr hfailed
  | begun | lent | ended | beginFailed | endFailed => cases hr

omit [DecidableEq Id] in
/-- An end awaits the reclaims it starts. -/
theorem mem_started (scope : Scope) (signal : Bool) (r : ℕ) : r ∈ st.started L scope ↔
    st.reclaims.length ≤ r ∧ r < (st.release L scope signal).reclaims.length := by
  change r ∈ (List.range _).map _ ↔ _ ∧ r < (st.reclaims ++ (st.due L scope).map _).length
  rw [List.length_append, List.length_map, List.mem_map]
  constructor
  · intro h
    obtain ⟨k, hk, rfl⟩ := h
    have := List.mem_range.mp hk
    omega
  · intro h
    exact ⟨r - st.reclaims.length, List.mem_range.mpr (by omega), by omega⟩

/-- **No lock is re-keyed under a live hand-off.**  In every state of a run nothing
is reclaimed in the scopes of a live hand-off, a scope has one reclaim at a time,
and what a hand-off was lent is held.  In every step a scope is reclaimed once if
its count returns to zero, else not, and a hand-off goes live only where nothing is
being reclaimed.  An end awaits what it starts; what awaits a failed reclaim is
rejected if it settles, and settles once all it awaits is done. -/
theorem hand_offs_sound (L : Locks Id) (ids : Scope → List Id) (st : State Id)
    (hrun : Run L (State.initial ids) st) :
    (∀ (h : ℕ) (handOff : HandOff Id), st.handOffs[h]? = some handOff → handOff.isLive = true →
      ∀ reclaim ∈ st.reclaims, reclaim.scope ∈ scopeChain handOff.scope → ¬ reclaim.open) ∧
    (∀ (r r' : ℕ) (reclaim reclaim' : Reclaim), st.reclaims[r]? = some reclaim →
      st.reclaims[r']? = some reclaim' → reclaim.scope = reclaim'.scope →
      reclaim.open → reclaim'.open → r = r') ∧
    (∀ (h : ℕ) (scope : Scope) (lent : List Id), st.handOffs[h]? = some ⟨scope, .lent lent⟩ →
      ∀ id ∈ lent, id ∈ heldIn L st scope) ∧
    (∀ st', Step L st st' →
      (∀ s, st'.reclaimed s = st.reclaimed s +
        if L.lent s = true ∧ 0 < st.hands s ∧ st'.hands s = 0 then 1 else 0) ∧
      (∀ (h : ℕ) (handOff : HandOff Id), st'.handOffs[h]? = some handOff →
        handOff.isLive = true →
        (∀ before : HandOff Id, st.handOffs[h]? = some before → before.isLive = false) →
        ∀ reclaim ∈ st.reclaims, reclaim.scope ∈ scopeChain handOff.scope → ¬ reclaim.open)) ∧
    (∀ scope signal r, r ∈ st.started L scope ↔
      st.reclaims.length ≤ r ∧ r < (st.release L scope signal).reclaims.length) ∧
    (∀ (h : ℕ) (handOff : HandOff Id) (r : ℕ), st.handOffs[h]? = some handOff →
      r ∈ handOff.phase.awaited → st.Failed r →
      (∀ st', Run L st st' → st'.handOffs[h]? = some handOff ∨
        st'.handOffs[h]? = some ⟨handOff.scope, handOff.phase.rejected⟩) ∧
      (st.Done false r → (∀ r ∈ handOff.phase.awaited, ∃ ok, st.Done ok r) →
        Step L st (st.setHandOff h ⟨handOff.scope, handOff.phase.rejected⟩))) := by
  have hinv : Inv L st := Inv.reach hrun (Inv.initial ids)
  refine ⟨?_, ?_, hinv.held, ?_, mem_started, ?_⟩
  · intro h handOff hget hlive reclaim hmem hscope
    obtain ⟨r, hr⟩ := List.getElem?_of_mem hmem
    exact hinv.not_open hget hlive hr hscope
  · intro r r' reclaim reclaim' hr hr' hscope hopen hopen'
    have hshown := hinv.shown r reclaim hr hopen
    rw [hscope, hinv.shown r' reclaim' hr' hopen'] at hshown
    exact (Option.some.inj hshown).symm
  · intro st' hstep
    refine ⟨hstep.reclaims hinv, ?_⟩
    intro h handOff hget hlive hbefore reclaim hmem hscope hopen
    obtain ⟨r, hr⟩ := List.getElem?_of_mem hmem
    have hin : r ∈ st.inProgress handOff.scope :=
      List.mem_filterMap.mpr ⟨reclaim.scope, hscope, hinv.shown r reclaim hr hopen⟩
    rw [hstep.begins hget hlive hbefore] at hin
    cases hin
  · intro h handOff r hget hr hfailed
    exact ⟨fun st' hrun' => hrun'.doomed hget hr hfailed, fun hdone => rejects hget hr hdone⟩

/-- A child of `[0, 1]` is done while one of `[1]` runs: only the inner locks are
re-keyed, and as that fails, the end and a begin that waited for it both reject. -/
theorem hand_offs_sound_sample : ∃ st : State ℕ,
    st.handOffs =
      [⟨[0, 1], .ending [0]⟩, ⟨[1], .lent [7]⟩, ⟨[0, 1], .waiting [0]⟩] ∧
    st.reclaims = [⟨[0, 1], true, .done false⟩] ∧
    (∀ reclaim ∈ st.reclaims, reclaim.scope ∈ scopeChain [1] → ¬ reclaim.open) ∧
    (∀ id ∈ [7], id ∈ heldIn ⟨fun _ => true, fun _ => []⟩ st [1]) ∧
    Step ⟨fun _ => true, fun _ => []⟩ st (st.setHandOff 0 ⟨[0, 1], .endFailed⟩) ∧
    Step ⟨fun _ => true, fun _ => []⟩ st (st.setHandOff 2 ⟨[0, 1], .beginFailed⟩) := by
  let L : Locks ℕ := ⟨fun _ => true, fun _ => []⟩
  have hbegun : Run L (State.initial (fun s => if s = [1] then [7] else [8])) _ :=
    (Relation.ReflTransGen.single (.begin [0, 1])).tail (.begin [1])
  have hlent := (hbegun.tail (.lend (h := 0) rfl)).tail (.lend (h := 1) rfl)
  -- The outer scope still counts the other child.
  have hended := hlent.tail (.finish (h := 0) true rfl)
  have hwaiting := hended.tail (.begin [0, 1])
  have hrun := (hwaiting.tail (.settle (r := 0) false rfl rfl)).tail (.clear (r := 0) rfl rfl)
  obtain ⟨hclosed, -, hheld, -, -, hrejects⟩ := hand_offs_sound L _ _ hrun
  have hfailed := (hrejects 0 ⟨[0, 1], .ending [0]⟩ 0 rfl (List.mem_singleton.mpr rfl)
    ⟨_, rfl, .inr rfl⟩).2 ⟨_, rfl, rfl⟩ (fun r hr => by
      cases List.mem_singleton.mp hr
      exact ⟨false, _, rfl, rfl⟩)
  have hrejected := (hrejects 2 ⟨[0, 1], .waiting [0]⟩ 0 rfl (List.mem_singleton.mpr rfl)
    ⟨_, rfl, .inr rfl⟩).2 ⟨_, rfl, rfl⟩ (fun r hr => by
      cases List.mem_singleton.mp hr
      exact ⟨false, _, rfl, rfl⟩)
  exact ⟨_, rfl, rfl, hclosed 1 ⟨[1], .lent [7]⟩ rfl rfl, hheld 1 [1] [7] rfl, hfailed, hrejected⟩

end LockHandOffs

end Swamp
