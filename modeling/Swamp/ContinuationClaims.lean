import Mathlib.Data.List.MinMax
import Swamp.Interleaving
import Swamp.JsValue

/-!
# Continuation claims

A host that resumes a suspended run creates a claim for the suspension, one
record for each generation, in a store every host reads.  `acquireContinuation`
is a program of three operations: it finds the highest claim, asks whether its
holder is alive, and creates the next generation where nobody else has.

Any number of holders run it for one suspension, each operation at any time, and
a holder may be called alive, dead or unknown at every question.  `acquired_alone`
says what holds in every run.
-/

namespace Swamp.Continuation

open Js Interleaving

/-- `ContinuationClaim`. -/
structure ContinuationClaim where
  runId : JsString
  suspensionKey : JsString
  generation : ℕ
  holder : JsString
  claimedAt : JsString

/-- `HolderLiveness`. -/
inductive HolderLiveness where
  | alive
  | dead
  | unknown
deriving DecidableEq

/-- `ContinuationMode`. -/
inductive ContinuationMode where
  | manual
  | automatic (takeover : Bool)

/-- `ContinuationAcquisition`. -/
inductive ContinuationAcquisition where
  | acquired (claim : ContinuationClaim)
  | held (claim : ContinuationClaim) (liveness : HolderLiveness)

/-- The run and the suspension of it that is claimed. -/
structure Suspension where
  runId : JsString
  suspensionKey : JsString

/-- The operations of the store, and the question about a holder.  The mode is
that of the resume that asks. -/
inductive Op where
  | find
  | create (claim : ContinuationClaim)
  | liveness (mode : ContinuationMode) (holder : JsString)

/-- Their answers. -/
def Op.Res : Op → Type
  | .find => Option ContinuationClaim
  | .create _ => Bool
  | .liveness _ _ => HolderLiveness

/-- A function of the lease: it performs operations and may throw. -/
abbrev Async := Prog Op Op.Res

def find : Async (Option ContinuationClaim) := Prog.perform Op.find

def create (claim : ContinuationClaim) : Async Bool := Prog.perform (Op.create claim)

def liveness (mode : ContinuationMode) (holder : JsString) : Async HolderLiveness :=
  Prog.perform (Op.liveness mode holder)

/-- A claim of this holder. -/
def mine (suspension : Suspension) (holder now : JsString) (generation : ℕ) : ContinuationClaim :=
  ⟨suspension.runId, suspension.suspensionKey, generation, holder, now⟩

/-- Whether a holder that was called so is replaced. -/
def replaces (mode : ContinuationMode) (answer : HolderLiveness) : Bool :=
  match mode with
  | .manual => decide (answer ≠ .alive)
  | .automatic takeover => decide (answer = .dead) && takeover

/-- The answer to a claimant that lost the race for the next generation. -/
def lostTo (mode : ContinuationMode) (next : ContinuationClaim) : Async ContinuationAcquisition := do
  match ← find with
  | some winner => return .held winner (← liveness mode winner.holder)
  | none => return .held next .unknown

/-- What a claimant does about the claim it found. -/
def acquireOver (suspension : Suspension) (holder : JsString) (mode : ContinuationMode)
    (now : JsString) (current : ContinuationClaim) : Async ContinuationAcquisition :=
  if current.holder = holder then pure (.acquired current)
  else do
    let answer ← liveness mode current.holder
    if replaces mode answer then
      let next := mine suspension holder now (current.generation + 1)
      if ← create next then return .acquired next
      else lostTo mode next
    else return .held current answer

/-- `acquireContinuation`. -/
def acquireContinuation (suspension : Suspension) (holder : JsString) (mode : ContinuationMode)
    (now : JsString) : Async ContinuationAcquisition := do
  match ← find with
  | some current => acquireOver suspension holder mode now current
  | none =>
    let first := mine suspension holder now 1
    if ← create first then return .acquired first
    else
      match ← find with
      | some current => acquireOver suspension holder mode now current
      | none => return .held first .unknown

/-- The records of the suspension, in the order they were created. -/
structure ClaimStore where
  records : List ContinuationClaim

namespace ClaimStore

/-- The claim of the highest generation. -/
def highest (s : ClaimStore) : Option ContinuationClaim :=
  s.records.argmax ContinuationClaim.generation

/-- With one more record. -/
def add (s : ClaimStore) (claim : ContinuationClaim) : ClaimStore := ⟨s.records ++ [claim]⟩

/-- Whether a generation has a record. -/
def has (s : ClaimStore) (generation : ℕ) : Prop := ∃ claim ∈ s.records, claim.generation = generation

end ClaimStore

/-- Which answers may be given to a mode about a holder. -/
abbrev Answers := ContinuationMode → JsString → HolderLiveness → Prop

/-- How an operation is answered.  A generation is created once. -/
def exec (A : Answers) : (op : Op) → ClaimStore → op.Res → ClaimStore → Prop
  | .find, s, r, s' => r = s.highest ∧ s' = s
  | .create claim, s, r, s' =>
    (¬ s.has claim.generation ∧ r = true ∧ s' = s.add claim) ∨
    (s.has claim.generation ∧ r = false ∧ s' = s)
  | .liveness mode holder, s, r, s' => A mode holder r ∧ s' = s

/-- A holder with what it was answered. -/
abbrev Answered := JsString × ContinuationAcquisition

/-- A holder running `acquireContinuation`. -/
def attempt (suspension : Suspension) (holder : JsString) (mode : ContinuationMode)
    (now : JsString) : Async Answered := do
  let acquisition ← acquireContinuation suspension holder mode now
  return (holder, acquisition)

/-- Any number of holders, each as often as it likes. -/
def machine (A : Answers) (suspension : Suspension) : Machine Op Op.Res ClaimStore Answered where
  exec := fun _ => exec A
  starts := fun _ p => ∃ holder mode now, p = attempt suspension holder mode now
  resume := fun _ => none

/-- Nobody has claimed the suspension, and nobody tries yet. -/
def initial : Config Op Op.Res ClaimStore Answered := ⟨⟨[]⟩, []⟩

/-- The generations are 1, 2, 3, ... in the order they were created. -/
def ClaimStore.Ordered (s : ClaimStore) : Prop :=
  s.records.map ContinuationClaim.generation = List.range' 1 s.records.length

variable {claim : ContinuationClaim}

namespace ClaimStore.Ordered

variable {s : ClaimStore}

/-- The binary search answers membership. -/
theorem has_iff (h : s.Ordered) (generation : ℕ) :
    s.has generation ↔ 1 ≤ generation ∧ generation ≤ s.records.length := by
  have hmem : s.has generation ↔ generation ∈ s.records.map ContinuationClaim.generation := by
    rw [List.mem_map]
    exact Iff.rfl
  rw [hmem, h, List.mem_range'_1]
  omega

/-- A generation has one record. -/
theorem unique (h : s.Ordered) {other : ContinuationClaim} (hclaim : claim ∈ s.records)
    (hother : other ∈ s.records) (heq : claim.generation = other.generation) : claim = other := by
  have hnodup : (s.records.map ContinuationClaim.generation).Nodup := by
    rw [h]
    exact List.nodup_range'
  exact List.inj_on_of_nodup_map hnodup hclaim hother heq

theorem highest_iff (h : s.Ordered) (claim : ContinuationClaim) :
    s.highest = some claim ↔ claim ∈ s.records ∧ claim.generation = s.records.length := by
  have hmax : ∀ c ∈ s.records, c.generation ≤ s.records.length := by
    intro c hc
    exact ((h.has_iff _).mp ⟨c, hc, rfl⟩).2
  constructor
  · intro hhighest
    have hmem : claim ∈ s.records := List.argmax_mem hhighest
    refine ⟨hmem, le_antisymm (hmax claim hmem) ?_⟩
    have hpos : 1 ≤ s.records.length := List.length_pos_of_mem hmem
    obtain ⟨last, hlast, hgeneration⟩ := (h.has_iff s.records.length).mpr ⟨hpos, le_refl _⟩
    rw [← hgeneration]
    exact List.le_of_mem_argmax hlast hhighest
  · intro hclaim
    obtain ⟨hmem, hgeneration⟩ := hclaim
    obtain ⟨top, htop⟩ : ∃ top, s.highest = some top := by
      apply Option.ne_none_iff_exists'.mp
      intro hnone
      rw [List.argmax_eq_none.mp hnone] at hmem
      cases hmem
    have htopmem : top ∈ s.records := List.argmax_mem htop
    have hle : claim.generation ≤ top.generation := List.le_of_mem_argmax hmem htop
    have hsame := h.unique hmem htopmem (le_antisymm hle (hgeneration ▸ hmax top htopmem))
    rw [htop, hsame]

theorem add (h : s.Ordered) (hnext : claim.generation = s.records.length + 1) :
    (s.add claim).Ordered := by
  unfold ClaimStore.Ordered ClaimStore.add
  rw [List.map_append, h, List.length_append, ← List.range'_append_1, List.map_cons, List.map_nil,
    hnext, Nat.add_comm 1]
  rfl

end ClaimStore.Ordered

section

variable (A : Answers)

/-- No answer about this holder lets another replace it. -/
def Kept (holder : JsString) : Prop :=
  ∀ mode answer, A mode holder answer → replaces mode answer = false

/-- Claims are only added, and none over that of a holder that is kept. -/
structure Later (s s' : ClaimStore) : Prop where
  records : s.records <+: s'.records
  kept : ∀ claim, s.highest = some claim → Kept A claim.holder → s' = s

theorem Later.refl (s : ClaimStore) : Later A s s := ⟨List.prefix_refl _, fun _ _ _ => rfl⟩

theorem Later.trans {a b c : ClaimStore} (hab : Later A a b) (hbc : Later A b c) : Later A a c := by
  refine ⟨hab.records.trans hbc.records, ?_⟩
  intro claim hhighest hkept
  have hb := hab.kept claim hhighest hkept
  rw [← hb] at hhighest
  rw [hbc.kept claim hhighest hkept, hb]

/-- Generations in order, claims only added. -/
def discipline : Discipline ClaimStore where
  inv := ClaimStore.Ordered
  later := Later A
  refl := Later.refl A
  trans := Later.trans A

/-- An acquired claim is stored, it is the holder's own, and it is the highest
while the holder is kept. -/
def Acquires (holder : JsString) (acquisition : ContinuationAcquisition) (s : ClaimStore) : Prop :=
  ∀ claim, acquisition = .acquired claim →
    claim ∈ s.records ∧ claim.holder = holder ∧ (Kept A holder → s.highest = some claim)

/-- At the moment it is answered, an acquired claim is the holder's own and the
highest. -/
def AcquiresHighest (holder : JsString) (acquisition : ContinuationAcquisition) (s : ClaimStore) :
    Prop :=
  ∀ claim, acquisition = .acquired claim → claim.holder = holder ∧ s.highest = some claim

end

section

variable {A : Answers} {suspension : Suspension} {t : ℕ} {holder : JsString}
  {mode : ContinuationMode} {now : JsString}

variable {s' : ClaimStore}

theorem Acquires.later {acquisition : ContinuationAcquisition} {s : ClaimStore}
    (h : Acquires A holder acquisition s) (hle : Later A s s') :
    Acquires A holder acquisition s' := by
  intro claim hclaim
  obtain ⟨hmem, hholder, hhighest⟩ := h claim hclaim
  refine ⟨hle.records.subset hmem, hholder, ?_⟩
  intro hkept
  have htop := hhighest hkept
  rw [hle.kept claim htop (hholder ▸ hkept)]
  exact htop

theorem AcquiresHighest.acquires {acquisition : ContinuationAcquisition} {s : ClaimStore}
    (h : AcquiresHighest holder acquisition s) : Acquires A holder acquisition s := by
  intro claim hclaim
  obtain ⟨hholder, hhighest⟩ := h claim hclaim
  exact ⟨List.argmax_mem hhighest, hholder, fun _ => hhighest⟩

/-- What is not acquired is nobody's claim. -/
theorem acquiresHighest_held {answer : HolderLiveness} {s : ClaimStore} :
    AcquiresHighest holder (.held claim answer) s := by
  intro other hother
  cases hother

/-- **Creating the next generation** over a claim that is stored, of a holder
that may be replaced: the claim is the highest one, and the new one is next. -/
theorem create_next {s : ClaimStore} {current : ContinuationClaim} {r : Bool} (hinv : s.Ordered)
    (hcurrent : current ∈ s.records) (hreplaced : ¬ Kept A current.holder)
    (hexec : exec A (.create (mine suspension holder now (current.generation + 1))) s r s') :
    s'.Ordered ∧ Later A s s' ∧
      (r = true → s'.highest = some (mine suspension holder now (current.generation + 1))) := by
  rcases hexec with ⟨hnew, hr, rfl⟩ | ⟨-, hr, rfl⟩
  · have hpos := (hinv.has_iff current.generation).mp ⟨current, hcurrent, rfl⟩
    have hlast : current.generation = s.records.length := by
      rw [hinv.has_iff] at hnew
      simp only [mine] at hnew
      omega
    have hordered : (s.add (mine suspension holder now (current.generation + 1))).Ordered :=
      hinv.add (by simp only [mine, hlast])
    refine ⟨hordered, ⟨List.prefix_append _ _, ?_⟩, ?_⟩
    · intro claim hhighest hkept
      have htop := (hinv.highest_iff current).mpr ⟨hcurrent, hlast⟩
      rw [htop] at hhighest
      obtain rfl := Option.some.inj hhighest
      exact absurd hkept hreplaced
    · intro _
      refine (hordered.highest_iff _).mpr ⟨?_, ?_⟩
      · exact List.mem_append_right _ (List.mem_singleton.mpr rfl)
      · simp only [ClaimStore.add, List.length_append, List.length_singleton, mine, hlast]
  · refine ⟨hinv, Later.refl A _, ?_⟩
    intro htrue
    rw [hr] at htrue
    cases htrue

/-- **Creating the first generation.** -/
theorem create_first {s : ClaimStore} {r : Bool} (hinv : s.Ordered)
    (hexec : exec A (.create (mine suspension holder now 1)) s r s') :
    s'.Ordered ∧ Later A s s' ∧ (r = true → s'.highest = some (mine suspension holder now 1)) := by
  rcases hexec with ⟨hnew, hr, rfl⟩ | ⟨-, hr, rfl⟩
  · have hnone : s.records.length = 0 := by
      rw [hinv.has_iff] at hnew
      simp only [mine] at hnew
      omega
    have hordered : (s.add (mine suspension holder now 1)).Ordered :=
      hinv.add (by simp only [mine, hnone])
    refine ⟨hordered, ⟨List.prefix_append _ _, ?_⟩, ?_⟩
    · intro claim hhighest _
      have hmem := ((hinv.highest_iff claim).mp hhighest).1
      rw [List.length_eq_zero_iff.mp hnone] at hmem
      cases hmem
    · intro _
      refine (hordered.highest_iff _).mpr ⟨?_, ?_⟩
      · exact List.mem_append_right _ (List.mem_singleton.mpr rfl)
      · simp only [ClaimStore.add, List.length_append, List.length_singleton, mine, hnone]
  · refine ⟨hinv, Later.refl A _, ?_⟩
    intro htrue
    rw [hr] at htrue
    cases htrue

/-- Judgement of a program of this machine. -/
abbrev Ends (A : Answers) (suspension : Suspension) (t : ℕ) {α : Type}
    (R : α → ClaimStore → Prop) (p : Async α) (s : ClaimStore) : Prop :=
  Ending (machine A suspension) (discipline A) t R p s

theorem find_ends {R : Option ContinuationClaim → ClaimStore → Prop} {s : ClaimStore}
    (h : ∀ s', Later A s s' → s'.Ordered → R s'.highest s') : Ends A suspension t R find s := by
  intro s' hle hinv r s'' hexec
  obtain ⟨hr, rfl⟩ := hexec
  refine ⟨hinv, Later.refl A _, ?_⟩
  rw [hr]
  exact h _ hle hinv

theorem liveness_ends {R : HolderLiveness → ClaimStore → Prop} {s : ClaimStore}
    {other : JsString} (h : ∀ s' answer, Later A s s' → s'.Ordered → A mode other answer →
      R answer s') : Ends A suspension t R (liveness mode other) s := by
  intro s' hle hinv r s'' hexec
  obtain ⟨hanswer, rfl⟩ := hexec
  exact ⟨hinv, Later.refl A _, h _ r hle hinv hanswer⟩

theorem lostTo_ends {next : ContinuationClaim} {s : ClaimStore} :
    Ends A suspension t (AcquiresHighest holder) (lostTo mode next) s := by
  refine Ending.bind (find_ends ?_)
  intro s' _ _
  cases s'.highest with
  | none => exact acquiresHighest_held
  | some winner =>
    refine Ending.bind (liveness_ends ?_)
    intro s'' answer _ _ _
    exact acquiresHighest_held

theorem acquireOver_ends {current : ContinuationClaim} {s : ClaimStore}
    (hcurrent : s.highest = some current) :
    Ends A suspension t (AcquiresHighest holder)
      (acquireOver suspension holder mode now current) s := by
  unfold acquireOver
  split
  · rename_i hmine
    intro claim hclaim
    cases hclaim
    exact ⟨hmine, hcurrent⟩
  · have hmem : current ∈ s.records := List.argmax_mem hcurrent
    refine Ending.bind (liveness_ends ?_)
    intro s' answer hle hinv' hanswer
    split
    · rename_i hreplaces
      have hreplaced : ¬ Kept A current.holder := by
        intro hkept
        rw [hkept mode answer hanswer] at hreplaces
        cases hreplaces
      apply Ending.bind
      intro s'' hle' hinv'' r next hexec
      have hstored : current ∈ s''.records := (hle.records.trans hle'.records).subset hmem
      obtain ⟨hordered, hlater, hhighest⟩ := create_next hinv'' hstored hreplaced hexec
      refine ⟨hordered, hlater, ?_⟩
      cases r with
      | true =>
        intro claim hclaim
        cases hclaim
        exact ⟨rfl, hhighest rfl⟩
      | false => exact lostTo_ends
    · exact acquiresHighest_held

/-- **Every attempt** keeps the generations in order, and is answered `acquired`
only with its own claim while that is the highest. -/
theorem acquireContinuation_ends {s : ClaimStore} :
    Ends A suspension t (AcquiresHighest holder)
      (acquireContinuation suspension holder mode now) s := by
  refine Ending.bind (find_ends ?_)
  intro s' _ _
  cases hhighest : s'.highest with
  | some current => exact acquireOver_ends hhighest
  | none =>
    apply Ending.bind
    intro s'' _ hinv' r next hexec
    obtain ⟨hordered, hlater, hnew⟩ := create_first hinv' hexec
    refine ⟨hordered, hlater, ?_⟩
    cases r with
    | true =>
      intro claim hclaim
      cases hclaim
      exact ⟨rfl, hnew rfl⟩
    | false =>
      refine Ending.bind (find_ends ?_)
      intro last _ _
      cases hagain : last.highest with
      | some current => exact acquireOver_ends hagain
      | none => exact acquiresHighest_held

theorem attempt_ends {s : ClaimStore} :
    Ends A suspension t (fun answered s => AcquiresHighest answered.1 answered.2 s)
      (attempt suspension holder mode now) s :=
  Ending.bind (Ending.mono acquireContinuation_ends (fun _ _ h => h))

end

section

variable (A : Answers) (suspension : Suspension)

/-- A task of a holder is done, with a claim acquired. -/
def AcquiredBy (c : Config Op Op.Res ClaimStore Answered) (t : ℕ) (holder : JsString)
    (claim : ContinuationClaim) : Prop :=
  c.tasks[t]? = some (.ret (holder, .acquired claim))

/-- What every task that is done was answered. -/
abbrev Settles : ℕ → Answered → ClaimStore → Prop :=
  fun _ answered s => Acquires A answered.1 answered.2 s

theorem admits : Admits (machine A suspension) (discipline A) (Settles A) where
  starts := by
    intro t s tasks p hstarts
    obtain ⟨holder, mode, now, rfl⟩ := hstarts
    apply attempt_ends.safe
    intro answered s s' h hle _
    exact h.acquires.later hle
  resumes := by
    intro t s a p hresume
    cases hresume

theorem initial_sound : Sound (machine A suspension) (discipline A) (Settles A) initial := by
  refine ⟨rfl, ?_⟩
  intro t p hget
  cases hget

/-- **Continuation claims exclude each other.**  In every run in which any number
of holders claim one suspension, and holders are called alive, dead or unknown as
`A` lets them be:

* a generation is answered `acquired` to one holder only;
* the generations created are 1, 2, 3, ... without a gap;
* a holder whose claim is the highest is answered `acquired` with that claim
  whenever it asks, at its first step;
* once a holder is answered `acquired` that is called alive whenever a manual
  resume asks, and not dead whenever an automatic one does, no other holder is. -/
theorem acquired_alone {c : Config Op Op.Res ClaimStore Answered}
    (hrun : Run (machine A suspension) initial c) :
    (∀ t u h x claim other, AcquiredBy c t h claim → AcquiredBy c u x other →
      claim.generation = other.generation → h = x) ∧
    c.shared.records.map ContinuationClaim.generation =
      List.range' 1 c.shared.records.length ∧
    (∀ t op holder mode now claim c', c.shared.highest = some claim → claim.holder = holder →
      c.tasks[t]? = some (attempt suspension holder mode now) →
      Acts (machine A suspension) t op c c' →
        AcquiredBy c' t holder claim ∧ c'.shared = c.shared) ∧
    (∀ h, (∀ answer, A .manual h answer → answer = .alive) →
      (∀ takeover answer, A (.automatic takeover) h answer → answer ≠ .dead) →
      ∀ t claim c', AcquiredBy c t h claim → Run (machine A suspension) c c' →
        ∀ u x other, x ≠ h → AcquiredBy c' u x other → AcquiredBy c u x other) := by
  have hsound := ((initial_sound A suspension).run (admits A suspension) hrun).1
  refine ⟨?_, hsound.inv, ?_, ?_⟩
  · intro t u h x claim other ht hu hgeneration
    obtain ⟨hclaim, hholder, -⟩ := hsound.done ht claim rfl
    obtain ⟨hother, hx, -⟩ := hsound.done hu other rfl
    have hsame := hsound.inv.unique hclaim hother hgeneration
    simp only at hholder hx
    rw [← hholder, ← hx, hsame]
  · intro t op holder mode now claim c' hhighest hholder hget hacts
    obtain ⟨k, r, hcall, hexec, htasks⟩ := hacts
    rw [hget] at hcall
    -- The first operation is to find the highest claim.
    cases hcall
    obtain ⟨hr, hshared⟩ := hexec
    have hlt : t < c.tasks.length := (List.getElem?_eq_some_iff.mp hget).1
    refine ⟨?_, hshared⟩
    have hown : acquireOver suspension holder mode now claim = Prog.ret (.acquired claim) := by
      unfold acquireOver
      rw [if_pos hholder]
      rfl
    unfold AcquiredBy
    rw [htasks, hr, hhighest, List.getElem?_set_self hlt]
    simp only [Prog.bind, hown]
    rfl
  · intro h hmanual hautomatic t claim c' ht hlater u x other hne hu
    have hkept : Kept A h := by
      intro mode answer hanswer
      cases mode with
      | manual => simp [replaces, hmanual answer hanswer]
      | automatic takeover => simp [replaces, hautomatic takeover answer hanswer]
    have hends : ∀ t s tasks p, (machine A suspension).starts tasks p →
        Ending (machine A suspension) (discipline A) t
          (fun answered s => AcquiresHighest answered.1 answered.2 s) p s := by
      intro t s tasks p hstarts
      obtain ⟨holder, mode, now, rfl⟩ := hstarts
      exact attempt_ends
    have hstart : Unfinished (machine A suspension) (discipline A)
        (fun _ answered s => AcquiresHighest answered.1 answered.2 s) initial := by
      intro t op k hget
      cases hget
    obtain ⟨hunfinished, -⟩ := (initial_sound A suspension).ended (admits A suspension) hends
      (fun _ => rfl) hstart hrun
    obtain ⟨-, hdone⟩ := hsound.ended (admits A suspension) hends (fun _ => rfl) hunfinished hlater
    rcases hdone u _ hu with hbefore | ⟨mid, hto, -, hmid⟩
    · exact hbefore
    · -- At that moment the highest claim is still that of `h`.
      obtain ⟨-, hholder, hhighest⟩ := hsound.done ht claim rfl
      have hle := (hsound.run (admits A suspension) hto).2
      have hfrozen := hle.kept claim (hhighest hkept) (hholder ▸ hkept)
      obtain ⟨hx, htop⟩ := hmid other rfl
      rw [hfrozen, hhighest hkept] at htop
      obtain rfl := Option.some.inj htop
      exact absurd (hx.symm.trans hholder) hne

end

/-- A suspension of a run. -/
def sampleSuspension : Suspension := ⟨js "run", js "suspended"⟩

/-- The first claim of a serve instance. -/
def sampleClaim : ContinuationClaim := mine sampleSuspension (js "serve:a") (js "2026-01-01") 1

/-- Everybody is always called alive. -/
def allAlive : Answers := fun _ _ answer => answer = .alive

theorem sample_does :
    Does (machine allAlive sampleSuspension) 0
      (attempt sampleSuspension (js "serve:a") .manual (js "2026-01-01")) ⟨[]⟩
      (js "serve:a", .acquired sampleClaim) ⟨[sampleClaim]⟩ := by
  have hcreate : exec allAlive (.create sampleClaim) ⟨[]⟩ true ⟨[sampleClaim]⟩ := by
    refine Or.inl ⟨?_, rfl, rfl⟩
    intro hhas
    obtain ⟨claim, hmem, -⟩ := hhas
    cases hmem
  exact Does.call ⟨rfl, rfl⟩ (Does.call hcreate Does.ret)

/-- One holder claims the suspension, and no other is answered `acquired` from
then on. -/
theorem first_claim_excludes :
    ∃ c, Run (machine allAlive sampleSuspension) initial c ∧
      AcquiredBy c 0 (js "serve:a") sampleClaim ∧
      ∀ c', Run (machine allAlive sampleSuspension) c c' →
        ∀ u x other, x ≠ js "serve:a" → ¬ AcquiredBy c' u x other := by
  have hstart : Run (machine allAlive sampleSuspension) initial
      ⟨⟨[]⟩, [attempt sampleSuspension (js "serve:a") .manual (js "2026-01-01")]⟩ :=
    (Run.refl initial).tail (Step.start ⟨_, _, _, rfl⟩)
  have hrun := Run.does hstart (t := 0) rfl sample_does
  refine ⟨_, hrun, rfl, ?_⟩
  intro c' hlater u x other hne hother
  obtain ⟨-, -, -, halone⟩ := acquired_alone allAlive sampleSuspension hrun
  have hbefore := halone (js "serve:a") (fun _ h => h)
    (fun _ _ h hdead => by rw [h] at hdead; cases hdead) 0 sampleClaim c' rfl hlater u x other hne
    hother
  cases u with
  | zero =>
    cases hbefore
    exact hne rfl
  | succ u => cases hbefore

end Swamp.Continuation
