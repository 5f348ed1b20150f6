import Swamp.SweepSteps

/-!
# The sweep never loses committed chunks

Runs of one sweep and any number of writers, from a log whose chunks are stored.
-/

namespace Swamp

namespace ChunkSweep

variable {κ ι : Type*} [DecidableEq κ] [DecidableEq ι] {cfg : Settings κ ι} {w w' : World κ ι}

/-- The states reached from a start by steps that meet a condition. -/
inductive Run (cfg : Settings κ ι) (ok : World κ ι → Label κ ι → Prop) (start : World κ ι) :
    World κ ι → Prop
  | start : Run cfg ok start start
  | step {w w' : World κ ι} {label : Label κ ι} (hrun : Run cfg ok start w) (hok : ok w label)
      (hstep : w.step cfg label = some w') : Run cfg ok start w'

/-- A writer whose commit has landed. -/
def World.Landed (w : World κ ι) (i : ι) : Prop :=
  (w.writers i).phase = .settled ∨ ∃ rest missing, (w.writers i).phase = .landed rest missing

/-- A writer that has looked for the chunks of its landed commit and stored what
was missing. -/
def World.Checked (w : World κ ι) (i : ι) : Prop :=
  (w.writers i).phase = .settled ∨ (w.writers i).phase = .landed ∅ ∅

/-- Committed chunks are in storage unless a batch that has begun to delete has
yet to put back. -/
def KeptAtRest (cfg : Settings κ ι) (log : Finset κ) (w : World κ ι) : Prop :=
  ¬ w.sweep.repairing → log ⊆ w.stored ∧ ∀ i, w.Checked i → cfg.names i ⊆ w.stored

/-- The chunks of landed commits, and of entries whose overlap check has
completed, are in storage even if nothing is put back any more. -/
def KeptThroughCrash (cfg : Settings κ ι) (log : Finset κ) (w : World κ ι) : Prop :=
  log ⊆ w.stored ∧
    ∀ i, w.Landed i ∨ (i ∈ w.outbox ∧ (w.writers i).covered = true) → cfg.names i ⊆ w.stored

variable {label : Label κ ι}

theorem step_cases (hstep : w.step cfg label = some w') :
    SweepStep cfg w w' ∨ ∃ i, OwnStep cfg w w' label i := by
  unfold World.step at hstep
  cases hsweep : w.sweepStep cfg label with
  | some v =>
    rw [hsweep] at hstep
    cases hstep
    exact Or.inl (sweepStep_cases hsweep)
  | none =>
    rw [hsweep] at hstep
    exact Or.inr (writerStep_own hstep)

/-- What holds of every state: committed chunks are safe. -/
structure Inv (cfg : Settings κ ι) (log : Finset κ) (w : World κ ι) : Prop where
  log : log ⊆ w.log ∧ ∀ c ∈ log, Safe w c
  kept : ∀ i, Kept cfg w i

/-- What holds where every check finds what it asks about: committed chunks are
guarded. -/
structure CrashInv (cfg : Settings κ ι) (log : Finset κ) (w : World κ ι) : Prop where
  log : Logged w log ∧ ∀ c ∈ log, Guarded w c
  sound : ∀ i, Sound cfg w i

variable {log : Finset κ}

omit [DecidableEq κ] [DecidableEq ι] in
theorem Inv.initial {stored : Finset κ} (hlog : log ⊆ stored) :
    Inv cfg log (.initial stored log) where
  log := ⟨Finset.Subset.refl log, fun _ hc => Or.inl (hlog hc)⟩
  kept := fun _ => trivial

theorem Inv.step (h : Inv cfg log w) (hstep : w.step cfg label = some w') : Inv cfg log w' := by
  cases step_cases hstep with
  | inl hsweep =>
    refine ⟨⟨hsweep.log ▸ h.log.1, ?_⟩, fun i => hsweep.kept (h.kept i)⟩
    intro c hc
    exact hsweep.safe (h.log.1 hc) (h.log.2 c hc)
  | inr hwriter =>
    obtain ⟨i, hown⟩ := hwriter
    refine ⟨⟨h.log.1.trans hown.frame.log, fun c hc => hown.frame.safe (h.log.2 c hc)⟩, ?_⟩
    intro j
    by_cases hne : j = i
    · exact hne ▸ hown.kept (h.kept i)
    · exact hown.frame.kept hne (h.kept j)

omit [DecidableEq κ] [DecidableEq ι] in
theorem CrashInv.initial {stored : Finset κ} (hlog : log ⊆ stored) :
    CrashInv cfg log (.initial stored log) where
  log := by
    refine ⟨⟨Finset.Subset.refl log, ?_⟩, fun c hc => ⟨hlog hc, id⟩⟩
    intro batch found hsweep
    cases hsweep
  sound := by
    intro i
    refine ⟨trivial, ?_, ?_⟩
    · intro hcovered
      cases hcovered
    · intro hcovered
      cases hcovered

theorem CrashInv.step (hshared : cfg.shared = true) (h : CrashInv cfg log w)
    (hunsplit : Unsplit cfg w label) (hstep : w.step cfg label = some w') :
    CrashInv cfg log w' := by
  cases step_cases hstep with
  | inl hsweep =>
    refine ⟨⟨hsweep.logged h.log.1, ?_⟩, fun i => hsweep.sound (h.sound i)⟩
    intro c hc
    exact hsweep.guarded (not_missed_of_logged h.log.1 hc) (h.log.2 c hc)
  | inr hwriter =>
    obtain ⟨i, hown⟩ := hwriter
    refine ⟨⟨hown.frame.logged h.log.1, fun c hc => hown.frame.guarded (h.log.2 c hc)⟩, ?_⟩
    intro j
    by_cases hne : j = i
    · exact hne ▸ hown.sound hshared hunsplit (h.sound i)
    · exact hown.frame.sound hne (h.sound j)

theorem Run.inv {ok : World κ ι → Label κ ι → Prop} {stored : Finset κ} (hlog : log ⊆ stored)
    (h : Run cfg ok (.initial stored log) w) : Inv cfg log w := by
  induction h with
  | start => exact .initial hlog
  | step _ _ hstep ih => exact ih.step hstep

theorem Run.crashInv {stored : Finset κ} (hlog : log ⊆ stored) (hshared : cfg.shared = true)
    (h : Run cfg (Unsplit cfg) (.initial stored log) w) : CrashInv cfg log w := by
  induction h with
  | start => exact .initial hlog
  | step _ hok hstep ih => exact ih.step hshared hok hstep

omit [DecidableEq κ] [DecidableEq ι] in
theorem Safe.stored {c : κ} (h : Safe w c) (hrest : ¬ w.sweep.repairing) : c ∈ w.stored := by
  cases h with
  | inl hstored => exact hstored
  | inr hrepairs => exact absurd hrepairs.repairing hrest

omit [DecidableEq κ] [DecidableEq ι] in
theorem Inv.keptAtRest (h : Inv cfg log w) : KeptAtRest cfg log w := by
  intro hrest
  refine ⟨fun c hc => (h.log.2 c hc).stored hrest, ?_⟩
  intro i hchecked c hc
  have hkept := h.kept i
  unfold Kept at hkept
  cases hchecked with
  | inl hsettled =>
    rw [hsettled] at hkept
    exact (hkept.2 c hc).stored hrest
  | inr hlanded =>
    rw [hlanded] at hkept
    have hsafe : Safe w c := by simpa using hkept.2 c hc
    exact hsafe.stored hrest

omit [DecidableEq κ] [DecidableEq ι] in
theorem Sound.covered {i : ι} (h : Sound cfg w i) (hlanded : w.Landed i) :
    (w.writers i).covered = true := by
  have hstanding := h.standing
  unfold Standing at hstanding
  cases hlanded with
  | inl hsettled =>
    rw [hsettled] at hstanding
    exact hstanding.1
  | inr hlanded =>
    obtain ⟨rest, missing, hphase⟩ := hlanded
    rw [hphase] at hstanding
    exact hstanding.1

omit [DecidableEq κ] [DecidableEq ι] in
theorem CrashInv.keptThroughCrash (h : CrashInv cfg log w) : KeptThroughCrash cfg log w := by
  refine ⟨fun c hc => (h.log.2 c hc).1, ?_⟩
  intro i hi c hc
  have hcovered : (w.writers i).covered = true :=
    hi.elim (h.sound i).covered And.right
  exact ((h.sound i).guarded hcovered c hc).1

/-- **The sweep keeps committed chunks.**  They are in storage whenever no batch
lies between its first delete and the end of its re-check; and where sweep and
writers share a process, they are in storage always, in every run where no entry
is settled between the log read and the outbox read of a reference check that
has missed its commit. -/
theorem sweep_keeps_committed (cfg : Settings κ ι) (stored log : Finset κ)
    (hlog : log ⊆ stored) :
    (∀ w, Run cfg (fun _ _ => True) (.initial stored log) w → KeptAtRest cfg log w) ∧
      (cfg.shared = true → ∀ w, Run cfg (Unsplit cfg) (.initial stored log) w →
        KeptThroughCrash cfg log w) := by
  constructor
  · intro w hrun
    exact (hrun.inv hlog).keptAtRest
  · intro hshared w hrun
    exact (hrun.crashInv hlog hshared).keptThroughCrash

theorem Run.steps {ok : World κ ι → Label κ ι → Prop} {start : World κ ι}
    (hok : ∀ w label, ok w label) {labels : List (Label κ ι)} (h : Run cfg ok start w)
    (hsteps : w.steps cfg labels = some w') : Run cfg ok start w' := by
  induction labels generalizing w with
  | nil =>
    cases hsteps
    exact h
  | cons label labels ih =>
    obtain ⟨v, hstep, hsteps⟩ := Option.bind_eq_some_iff.mp hsteps
    exact ih (h.step (hok w label) hstep) hsteps

/-- Several steps, none of which splits a check. -/
def World.unsplitSteps (cfg : Settings κ ι) :
    World κ ι → List (Label κ ι) → Option (World κ ι)
  | w, [] => some w
  | w, label :: labels =>
    if splitCheck cfg w label then none
    else (w.step cfg label).bind (fun w' => World.unsplitSteps cfg w' labels)

theorem Run.unsplitSteps {start : World κ ι} {labels : List (Label κ ι)}
    (h : Run cfg (Unsplit cfg) start w) (hsteps : w.unsplitSteps cfg labels = some w') :
    Run cfg (Unsplit cfg) start w' := by
  induction labels generalizing w with
  | nil =>
    cases hsteps
    exact h
  | cons label labels ih =>
    unfold World.unsplitSteps at hsteps
    split at hsteps
    case isTrue => cases hsteps
    case isFalse hsplit =>
    obtain ⟨v, hstep, hsteps⟩ := Option.bind_eq_some_iff.mp hsteps
    exact ih (h.step (Bool.eq_false_of_not_eq_true hsplit) hstep) hsteps

/-- A writer of the sweep's process whose commit names the chunk `0`. -/
def oneWriter : Settings ℕ Unit := ⟨fun _ => {0}, true⟩

/-- Two old chunks that nothing names. -/
def oldChunks : World ℕ Unit := .initial {0, 1} ∅

/-- The sweep lists both chunks before the writer prepares its commit. -/
def listsOld : List (Label ℕ Unit) :=
  [.begin ∅, .list 0, .list 1, .readBefore () false, .store () 0, .prepare (),
    .readAfter () false, .look () 0, .pass (), .beginBatch]

/-- The commit lands before the check reads the log, and chunk `1` is deleted. -/
def landsFirst : List (Label ℕ Unit) :=
  [.append (), .look () 0, .checkLog, .settle (), .checkOutbox, .read 1, .settleHeld,
    .delete 1 true]

/-- The commit lands after the check has read the log and is settled before the
check reads the outbox. -/
def landsBetween : List (Label ℕ Unit) :=
  [.checkLog, .append (), .look () 0, .settle (), .checkOutbox, .read 0, .settleHeld,
    .delete 0 true]

/-- A sweep has deleted one chunk beside a landed commit, whose chunk it kept. -/
theorem sweep_keeps_committed_landsFirst :
    ∃ w, oldChunks.unsplitSteps oneWriter (listsOld ++ landsFirst) = some w ∧
      1 ∉ w.stored ∧ KeptThroughCrash oneWriter ∅ w := by
  obtain ⟨w, hw⟩ : ∃ w, oldChunks.unsplitSteps oneWriter (listsOld ++ landsFirst) = some w :=
    Option.isSome_iff_exists.mp (by decide +kernel)
  have hdeleted : (oldChunks.unsplitSteps oneWriter (listsOld ++ landsFirst)).all
      (fun w => decide (1 ∉ w.stored)) = true := by decide +kernel
  rw [hw] at hdeleted
  exact ⟨w, hw, of_decide_eq_true hdeleted,
    (sweep_keeps_committed oneWriter {0, 1} ∅ (Finset.empty_subset _)).2 rfl w
      (Run.unsplitSteps .start hw)⟩

/-- **A crash loses a chunk of a landed commit**: the reference check misses a
commit settled between its two reads, and the process dies after the delete. -/
theorem settled_between_reads :
    ¬ ∀ w, Run oneWriter (fun _ _ => True) oldChunks w → KeptThroughCrash oneWriter ∅ w := by
  intro hclaim
  obtain ⟨w, hw⟩ : ∃ w, oldChunks.steps oneWriter (listsOld ++ landsBetween) = some w :=
    Option.isSome_iff_exists.mp (by decide +kernel)
  have hlost : (oldChunks.steps oneWriter (listsOld ++ landsBetween)).all
      (fun w => decide (0 ∉ w.stored)) = true := by decide +kernel
  have hlanded : (oldChunks.steps oneWriter (listsOld ++ landsBetween)).all
      (fun w => match (w.writers ()).phase with | .settled => true | _ => false) = true := by
    decide +kernel
  rw [hw] at hlost hlanded
  have hsettled : (w.writers ()).phase = .settled := by
    simp only [Option.all_some] at hlanded
    split at hlanded
    · assumption
    · cases hlanded
  have hrun := Run.steps (fun _ _ => trivial) .start hw
  have hkept := (hclaim w hrun).2 () (Or.inl (Or.inl hsettled))
  exact of_decide_eq_true hlost (hkept (Finset.mem_singleton_self 0))

end ChunkSweep

end Swamp
