import Swamp.ChunkSweep

/-!
# What a step does to the chunks of a commit

What a sweep deletes it may have judged before a commit was prepared, so it asks
again after its deletes and puts back what is named by then.  A chunk the log
names is in storage or about to be put back (`Safe`).

A writer whose overlap check has completed has no chunk of its commit under such
a judgement (`Guarded`), and none comes to be as long as each reference check
finds its commit in the log or its entry in the outbox.  A check reads the log
first, so it misses a commit that lands after that read and is settled before
the outbox is read (`splitCheck`).
-/

namespace Swamp

namespace ChunkSweep

variable {κ ι : Type*}

/-- A chunk the sweep holds a judgement against: it may delete it yet, or has and
may put it back. -/
def Sweep.Threatens (c : κ) : Sweep κ → Prop
  | .reading rest held => c ∈ rest ∨ c ∈ held
  | .deleting rest held started => c ∈ rest ∨ c ∈ held ∨ c ∈ started
  | .rechecking rest started => c ∈ rest ∨ c ∈ started
  | .recheckedLog rest started found => c ∈ rest ∨ c ∈ started ∨ c ∈ found
  | .puttingBack rest names => c ∈ rest ∨ c ∈ names
  | _ => False

/-- A chunk the sweep puts back when the log names it. -/
def Sweep.Repairs (c : κ) : Sweep κ → Prop
  | .deleting _ _ started => c ∈ started
  | .rechecking _ started => c ∈ started
  | .recheckedLog _ _ found => c ∈ found
  | .puttingBack _ names => c ∈ names
  | _ => False

theorem Sweep.Repairs.repairing {sweep : Sweep κ} {c : κ} (h : sweep.Repairs c) :
    sweep.repairing := by
  cases sweep with
  | deleting rest held started =>
    intro hempty
    rw [Sweep.Repairs, hempty] at h
    exact absurd h (Finset.notMem_empty c)
  | rechecking rest started | recheckedLog rest started found | puttingBack rest names => trivial
  | ended | listing batch | checking batch | checkedLog batch found
  | reading rest held => exact h.elim

theorem Sweep.not_threatens {sweep : Sweep κ} (h : sweep.inBatch = false) (c : κ) :
    ¬ sweep.Threatens c := by
  cases sweep with
  | ended | listing batch => exact id
  | _ => cases h

variable [DecidableEq κ] {cfg : Settings κ ι} {w w' : World κ ι}

/-- A chunk a reference check has passed over, though its batch asks about it. -/
def Missed (cfg : Settings κ ι) (w : World κ ι) (c : κ) : Prop :=
  ∃ batch found, w.sweep = .checkedLog batch found ∧ c ∈ batch ∧ c ∉ found ∧
    c ∉ w.outboxNames cfg

/-- What a step of the sweep can do. -/
structure SweepStep (cfg : Settings κ ι) (w w' : World κ ι) : Prop where
  writers : w'.writers = w.writers
  outbox : w'.outbox = w.outbox
  log : w'.log = w.log
  stored : ∀ c ∈ w.stored, c ∈ w'.stored ∨ (w.sweep.Threatens c ∧ w'.sweep.Repairs c)
  repairs : ∀ c ∈ w.log, w.sweep.Repairs c → w'.sweep.Repairs c ∨ c ∈ w'.stored
  threats : ∀ c, w'.sweep.Threatens c → w.sweep.Threatens c ∨ Missed cfg w c
  checked : ∀ batch found, w'.sweep = .checkedLog batch found → found = batch ∩ w.log
  epoch : w.epoch ≤ w'.epoch
  ended : w.sweep = .ended → w'.epoch = w.epoch → w'.sweep = .ended
  batches : w.batches ≤ w'.batches ∧ (w'.batches ≠ w.batches → w'.sweep.inBatch = false)

variable {label : Label κ ι}

theorem sweepStep_cases (hstep : w.sweepStep cfg label = some w') : SweepStep cfg w w' := by
  cases label with
  | begin old | beginBatch | checkLog | checkOutbox | settleHeld | recheckLog | recheckOutbox
  | leaseLost | endBatch | finish =>
    unfold World.sweepStep at hstep
    dsimp only at hstep
    split at hstep
    · cases hstep
      constructor <;> grind [Sweep.Threatens, Sweep.Repairs, Sweep.inBatch, Missed]
    · cases hstep
  | list c | read c =>
    unfold World.sweepStep at hstep
    dsimp only at hstep
    split at hstep
    · split at hstep
      · cases hstep
      · split at hstep
        · cases hstep
          constructor <;> grind [Sweep.Threatens, Sweep.Repairs, Sweep.inBatch, Missed]
        · cases hstep
          constructor <;> grind [Sweep.Threatens, Sweep.Repairs, Sweep.inBatch, Missed]
    · cases hstep
  | keep c | delete c succeeds =>
    unfold World.sweepStep at hstep
    dsimp only at hstep
    split at hstep
    · split at hstep
      · cases hstep
      · cases hstep
        constructor <;> grind [Sweep.Threatens, Sweep.Repairs, Sweep.inBatch, Missed]
    · cases hstep
  | recheck aborted =>
    unfold World.sweepStep at hstep
    dsimp only at hstep
    split at hstep
    · split at hstep
      · cases hstep
        constructor <;> grind [Sweep.Threatens, Sweep.Repairs, Sweep.inBatch, Missed]
      · split at hstep
        · cases hstep
          constructor <;> grind [Sweep.Threatens, Sweep.Repairs, Sweep.inBatch, Missed]
        · cases hstep
    · cases hstep
  | putBack c =>
    unfold World.sweepStep at hstep
    dsimp only at hstep
    split at hstep
    · split at hstep
      · cases hstep
      · cases hstep
        constructor <;> grind [Sweep.Threatens, Sweep.Repairs, Sweep.inBatch, Missed, World.store]
    · cases hstep
  | resume =>
    unfold World.sweepStep at hstep
    dsimp only at hstep
    split at hstep
    · split at hstep
      · cases hstep
        constructor <;> grind [Sweep.Threatens, Sweep.Repairs, Sweep.inBatch, Missed]
      · cases hstep
    · cases hstep
  | _ => cases hstep

/-- A chunk that is in storage, or about to be put back. -/
def Safe (w : World κ ι) (c : κ) : Prop := c ∈ w.stored ∨ w.sweep.Repairs c

/-- A chunk in storage that the sweep holds no judgement against. -/
def Guarded (w : World κ ι) (c : κ) : Prop := c ∈ w.stored ∧ ¬ w.sweep.Threatens c

/-- Chunks the log names, and that a reference check under way has found there. -/
def Logged (w : World κ ι) (chunks : Finset κ) : Prop :=
  chunks ⊆ w.log ∧
    ∀ batch found, w.sweep = .checkedLog batch found → ∀ c ∈ chunks, c ∈ batch → c ∈ found

/-- A reading of the sweep's state that saw no sweep, and no sweep since. -/
def Quiet (w : World κ ι) (before : SweepState) : Prop :=
  before.active = false ∧ before.epoch = w.epoch

/-- An earlier reading of the sweep's state. -/
def Since (w : World κ ι) (before : SweepState) : Prop :=
  before.epoch ≤ w.epoch ∧ (Quiet w before → w.sweep = .ended)

/-- A landed commit has its chunks named by the log, and each in storage, about
to be put back or still to be looked after by its writer. -/
def Kept (cfg : Settings κ ι) (w : World κ ι) (i : ι) : Prop :=
  match (w.writers i).phase with
  | .landed rest missing =>
    cfg.names i ⊆ w.log ∧ ∀ c ∈ cfg.names i, c ∈ rest ∨ c ∈ missing ∨ Safe w c
  | .settled => cfg.names i ⊆ w.log ∧ ∀ c ∈ cfg.names i, Safe w c
  | _ => True

/-- What a writer may rely on where it stands. -/
def Standing (cfg : Settings κ ι) (w : World κ ι) (i : ι) : Prop :=
  match (w.writers i).phase with
  | .idle => True
  | .storing before done => Since w before ∧ (Quiet w before → done ⊆ w.stored)
  | .prepared before =>
    Since w before ∧ (Quiet w before → cfg.names i ⊆ w.stored) ∧ i ∈ w.outbox
  | .waiting before batch =>
    Since w before ∧ i ∈ w.outbox ∧
      ∀ c ∈ cfg.names i, w.sweep.Threatens c → w.batches = batch
  | .restoring before rest missing =>
    Since w before ∧ i ∈ w.outbox ∧
      ∀ c ∈ cfg.names i, ¬ w.sweep.Threatens c ∧ (c ∈ rest ∨ c ∈ missing ∨ c ∈ w.stored)
  | .ready before => Since w before ∧ (w.writers i).covered = true
  | .landed _ _ => (w.writers i).covered = true ∧ cfg.names i ⊆ w.log
  | .settled => (w.writers i).covered = true ∧ Logged w (cfg.names i)

/-- A writer stands where it may, and once its overlap check has completed its
chunks are guarded, by its entry or by the log. -/
structure Sound (cfg : Settings κ ι) (w : World κ ι) (i : ι) : Prop where
  standing : Standing cfg w i
  guarded : (w.writers i).covered = true → ∀ c ∈ cfg.names i, Guarded w c
  entry : (w.writers i).covered = true → i ∈ w.outbox ∨ Logged w (cfg.names i)

variable {chunks : Finset κ}

theorem not_missed_of_logged (h : Logged w chunks) {c : κ} (hc : c ∈ chunks) :
    ¬ Missed cfg w c := by
  intro hmissed
  obtain ⟨batch, found, hsweep, hbatch, hfound, _⟩ := hmissed
  exact hfound (h.2 batch found hsweep c hc hbatch)

theorem not_missed_of_entry {i : ι} (h : i ∈ w.outbox) {c : κ} (hc : c ∈ cfg.names i) :
    ¬ Missed cfg w c := by
  intro hmissed
  obtain ⟨batch, found, _, _, _, hnames⟩ := hmissed
  exact hnames (Finset.mem_biUnion.mpr ⟨i, h, hc⟩)

theorem SweepStep.safe (hstep : SweepStep cfg w w') {c : κ} (hlog : c ∈ w.log)
    (h : Safe w c) : Safe w' c := by
  cases h with
  | inl hstored =>
    exact (hstep.stored c hstored).imp_right And.right
  | inr hrepairs => exact (hstep.repairs c hlog hrepairs).symm

theorem SweepStep.not_threatens (hstep : SweepStep cfg w w') {c : κ}
    (hmissed : ¬ Missed cfg w c) (h : ¬ w.sweep.Threatens c) : ¬ w'.sweep.Threatens c := by
  intro hthreatens
  exact (hstep.threats c hthreatens).elim h hmissed

theorem SweepStep.guarded (hstep : SweepStep cfg w w') {c : κ}
    (hmissed : ¬ Missed cfg w c) (h : Guarded w c) : Guarded w' c := by
  refine ⟨?_, hstep.not_threatens hmissed h.2⟩
  cases hstep.stored c h.1 with
  | inl hstored => exact hstored
  | inr hdeleted => exact absurd hdeleted.1 h.2

theorem SweepStep.logged (hstep : SweepStep cfg w w') (h : Logged w chunks) : Logged w' chunks := by
  refine ⟨hstep.log ▸ h.1, ?_⟩
  intro batch found hsweep c hc hbatch
  rw [hstep.checked batch found hsweep]
  exact Finset.mem_inter.mpr ⟨hbatch, h.1 hc⟩

variable {before : SweepState}

/-- No sweep now, none before this step. -/
theorem SweepStep.quiet (hstep : SweepStep cfg w w') (hsince : Since w before) (h : Quiet w' before)
    :
    Quiet w before := by
  have hle := hstep.epoch
  have hbefore := hsince.1
  have hepoch := h.2
  exact ⟨h.1, by omega⟩

theorem SweepStep.since (hstep : SweepStep cfg w w') (h : Since w before) : Since w' before := by
  refine ⟨h.1.trans hstep.epoch, ?_⟩
  intro hquiet
  have hearlier := hstep.quiet h hquiet
  exact hstep.ended (h.2 hearlier) (hquiet.2.symm.trans hearlier.2)

/-- While there is no sweep, nothing is deleted. -/
theorem SweepStep.kept_quiet (hstep : SweepStep cfg w w') (hsince : Since w before)
    (h : Quiet w before → chunks ⊆ w.stored) : Quiet w' before → chunks ⊆ w'.stored := by
  intro hquiet c hc
  have hearlier := hstep.quiet hsince hquiet
  cases hstep.stored c (h hearlier hc) with
  | inl hstored => exact hstored
  | inr hdeleted =>
    have hthreatens := hdeleted.1
    rw [hsince.2 hearlier] at hthreatens
    exact hthreatens.elim

theorem SweepStep.kept (hstep : SweepStep cfg w w') {i : ι} (h : Kept cfg w i) :
    Kept cfg w' i := by
  unfold Kept at h ⊢
  rw [hstep.writers]
  split
  case h_1 rest missing hphase =>
      simp only [hphase] at h
      refine ⟨hstep.log ▸ h.1, ?_⟩
      intro c hc
      exact (h.2 c hc).imp_right (Or.imp_right (hstep.safe (h.1 hc)))
  case h_2 hphase =>
      simp only [hphase] at h
      refine ⟨hstep.log ▸ h.1, ?_⟩
      intro c hc
      exact hstep.safe (h.1 hc) (h.2 c hc)
  case h_3 => trivial

theorem SweepStep.standing (hstep : SweepStep cfg w w') {i : ι} (h : Sound cfg w i) :
    Standing cfg w' i := by
  have hstanding := h.standing
  have hguarded := h.guarded
  unfold Standing at hstanding ⊢
  rw [hstep.writers, hstep.outbox]
  cases hphase : (w.writers i).phase with
  | idle => trivial
  | storing before done =>
    rw [hphase] at hstanding
    exact ⟨hstep.since hstanding.1, hstep.kept_quiet hstanding.1 hstanding.2⟩
  | prepared before =>
    rw [hphase] at hstanding
    exact ⟨hstep.since hstanding.1, hstep.kept_quiet hstanding.1 hstanding.2.1,
      hstanding.2.2⟩
  | waiting before batch =>
    rw [hphase] at hstanding
    refine ⟨hstep.since hstanding.1, hstanding.2.1, ?_⟩
    intro c hc hthreatens
    have hearlier : w.sweep.Threatens c := by
      by_contra hnot
      exact hstep.not_threatens (not_missed_of_entry hstanding.2.1 hc) hnot hthreatens
    -- a batch that has ended holds no judgement
    by_contra hended
    have hbatch : w'.batches ≠ w.batches := by
      rw [hstanding.2.2 c hc hearlier]
      exact hended
    exact Sweep.not_threatens (hstep.batches.2 hbatch) c hthreatens
  | restoring before rest missing =>
    rw [hphase] at hstanding
    refine ⟨hstep.since hstanding.1, hstanding.2.1, ?_⟩
    intro c hc
    obtain ⟨hthreatens, hplace⟩ := hstanding.2.2 c hc
    have hmissed := not_missed_of_entry hstanding.2.1 hc
    refine ⟨hstep.not_threatens hmissed hthreatens, hplace.imp_right (Or.imp_right ?_)⟩
    intro hstored
    exact (hstep.guarded hmissed ⟨hstored, hthreatens⟩).1
  | ready before =>
    rw [hphase] at hstanding
    exact ⟨hstep.since hstanding.1, hstanding.2⟩
  | landed rest missing =>
    rw [hphase] at hstanding
    exact ⟨hstanding.1, hstep.log ▸ hstanding.2⟩
  | settled =>
    rw [hphase] at hstanding
    exact ⟨hstanding.1, hstep.logged hstanding.2⟩

theorem SweepStep.sound (hstep : SweepStep cfg w w') {i : ι} (h : Sound cfg w i) :
    Sound cfg w' i where
  standing := hstep.standing h
  guarded := by
    rw [hstep.writers]
    intro hcovered c hc
    refine hstep.guarded ?_ (h.guarded hcovered c hc)
    cases h.entry hcovered with
    | inl hentry => exact not_missed_of_entry hentry hc
    | inr hlogged => exact not_missed_of_logged hlogged hc
  entry := by
    rw [hstep.writers, hstep.outbox]
    intro hcovered
    exact (h.entry hcovered).imp_right hstep.logged

variable [DecidableEq ι]

/-- What a step of writer `i` can do to the rest. -/
structure WriterStep (w w' : World κ ι) (i : ι) : Prop where
  sweep : w'.sweep = w.sweep
  epoch : w'.epoch = w.epoch
  batches : w'.batches = w.batches
  stored : w.stored ⊆ w'.stored
  log : w.log ⊆ w'.log
  outbox : ∀ j, j ≠ i → j ∈ w.outbox → j ∈ w'.outbox
  writers : ∀ j, j ≠ i → w'.writers j = w.writers j

omit [DecidableEq κ] in
@[simp] theorem World.goes_phase (w : World κ ι) (i : ι) (phase : Phase κ) :
    ((w.goes i phase).writers i).phase = phase := by
  simp [World.goes]

omit [DecidableEq κ] in
@[simp] theorem World.goes_covered (w : World κ ι) (i : ι) (phase : Phase κ) :
    ((w.goes i phase).writers i).covered = (w.writers i).covered := by
  simp [World.goes]

omit [DecidableEq κ] in
theorem World.goes_other (w : World κ ι) {i j : ι} (phase : Phase κ) (hne : j ≠ i) :
    (w.goes i phase).writers j = w.writers j := Function.update_of_ne hne _ _

omit [DecidableEq κ] in
theorem WriterStep.of_goes (w : World κ ι) (i : ι) (phase : Phase κ) :
    WriterStep w (w.goes i phase) i where
  sweep := rfl
  epoch := rfl
  batches := rfl
  stored := Finset.Subset.refl _
  log := Finset.Subset.refl _
  outbox := fun _ _ hj => hj
  writers := fun _ hne => w.goes_other phase hne

theorem WriterStep.of_store (w : World κ ι) (i : ι) (c : κ) (phase : Phase κ) :
    WriterStep w ((w.store c).goes i phase) i :=
  { WriterStep.of_goes (w.store c) i phase with
    stored := Finset.subset_insert c w.stored }

section

omit [DecidableEq κ] [DecidableEq ι]

variable {i : ι}

theorem WriterStep.safe (hstep : WriterStep w w' i) {c : κ} (h : Safe w c) : Safe w' c := by
  unfold Safe at h ⊢
  rw [hstep.sweep]
  exact h.imp_left (fun hstored => hstep.stored hstored)

theorem WriterStep.guarded (hstep : WriterStep w w' i) {c : κ} (h : Guarded w c) :
    Guarded w' c := by
  unfold Guarded at h ⊢
  rw [hstep.sweep]
  exact ⟨hstep.stored h.1, h.2⟩

theorem WriterStep.logged (hstep : WriterStep w w' i) (h : Logged w chunks) : Logged w' chunks := by
  unfold Logged at h ⊢
  rw [hstep.sweep]
  exact ⟨h.1.trans hstep.log, h.2⟩

theorem WriterStep.quiet (hstep : WriterStep w w' i) : Quiet w' before ↔ Quiet w before := by
  unfold Quiet
  rw [hstep.epoch]

theorem WriterStep.since (hstep : WriterStep w w' i) : Since w' before ↔ Since w before := by
  unfold Since
  rw [hstep.quiet, hstep.sweep, hstep.epoch]

variable {j : ι}

theorem WriterStep.kept (hstep : WriterStep w w' i) (hne : j ≠ i) (h : Kept cfg w j) :
    Kept cfg w' j := by
  unfold Kept at h ⊢
  rw [hstep.writers j hne]
  split
  case h_1 rest missing hphase =>
      simp only [hphase] at h
      refine ⟨h.1.trans hstep.log, ?_⟩
      intro c hc
      exact (h.2 c hc).imp_right (Or.imp_right hstep.safe)
  case h_2 hphase =>
      simp only [hphase] at h
      refine ⟨h.1.trans hstep.log, ?_⟩
      intro c hc
      exact hstep.safe (h.2 c hc)
  case h_3 => trivial

theorem WriterStep.standing (hstep : WriterStep w w' i) (hne : j ≠ i)
    (h : Standing cfg w j) : Standing cfg w' j := by
  unfold Standing at h ⊢
  rw [hstep.writers j hne]
  cases hphase : (w.writers j).phase with
  | idle => trivial
  | storing before done =>
    simp only [hphase] at h ⊢
    rw [hstep.since, hstep.quiet]
    exact ⟨h.1, fun hquiet => (h.2 hquiet).trans hstep.stored⟩
  | prepared before =>
    simp only [hphase] at h ⊢
    rw [hstep.since, hstep.quiet]
    exact ⟨h.1, fun hquiet => (h.2.1 hquiet).trans hstep.stored, hstep.outbox j hne h.2.2⟩
  | waiting before batch =>
    simp only [hphase] at h ⊢
    rw [hstep.since, hstep.sweep, hstep.batches]
    exact ⟨h.1, hstep.outbox j hne h.2.1, h.2.2⟩
  | restoring before rest missing =>
    simp only [hphase] at h ⊢
    rw [hstep.since, hstep.sweep]
    refine ⟨h.1, hstep.outbox j hne h.2.1, ?_⟩
    intro c hc
    obtain ⟨hthreatens, hplace⟩ := h.2.2 c hc
    exact ⟨hthreatens, hplace.imp_right (Or.imp_right (fun hstored => hstep.stored hstored))⟩
  | ready before =>
    simp only [hphase] at h ⊢
    rw [hstep.since]
    exact h
  | landed rest missing =>
    simp only [hphase] at h ⊢
    exact ⟨h.1, h.2.trans hstep.log⟩
  | settled =>
    simp only [hphase] at h ⊢
    exact ⟨h.1, hstep.logged h.2⟩

theorem WriterStep.sound (hstep : WriterStep w w' i) (hne : j ≠ i) (h : Sound cfg w j) :
    Sound cfg w' j where
  standing := hstep.standing hne h.standing
  guarded := by
    rw [hstep.writers j hne]
    intro hcovered c hc
    exact hstep.guarded (h.guarded hcovered c hc)
  entry := by
    rw [hstep.writers j hne]
    intro hcovered
    exact (h.entry hcovered).imp (hstep.outbox j hne) hstep.logged

end

/-- A writer settles its entry while a reference check has read the log, without
having found there a chunk of the commit it asks about, but not yet the outbox. -/
def splitCheck (cfg : Settings κ ι) (w : World κ ι) : Label κ ι → Bool
  | .settle i =>
    match w.sweep with
    | .checkedLog batch found => !decide (cfg.names i ∩ batch ⊆ found)
    | _ => false
  | _ => false

/-- No reference check has a commit pass between its two reads. -/
def Unsplit (cfg : Settings κ ι) (w : World κ ι) (label : Label κ ι) : Prop :=
  splitCheck cfg w label = false

/-- What a writer's own step does for it. -/
structure OwnStep (cfg : Settings κ ι) (w w' : World κ ι) (label : Label κ ι) (i : ι) :
    Prop where
  frame : WriterStep w w' i
  kept : Kept cfg w i → Kept cfg w' i
  sound : cfg.shared = true → Unsplit cfg w label → Sound cfg w i → Sound cfg w' i

omit [DecidableEq ι] [DecidableEq κ] in
theorem Sound.goes {i : ι} (h : Sound cfg w i) (hstep : WriterStep w w' i)
    (hcovered : (w'.writers i).covered = (w.writers i).covered)
    (hentry : i ∈ w.outbox → i ∈ w'.outbox ∨ Logged w' (cfg.names i))
    (hstanding : Standing cfg w' i) : Sound cfg w' i where
  standing := hstanding
  guarded := by
    rw [hcovered]
    intro h' c hc
    exact hstep.guarded (h.guarded h' c hc)
  entry := by
    rw [hcovered]
    intro h'
    exact (h.entry h').elim hentry (fun hlogged => Or.inr (hstep.logged hlogged))

theorem readBefore_own {i : ι} {stale : Bool}
    (hstep : w.writerStep cfg (.readBefore i stale) = some w') :
    OwnStep cfg w w' (.readBefore i stale) i := by
  unfold World.writerStep at hstep
  dsimp only at hstep
  split at hstep
  case h_2 => cases hstep
  split at hstep
  case isTrue => cases hstep
  case isFalse hphase hstale =>
  cases hstep
  refine ⟨.of_goes w i _, fun _ => by simp [Kept], ?_⟩
  intro hshared _ hsound
  refine hsound.goes (.of_goes w i _) (by simp) Or.inl ?_
  simp only [Standing, World.goes_phase]
  have hactive : stale = false := by simpa [hshared] using hstale
  refine ⟨⟨le_rfl, ?_⟩, fun _ => Finset.empty_subset _⟩
  intro hquiet
  have hended : w.sweep.isActive = false := by
    have h := hquiet.1
    simpa [World.sweepState, hactive] using h
  show w.sweep = .ended
  cases hsweep : w.sweep with
  | ended => rfl
  | _ => rw [hsweep] at hended; cases hended

theorem store_own {i : ι} {c : κ} (hstep : w.writerStep cfg (.store i c) = some w') :
    OwnStep cfg w w' (.store i c) i := by
  unfold World.writerStep at hstep
  dsimp only at hstep
  split at hstep
  case h_2 => cases hstep
  case h_1 before done hphase =>
  split at hstep
  case isTrue => cases hstep
  case isFalse hc =>
  cases hstep
  have hframe := WriterStep.of_store w i c (.storing before (insert c done))
  refine ⟨hframe, fun _ => by simp [Kept], ?_⟩
  intro _ _ hsound
  refine hsound.goes hframe (by simp [World.goes, World.store]) Or.inl ?_
  have hstanding := hsound.standing
  unfold Standing at hstanding ⊢
  rw [World.goes_phase]
  simp only [hphase] at hstanding ⊢
  refine ⟨hframe.since.mpr hstanding.1, ?_⟩
  intro hquiet
  exact Finset.insert_subset_insert c (hstanding.2 (hframe.quiet.mp hquiet))

theorem prepare_own {i : ι} (hstep : w.writerStep cfg (.prepare i) = some w') :
    OwnStep cfg w w' (.prepare i) i := by
  unfold World.writerStep at hstep
  dsimp only at hstep
  split at hstep
  case h_2 => cases hstep
  case h_1 before done hphase =>
  split at hstep
  case isFalse => cases hstep
  case isTrue hdone =>
  cases hstep
  have hframe : WriterStep w
      ({ w with outbox := insert i w.outbox }.goes i (.prepared before)) i :=
    { WriterStep.of_goes w i (.prepared before) with
      outbox := fun j _ hj => Finset.mem_insert_of_mem hj }
  refine ⟨hframe, fun _ => by simp [Kept], ?_⟩
  intro _ _ hsound
  refine hsound.goes hframe (by simp) (fun _ => Or.inl (Finset.mem_insert_self i _)) ?_
  have hstanding := hsound.standing
  unfold Standing at hstanding ⊢
  rw [World.goes_phase]
  simp only [hphase] at hstanding ⊢
  refine ⟨hframe.since.mpr hstanding.1, ?_, Finset.mem_insert_self i _⟩
  intro hquiet
  exact hdone.trans (hstanding.2 (hframe.quiet.mp hquiet))

theorem readAfter_own {i : ι} {stale : Bool}
    (hstep : w.writerStep cfg (.readAfter i stale) = some w') :
    OwnStep cfg w w' (.readAfter i stale) i := by
  unfold World.writerStep at hstep
  dsimp only at hstep
  split at hstep
  case h_2 => cases hstep
  case h_1 before hphase =>
  split at hstep
  case isTrue => cases hstep
  case isFalse hstale =>
  split at hstep
  case isTrue =>
    split at hstep
    case isTrue =>
      cases hstep
      have hframe := WriterStep.of_goes w i (.waiting before w.batches)
      refine ⟨hframe, fun _ => by simp [Kept], ?_⟩
      intro _ _ hsound
      refine hsound.goes hframe (by simp) Or.inl ?_
      have hstanding := hsound.standing
      unfold Standing at hstanding ⊢
      rw [World.goes_phase]
      simp only [hphase] at hstanding ⊢
      exact ⟨hframe.since.mpr hstanding.1, hstanding.2.2, fun _ _ _ => rfl⟩
    case isFalse hbatch =>
      cases hstep
      have hframe := WriterStep.of_goes w i (.restoring before (cfg.names i) ∅)
      refine ⟨hframe, fun _ => by simp [Kept], ?_⟩
      intro hshared _ hsound
      refine hsound.goes hframe (by simp) Or.inl ?_
      have hstanding := hsound.standing
      unfold Standing at hstanding ⊢
      rw [World.goes_phase]
      simp only [hphase] at hstanding ⊢
      refine ⟨hframe.since.mpr hstanding.1, hstanding.2.2, ?_⟩
      intro c hc
      have hidle : w.sweep.inBatch = false := by simpa [hshared] using hbatch
      exact ⟨Sweep.not_threatens hidle c, Or.inl hc⟩
  case isFalse hoverlap =>
    cases hstep
    have hframe := WriterStep.of_goes w i (.restoring before ∅ ∅)
    refine ⟨hframe, fun _ => by simp [Kept], ?_⟩
    intro _ _ hsound
    refine hsound.goes hframe (by simp) Or.inl ?_
    have hstanding := hsound.standing
    unfold Standing at hstanding ⊢
    rw [World.goes_phase]
    simp only [hphase] at hstanding ⊢
    have hquiet : Quiet w before := by
      simp only [sweepMayOverlap, World.sweepState, Bool.or_eq_true, not_or,
        Bool.not_eq_true] at hoverlap
      exact ⟨hoverlap.1.1, not_not.mp (of_decide_eq_false hoverlap.2)⟩
    have hended := hstanding.1.2 hquiet
    refine ⟨hframe.since.mpr hstanding.1, hstanding.2.2, ?_⟩
    intro c hc
    refine ⟨?_, Or.inr (Or.inr (hstanding.2.1 hquiet hc))⟩
    rw [hframe.sweep, hended]
    exact id

theorem waited_own {i : ι} (hstep : w.writerStep cfg (.waited i) = some w') :
    OwnStep cfg w w' (.waited i) i := by
  unfold World.writerStep at hstep
  dsimp only at hstep
  split at hstep
  case h_2 => cases hstep
  case h_1 before batch hphase =>
  split at hstep
  case isTrue => cases hstep
  case isFalse hbatch =>
  cases hstep
  have hframe := WriterStep.of_goes w i (.restoring before (cfg.names i) ∅)
  refine ⟨hframe, fun _ => by simp [Kept], ?_⟩
  intro _ _ hsound
  refine hsound.goes hframe (by simp) Or.inl ?_
  have hstanding := hsound.standing
  unfold Standing at hstanding ⊢
  rw [World.goes_phase]
  simp only [hphase] at hstanding ⊢
  refine ⟨hframe.since.mpr hstanding.1, hstanding.2.1, ?_⟩
  intro c hc
  exact ⟨fun hthreatens => hbatch (hstanding.2.2 c hc hthreatens), Or.inl hc⟩

section

omit [DecidableEq ι]

variable {held : κ → Prop} {c d : κ} {rest missing : Finset κ}

/-- A chunk that is found need not be looked for. -/
theorem place_found (hc : held c) (h : d ∈ rest ∨ d ∈ missing ∨ held d) :
    d ∈ rest.erase c ∨ d ∈ missing ∨ held d := by
  by_cases heq : d = c
  · exact Or.inr (Or.inr (heq ▸ hc))
  · exact h.imp_left (Finset.mem_erase_of_ne_of_mem heq)

theorem place_missing (h : d ∈ rest ∨ d ∈ missing ∨ held d) :
    d ∈ rest.erase c ∨ d ∈ insert c missing ∨ held d := by
  by_cases heq : d = c
  · exact Or.inr (Or.inl (heq ▸ Finset.mem_insert_self d missing))
  · exact h.imp (Finset.mem_erase_of_ne_of_mem heq)
      (Or.imp_left (fun hmissing => Finset.mem_insert_of_mem hmissing))

theorem place_stored (hc : held c) (h : d ∈ rest ∨ d ∈ missing ∨ held d) :
    d ∈ rest ∨ d ∈ missing.erase c ∨ held d := by
  by_cases heq : d = c
  · exact Or.inr (Or.inr (heq ▸ hc))
  · exact h.imp_right (Or.imp_left (Finset.mem_erase_of_ne_of_mem heq))

end

omit [DecidableEq ι] in
/-- A writer goes from looking after its chunks one way to another. -/
theorem restoring_own {i : ι} {rest missing rest' missing' : Finset κ}
    (hphase : (w.writers i).phase = .restoring before rest missing)
    (hphase' : (w'.writers i).phase = .restoring before rest' missing')
    (hcovered : (w'.writers i).covered = (w.writers i).covered) (houtbox : w'.outbox = w.outbox)
    (hframe : WriterStep w w' i)
    (hplace : ∀ c, c ∈ rest ∨ c ∈ missing ∨ c ∈ w.stored → c ∈ rest' ∨ c ∈ missing' ∨ c ∈ w'.stored)
    : OwnStep cfg w w' label i := by
  refine ⟨hframe, fun _ => by simp only [Kept, hphase'], ?_⟩
  intro _ _ hsound
  refine hsound.goes hframe hcovered (fun h => Or.inl (houtbox ▸ h)) ?_
  have hstanding := hsound.standing
  unfold Standing at hstanding ⊢
  simp only [hphase] at hstanding
  simp only [hphase']
  rw [hframe.since, hframe.sweep, houtbox]
  refine ⟨hstanding.1, hstanding.2.1, ?_⟩
  intro c hc
  exact ⟨(hstanding.2.2 c hc).1, hplace c (hstanding.2.2 c hc).2⟩

omit [DecidableEq ι] in
theorem landed_own {i : ι} {rest missing rest' missing' : Finset κ}
    (hphase : (w.writers i).phase = .landed rest missing)
    (hphase' : (w'.writers i).phase = .landed rest' missing')
    (hcovered : (w'.writers i).covered = (w.writers i).covered) (houtbox : w'.outbox = w.outbox)
    (hframe : WriterStep w w' i)
    (hplace : ∀ c, c ∈ rest ∨ c ∈ missing ∨ Safe w c → c ∈ rest' ∨ c ∈ missing' ∨ Safe w' c) :
    OwnStep cfg w w' label i := by
  refine ⟨hframe, ?_, ?_⟩
  · intro h
    unfold Kept at h ⊢
    simp only [hphase] at h
    simp only [hphase']
    exact ⟨h.1.trans hframe.log, fun c hc => hplace c (h.2 c hc)⟩
  intro _ _ hsound
  refine hsound.goes hframe hcovered (fun h => Or.inl (houtbox ▸ h)) ?_
  have hstanding := hsound.standing
  unfold Standing at hstanding ⊢
  simp only [hphase] at hstanding
  simp only [hphase']
  exact ⟨hcovered.trans hstanding.1, hstanding.2.trans hframe.log⟩

theorem look_own {i : ι} {c : κ} (hstep : w.writerStep cfg (.look i c) = some w') :
    OwnStep cfg w w' (.look i c) i := by
  unfold World.writerStep at hstep
  dsimp only at hstep
  split at hstep
  case h_1 before rest missing hphase =>
    split at hstep
    case isTrue => cases hstep
    case isFalse =>
    split at hstep
    case isTrue hstored =>
      cases hstep
      exact restoring_own hphase (w.goes_phase i _) (by simp) rfl (.of_goes w i _)
        (fun d => place_found hstored)
    case isFalse =>
      cases hstep
      exact restoring_own hphase (w.goes_phase i _) (by simp) rfl (.of_goes w i _)
        (fun d => place_missing)
  case h_2 rest missing hphase =>
    split at hstep
    case isTrue => cases hstep
    case isFalse =>
    split at hstep
    case isTrue hstored =>
      cases hstep
      exact landed_own hphase (w.goes_phase i _) (by simp) rfl (.of_goes w i _)
        (fun d => place_found (Or.inl hstored))
    case isFalse =>
      cases hstep
      exact landed_own hphase (w.goes_phase i _) (by simp) rfl (.of_goes w i _)
        (fun d => place_missing)
  case h_3 => cases hstep

theorem storeAgain_own {i : ι} {c : κ}
    (hstep : w.writerStep cfg (.storeAgain i c) = some w') :
    OwnStep cfg w w' (.storeAgain i c) i := by
  unfold World.writerStep at hstep
  dsimp only at hstep
  split at hstep
  case h_1 before rest missing hphase =>
    split at hstep
    case isTrue => cases hstep
    case isFalse =>
    cases hstep
    have hframe := WriterStep.of_store w i c (.restoring before rest (missing.erase c))
    refine restoring_own hphase ((w.store c).goes_phase i _) (by simp [World.store]) rfl hframe ?_
    intro d hd
    exact place_stored (Finset.mem_insert_self c w.stored)
      (hd.imp_right (Or.imp_right (fun h => hframe.stored h)))
  case h_2 rest missing hphase =>
    split at hstep
    case isTrue => cases hstep
    case isFalse =>
    cases hstep
    have hframe := WriterStep.of_store w i c (.landed rest (missing.erase c))
    refine landed_own hphase ((w.store c).goes_phase i _) (by simp [World.store]) rfl hframe ?_
    intro d hd
    exact place_stored (Or.inl (Finset.mem_insert_self c w.stored))
      (hd.imp_right (Or.imp_right hframe.safe))
  case h_3 => cases hstep

theorem pass_own {i : ι} (hstep : w.writerStep cfg (.pass i) = some w') :
    OwnStep cfg w w' (.pass i) i := by
  unfold World.writerStep at hstep
  dsimp only at hstep
  split at hstep
  case h_2 => cases hstep
  case h_1 before rest missing hphase =>
  split at hstep
  case isFalse => cases hstep
  case isTrue hdone =>
  obtain ⟨hrest, hmissing⟩ := hdone
  cases hrest
  cases hmissing
  cases hstep
  have hframe : WriterStep w
      { w with writers := Function.update w.writers i ⟨.ready before, true⟩ } i :=
    { WriterStep.of_goes w i (.ready before) with
      writers := fun j hne => Function.update_of_ne hne _ _ }
  refine ⟨hframe, fun _ => by simp [Kept], ?_⟩
  intro _ _ hsound
  have hstanding := hsound.standing
  unfold Standing at hstanding
  simp only [hphase] at hstanding
  refine ⟨?_, ?_, fun _ => Or.inl hstanding.2.1⟩
  · simp only [Standing, Function.update_self]
    exact ⟨hframe.since.mpr hstanding.1, trivial⟩
  · intro _ c hc
    obtain ⟨hthreatens, hplace⟩ := hstanding.2.2 c hc
    exact ⟨by simpa using hplace, hthreatens⟩

theorem seqGap_own {i : ι} (hstep : w.writerStep cfg (.seqGap i) = some w') :
    OwnStep cfg w w' (.seqGap i) i := by
  unfold World.writerStep at hstep
  dsimp only at hstep
  split at hstep
  case h_2 => cases hstep
  case h_1 before hphase =>
  cases hstep
  have hframe := WriterStep.of_goes w i (.storing before (cfg.names i))
  refine ⟨hframe, fun _ => by simp [Kept], ?_⟩
  intro _ _ hsound
  refine hsound.goes hframe (by simp) Or.inl ?_
  have hstanding := hsound.standing
  unfold Standing at hstanding ⊢
  rw [World.goes_phase]
  simp only [hphase] at hstanding ⊢
  refine ⟨hframe.since.mpr hstanding.1, ?_⟩
  intro _ c hc
  exact (hsound.guarded hstanding.2 c hc).1

theorem append_own {i : ι} (hstep : w.writerStep cfg (.append i) = some w') :
    OwnStep cfg w w' (.append i) i := by
  unfold World.writerStep at hstep
  dsimp only at hstep
  split at hstep
  case h_2 => cases hstep
  case h_1 before hphase =>
  cases hstep
  have hframe : WriterStep w
      ({ w with log := w.log ∪ cfg.names i }.goes i (.landed (cfg.names i) ∅)) i :=
    { WriterStep.of_goes w i (.landed (cfg.names i) ∅) with
      log := Finset.subset_union_left }
  have hlog : cfg.names i ⊆
      ({ w with log := w.log ∪ cfg.names i }.goes i (.landed (cfg.names i) ∅)).log :=
    Finset.subset_union_right
  refine ⟨hframe, ?_, ?_⟩
  · intro _
    simp only [Kept, World.goes_phase]
    exact ⟨hlog, fun c hc => Or.inl hc⟩
  intro _ _ hsound
  refine hsound.goes hframe (by simp) Or.inl ?_
  have hstanding := hsound.standing
  unfold Standing at hstanding ⊢
  rw [World.goes_phase]
  simp only [hphase] at hstanding ⊢
  exact ⟨by simpa using hstanding.2, hlog⟩

theorem settle_own {i : ι} (hstep : w.writerStep cfg (.settle i) = some w') :
    OwnStep cfg w w' (.settle i) i := by
  unfold World.writerStep at hstep
  dsimp only at hstep
  split at hstep
  case h_2 => cases hstep
  case h_1 rest missing hphase =>
  split at hstep
  case isFalse => cases hstep
  case isTrue hdone =>
  obtain ⟨hrest, hmissing⟩ := hdone
  cases hrest
  cases hmissing
  cases hstep
  have hframe : WriterStep w
      ({ w with outbox := w.outbox.erase i }.goes i .settled) i :=
    { WriterStep.of_goes w i .settled with
      outbox := fun j hne hj => Finset.mem_erase_of_ne_of_mem hne hj }
  refine ⟨hframe, ?_, ?_⟩
  · intro h
    unfold Kept at h ⊢
    simp only [hphase] at h
    simp only [World.goes_phase]
    refine ⟨h.1, ?_⟩
    intro c hc
    apply hframe.safe
    simpa using h.2 c hc
  intro _ hunsplit hsound
  have hstanding := hsound.standing
  unfold Standing at hstanding
  simp only [hphase] at hstanding
  -- a check that has read the log asks the outbox too late for this entry
  have hlogged : Logged w (cfg.names i) := by
    refine ⟨hstanding.2, ?_⟩
    intro batch found hsweep c hc hbatch
    have hfound : cfg.names i ∩ batch ⊆ found := by
      simpa [Unsplit, splitCheck, hsweep] using hunsplit
    exact hfound (Finset.mem_inter.mpr ⟨hc, hbatch⟩)
  refine hsound.goes hframe (by simp) (fun _ => Or.inr (hframe.logged hlogged)) ?_
  simp only [Standing, World.goes_phase, World.goes_covered]
  exact ⟨hstanding.1, hframe.logged hlogged⟩

/-- **What a step of a writer does**, for the one whose step it is. -/
theorem writerStep_own (hstep : w.writerStep cfg label = some w') :
    ∃ i, OwnStep cfg w w' label i := by
  cases label with
  | readBefore i stale => exact ⟨i, readBefore_own hstep⟩
  | store i c => exact ⟨i, store_own hstep⟩
  | prepare i => exact ⟨i, prepare_own hstep⟩
  | readAfter i stale => exact ⟨i, readAfter_own hstep⟩
  | waited i => exact ⟨i, waited_own hstep⟩
  | look i c => exact ⟨i, look_own hstep⟩
  | storeAgain i c => exact ⟨i, storeAgain_own hstep⟩
  | pass i => exact ⟨i, pass_own hstep⟩
  | seqGap i => exact ⟨i, seqGap_own hstep⟩
  | append i => exact ⟨i, append_own hstep⟩
  | settle i => exact ⟨i, settle_own hstep⟩
  | _ => cases hstep

end ChunkSweep

end Swamp
