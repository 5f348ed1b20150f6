import Mathlib.Logic.Function.Basic
import Swamp.FileLock

/-!
# Who may touch the lock file

Once another instance has created the file, a rewrite finds a nonce that is not
its own and gives the lock up.  A release looks at no file: it removes what it
finds whenever the instance still takes itself for the holder, so it leaves the
file of a new holder alone exactly as long as its instance has noticed the loss.
-/

namespace Swamp

namespace FileLock

/-- Whether an instance is between an ownership check and the file operation
that follows it. -/
def Inst.Checked (inst : Inst) : Prop :=
  (∃ seen, inst.stage = some (.deciding seen)) ∨
    (∃ info next, inst.stage = some (.replacing info next)) ∨ 0 < inst.removing

/-- No other instance creates the file between an ownership check and the file
operation that follows it. -/
def Undivided (w : World) : Label → Prop
  | .create i _ => ∀ j, j ≠ i → ¬ (w.insts j).Checked
  | _ => True

/-- A release that finds the lock held finds it held by its own instance still,
and no acquisition ends behind a release that was called meanwhile. -/
def Noticed (w : World) : Label → Prop
  | .begin i =>
    (w.insts i).queue.head? = some .release → (w.insts i).held = true →
      w.lastCreator = some i
  | .hold i _ => (w.insts i).releasing = false
  | _ => True

/-- The states reached from a path without a file, by steps that meet a
condition. -/
inductive Run (cfg : ℕ → Settings) (ok : World → Label → Prop) : World → Prop
  | initial : Run cfg ok .initial
  | step {w w' : World} {label : Label} (hrun : Run cfg ok w) (hok : ok w label)
      (hstep : w.step cfg label = some w') : Run cfg ok w'

/-- The nonce an acquisition is to write is of its instance, and so is the file
it has created. -/
def Acquiring.Ok (file : Option LockFile) (fresh i : ℕ) : Acquiring → Prop
  | .create nonce _ => nonce.issuer = i
  | .write nonce inode =>
    nonce.issuer = i ∧ inode < fresh ∧ ∀ f, file = some f → f.inode = inode → f.owner = i
  | .cleanUp => True
  | .hold nonce => nonce.issuer = i
  | .judge nonce _ => nonce.issuer = i
  | .stat nonce _ => nonce.issuer = i
  | .clear nonce _ => nonce.issuer = i

/-- A rewrite that has seen its own nonce is of the last instance to create the
file. -/
def Stage.Ok (lastCreator : Option ℕ) (i : ℕ) : Stage → Prop
  | .reading => True
  | .deciding seen => ∀ nonce, seen = some nonce → nonce.issuer = i → lastCreator = some i
  | .replacing info next =>
    lastCreator = some i ∧ info.nonce.issuer = i ∧ ∀ nonce, next = some nonce → nonce.issuer = i
  | .kept next => ∀ nonce, next = some nonce → nonce.issuer = i
  | .cleaning => False

structure Inst.Ok (file : Option LockFile) (lastCreator : Option ℕ) (fresh i : ℕ) (inst : Inst) :
    Prop where
  nonce : ∀ nonce, inst.nonce = some nonce → nonce.issuer = i
  named : inst.held = true → inst.nonce.isSome = true
  acquiring : ∀ a ∈ inst.acquiring, a.Ok file fresh i
  stage : ∀ stage, inst.stage = some stage → stage.Ok lastCreator i
  busy : inst.stage.isSome = true →
    inst.held = true ∧ ∃ job rest, inst.queue = job :: rest ∧ job ≠ .release
  removing : 0 < inst.removing → lastCreator = some i
  releasing : inst.held = true → inst.releasing = true → .release ∈ inst.queue

/-- A file is of the last instance to create it, and so is the nonce it holds. -/
def World.FileOk (w : World) : Prop :=
  ∀ f, w.file = some f → w.lastCreator = some f.owner ∧ f.inode < w.fresh ∧
    ∀ info, f.info = some info → info.nonce.issuer = f.owner

structure Inv (w : World) : Prop where
  file : w.FileOk
  insts : ∀ i, (w.insts i).Ok w.file w.lastCreator w.fresh i

/-- The file there is new, or was there. -/
def SameFile (w w' : World) : Prop :=
  ∀ f', w'.file = some f' → w.fresh ≤ f'.inode ∨
    ∃ f, w.file = some f ∧ f.inode = f'.inode ∧ f.owner = f'.owner

variable {w w' : World}

theorem SameFile.of_eq (h : w'.file = w.file) : SameFile w w' :=
  fun f' hf' => .inr ⟨f', h ▸ hf', rfl, rfl⟩

theorem SameFile.of_none (h : w'.file = none) : SameFile w w' := by
  intro f' hf'
  rw [h] at hf'
  cases hf'

theorem SameFile.of_new {f : LockFile} (h : w'.file = some f) (hinode : w.fresh ≤ f.inode) :
    SameFile w w' := by
  intro f' hf'
  rw [h] at hf'
  cases hf'
  exact .inl hinode

variable {i : ℕ}

theorem Acquiring.Ok.mono {a : Acquiring} (h : a.Ok w.file w.fresh i) (hfresh : w.fresh ≤ w'.fresh)
    (hfile : SameFile w w') : a.Ok w'.file w'.fresh i := by
  cases a with
  | write nonce inode =>
    obtain ⟨hissuer, hlt, howner⟩ := h
    refine ⟨hissuer, Nat.lt_of_lt_of_le hlt hfresh, ?_⟩
    intro f' hf' hinode
    rcases hfile f' hf' with hnew | ⟨f, hf, hsame, hown⟩
    · omega
    · rw [← hown]
      exact howner f hf (hsame.trans hinode)
  | create nonce tries | hold nonce | judge nonce tries | stat nonce tries | clear nonce tries =>
    exact h
  | cleanUp => trivial

variable {inst : Inst}

/-- An instance a step does not concern keeps its part. -/
theorem Inst.Ok.mono (w' : World) (h : inst.Ok w.file w.lastCreator w.fresh i)
    (hlast : w'.lastCreator = w.lastCreator) (hfresh : w.fresh ≤ w'.fresh) (hfile : SameFile w w') :
    inst.Ok w'.file w'.lastCreator w'.fresh i where
  nonce := h.nonce
  named := h.named
  acquiring := fun a ha => (h.acquiring a ha).mono hfresh hfile
  stage := hlast ▸ h.stage
  busy := h.busy
  removing := hlast ▸ h.removing
  releasing := h.releasing

theorem Inv.next (h : Inv w) (hinsts : w'.insts = Function.update w.insts i inst)
    (hlast : w'.lastCreator = w.lastCreator) (hfresh : w.fresh ≤ w'.fresh) (hfile : SameFile w w')
    (hok : w'.FileOk) (hinst : inst.Ok w'.file w'.lastCreator w'.fresh i) : Inv w' := by
  refine ⟨hok, ?_⟩
  intro j
  rw [hinsts]
  by_cases hj : j = i
  · rw [hj, Function.update_self]
    exact hinst
  · rw [Function.update_of_ne hj]
    exact (h.insts j).mono w' hlast hfresh hfile

theorem Inv.setInst (h : Inv w) (hinst : inst.Ok w.file w.lastCreator w.fresh i) :
    Inv (w.setInst i inst) :=
  h.next rfl rfl (Nat.le_refl _) (SameFile.of_eq rfl) h.file hinst

theorem fileOk_of_none (h : w.file = none) : w.FileOk := by
  intro f hf
  rw [h] at hf
  cases hf

/-- Removing the file keeps the invariant. -/
theorem Inv.removeFile (h : Inv w) (ok : Bool) :
    Inv { w with file := if ok then none else w.file } := by
  cases ok with
  | false => exact h
  | true =>
    exact ⟨fileOk_of_none rfl, fun i =>
      (h.insts i).mono { w with file := none } rfl (Nat.le_refl _) (SameFile.of_none rfl)⟩

variable {file : Option LockFile} {lastCreator : Option ℕ} {fresh : ℕ}

/-- An acquisition goes on with what keeps its part. -/
theorem Inst.Ok.goOn (h : inst.Ok file lastCreator fresh i) (k : ℕ) (next : Option Acquiring)
    (hnext : ∀ a, next = some a → a.Ok file fresh i) :
    (inst.goOn k next).Ok file lastCreator fresh i where
  nonce := h.nonce
  named := h.named
  acquiring := by
    intro a ha
    cases next with
    | some b =>
      rcases List.mem_or_eq_of_mem_set ha with ha | rfl
      · exact h.acquiring a ha
      · exact hnext a rfl
    | none => exact h.acquiring a (List.mem_of_mem_eraseIdx ha)
  stage := h.stage
  busy := h.busy
  removing := h.removing
  releasing := h.releasing

theorem Inv.setAcquiring (h : Inv w) (i k : ℕ) (next : Option Acquiring)
    (hnext : ∀ a, next = some a → a.Ok w.file w.fresh i) : Inv (w.setAcquiring i k next) :=
  h.setInst ((h.insts i).goOn k next hnext)

theorem startAcquire_inv (h : Inv w) (i : ℕ) (tries : Tries) : Inv (w.startAcquire i tries) := by
  have hi := h.insts i
  refine h.next rfl rfl (Nat.le_succ _) (SameFile.of_eq rfl) ?_ ?_
  · intro f hf
    obtain ⟨hlast, hinode, hinfo⟩ := h.file f hf
    exact ⟨hlast, Nat.lt_succ_of_lt hinode, hinfo⟩
  · have hmono : Inst.Ok w.file w.lastCreator (w.fresh + 1) i (w.insts i) :=
      hi.mono { w with fresh := w.fresh + 1 } rfl (Nat.le_succ _) (SameFile.of_eq rfl)
    exact {
      nonce := hi.nonce
      named := hi.named
      acquiring := by
        intro a ha
        rcases List.mem_append.mp ha with ha | ha
        · exact hmono.acquiring a ha
        · rw [List.mem_singleton.mp ha]
          exact rfl
      stage := hi.stage
      busy := hi.busy
      removing := hi.removing
      releasing := nofun }

theorem Inst.Ok.creator (h : inst.Ok file lastCreator fresh i) : inst.Ok file (some i) fresh i where
  nonce := h.nonce
  named := h.named
  acquiring := h.acquiring
  stage := by
    intro stage hstage
    have hok := h.stage stage hstage
    cases stage with
    | reading => trivial
    | deciding seen => exact fun _ _ _ => rfl
    | replacing info next => exact ⟨rfl, hok.2⟩
    | kept next | cleaning => exact hok
  busy := h.busy
  removing := fun _ => rfl
  releasing := h.releasing

theorem Inst.Ok.lost (h : inst.Ok file lastCreator fresh i) (hchecked : ¬ inst.Checked)
    (other : Option ℕ) : inst.Ok file other fresh i where
  nonce := h.nonce
  named := h.named
  acquiring := h.acquiring
  stage := by
    intro stage hstage
    have hok := h.stage stage hstage
    cases stage with
    | reading => trivial
    | deciding seen => exact absurd (.inl ⟨seen, hstage⟩) hchecked
    | replacing info next => exact absurd (.inr (.inl ⟨info, next, hstage⟩)) hchecked
    | kept next | cleaning => exact hok
  busy := h.busy
  removing := fun hremoving => absurd (.inr (.inr hremoving)) hchecked
  releasing := h.releasing

variable {k : ℕ}

theorem create_inv (h : Inv w) (hundivided : Undivided w (.create i k))
    (hstep : w.create i k = some w') : Inv w' := by
  unfold World.create at hstep
  split at hstep
  · rename_i nonce tries hget
    have hissuer := (h.insts i).acquiring _ (List.mem_of_getElem? hget)
    split at hstep
    · rename_i hfile
      cases hstep
      refine ⟨?_, ?_⟩
      · intro f hf
        cases hf
        exact ⟨rfl, Nat.lt_succ_self _, nofun⟩
      · intro j
        have hmono := (h.insts j).mono
          { w with file := some ⟨i, w.fresh, none, w.now⟩, fresh := w.fresh + 1 } rfl
          (Nat.le_succ _) (SameFile.of_new rfl (Nat.le_refl _))
        by_cases hj : j = i
        · subst hj
          have hwrite : (Acquiring.write nonce w.fresh).Ok
              (some ⟨j, w.fresh, none, w.now⟩) (w.fresh + 1) j := by
            refine ⟨hissuer, Nat.lt_succ_self _, ?_⟩
            intro f hf _
            cases hf
            rfl
          have hgoOn := hmono.creator.goOn k _ (fun a ha => Option.some.inj ha ▸ hwrite)
          show (Function.update w.insts j _ j).Ok _ _ _ j
          rw [Function.update_self]
          exact hgoOn
        · show (Function.update w.insts i _ j).Ok _ _ _ j
          rw [Function.update_of_ne hj]
          exact hmono.lost (hundivided j hj) (some i)
    · cases hstep
      apply h.setAcquiring i k _
      intro a ha
      split at ha
      · cases ha
      · cases ha
        exact hissuer
  · cases hstep

variable {cfg : ℕ → Settings} {ok : Bool}

theorem write_inv (h : Inv w) (hstep : w.write cfg i k ok = some w') : Inv w' := by
  unfold World.write at hstep
  split at hstep
  · rename_i nonce inode hget
    obtain ⟨hissuer, hinode, howner⟩ := (h.insts i).acquiring _ (List.mem_of_getElem? hget)
    split at hstep
    · cases hstep
      have hnext := h.setAcquiring i k _ (fun a ha => Option.some.inj ha ▸
        (show (Acquiring.hold nonce).Ok w.file w.fresh i from hissuer))
      have hsame : ∀ f', (w.file.map (fun f => if f.inode = inode then
          { f with info := some (buildLockInfo (cfg i) w.now nonce []), mtime := w.now } else f)) =
            some f' → ∃ f, w.file = some f ∧ f.inode = f'.inode ∧ f.owner = f'.owner ∧
              (f'.info = f.info ∨
                (f.inode = inode ∧ f'.info = some (buildLockInfo (cfg i) w.now nonce []))) := by
        intro f' hf'
        obtain ⟨f, hf, rfl⟩ := Option.map_eq_some_iff.mp hf'
        refine ⟨f, hf, ?_⟩
        by_cases hin : f.inode = inode
        · rw [if_pos hin]
          exact ⟨rfl, rfl, .inr ⟨hin, rfl⟩⟩
        · rw [if_neg hin]
          exact ⟨rfl, rfl, .inl rfl⟩
      refine ⟨?_, ?_⟩
      · intro f' hf'
        obtain ⟨f, hf, hin, hown, hinfo⟩ := hsame f' hf'
        obtain ⟨hlast, hlt, hissued⟩ := h.file f hf
        refine ⟨hown ▸ hlast, hin ▸ hlt, ?_⟩
        intro info hinfo'
        rcases hinfo with hold | ⟨hmine, hnew⟩
        · rw [← hown]
          exact hissued info (hold ▸ hinfo')
        · rw [← hown, howner f hf hmine]
          rw [hnew] at hinfo'
          cases hinfo'
          exact hissuer
      · intro j
        refine (hnext.insts j).mono _ rfl (Nat.le_refl _) ?_
        intro f' hf'
        obtain ⟨f, hf, hin, hown, -⟩ := hsame f' hf'
        exact .inr ⟨f, hf, hin, hown⟩
    · cases hstep
      exact h.setAcquiring i k _ (fun a ha => Option.some.inj ha ▸ trivial)
  · cases hstep

theorem cleanUp_inv (h : Inv w) (hstep : w.cleanUp i k ok = some w') : Inv w' := by
  unfold World.cleanUp at hstep
  split at hstep
  · cases hstep
    exact (h.setAcquiring i k none nofun).removeFile ok
  · cases hstep

theorem hold_inv (h : Inv w) (hnoticed : Noticed w (.hold i k)) (hstep : w.hold i k = some w') :
    Inv w' := by
  unfold World.hold at hstep
  split at hstep
  · rename_i nonce hget
    have hissuer := (h.insts i).acquiring _ (List.mem_of_getElem? hget)
    have hgoOn := h.setAcquiring i k none nofun
    have hinst : (w.setAcquiring i k none).insts i = (w.insts i).goOn k none :=
      Function.update_self i _ _
    cases hstep
    apply hgoOn.setInst
    rw [hinst]
    have hi := (h.insts i).goOn k none nofun
    exact {
      nonce := fun n hn => Option.some.inj hn ▸ hissuer
      named := fun _ => rfl
      acquiring := hi.acquiring
      stage := hi.stage
      busy := fun hbusy => ⟨rfl, (hi.busy hbusy).2⟩
      removing := hi.removing
      releasing := fun _ hreleasing => absurd hreleasing (hnoticed ▸ Bool.false_ne_true) }
  · cases hstep

/-- What waits is to create the file under the same nonce. -/
theorem waits_ok {nonce : Nonce} {tries : Tries} (hissuer : nonce.issuer = i) {a : Acquiring}
    (h : tries.waits nonce = some a) : a.Ok w.file w.fresh i := by
  cases tries with
  | first => cases h
  | unbounded | last =>
    cases h
    exact hissuer

theorem judge_inv {gone : Bool} (h : Inv w) (hstep : w.judge cfg i k gone = some w') : Inv w' := by
  unfold World.judge at hstep
  split at hstep
  · rename_i nonce tries hget
    have hissuer : nonce.issuer = i := (h.insts i).acquiring _ (List.mem_of_getElem? hget)
    cases hstep
    apply h.setAcquiring i k _
    intro a ha
    split at ha
    · split at ha
      · cases ha
        exact hissuer
      · exact waits_ok hissuer ha
    · cases ha
      exact hissuer
  · cases hstep

theorem stat_inv (h : Inv w) (hstep : w.stat cfg i k = some w') : Inv w' := by
  unfold World.stat at hstep
  split at hstep
  · rename_i nonce tries hget
    have hissuer : nonce.issuer = i := (h.insts i).acquiring _ (List.mem_of_getElem? hget)
    cases hstep
    apply h.setAcquiring i k _
    intro a ha
    split at ha
    · cases ha
      exact hissuer
    · split at ha
      · exact waits_ok hissuer ha
      · cases ha
        exact hissuer
  · cases hstep

theorem clear_inv (h : Inv w) (hstep : w.clear i k ok = some w') : Inv w' := by
  unfold World.clear at hstep
  split at hstep
  · rename_i nonce tries hget
    have hissuer : nonce.issuer = i := (h.insts i).acquiring _ (List.mem_of_getElem? hget)
    cases hstep
    exact (h.setAcquiring i k _ (fun a ha => Option.some.inj ha ▸
      (show (Acquiring.create nonce tries).Ok w.file w.fresh i from hissuer))).removeFile ok
  · cases hstep

theorem giveUp_inv (h : Inv w) (hstep : w.giveUp i k = some w') : Inv w' := by
  unfold World.giveUp at hstep
  split at hstep
  · cases hstep
    exact h.setAcquiring i k none nofun
  · cases hstep

/-- A call that joins the queue. -/
theorem Inst.Ok.enqueue (h : inst.Ok file lastCreator fresh i) (job : Job) :
    Inst.Ok file lastCreator fresh i { inst with queue := inst.queue ++ [job] } where
  nonce := h.nonce
  named := h.named
  acquiring := h.acquiring
  stage := h.stage
  busy := by
    intro hbusy
    obtain ⟨hheld, first, rest, hqueue, hfirst⟩ := h.busy hbusy
    exact ⟨hheld, first, rest ++ [job], by rw [hqueue]; rfl, hfirst⟩
  removing := h.removing
  releasing := fun hheld hreleasing => List.mem_append_left _ (h.releasing hheld hreleasing)

theorem enqueue_inv (h : Inv w) (i : ℕ) (job : Job) : Inv (w.enqueue i job) :=
  h.setInst ((h.insts i).enqueue job)

theorem callRelease_inv (h : Inv w) (i : ℕ) : Inv (w.callRelease i) := by
  have hi := (h.insts i).enqueue .release
  apply h.setInst
  exact {
    nonce := hi.nonce
    named := hi.named
    acquiring := hi.acquiring
    stage := hi.stage
    busy := hi.busy
    removing := hi.removing
    releasing := fun _ _ => List.mem_append_right _ List.mem_cons_self }

/-- The rewrite under way is over: it leaves the queue. -/
theorem Inst.Ok.pop (h : inst.Ok file lastCreator fresh i) {job : Job} {rest : List Job}
    (hqueue : inst.queue = job :: rest) (hjob : job ≠ .release) :
    Inst.Ok file lastCreator fresh i { inst with stage := none, queue := rest } where
  nonce := h.nonce
  named := h.named
  acquiring := h.acquiring
  stage := nofun
  busy := nofun
  removing := h.removing
  releasing := by
    intro hheld hreleasing
    have hmem := h.releasing hheld hreleasing
    rw [hqueue] at hmem
    exact (List.mem_cons.mp hmem).resolve_left (fun heq => hjob heq.symm)

/-- A rewrite under way goes on. -/
theorem Inst.Ok.setStage (h : inst.Ok file lastCreator fresh i) (hbusy : inst.stage.isSome = true)
    {stage : Stage} (hstage : stage.Ok lastCreator i) :
    Inst.Ok file lastCreator fresh i { inst with stage := some stage } where
  nonce := h.nonce
  named := h.named
  acquiring := h.acquiring
  stage := fun _ hother => Option.some.inj hother ▸ hstage
  busy := fun _ => h.busy hbusy
  removing := h.removing
  releasing := h.releasing

theorem start_inv (h : Inv w) (hnoticed : Noticed w (.begin i)) (hstep : w.start i = some w') :
    Inv w' := by
  have hi := h.insts i
  unfold World.start at hstep
  simp only at hstep
  split at hstep
  · rename_i rest hstage hqueue
    cases hstep
    apply h.setInst
    split
    · rename_i hheld
      exact {
        nonce := nofun
        named := nofun
        acquiring := hi.acquiring
        stage := hi.stage
        busy := fun hbusy => absurd hbusy (by simp [hstage])
        removing := fun _ => hnoticed (by rw [hqueue]; rfl) hheld
        releasing := nofun }
    · rename_i hheld
      exact {
        nonce := hi.nonce
        named := hi.named
        acquiring := hi.acquiring
        stage := hi.stage
        busy := fun hbusy => absurd hbusy (by simp [hstage])
        removing := hi.removing
        releasing := fun hheld' => absurd hheld' hheld }
  · rename_i job rest hne hstage hqueue
    cases hstep
    apply h.setInst
    split
    · have hpop := hi.pop hqueue hne
      exact {
        nonce := hi.nonce
        named := hi.named
        acquiring := hi.acquiring
        stage := hi.stage
        busy := fun hbusy => absurd hbusy (by simp [hstage])
        removing := hi.removing
        releasing := hpop.releasing }
    · rename_i hknown
      have hheld : (w.insts i).held = true := by
        simp only [Bool.or_eq_true, not_or, Bool.not_eq_true', Bool.not_eq_false] at hknown
        exact hknown.1.1
      exact {
        nonce := hi.nonce
        named := hi.named
        acquiring := hi.acquiring
        stage := fun _ hstage' => Option.some.inj hstage' ▸ trivial
        busy := fun _ => ⟨hheld, job, rest, hqueue, hne⟩
        removing := hi.removing
        releasing := hi.releasing }
  · cases hstep

theorem read_inv (h : Inv w) (hstep : w.read i = some w') : Inv w' := by
  unfold World.read at hstep
  simp only at hstep
  split at hstep
  · rename_i hstage
    cases hstep
    refine h.setInst ((h.insts i).setStage (by rw [hstage]; rfl) ?_)
    intro nonce hnonce hissuer
    obtain ⟨info, hinfo, rfl⟩ := Option.map_eq_some_iff.mp hnonce
    obtain ⟨f, hf, hfinfo⟩ := Option.bind_eq_some_iff.mp hinfo
    obtain ⟨hlast, -, hissued⟩ := h.file f hf
    rw [hlast, ← hissued info hfinfo, hissuer]
  · cases hstep

/-- An instance that has found its lock lost. -/
theorem Inst.Ok.lose (h : inst.Ok file lastCreator fresh i) (rest : List Job) :
    Inst.Ok file lastCreator fresh i
      { inst with held := false, heartbeat := false, stage := none, queue := rest } where
  nonce := h.nonce
  named := nofun
  acquiring := h.acquiring
  stage := nofun
  busy := nofun
  removing := h.removing
  releasing := nofun

theorem decide_inv (h : Inv w) (hstep : w.decide cfg i = some w') : Inv w' := by
  have hi := h.insts i
  unfold World.decide at hstep
  simp only at hstep
  split at hstep
  · rename_i seen job rest hstage hqueue
    have hbusy : (w.insts i).stage.isSome = true := by rw [hstage]; rfl
    obtain ⟨-, first, others, hfirst, hne⟩ := hi.busy hbusy
    have hjob : job ≠ .release := by
      rw [hqueue] at hfirst
      rw [(List.cons.inj hfirst).1]
      exact hne
    cases seen with
    | none =>
      cases hstep
      exact h.setInst (hi.lose rest)
    | some current =>
      simp only at hstep
      split at hstep
      · cases hstep
        exact h.setInst (hi.lose rest)
      · rename_i hcurrent
        have hissuer : current.issuer = i := hi.nonce current (not_not.mp hcurrent)
        have hlast : w.lastCreator = some i := hi.stage _ hstage current rfl hissuer
        split at hstep
        · cases hstep
          exact h.setInst (hi.pop hqueue hjob)
        · split at hstep
          · cases hstep
            refine h.next rfl rfl (Nat.le_succ _) (SameFile.of_eq rfl) ?_ ?_
            · intro f hf
              obtain ⟨hcreator, hinode, hinfo⟩ := h.file f hf
              exact ⟨hcreator, Nat.lt_succ_of_lt hinode, hinfo⟩
            · have hmono := hi.mono { w with fresh := w.fresh + 1 } rfl (Nat.le_succ _)
                (SameFile.of_eq rfl)
              exact hmono.setStage hbusy
                ⟨hlast, rfl, fun nonce hnonce => Option.some.inj hnonce ▸ rfl⟩
          · rename_i nonces
            cases hstep
            apply h.setInst
            have hok : (Stage.replacing (buildLockInfo (cfg i) w.now current
                (nonces.take MAX_LOCK_SKIPPING)) none).Ok w.lastCreator i :=
              ⟨hlast, hissuer, nofun⟩
            have hset := hi.setStage hbusy hok
            exact {
              nonce := hset.nonce
              named := hset.named
              acquiring := hset.acquiring
              stage := hset.stage
              busy := hset.busy
              removing := hset.removing
              releasing := hset.releasing }
          · cases hstep
            exact h.setInst (hi.setStage hbusy ⟨hlast, hissuer, nofun⟩)
  · cases hstep

theorem replace_inv (h : Inv w) (hstep : w.replace i ok = some w') : Inv w' := by
  have hi := h.insts i
  unfold World.replace at hstep
  simp only at hstep
  split at hstep
  · rename_i info next hstage
    have hbusy : (w.insts i).stage.isSome = true := by rw [hstage]; rfl
    obtain ⟨hlast, hissuer, hnext⟩ := hi.stage _ hstage
    split at hstep
    · cases hstep
      refine h.next rfl rfl (Nat.le_succ _) (SameFile.of_new rfl (Nat.le_refl _)) ?_ ?_
      · intro f hf
        cases hf
        exact ⟨hlast, Nat.lt_succ_self _, fun other hother => Option.some.inj hother ▸ hissuer⟩
      · have hmono := hi.mono
          { w with file := some ⟨i, w.fresh, some info, w.now⟩, fresh := w.fresh + 1 } rfl
          (Nat.le_succ _) (SameFile.of_new rfl (Nat.le_refl _))
        exact hmono.setStage hbusy hnext
    · cases hstep
      obtain ⟨-, job, rest, hqueue, hjob⟩ := hi.busy hbusy
      rw [hqueue]
      exact h.setInst (hi.pop hqueue hjob)
  · cases hstep

theorem settle_inv (h : Inv w) (hstep : w.settle i = some w') : Inv w' := by
  have hi := h.insts i
  unfold World.settle at hstep
  simp only at hstep
  split at hstep
  · rename_i next hstage
    have hbusy : (w.insts i).stage.isSome = true := by rw [hstage]; rfl
    obtain ⟨hheld, job, rest, hqueue, hjob⟩ := hi.busy hbusy
    have hpop := hi.pop hqueue hjob
    cases hstep
    rw [if_pos hheld, hqueue]
    apply h.setInst
    exact {
      nonce := by
        intro nonce hnonce
        rcases Option.or_eq_some_iff.mp hnonce with hnext | ⟨-, hown⟩
        · exact hi.stage _ hstage nonce hnext
        · exact hi.nonce nonce hown
      named := by
        intro _
        cases next with
        | none => exact hi.named hheld
        | some nonce => rfl
      acquiring := hpop.acquiring
      stage := hpop.stage
      busy := hpop.busy
      removing := hpop.removing
      releasing := hpop.releasing }
  · cases hstep

theorem clean_inv (h : Inv w) (hstep : w.clean i ok = some w') : Inv w' := by
  unfold World.clean at hstep
  simp only at hstep
  split at hstep
  · rename_i hstage
    exact absurd ((h.insts i).stage _ hstage) (fun hfalse => hfalse)
  · cases hstep

theorem remove_inv (h : Inv w) (hstep : w.remove i ok = some w') : Inv w' := by
  have hi := h.insts i
  unfold World.remove at hstep
  simp only at hstep
  split at hstep
  · cases hstep
  · rename_i n hremoving
    cases hstep
    have hset : Inv (w.setInst i { w.insts i with removing := n }) := by
      apply h.setInst
      exact {
        nonce := hi.nonce
        named := hi.named
        acquiring := hi.acquiring
        stage := hi.stage
        busy := hi.busy
        removing := fun _ => hi.removing (by omega)
        releasing := hi.releasing }
    exact hset.removeFile ok

theorem Inv.of_eq (h : Inv w) (hfile : w'.file = w.file) (hlast : w'.lastCreator = w.lastCreator)
    (hinsts : w'.insts = w.insts) (hfresh : w'.fresh = w.fresh) : Inv w' := by
  refine ⟨?_, ?_⟩
  · unfold World.FileOk
    rw [hfile, hlast, hfresh]
    exact h.file
  · intro i
    rw [hfile, hlast, hinsts, hfresh]
    exact h.insts i

theorem initial_inv : Inv .initial where
  file := fileOk_of_none rfl
  insts := fun _ => {
    nonce := nofun
    named := nofun
    acquiring := List.forall_mem_nil _
    stage := nofun
    busy := nofun
    removing := fun hremoving => absurd hremoving (Nat.lt_irrefl 0)
    releasing := nofun }

/-- **What one step keeps.** -/
theorem step_inv {label : Label} (h : Inv w) (hundivided : Undivided w label)
    (hnoticed : Noticed w label) (hstep : w.step cfg label = some w') : Inv w' := by
  cases label with
  | tick =>
    cases hstep
    exact h.of_eq rfl rfl rfl rfl
  | acquire i | tryAcquire i =>
    cases hstep
    exact startAcquire_inv h i _
  | create i k => exact create_inv h hundivided hstep
  | write i k ok => exact write_inv h hstep
  | cleanUp i k ok => exact cleanUp_inv h hstep
  | hold i k => exact hold_inv h hnoticed hstep
  | judge i k gone => exact judge_inv h hstep
  | stat i k => exact stat_inv h hstep
  | clear i k ok => exact clear_inv h hstep
  | giveUp i k => exact giveUp_inv h hstep
  | extend i =>
    rw [World.step] at hstep
    split at hstep
    · cases hstep
      exact enqueue_inv h i _
    · cases hstep
  | rekey i | publishSkipping i nonces =>
    cases hstep
    exact enqueue_inv h i _
  | release i =>
    cases hstep
    exact callRelease_inv h i
  | begin i => exact start_inv h hnoticed hstep
  | read i => exact read_inv h hstep
  | decide i => exact decide_inv h hstep
  | replace i ok => exact replace_inv h hstep
  | settle i => exact settle_inv h hstep
  | clean i ok => exact clean_inv h hstep
  | remove i ok => exact remove_inv h hstep
  | forceRead expectedNonce =>
    rw [World.step, World.forceRead] at hstep
    split at hstep
    · cases hstep
      exact h.of_eq rfl rfl rfl rfl
    · cases hstep
      exact h
  | forceRemove ok =>
    rw [World.step, World.forceRemove] at hstep
    split at hstep
    · cases hstep
    · cases hstep
      exact (h.removeFile ok).of_eq rfl rfl rfl rfl

theorem Run.inv (h : Run cfg (fun w label => Undivided w label ∧ Noticed w label) w) : Inv w := by
  induction h with
  | initial => exact initial_inv
  | step _ hok hstep ih => exact step_inv ih hok.1 hok.2 hstep

theorem Inv.owner (h : Inv w) (hlast : w.lastCreator = some i) :
    ∀ f, w.file = some f → f.owner = i := by
  intro f hf
  have howner := (h.file f hf).1
  rw [hlast] at howner
  exact (Option.some.inj howner).symm

/-- Whether each of several steps meets a condition where it is taken. -/
def World.Meets (cfg : ℕ → Settings) (ok : World → Label → Prop) : World → List Label → Prop
  | _, [] => True
  | w, label :: labels =>
    ok w label ∧ ∀ w', w.step cfg label = some w' → World.Meets cfg ok w' labels

theorem Run.steps {ok : World → Label → Prop} {labels : List Label} (h : Run cfg ok w)
    (hmeets : w.Meets cfg ok labels) (hsteps : w.steps cfg labels = some w') : Run cfg ok w' := by
  induction labels generalizing w with
  | nil =>
    cases hsteps
    exact h
  | cons label labels ih =>
    obtain ⟨hok, hrest⟩ := hmeets
    obtain ⟨v, hstep, hsteps⟩ := Option.bind_eq_some_iff.mp hsteps
    exact ih (h.step hok hstep) (hrest v hstep) hsteps

/-- One instance takes the lock and pauses past its time to live; another clears
it and takes it. -/
def takeover : List Label :=
  [.tryAcquire 0, .create 0 0, .write 0 0 true, .hold 0 0, .tick, .tick, .tick, .tick,
   .tryAcquire 1, .create 1 0, .judge 1 0 false, .clear 1 0 true, .create 1 0, .write 1 0 true,
   .hold 1 0]

theorem World.Meets.imp {ok ok' : World → Label → Prop} (himp : ∀ w label, ok w label → ok' w label)
    {labels : List Label} (h : w.Meets cfg ok labels) : w.Meets cfg ok' labels := by
  induction labels generalizing w with
  | nil => trivial
  | cons label labels ih => exact ⟨himp w label h.1, fun w' hw' => ih (h.2 w' hw')⟩

end FileLock

end Swamp
