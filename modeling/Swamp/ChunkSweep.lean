import Mathlib.Data.Finset.Basic
import Mathlib.Data.Finset.Union
import Mathlib.Logic.Function.Basic

/-!
# The chunk sweep and the writers beside it

A sweep lists the chunks of a storage and deletes, a batch at a time, the old
ones that neither the log nor the outbox names.  After its deletes it asks both
again and puts back what they name by now.  Writers store the chunks of a commit,
prepare it in the outbox, append it to the log and settle it.  Each read, write
and delete is a step of its own, and steps of the sweep and of any number of
writers interleave.

During a sweep the log's answer keeps the chunks released since the sweep's
cutoff, so it only grows.  Chunks whose bytes are damaged are left out.
-/

namespace Swamp

namespace ChunkSweep

/-- `SweepState`. -/
structure SweepState where
  epoch : ℕ
  active : Bool

/-- `sweepMayOverlap`. -/
def sweepMayOverlap (before after : SweepState) : Bool :=
  before.active || after.active || before.epoch ≠ after.epoch

/-- Where the sweep stands.  `rest` are chunks judged unreferenced that are not
read yet, `held` those that are read, and `started` those whose delete began. -/
inductive Sweep (κ : Type*) where
  | ended
  | listing (batch : Finset κ)
  | checking (batch : Finset κ)
  | checkedLog (batch found : Finset κ)
  | reading (rest held : Finset κ)
  | deleting (rest held started : Finset κ)
  | rechecking (rest started : Finset κ)
  | recheckedLog (rest started found : Finset κ)
  | puttingBack (rest names : Finset κ)

/-- Where a writer stands in `appendGroupIn`.  `rest` are the chunks it has yet
to look for, `missing` those it has yet to store again. -/
inductive Phase (κ : Type*) where
  | idle
  | storing (before : SweepState) (done : Finset κ)
  | prepared (before : SweepState)
  | waiting (before : SweepState) (batch : ℕ)
  | restoring (before : SweepState) (rest missing : Finset κ)
  | ready (before : SweepState)
  | landed (rest missing : Finset κ)
  | settled

/-- A writer, and whether an overlap check of its entry has completed. -/
structure Writer (κ : Type*) where
  phase : Phase κ
  covered : Bool

/-- The chunks each writer's commit names, and whether sweep and writers share a
process, where a heartbeat is up to date and a batch can be waited for. -/
structure Settings (κ ι : Type*) where
  names : ι → Finset κ
  shared : Bool

structure World (κ ι : Type*) where
  stored : Finset κ
  /-- The chunks stored or refreshed since the sweep's cutoff. -/
  fresh : Finset κ
  log : Finset κ
  outbox : Finset ι
  epoch : ℕ
  sweep : Sweep κ
  /-- How many batches have ended. -/
  batches : ℕ
  writers : ι → Writer κ

variable {κ ι : Type*}

/-- A log whose chunks are stored, and writers that have not begun. -/
def World.initial (stored log : Finset κ) : World κ ι where
  stored := stored
  fresh := ∅
  log := log
  outbox := ∅
  epoch := 0
  sweep := .ended
  batches := 0
  writers := fun _ => ⟨.idle, false⟩

/-- Whether a sweep runs. -/
def Sweep.isActive : Sweep κ → Bool
  | .ended => false
  | _ => true

/-- Whether a batch is in flight. -/
def Sweep.inBatch : Sweep κ → Bool
  | .ended => false
  | .listing _ => false
  | _ => true

/-- Whether a batch lies between its first delete and the end of its re-check. -/
def Sweep.repairing : Sweep κ → Prop
  | .deleting _ _ started => started ≠ ∅
  | .rechecking _ _ => True
  | .recheckedLog _ _ _ => True
  | .puttingBack _ _ => True
  | _ => False

namespace World

/-- `sweepState`; a heartbeat may be stale where the sweep runs in another
process. -/
def sweepState (w : World κ ι) (stale : Bool) : SweepState :=
  ⟨w.epoch, w.sweep.isActive && !stale⟩

variable [DecidableEq κ] [DecidableEq ι]

/-- A writer goes on. -/
def goes (w : World κ ι) (i : ι) (phase : Phase κ) : World κ ι :=
  { w with writers := Function.update w.writers i { w.writers i with phase := phase } }

/-- A chunk is stored, or refreshed where it is stored. -/
def store (w : World κ ι) (c : κ) : World κ ι :=
  { w with stored := insert c w.stored, fresh := insert c w.fresh }

section

variable (cfg : Settings κ ι)

/-- The chunks the entries of the outbox name. -/
def outboxNames (w : World κ ι) : Finset κ := w.outbox.biUnion cfg.names

end

end World

/-- A step.  `old` are chunks last stored or refreshed before the cutoff of the
sweep that begins; `stale` is whether the reading of the sweep's heartbeat is,
and `aborted` whether the sweep's signal is. -/
inductive Label (κ ι : Type*) where
  | begin (old : Finset κ)
  | list (chunk : κ)
  | beginBatch
  | checkLog
  | checkOutbox
  | read (chunk : κ)
  | keep (chunk : κ)
  | settleHeld
  | delete (chunk : κ) (succeeds : Bool)
  | recheck (aborted : Bool)
  | recheckLog
  | recheckOutbox
  | leaseLost
  | putBack (chunk : κ)
  | resume
  | endBatch
  | finish
  | readBefore (writer : ι) (stale : Bool)
  | store (writer : ι) (chunk : κ)
  | prepare (writer : ι)
  | readAfter (writer : ι) (stale : Bool)
  | waited (writer : ι)
  | look (writer : ι) (chunk : κ)
  | storeAgain (writer : ι) (chunk : κ)
  | pass (writer : ι)
  | seqGap (writer : ι)
  | append (writer : ι)
  | settle (writer : ι)

variable [DecidableEq κ] [DecidableEq ι]

/-- A step of the sweep. -/
def World.sweepStep (cfg : Settings κ ι) (w : World κ ι) : Label κ ι → Option (World κ ι)
  | .begin old =>
    match w.sweep with
    | .ended =>
      some { w with fresh := w.fresh \ old, epoch := w.epoch + 1, sweep := .listing ∅ }
    | _ => none
  | .list c =>
    match w.sweep with
    | .listing batch =>
      if c ∉ w.stored then none
      else if c ∈ w.fresh then some w
      else some { w with sweep := .listing (insert c batch) }
    | _ => none
  | .beginBatch =>
    match w.sweep with
    | .listing batch => some { w with sweep := .checking batch }
    | _ => none
  | .checkLog =>
    match w.sweep with
    | .checking batch => some { w with sweep := .checkedLog batch (batch ∩ w.log) }
    | _ => none
  | .checkOutbox =>
    match w.sweep with
    | .checkedLog batch found =>
      some { w with sweep := .reading ((batch \ found) \ w.outboxNames cfg) ∅ }
    | _ => none
  | .read c =>
    match w.sweep with
    | .reading rest held =>
      if c ∉ rest then none
      else if c ∈ w.stored then
        some { w with sweep := .reading (rest.erase c) (insert c held) }
      else some { w with sweep := .reading (rest.erase c) held }
    | _ => none
  | .keep c =>
    match w.sweep with
    | .reading rest held =>
      if c ∉ rest then none else some { w with sweep := .reading (rest.erase c) held }
    | _ => none
  | .settleHeld =>
    match w.sweep with
    | .reading rest held => some { w with sweep := .deleting rest held ∅ }
    | _ => none
  | .delete c succeeds =>
    match w.sweep with
    | .deleting rest held started =>
      if c ∉ held then none
      else
        some
          { w with
            sweep := .deleting rest (held.erase c) (insert c started)
            stored := if succeeds then w.stored.erase c else w.stored }
    | _ => none
  | .recheck aborted =>
    match w.sweep with
    | .deleting rest held started =>
      if aborted then some { w with sweep := .rechecking ∅ started }
      else if held = ∅ then some { w with sweep := .rechecking rest started }
      else none
    | _ => none
  | .recheckLog =>
    match w.sweep with
    | .rechecking rest started =>
      some { w with sweep := .recheckedLog rest started (started ∩ w.log) }
    | _ => none
  | .recheckOutbox =>
    match w.sweep with
    | .recheckedLog rest started found =>
      some { w with sweep := .puttingBack rest (found ∪ (started ∩ w.outboxNames cfg)) }
    | _ => none
  | .leaseLost =>
    match w.sweep with
    | .rechecking _ started => some { w with sweep := .puttingBack ∅ started }
    | _ => none
  | .putBack c =>
    match w.sweep with
    | .puttingBack rest names =>
      if c ∉ names then none
      else some { w.store c with sweep := .puttingBack rest (names.erase c) }
    | _ => none
  | .resume =>
    match w.sweep with
    | .puttingBack rest names =>
      if names = ∅ then some { w with sweep := .reading rest ∅ } else none
    | _ => none
  | .endBatch =>
    -- nothing is left of the batch, or the sweep was aborted
    match w.sweep with
    | .reading _ _ => some { w with sweep := .listing ∅, batches := w.batches + 1 }
    | _ => none
  | .finish =>
    match w.sweep with
    | .listing _ => some { w with epoch := w.epoch + 1, sweep := .ended }
    | _ => none
  | _ => none

/-- A step of a writer. -/
def World.writerStep (cfg : Settings κ ι) (w : World κ ι) : Label κ ι → Option (World κ ι)
  | .readBefore i stale =>
    match (w.writers i).phase with
    | .idle =>
      if cfg.shared && stale then none
      else some (w.goes i (.storing (w.sweepState stale) ∅))
    | _ => none
  | .store i c =>
    match (w.writers i).phase with
    | .storing before done =>
      if c ∉ cfg.names i then none
      else some ((w.store c).goes i (.storing before (insert c done)))
    | _ => none
  | .prepare i =>
    match (w.writers i).phase with
    | .storing before done =>
      if cfg.names i ⊆ done then
        some ({ w with outbox := insert i w.outbox }.goes i (.prepared before))
      else none
    | _ => none
  | .readAfter i stale =>
    match (w.writers i).phase with
    | .prepared before =>
      if cfg.shared && stale then none
      else if sweepMayOverlap before (w.sweepState stale) then
        if cfg.shared && w.sweep.inBatch then some (w.goes i (.waiting before w.batches))
        else some (w.goes i (.restoring before (cfg.names i) ∅))
      else some (w.goes i (.restoring before ∅ ∅))
    | _ => none
  | .waited i =>
    match (w.writers i).phase with
    | .waiting before batch =>
      if w.batches = batch then none
      else some (w.goes i (.restoring before (cfg.names i) ∅))
    | _ => none
  | .look i c =>
    match (w.writers i).phase with
    | .restoring before rest missing =>
      if c ∉ rest then none
      else if c ∈ w.stored then some (w.goes i (.restoring before (rest.erase c) missing))
      else some (w.goes i (.restoring before (rest.erase c) (insert c missing)))
    | .landed rest missing =>
      if c ∉ rest then none
      else if c ∈ w.stored then some (w.goes i (.landed (rest.erase c) missing))
      else some (w.goes i (.landed (rest.erase c) (insert c missing)))
    | _ => none
  | .storeAgain i c =>
    match (w.writers i).phase with
    | .restoring before rest missing =>
      if c ∉ missing then none
      else some ((w.store c).goes i (.restoring before rest (missing.erase c)))
    | .landed rest missing =>
      if c ∉ missing then none
      else some ((w.store c).goes i (.landed rest (missing.erase c)))
    | _ => none
  | .pass i =>
    match (w.writers i).phase with
    | .restoring before rest missing =>
      if rest = ∅ ∧ missing = ∅ then
        some { w with writers := Function.update w.writers i ⟨.ready before, true⟩ }
      else none
    | _ => none
  | .seqGap i =>
    match (w.writers i).phase with
    | .ready before => some (w.goes i (.storing before (cfg.names i)))
    | _ => none
  | .append i =>
    match (w.writers i).phase with
    | .ready _ => some ({ w with log := w.log ∪ cfg.names i }.goes i (.landed (cfg.names i) ∅))
    | _ => none
  | .settle i =>
    match (w.writers i).phase with
    | .landed rest missing =>
      if rest = ∅ ∧ missing = ∅ then
        some ({ w with outbox := w.outbox.erase i }.goes i .settled)
      else none
    | _ => none
  | _ => none

/-- One step, none when it cannot be taken. -/
def World.step (cfg : Settings κ ι) (w : World κ ι) (label : Label κ ι) : Option (World κ ι) :=
  (w.sweepStep cfg label).orElse (fun _ => w.writerStep cfg label)

/-- Several steps. -/
def World.steps (cfg : Settings κ ι) : World κ ι → List (Label κ ι) → Option (World κ ι)
  | w, [] => some w
  | w, label :: labels => (w.step cfg label).bind (fun w' => World.steps cfg w' labels)

end ChunkSweep

end Swamp
