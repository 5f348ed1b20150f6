import Mathlib.Data.Set.Basic
import Mathlib.Data.List.Basic
import Swamp.Interleaving
import Swamp.JsValue

/-!
# The store of signal waits

Hosts share one store of records: key records (a claim or a release for each
generation of a key), the outcomes and registrations of waits, and the pending
signals of the slots of a key.  Its operations are atomic; what the repository
builds from them is a program of several operations.

A record that a decoder refuses (too large, or not of its schema) is found
unreadable, never absent; which ones are is a parameter, with the check of a
payload against a schema.  Beside the store stands what no host reads: the records
that were created, in order, and the runs that collectors selected.
-/

namespace Swamp.SignalWaits

open Js Interleaving

/-- An instant, in milliseconds. -/
abbrev Instant := ℤ

/-- A wait key of a workflow. -/
structure WaitKey where
  workflowId : JsString
  key : JsString
deriving DecidableEq

/-- `WaitEarly`. -/
structure WaitEarly where
  generation : ℕ
  overRelease : Bool
  earliest : Instant
deriving DecidableEq

/-- `WaitKeyClaim`. -/
structure WaitKeyClaim where
  under : WaitKey
  generation : ℕ
  recordedAt : Instant
  waitId : JsString
  runId : JsString
  jobName : JsString
  stepName : JsString
  deadline : Instant
  early : Option WaitEarly
deriving DecidableEq

/-- `WaitKeyRelease`. -/
structure WaitKeyRelease where
  under : WaitKey
  generation : ℕ
  recordedAt : Instant
deriving DecidableEq

/-- `WaitKeyRecord`. -/
inductive WaitKeyRecord where
  | claim (claim : WaitKeyClaim)
  | release (release : WaitKeyRelease)
deriving DecidableEq

namespace WaitKeyRecord

def under : WaitKeyRecord → WaitKey
  | .claim c => c.under
  | .release r => r.under

def generation : WaitKeyRecord → ℕ
  | .claim c => c.generation
  | .release r => r.generation

end WaitKeyRecord

/-- `SignalReceipt`. -/
structure SignalReceipt where
  id : JsString
  waitId : JsString
  receivedAt : Instant
  submittedBy : JsString
  idempotencyKey : Option JsString
  heldAsPending : Bool

/-- How a wait was settled. -/
inductive OutcomeKind where
  | accepted (receipt : SignalReceipt) (payload : Json)
  | timedOut
  | cancelled

/-- `WaitOutcome`. -/
structure WaitOutcome where
  kind : OutcomeKind
  waitId : JsString
  workflowId : JsString
  runId : JsString
  deadline : Instant
  settledAt : Instant

/-- `WaitRegistration`, with what is read of it here. -/
structure WaitRegistration where
  waitId : JsString
  workflowId : JsString
  workflowName : JsString
  runId : JsString
  deadline : Instant
  schema : Json
  key : Option JsString
  early : Option WaitEarly

/-- A slot of a key. -/
structure PendingSlot where
  under : WaitKey
  slot : ℕ
deriving DecidableEq

/-- `PendingSignal`.  `acceptEarly` is in milliseconds. -/
structure PendingSignal where
  at_ : PendingSlot
  number : ℕ
  receiptId : JsString
  receivedAt : Instant
  submittedBy : JsString
  payload : Json
  acceptEarly : ℤ
  authorizedFor : Option JsString
  idempotencyKey : Option JsString

/-- `PendingLapse`. -/
structure PendingLapse where
  at_ : PendingSlot
  number : ℕ
  recordedAt : Instant

/-- `PendingRecord`. -/
inductive PendingRecord where
  | pending (signal : PendingSignal)
  | lapse (lapse : PendingLapse)

namespace PendingRecord

def at_ : PendingRecord → PendingSlot
  | .pending p => p.at_
  | .lapse l => l.at_

/-- `Number(s)`. -/
def number : PendingRecord → ℕ
  | .pending p => p.number
  | .lapse l => l.number

end PendingRecord

/-- `StoredWaitRecord`. -/
inductive Stored (T : Type) where
  | found (record : T)
  | absent
  | unreadable

/-- Which records their decoders accept, and what of a payload a schema does. -/
structure Codec where
  keyRecord : WaitKeyRecord → Bool
  outcome : WaitOutcome → Bool
  registration : WaitRegistration → Bool
  pendingRecord : PendingRecord → Bool
  validatePayload : Json → Json → Option Json

/-- What a decoder makes of what is stored. -/
def decode {T : Type} (accepts : T → Bool) : Option T → Stored T
  | none => .absent
  | some record => if accepts record then .found record else .unreadable

/-- A record that was created. -/
inductive Written where
  | keyRecord (record : WaitKeyRecord)
  | outcome (outcome : WaitOutcome)
  | registration (registration : WaitRegistration)
  | pending (record : PendingRecord)

/-- The store; and, read by nobody, what was created and which runs collectors
selected. -/
structure World where
  keyRecords : WaitKey → ℕ → Option WaitKeyRecord
  outcomes : JsString → Option WaitOutcome
  registrations : JsString → Option WaitRegistration
  pending : PendingSlot → ℕ → Option PendingRecord
  written : List Written
  selected : Set JsString

namespace World

/-- Nothing is stored. -/
def empty : World where
  keyRecords := fun _ _ => none
  outcomes := fun _ => none
  registrations := fun _ => none
  pending := fun _ _ => none
  written := []
  selected := ∅

variable (w : World)

def setKeyRecord (under : WaitKey) (generation : ℕ) (record : Option WaitKeyRecord) : World :=
  { w with keyRecords := fun u g => if u = under ∧ g = generation then record else w.keyRecords u g }

def setOutcome (waitId : JsString) (outcome : Option WaitOutcome) : World :=
  { w with outcomes := fun id => if id = waitId then outcome else w.outcomes id }

def setRegistration (waitId : JsString) (registration : Option WaitRegistration) : World :=
  { w with registrations := fun id => if id = waitId then registration else w.registrations id }

def setPending (at_ : PendingSlot) (number : ℕ) (record : Option PendingRecord) : World :=
  { w with pending := fun a n => if a = at_ ∧ n = number then record else w.pending a n }

/-- With one more record created. -/
def note (written : Written) : World := { w with written := w.written ++ [written] }

/-- With more runs selected. -/
def select (runIds : List JsString) : World :=
  { w with selected := w.selected ∪ { runId | runId ∈ runIds } }

end World

/-- The operations of the store; `select` is a collector that begins. -/
inductive Op where
  | listKey (under : WaitKey)
  | listKeyRecords
  | getKeyRecord (under : WaitKey) (generation : ℕ)
  | putKeyRecord (record : WaitKeyRecord)
  | deleteKeyRecord (under : WaitKey) (generation : ℕ)
  | getOutcome (waitId : JsString)
  | putOutcome (outcome : WaitOutcome)
  | listOutcomes
  | deleteOutcome (waitId : JsString)
  | getRegistration (waitId : JsString)
  | putRegistration (registration : WaitRegistration)
  | listRegistrations
  | deleteRegistration (waitId : JsString)
  | listSlot (at_ : PendingSlot)
  | listPending
  | getPending (at_ : PendingSlot) (number : ℕ)
  | putPending (record : PendingRecord)
  | deletePending (at_ : PendingSlot) (number : ℕ)
  | select (runIds : List JsString)

/-- Their answers.  What a create answers is not trusted, so it says nothing. -/
def Op.Res : Op → Type
  | .listKey _ => List ℕ
  | .listKeyRecords => List (WaitKey × ℕ)
  | .getKeyRecord _ _ => Stored WaitKeyRecord
  | .getOutcome _ => Stored WaitOutcome
  | .listOutcomes => List JsString
  | .getRegistration _ => Stored WaitRegistration
  | .listRegistrations => List JsString
  | .listSlot _ => List ℕ
  | .listPending => List (PendingSlot × ℕ)
  | .getPending _ _ => Stored PendingRecord
  | _ => Unit

section

variable (codec : Codec)

/-- A listing of the addresses that hold a record, in some order. -/
def Lists {α : Type} (listed : List α) (holds : α → Prop) : Prop := ∀ a, a ∈ listed ↔ holds a

/-- How an operation is answered.  A listing has the records of its prefix, in
some order. -/
def exec : (op : Op) → World → op.Res → World → Prop
  | .listKey under, w, r, w' =>
    Lists r (fun generation => (w.keyRecords under generation).isSome = true) ∧ w' = w
  | .listKeyRecords, w, r, w' =>
    Lists r (fun at_ => (w.keyRecords at_.1 at_.2).isSome = true) ∧ w' = w
  | .getKeyRecord under generation, w, r, w' =>
    r = decode codec.keyRecord (w.keyRecords under generation) ∧ w' = w
  | .putKeyRecord record, w, _, w' =>
    if (w.keyRecords record.under record.generation).isSome then w' = w
    else w' = (w.setKeyRecord record.under record.generation (some record)).note
      (.keyRecord record)
  | .deleteKeyRecord under generation, w, _, w' => w' = w.setKeyRecord under generation none
  | .getOutcome waitId, w, r, w' => r = decode codec.outcome (w.outcomes waitId) ∧ w' = w
  | .putOutcome outcome, w, _, w' =>
    if (w.outcomes outcome.waitId).isSome then w' = w
    else w' = (w.setOutcome outcome.waitId (some outcome)).note (.outcome outcome)
  | .listOutcomes, w, r, w' =>
    Lists r (fun waitId => (w.outcomes waitId).isSome = true) ∧ w' = w
  | .deleteOutcome waitId, w, _, w' => w' = w.setOutcome waitId none
  | .getRegistration waitId, w, r, w' =>
    r = decode codec.registration (w.registrations waitId) ∧ w' = w
  | .putRegistration registration, w, _, w' =>
    if (w.registrations registration.waitId).isSome then w' = w
    else w' = (w.setRegistration registration.waitId (some registration)).note
      (.registration registration)
  | .listRegistrations, w, r, w' =>
    Lists r (fun waitId => (w.registrations waitId).isSome = true) ∧ w' = w
  | .deleteRegistration waitId, w, _, w' => w' = w.setRegistration waitId none
  | .listSlot at_, w, r, w' =>
    Lists r (fun number => (w.pending at_ number).isSome = true) ∧ w' = w
  | .listPending, w, r, w' =>
    Lists r (fun at_ => (w.pending at_.1 at_.2).isSome = true) ∧ w' = w
  | .getPending at_ number, w, r, w' =>
    r = decode codec.pendingRecord (w.pending at_ number) ∧ w' = w
  | .putPending record, w, _, w' =>
    if (w.pending record.at_ record.number).isSome then w' = w
    else w' = (w.setPending record.at_ record.number (some record)).note (.pending record)
  | .deletePending at_ number, w, _, w' => w' = w.setPending at_ number none
  | .select runIds, w, _, w' => w' = w.select runIds

end

/-- A function of the lease: it performs operations and may throw. -/
abbrev Async := Prog Op Op.Res

/-- The generations listed under a key. -/
def listKey (under : WaitKey) : Async (List ℕ) := Prog.perform (Op.listKey under)

def findKeyRecord (under : WaitKey) (generation : ℕ) : Async (Stored WaitKeyRecord) :=
  Prog.perform (Op.getKeyRecord under generation)

/-- The numbers listed in a slot. -/
def listSlot (at_ : PendingSlot) : Async (List ℕ) := Prog.perform (Op.listSlot at_)

def findPendingRecord (at_ : PendingSlot) (number : ℕ) : Async (Stored PendingRecord) :=
  Prog.perform (Op.getPending at_ number)

def HIGHEST_KEY_RECORD_READS : ℕ := 4

/-- `HighestKeyRecord`. -/
inductive HighestKeyRecord where
  | none
  | found (record : WaitKeyRecord)
  | unreadable (generation : ℕ)

/-- `HighestPendingRecord`. -/
inductive HighestPendingRecord where
  | none
  | found (record : PendingRecord)
  | unreadable (number : ℕ)

/-- The highest of the listed numbers, zero when there is none. -/
def highestOf (numbers : List ℕ) : ℕ := numbers.foldl max 0

/-- The reads of `highestKeyRecord` that are left. -/
def readHighestKey (under : WaitKey) : ℕ → ℕ → Async HighestKeyRecord
  | 0, generation => pure (.unreadable generation)
  | reads + 1, _ => do
      let generation := highestOf (← listKey under)
      if generation = 0 then return .none
      match ← findKeyRecord under generation with
      | .found record => return .found record
      | .unreadable => return .unreadable generation
      | .absent => readHighestKey under reads generation

/-- `highestKeyRecord`. -/
def highestKeyRecord (under : WaitKey) : Async HighestKeyRecord :=
  readHighestKey under HIGHEST_KEY_RECORD_READS 0

def createKeyRecord (record : WaitKeyRecord) : Async (Stored WaitKeyRecord) := do
  let _ ← Prog.perform (Op.putKeyRecord record)
  findKeyRecord record.under record.generation

/-- The readable ones among the listed records. -/
def readKeyRecords : List (WaitKey × ℕ) → Async (List WaitKeyRecord)
  | [] => pure []
  | (under, generation) :: rest => do
      match ← findKeyRecord under generation with
      | .found record => return record :: (← readKeyRecords rest)
      | _ => readKeyRecords rest

/-- The addresses of all key records. -/
def listKeyAddresses : Async (List (WaitKey × ℕ)) := Prog.perform Op.listKeyRecords

def listKeyRecords : Async (List WaitKeyRecord) := do
  readKeyRecords (← listKeyAddresses)

def removeKeyRecord (under : WaitKey) (generation : ℕ) : Async Unit :=
  Prog.perform (Op.deleteKeyRecord under generation)

def findOutcome (waitId : JsString) : Async (Stored WaitOutcome) :=
  Prog.perform (Op.getOutcome waitId)

def settle (outcome : WaitOutcome) : Async (Stored WaitOutcome) := do
  let _ ← Prog.perform (Op.putOutcome outcome)
  findOutcome outcome.waitId

def removeOutcome (waitId : JsString) : Async Unit := Prog.perform (Op.deleteOutcome waitId)

def findRegistration (waitId : JsString) : Async (Stored WaitRegistration) :=
  Prog.perform (Op.getRegistration waitId)

/-- `register`; none where it throws, for a text without the shape and for a sentinel
that is there already. -/
def register (registration : WaitRegistration) : Async Unit :=
  Prog.perform (Op.putRegistration registration)

def removeRegistration (waitId : JsString) : Async Unit :=
  Prog.perform (Op.deleteRegistration waitId)

/-- The waits with a registration. -/
def listRegistered : Async (List JsString) := Prog.perform Op.listRegistrations

/-- The waits with an outcome. -/
def listSettled : Async (List JsString) := Prog.perform Op.listOutcomes

/-- The readable ones among the listed registrations. -/
def readRegistrations : List JsString → Async (List WaitRegistration)
  | [] => pure []
  | waitId :: rest => do
      match ← findRegistration waitId with
      | .found registration => return registration :: (← readRegistrations rest)
      | _ => readRegistrations rest

def listRegistrations : Async (List WaitRegistration) := do
  readRegistrations (← listRegistered)

/-- The readable ones among the listed outcomes. -/
def readOutcomes : List JsString → Async (List WaitOutcome)
  | [] => pure []
  | waitId :: rest => do
      match ← findOutcome waitId with
      | .found outcome => return outcome :: (← readOutcomes rest)
      | _ => readOutcomes rest

def listOutcomes : Async (List WaitOutcome) := do
  readOutcomes (← listSettled)

/-- The reads of `highestPendingRecord` that are left. -/
def readHighestPending (at_ : PendingSlot) : ℕ → ℕ → Async HighestPendingRecord
  | 0, number => pure (.unreadable number)
  | reads + 1, _ => do
      let number := highestOf (← listSlot at_)
      if number = 0 then return .none
      match ← findPendingRecord at_ number with
      | .found record => return .found record
      | .unreadable => return .unreadable number
      | .absent => readHighestPending at_ reads number

/-- `highestPendingRecord`. -/
def highestPendingRecord (at_ : PendingSlot) : Async HighestPendingRecord :=
  readHighestPending at_ HIGHEST_KEY_RECORD_READS 0

def createPendingRecord (record : PendingRecord) : Async (Stored PendingRecord) := do
  let _ ← Prog.perform (Op.putPending record)
  findPendingRecord record.at_ record.number

def listPendingAddresses : Async (List (PendingSlot × ℕ)) := Prog.perform Op.listPending

def removePendingRecord (at_ : PendingSlot) (number : ℕ) : Async Unit :=
  Prog.perform (Op.deletePending at_ number)

/-- `WaitRef`, of a wait that takes early signals. -/
structure EarlyWaitRef where
  waitId : JsString
  workflowName : Option JsString
  runId : JsString
  deadline : Instant
  under : WaitKey
  early : WaitEarly
  schema : Json

/-- `earlySlots`. -/
def earlySlots (early : WaitEarly) : List ℕ :=
  if early.overRelease ∧ 1 < early.generation then [early.generation, early.generation - 1]
  else [early.generation]

/-- `isReceivedForWait`. -/
def isReceivedForWait (pending : PendingSignal) (early : WaitEarly) (deadline : Instant) : Bool :=
  (earlySlots early).contains pending.at_.slot && decide (early.earliest ≤ pending.receivedAt) &&
    decide (pending.receivedAt ≤ deadline)

/-- `pendingOutcome`. -/
def pendingOutcome (codec : Codec) (pending : PendingSignal) (ref : EarlyWaitRef) :
    Option WaitOutcome :=
  if pending.at_.under ≠ ref.under then none
  else if pending.authorizedFor.isSome ∧ pending.authorizedFor ≠ ref.workflowName then none
  else if ¬ isReceivedForWait pending ref.early ref.deadline then none
  else
    (codec.validatePayload ref.schema pending.payload).map (fun payload =>
      { kind := .accepted ⟨pending.receiptId, ref.waitId, pending.receivedAt, pending.submittedBy,
          pending.idempotencyKey, true⟩ payload
        waitId := ref.waitId
        workflowId := ref.under.workflowId
        runId := ref.runId
        deadline := ref.deadline
        settledAt := pending.receivedAt })

/-- What a wait takes of the highest record of a slot. -/
def outcomeOfHighest (codec : Codec) (ref : EarlyWaitRef) : HighestPendingRecord → Option WaitOutcome
  | .found (.pending pending) => pendingOutcome codec pending ref
  | _ => none

/-- The slots of `applicablePendingOutcome` that are left. -/
def applicableOf (codec : Codec) (ref : EarlyWaitRef) : List ℕ → Async (Option WaitOutcome)
  | [] => pure none
  | slot :: rest => do
      match outcomeOfHighest codec ref (← highestPendingRecord ⟨ref.under, slot⟩) with
      | some outcome => return some outcome
      | none => applicableOf codec ref rest

/-- `applicablePendingOutcome`. -/
def applicablePendingOutcome (codec : Codec) (ref : EarlyWaitRef) : Async (Option WaitOutcome) :=
  applicableOf codec ref (earlySlots ref.early)

/-- `takePendingSignal`. -/
def takePendingSignal (codec : Codec) (ref : EarlyWaitRef) : Async (Stored WaitOutcome) := do
  match ← applicablePendingOutcome codec ref with
  | none => return .absent
  | some outcome => settle outcome

end Swamp.SignalWaits
