import Mathlib.Data.Finmap
import Mathlib.Order.Lattice.Nat
import Swamp.Interleaving
import Swamp.WriterLeaseRecords

/-!
# The writer lease

A takeover creates the next fence with `putIfAbsent`, never rewrites one, and
then looks for a higher fence before it counts.  The functions of the lease are
programs of store operations: any number of processes run them, each operation
at any time, with whatever the clock, the other processes' liveness and the
store's failures answer.

The store also keeps what no process reads: which task created which key, so
that holds can be told apart, and what the checks of each hold saw.
-/

namespace Swamp.WriterLease

open Js Interleaving

/-- Why a holder is fenced. -/
inductive WriterFencedReason where
  | takenOver
  | released

/-- `WriterFencedError`. -/
structure WriterFencedError where
  fence : ℕ
  currentFence : Option ℕ
  reason : WriterFencedReason

/-- A hold, by the creation of its fence record.  Its own fields are kept apart,
since renewals and releases of one hold may overlap. -/
structure WriterLeaseHold where
  id : ℕ
  record : FenceRecord

/-- The fence of a hold. -/
def WriterLeaseHold.fence (hold : WriterLeaseHold) : ℕ := hold.record.fence

/-- The fields of a hold. -/
structure HoldFields where
  lost : Option WriterFencedError
  released : Bool

/-- What an inspection of the lease shows. -/
structure WriterLeaseInspection where
  fence : Option ℕ
  record : Option FenceRecord
  renewedAt : Option ℚ

/-- What a call may throw. -/
inductive Thrown where
  | storage
  | date
  | delay
  | fence (fence : ℕ)
  | fenced (error : WriterFencedError)
  | busy (inspection : WriterLeaseInspection) (waitedMs : ℚ)

/-- What the keys are listed for. -/
inductive ListPurpose where
  | read
  | check (hold : WriterLeaseHold)
  | prune

/-- The operations: those of the store, those on the fields of a hold, and the
questions whose answers are arbitrary. -/
inductive Op where
  | list (purpose : ListPurpose)
  | get (key : JsString)
  | put (key : JsString) (value : LeaseValue)
  | putIfAbsent (key : JsString) (value : LeaseValue)
  | delete (key : JsString)
  | fields (id : ℕ)
  | setLost (id : ℕ) (error : WriterFencedError)
  | setReleased (id : ℕ)
  | now
  | isoNow
  | nonce
  | judgeHolder
  | delay (ms : ℚ)

/-- Their answers.  `putIfAbsent` answers with the number of the creation when
it created the key. -/
def Op.Res : Op → Type
  | .list _ => Except Thrown (List JsString)
  | .get _ => Except Thrown (Option LeaseValue)
  | .put _ _ => Except Thrown Unit
  | .putIfAbsent _ _ => Except Thrown (Option ℕ)
  | .delete _ => Except Thrown Unit
  | .fields _ => HoldFields
  | .setLost _ _ => Unit
  | .setReleased _ => Unit
  | .now => ℚ
  | .isoNow => Except Thrown JsString
  | .nonce => JsString
  | .judgeHolder => FenceRecord → ProcessVerdict
  | .delay _ => Except Thrown Unit

abbrev LeaseStore := Finmap (fun _ : JsString => LeaseValue)

/-- A key, and the task that created it. -/
structure Creation where
  task : ℕ
  key : JsString

/-- A check of a hold, and the store it was made on. -/
structure Checked where
  task : ℕ
  hold : WriterLeaseHold
  store : LeaseStore

/-- The store, the holds' fields, the creations so far, and the checks so far. -/
structure World where
  store : LeaseStore
  fields : ℕ → HoldFields
  created : List Creation
  checked : List Checked

namespace World

/-- Nothing was done yet. -/
def initial (store : LeaseStore) : World := ⟨store, fun _ => ⟨none, false⟩, [], []⟩

/-- With one more record. -/
def put (s : World) (key : JsString) (value : LeaseValue) : World :=
  { s with store := s.store.insert key value }

/-- With a record created by a task. -/
def create (s : World) (t : ℕ) (key : JsString) (value : LeaseValue) : World :=
  { s.put key value with created := s.created ++ [⟨t, key⟩] }

/-- With one record less. -/
def delete (s : World) (key : JsString) : World := { s with store := s.store.erase key }

/-- With the note of a check. -/
def note (s : World) (t : ℕ) : ListPurpose → World
  | .check hold => { s with checked := s.checked ++ [⟨t, hold, s.store⟩] }
  | .read => s
  | .prune => s

/-- With a hold's fields set. -/
def setFields (s : World) (id : ℕ) (fields : HoldFields) : World :=
  { s with fields := Function.update s.fields id fields }

end World

/-- How an operation is answered.  A store operation is atomic; one that throws
may have been done all the same. -/
def exec (t : ℕ) : (op : Op) → World → op.Res → World → Prop
  | .list purpose, s, r, s' =>
    (∃ keys, r = .ok keys ∧
      (∀ key, key ∈ keys ↔ key ∈ s.store ∧ WRITER_LEASE_PREFIX <+: key) ∧
      s' = s.note t purpose) ∨
    (∃ e, r = .error e ∧ s' = s)
  | .get key, s, r, s' => s' = s ∧ (r = .ok (s.store.lookup key) ∨ ∃ e, r = .error e)
  | .put key value, s, r, s' =>
    (r = .ok () ∧ s' = s.put key value) ∨ (∃ e, r = .error e ∧ (s' = s ∨ s' = s.put key value))
  | .putIfAbsent key value, s, r, s' =>
    (key ∉ s.store ∧ r = .ok (some s.created.length) ∧ s' = s.create t key value) ∨
    (key ∈ s.store ∧ r = .ok none ∧ s' = s) ∨
    (∃ e, r = .error e ∧ (s' = s ∨ (key ∉ s.store ∧ s' = s.put key value)))
  | .delete key, s, r, s' =>
    (r = .ok () ∧ s' = s.delete key) ∨ (∃ e, r = .error e ∧ (s' = s ∨ s' = s.delete key))
  | .fields id, s, r, s' => s' = s ∧ r = s.fields id
  | .setLost id error, s, _, s' => s' = s.setFields id { s.fields id with lost := some error }
  | .setReleased id, s, _, s' => s' = s.setFields id { s.fields id with released := true }
  | .now, s, _, s' => s' = s
  | .isoNow, s, _, s' => s' = s
  | .nonce, s, _, s' => s' = s
  | .judgeHolder, s, _, s' => s' = s
  | .delay _, s, _, s' => s' = s

/-- A function of the lease: it performs operations and may throw. -/
abbrev Async := ExceptT Thrown (Prog Op Op.Res)

/-- An operation that does not throw. -/
def ask (op : Op) : Async op.Res := ExceptT.lift (Prog.perform op)

def list (purpose : ListPurpose) : Async (List JsString) := ExceptT.mk (Prog.perform (Op.list purpose))

/-- `map.get(k)`. -/
def get (key : JsString) : Async (Option LeaseValue) := ExceptT.mk (Prog.perform (Op.get key))

def put (key : JsString) (value : LeaseValue) : Async Unit :=
  ExceptT.mk (Prog.perform (Op.put key value))

def putIfAbsent (key : JsString) (value : LeaseValue) : Async (Option ℕ) :=
  ExceptT.mk (Prog.perform (Op.putIfAbsent key value))

def delete (key : JsString) : Async Unit := ExceptT.mk (Prog.perform (Op.delete key))

def setLost (id : ℕ) (error : WriterFencedError) : Async Unit := ask (.setLost id error)

def setReleased (id : ℕ) : Async Unit := ask (.setReleased id)

def isoNow : Async JsString := ExceptT.mk (Prog.perform Op.isoNow)

def delay (ms : ℚ) : Async Unit := ExceptT.mk (Prog.perform (Op.delay ms))

/-- `fenceKey`, `heartbeatKey` and `releasedKey`. -/
def requireKey (kind : LeaseKeyKind) (fence : ℕ) : Async JsString :=
  if isFence fence then pure (leaseKey kind fence) else throw (.fence fence)

/-- The highest fence among keys, from a first one. -/
def highestOf (first : ℕ) (keys : List JsString) : ℕ :=
  keys.foldl
    (fun highest key =>
      match parseWriterLeaseKey key with
      | some (.fence, fence) => if highest < fence then fence else highest
      | _ => highest)
    first

/-- Whether a fence is marked released among keys. -/
def releasedIn (keys : List JsString) (fence : ℕ) : Bool :=
  keys.any (fun key => parseWriterLeaseKey key == some (.released, fence))

/-- A hold is lost to a higher fence among keys, or to its own release. -/
def loseTo (hold : WriterLeaseHold) (keys : List JsString) : Async Unit :=
  let highest := highestOf hold.fence keys
  if hold.fence < highest then
    setLost hold.id ⟨hold.fence, some highest, .takenOver⟩
  else if releasedIn keys hold.fence then
    setLost hold.id ⟨hold.fence, none, .released⟩
  else pure ()

/-- `#check`. -/
def check (hold : WriterLeaseHold) : Async (Option WriterFencedError) := do
  let keys ← list (.check hold)
  loseTo hold keys
  let fields : HoldFields ← ask (.fields hold.id)
  pure fields.lost

/-- `renew`: whether the lease is still held. -/
def renew (hold : WriterLeaseHold) : Async Bool := do
  let fields : HoldFields ← ask (.fields hold.id)
  if fields.lost.isSome then pure false
  else
    let lost ← check hold
    if lost.isSome then pure false
    else
      let key ← requireKey .heartbeat hold.fence
      let renewedAt ← isoNow
      put key (encodeHeartbeat hold.record renewedAt)
      pure true

/-- `assertCurrent`. -/
def assertCurrent (hold : WriterLeaseHold) : Async Unit := do
  let fields : HoldFields ← ask (.fields hold.id)
  let lost ← (if fields.lost.isSome then pure fields.lost else check hold)
  match lost with
  | some error => throw (.fenced error)
  | none => pure ()

/-- The mark `release` leaves of a hold that is not lost yet. -/
def markReleased (hold : WriterLeaseHold) : Async Unit := do
  let key ← requireKey .released hold.fence
  let releasedAt ← isoNow
  let _ ← putIfAbsent key (encodeReleased hold.fence releasedAt (js "holder"))
  setLost hold.id ⟨hold.fence, none, .released⟩

/-- `release`. -/
def release (hold : WriterLeaseHold) : Async Unit := do
  let fields : HoldFields ← ask (.fields hold.id)
  if fields.released then pure ()
  else
    setReleased hold.id
    (if fields.lost.isNone then markReleased hold else pure ())
    let key ← requireKey .heartbeat hold.fence
    delete key

/-- What a lease is opened with. -/
structure WriterLeaseOptions where
  holder : WriterLeaseHolder
  ttlMs : ℤ
  clockSkewMs : ℚ
  retryMs : ℚ
  maxRetryMs : ℚ

/-- One deletion of `#prune`: one that throws is left for the next takeover. -/
def pruneKey (fence : ℕ) (key : JsString) : Async Unit :=
  match parseWriterLeaseKey key with
  | some (_, other) =>
    if other < fence - 1 then tryCatch (delete key) (fun _ => pure ()) else pure ()
  | none => pure ()

/-- The deletions of `#prune`. -/
def pruneKeys (fence : ℕ) : List JsString → Async Unit
  | [] => pure ()
  | key :: keys => do
      pruneKey fence key
      pruneKeys fence keys

/-- `#prune`. -/
def prune (fence : ℕ) : Async Unit := do
  let keys ← list .prune
  pruneKeys fence keys

/-- `#take`. -/
def take (o : WriterLeaseOptions) (fence : ℕ) : Async (Option WriterLeaseHold) := do
  let nonce : JsString ← ask .nonce
  let acquiredAt ← isoNow
  let record : FenceRecord :=
    { o.holder with fence := fence, nonce := nonce, ttlMs := o.ttlMs, acquiredAt := acquiredAt }
  let key ← requireKey .fence fence
  match ← putIfAbsent key record.encode with
  | none => pure none
  | some id =>
    let hold : WriterLeaseHold := ⟨id, record⟩
    let renewed ← tryCatch (renew hold) (fun error => do
      tryCatch (release hold) (fun _ => pure ())
      throw error)
    if renewed then
      prune fence
      pure (some hold)
    else
      release hold
      pure none

/-- The highest fence among keys, when there is one. -/
def highestRecorded (keys : List JsString) : Option ℕ :=
  if highestOf 0 keys = 0 then none else some (highestOf 0 keys)

section Reading

variable (parseDate : JsString → Option ℚ)

/-- `readWriterLeaseRecords`. -/
def readRecords : Async WriterLeaseRecords := do
  let keys ← list .read
  match highestRecorded keys with
  | none => pure ⟨none, none, none, false⟩
  | some fence =>
    let fenceKey ← requireKey .fence fence
    let data ← get fenceKey
    let record := parseFenceRecord parseDate data fence
    let heartbeatKey ← requireKey .heartbeat fence
    let heartbeat ← get heartbeatKey
    pure ⟨some fence, record, parseHeartbeat parseDate heartbeat fence (record.map (·.nonce)),
      releasedIn keys fence⟩

/-- `#judge`. -/
def judge (o : WriterLeaseOptions) (records : WriterLeaseRecords) : Async WriterLeaseVerdict := do
  let now : ℚ ← ask .now
  let judgeHolder ← ask .judgeHolder
  pure (judgeWriterLease parseDate records now judgeHolder o.ttlMs o.clockSkewMs)

/-- `forceRelease`. -/
def forceRelease (nonce : JsString) : Async Bool := do
  let records ← readRecords parseDate
  match records.fence, records.record with
  | some fence, some record =>
    if record.nonce = nonce then
      let key ← requireKey .released fence
      let releasedAt ← isoNow
      let _ ← putIfAbsent key (encodeReleased fence releasedAt (js "force"))
      pure true
    else pure false
  | _, _ => pure false

/-- `advance`: the holder takes over from itself. -/
def advance (o : WriterLeaseOptions) (hold : WriterLeaseHold) : Async (Option WriterLeaseHold) := do
  let current ← tryCatch (do assertCurrent hold; pure true) (fun error =>
    match error with
    | .fenced _ => pure false
    | error => throw error)
  if current then
    let next ← take o (hold.fence + 1)
    tryCatch (release hold) (fun _ => pure ())
    pure next
  else pure none

/-- Where an `acquire` stands between two of its rounds. -/
structure Acquiring where
  options : WriterLeaseOptions
  maxWaitMs : ℚ
  floor : Option ℕ
  started : ℚ
  retry : ℚ

/-- What a call comes to. -/
inductive Outcome where
  | again (state : Acquiring)
  | hold (hold : WriterLeaseHold)
  | undefined
  | renewed (held : Bool)
  | forced (found : Bool)
  | void

/-- `acquire`, up to its loop. -/
def acquire (o : WriterLeaseOptions) (maxWaitMs : ℚ) (floor : Option ℕ) : Async Outcome := do
  let started : ℚ ← ask .now
  pure (.again ⟨o, maxWaitMs, floor, started, o.retryMs⟩)

/-- The end of a round that did not take the lease: wait, unless it waited long
enough. -/
def awaitRetry (state : Acquiring) (records : WriterLeaseRecords) : Async Outcome := do
  let now : ℚ ← ask .now
  let waited := now - state.started
  if state.maxWaitMs ≤ waited then
    throw (.busy ⟨records.fence, records.record, records.renewedAt⟩ waited)
  else
    delay (min state.retry (state.maxWaitMs - waited))
    pure (.again { state with retry := min (state.retry * 2) state.options.maxRetryMs })

/-- One round of `acquire`. -/
def acquireRound (state : Acquiring) : Async Outcome := do
  let records ← readRecords parseDate
  let verdict ← judge parseDate state.options records
  if verdict.isHeld then awaitRetry state records
  else
    match ← take state.options (max (records.fence.getD 0) (state.floor.getD 0) + 1) with
    | some hold => pure (.hold hold)
    | none =>
      -- Another writer took it first, or a higher fence appeared.
      let records ← readRecords parseDate
      awaitRetry state records

/-- A call's program, down to what it answers or throws. -/
abbrev Task := Prog Op Op.Res (Except Thrown Outcome)

/-- Some call returned the hold. -/
def Holds (tasks : List Task) (hold : WriterLeaseHold) : Prop :=
  Prog.ret (.ok (.hold hold)) ∈ tasks

/-- The calls a process can make: those on a hold need one that was returned. -/
inductive Starts (tasks : List Task) : Task → Prop
  | acquire (o : WriterLeaseOptions) (maxWaitMs : ℚ) (floor : Option ℕ) :
      Starts tasks (acquire o maxWaitMs floor).run
  | forceRelease (nonce : JsString) :
      Starts tasks (do pure (.forced (← forceRelease parseDate nonce)) : Async Outcome).run
  | advance (o : WriterLeaseOptions) {hold : WriterLeaseHold} (h : Holds tasks hold) :
      Starts tasks
        (do
          match ← advance o hold with
          | some next => pure (.hold next)
          | none => pure .undefined : Async Outcome).run
  | renew {hold : WriterLeaseHold} (h : Holds tasks hold) :
      Starts tasks (do pure (.renewed (← renew hold)) : Async Outcome).run
  | release {hold : WriterLeaseHold} (h : Holds tasks hold) :
      Starts tasks (do release hold; pure .void : Async Outcome).run
  | assertCurrent {hold : WriterLeaseHold} (h : Holds tasks hold) :
      Starts tasks (do assertCurrent hold; pure .void : Async Outcome).run

/-- The processes over one store. -/
def machine : Machine Op Op.Res World (Except Thrown Outcome) where
  exec := exec
  starts := Starts parseDate
  resume := fun outcome =>
    match outcome with
    | .ok (.again state) => some (acquireRound parseDate state).run
    | _ => none

/-- The configuration of processes over a store. -/
abbrev Processes := Config Op Op.Res World (Except Thrown Outcome)

/-- No process has run yet. -/
def begin (store : LeaseStore) : Processes := ⟨World.initial store, []⟩

end Reading

end Swamp.WriterLease
