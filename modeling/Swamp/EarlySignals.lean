import Swamp.WaitKeyClaims

/-!
# Signals before their wait

A signal may come before a wait claims its key: it is stored in the slot the next
claim reads, one signal to a key.  `holdEarlySignal` stores it, or tells why not;
`listHeldPendingSignals` tells which are stored and still kept;
`sweepPendingSignals` removes what no claim will read, and supersedes by a lapse a
signal that was kept too long.

The order is the protocol: the signaller creates its record and then reads the key,
and a step creates its claim and then reads the slot, so that one sees the other.
-/

namespace Swamp.SignalWaits

open Js Interleaving

/-- `PENDING_SIGNAL_LAPSE_GRACE_MS`. -/
def PENDING_SIGNAL_LAPSE_GRACE_MS : ℤ := 24 * 60 * 60 * 1000

/-- Until when a pending signal is kept. -/
def heldUntil (pending : PendingSignal) : Instant := pending.receivedAt + pending.acceptEarly

def isPendingHeld (pending : PendingSignal) (now : Instant) : Bool :=
  decide (now ≤ heldUntil pending)

/-- The highest record of a key, none where it cannot be read. -/
def HighestKeyRecord.readable : HighestKeyRecord → Option (Option WaitKeyRecord)
  | .none => some Option.none
  | .found record => some (some record)
  | .unreadable _ => Option.none

/-- `LiveSlots`. -/
structure LiveSlots where
  slot : ℕ
  live : List ℕ

/-- `liveSlotsOf`: the slot the next claim reads, and, over a release, the one below
it too. -/
def liveSlotsOf : Option WaitKeyRecord → LiveSlots
  | none => ⟨1, [1]⟩
  | some (.release release) =>
    ⟨release.generation + 1, [release.generation + 1, release.generation]⟩
  | some (.claim claim) => ⟨claim.generation + 1, [claim.generation + 1]⟩

/-- `EarlySignalDecision`. -/
inductive EarlySignalDecision where
  | store (number : ℕ)
  | alreadyPending (record : PendingSignal)
  | unreadable

/-- The first head that decides: one that cannot be read, or a signal that is
kept. -/
def firstDecision (now : Instant) : List HighestPendingRecord → Option EarlySignalDecision
  | [] => none
  | .unreadable _ :: _ => some .unreadable
  | .found (.pending pending) :: rest =>
    if isPendingHeld pending now then some (.alreadyPending pending) else firstDecision now rest
  | _ :: rest => firstDecision now rest

/-- The number after the head of the slot to store in. -/
def numberAfter : List HighestPendingRecord → ℕ
  | [] => 1
  | .none :: _ => 1
  | .found record :: _ => record.number + 1
  | .unreadable number :: _ => number + 1

def decideEarlySignal (heads : List HighestPendingRecord) (now : Instant) : EarlySignalDecision :=
  match firstDecision now heads with
  | some decision => decision
  | none => .store (numberAfter heads)

/-- The heads of slots of a key. -/
def readHeads (under : WaitKey) : List ℕ → Async (List HighestPendingRecord)
  | [] => pure []
  | slot :: rest => do
      let head ← highestPendingRecord ⟨under, slot⟩
      return head :: (← readHeads under rest)

/-- `HeldPendingSignal`. -/
structure HeldPendingSignal where
  under : WaitKey
  receiptId : JsString
  receivedAt : Instant
  heldUntil : Instant
  submittedBy : JsString
  authorizedFor : Option JsString

/-- What is listed of a pending signal. -/
def heldSignalOf (under : WaitKey) (pending : PendingSignal) : HeldPendingSignal :=
  ⟨under, pending.receiptId, pending.receivedAt, heldUntil pending, pending.submittedBy,
    pending.authorizedFor⟩

/-- The signals kept under keys, one after another. -/
def listHeldOf (now : Instant) : List WaitKey → Async (List HeldPendingSignal)
  | [] => pure []
  | under :: rest => do
      let highest ← highestKeyRecord under
      match highest.readable with
      | none => listHeldOf now rest
      | some highest => do
          let heads ← readHeads under (liveSlotsOf highest).live
          match decideEarlySignal heads now with
          | .alreadyPending pending => return heldSignalOf under pending :: (← listHeldOf now rest)
          | _ => listHeldOf now rest

/-- `listHeldPendingSignals`, the one kept the shortest first. -/
def listHeldPendingSignals (now : Instant) : Async (List HeldPendingSignal) := do
  let addresses ← listPendingAddresses
  let held ← listHeldOf now (addresses.map (fun entry => entry.1.under)).eraseDups
  return held.insertionSort (fun a b => a.heldUntil ≤ b.heldUntil)

/-- `KeyHolderLookup`. -/
inductive KeyHolderLookup where
  | held (claim : WaitKeyClaim)
  | free
  | unreadable (generation : ℕ)

/-- The attempts of `findKeyHolder` that are left. -/
def keyHolderAttempts (under : WaitKey) : ℕ → HighestKeyRecord → Async KeyHolderLookup
  | 0, _ => pure .free
  | _ + 1, .unreadable generation => pure (.unreadable generation)
  | attempts + 1, .found (.claim claim) => do
      let stored ← findOutcome claim.waitId
      match decideKeyHolder (some (.claim claim)) (ownOutcome claim stored) with
      | none => return .free
      | some holder =>
        -- A holder still the highest record is an open wait.
        let still ← highestKeyRecord under
        match still with
        | .found record =>
          if record.generation = holder.generation then return .held holder
          else keyHolderAttempts under attempts still
        | _ => keyHolderAttempts under attempts still
  | _ + 1, _ => pure .free

/-- `findKeyHolder`. -/
def findKeyHolder (under : WaitKey) : Async KeyHolderLookup := do
  keyHolderAttempts under WAIT_KEY_CLAIM_ATTEMPTS (← highestKeyRecord under)

/-- The claims that read a slot, and whether one could not be read. -/
structure SlotReaders where
  claims : List WaitKeyClaim
  unreadable : Bool

/-- The key record of a generation, where it is not known. -/
def knownOrStored (under : WaitKey) (known : Option WaitKeyRecord) (generation : ℕ) :
    Async (Stored WaitKeyRecord) :=
  match known with
  | some record =>
    if record.generation = generation then pure (.found record)
    else findKeyRecord under generation
  | none => findKeyRecord under generation

/-- One generation that may read a slot. -/
def SlotReaders.add (readers : SlotReaders) (own : Bool) : Stored WaitKeyRecord → SlotReaders
  | .unreadable => { readers with unreadable := true }
  | .found (.claim claim) =>
    if own || claim.early.any (·.overRelease) then
      { readers with claims := readers.claims ++ [claim] }
    else readers
  | _ => readers

/-- `claimsReadingSlot`: the claim of the slot's own generation, and the next one over
a release. -/
def claimsReadingSlot (at_ : PendingSlot) (known : Option WaitKeyRecord) : Async SlotReaders := do
  let own ← knownOrStored at_.under known at_.slot
  let next ← knownOrStored at_.under known (at_.slot + 1)
  return ((⟨[], false⟩ : SlotReaders).add true own).add false next

/-- The receipt of an accepted outcome. -/
def acceptedReceipt (outcome : WaitOutcome) : Option SignalReceipt :=
  match outcome.kind with
  | .accepted receipt _ => some receipt
  | _ => none

/-- The claims that may have taken a signal, one after another; `copy` is one that
took a copy of it. -/
def takerAmong (stored : PendingSignal) :
    List WaitKeyClaim → Option (WaitKeyClaim × WaitOutcome) →
      Async (Option (WaitKeyClaim × WaitOutcome))
  | [], copy => pure copy
  | claim :: rest, copy =>
    if !(claim.early.any (fun early => (earlySlots early).contains stored.at_.slot)) then
      takerAmong stored rest copy
    else do
      match ← findOutcome claim.waitId with
      | .found outcome =>
        if outcome.runId ≠ claim.runId then takerAmong stored rest copy
        else
          match acceptedReceipt outcome with
          | none => takerAmong stored rest copy
          | some receipt =>
            if receipt.id = stored.receiptId then return some (claim, outcome)
            else if stored.idempotencyKey.isSome &&
                receipt.idempotencyKey = stored.idempotencyKey &&
                receipt.submittedBy = stored.submittedBy then
              takerAmong stored rest (some (claim, outcome))
            else takerAmong stored rest copy
      | _ => takerAmong stored rest copy

/-- `findTakerOf`. -/
def findTakerOf (stored : PendingSignal) : Async (Option (WaitKeyClaim × WaitOutcome)) := do
  let readers ← claimsReadingSlot stored.at_ none
  takerAmong stored readers.claims none

/-- A claim whose wait took a copy of a signal, if it did. -/
def landedIn (under : WaitKey) (idempotencyKey submittedBy : JsString) (claim : WaitKeyClaim) :
    Stored WaitOutcome → Option (WaitKeyClaim × WaitOutcome)
  | .found outcome =>
    match acceptedReceipt outcome with
    | none => none
    | some receipt =>
      if outcome.runId = claim.runId ∧ outcome.workflowId = under.workflowId ∧
          receipt.idempotencyKey = some idempotencyKey ∧ receipt.submittedBy = submittedBy then
        some (claim, outcome)
      else none
  | _ => none

/-- One generation that may have taken a copy of a signal. -/
def landedUnder (under : WaitKey) (idempotencyKey submittedBy : JsString)
    (stored : Stored WaitKeyRecord) (again : Async (Option (WaitKeyClaim × WaitOutcome))) :
    Async (Option (WaitKeyClaim × WaitOutcome)) :=
  match stored with
  | .found (.claim claim) => do
      match landedIn under idempotencyKey submittedBy claim (← findOutcome claim.waitId) with
      | some landed => return some landed
      | none => again
  | _ => again

/-- `settledUnderKey`. -/
def settledUnderKey (under : WaitKey) (highest : Option WaitKeyRecord)
    (idempotencyKey submittedBy : JsString) : Async (Option (WaitKeyClaim × WaitOutcome)) :=
  match highest with
  | none => pure none
  | some record =>
    if record.generation < 1 then pure none
    else landedUnder under idempotencyKey submittedBy (.found record)
      (if record.generation - 1 < 1 then pure none
      else do
        landedUnder under idempotencyKey submittedBy
          (← findKeyRecord under (record.generation - 1)) (pure none))

/-- `EarlySignal`.  `acceptEarly` is in milliseconds. -/
structure EarlySignal where
  under : WaitKey
  payload : Json
  submittedBy : JsString
  acceptEarly : ℤ
  idempotencyKey : Option JsString
  authorizedFor : Option JsString

/-- `EarlyArrival`. -/
inductive EarlyArrival where
  | pending (record : PendingSignal)
  | alreadyPending (record : PendingSignal)
  | held (claim : WaitKeyClaim) (record : Option PendingSignal)
  | taken (claim : WaitKeyClaim) (record : PendingSignal)
  | duplicate (claim : WaitKeyClaim) (outcome : WaitOutcome) (record : Option PendingSignal)
  | unreadable
  | contended

/-- The record a signal is stored as. -/
def recordOf (receiptId : JsString) (signal : EarlySignal) (now : Instant) (slot number : ℕ) :
    PendingSignal where
  at_ := ⟨signal.under, slot⟩
  number := number
  receiptId := receiptId
  receivedAt := now
  submittedBy := signal.submittedBy
  payload := signal.payload
  acceptEarly := signal.acceptEarly
  authorizedFor := signal.authorizedFor
  idempotencyKey := signal.idempotencyKey

/-- Whether a claim may have read a slot: one of its generation, or over a release of
it. -/
def slotClaimed (slot : ℕ) (highest : Option WaitKeyRecord) : Bool :=
  let generation := (highest.map WaitKeyRecord.generation).getD 0
  !(decide (generation < slot) || (decide (generation = slot) && isRelease highest))

/-- The second read: a step that claimed the key before the record existed has not
seen it, and is seen here. -/
def secondRead (stored : PendingSignal) (again : Async EarlyArrival) : Async EarlyArrival := do
  let highest ← highestKeyRecord stored.at_.under
  match highest.readable with
  | none => return .pending stored
  | some highest =>
    if !slotClaimed stored.at_.slot highest then return .pending stored
    else do
      match ← findKeyHolder stored.at_.under with
      | .unreadable _ => return .unreadable
      | holding =>
        match ← findTakerOf stored with
        | some (claim, outcome) =>
          if (acceptedReceipt outcome).any (fun receipt => receipt.id = stored.receiptId) then
            return .taken claim stored
          else return .duplicate claim outcome (some stored)
        | none =>
          match holding with
          | .held claim => return .held claim (some stored)
          | _ => again

/-- The record is created, unless another took its number. -/
def storeSignal (record : PendingSignal) (lapsed : Async EarlyArrival)
    (again : PendingSignal → Async EarlyArrival) : Async EarlyArrival := do
  match ← createPendingRecord (.pending record) with
  | .found (.pending created) =>
    if created.receiptId ≠ record.receiptId then return .alreadyPending created
    else secondRead created (again created)
  | .found (.lapse _) => lapsed
  | _ => return .unreadable

/-- A copy of the signal that settled a wait, if it names itself by a key. -/
def landedBefore (signal : EarlySignal) (highest : Option WaitKeyRecord) :
    Async (Option (WaitKeyClaim × WaitOutcome)) :=
  match signal.idempotencyKey with
  | none => pure none
  | some idempotencyKey => settledUnderKey signal.under highest idempotencyKey signal.submittedBy

/-- The attempts of `holdEarlySignal` that are left, and what it stored. -/
def holdAttempts (receiptId : JsString) (signal : EarlySignal) (now : Instant) :
    ℕ → Option PendingSignal → Async EarlyArrival
  | 0, _ => pure .contended
  | attempts + 1, stored => do
      let highest ← highestKeyRecord signal.under
      match highest.readable with
      | none => return .unreadable
      | some highest => do
          match ← findKeyHolder signal.under with
          | .unreadable _ => return .unreadable
          | .held claim => return .held claim stored
          | .free => do
              match ← landedBefore signal highest with
              | some (claim, outcome) => return .duplicate claim outcome stored
              | none => do
                  let heads ← readHeads signal.under (liveSlotsOf highest).live
                  match decideEarlySignal heads now with
                  | .unreadable => return .unreadable
                  | .alreadyPending record => return .alreadyPending record
                  | .store number =>
                    storeSignal (recordOf receiptId signal now (liveSlotsOf highest).slot number)
                      (holdAttempts receiptId signal now attempts stored)
                      (fun created => holdAttempts receiptId signal now attempts (some created))

/-- `holdEarlySignal`, of a signal with a fresh receipt. -/
def holdEarlySignal (receiptId : JsString) (signal : EarlySignal) (now : Instant) :
    Async EarlyArrival :=
  holdAttempts receiptId signal now WAIT_KEY_CLAIM_ATTEMPTS none

/-- These records of a slot are removed. -/
def removeNumbers (at_ : PendingSlot) : List ℕ → Async ℕ
  | [] => pure 0
  | number :: rest => do
      let _ ← removePendingRecord at_ number
      return (← removeNumbers at_ rest) + 1

/-- A slot that no claim will read any more. -/
def sweepDead (at_ : PendingSlot) (numbers : List ℕ) (highest : Option WaitKeyRecord) :
    Async ℕ := do
  let readers ← claimsReadingSlot at_ highest
  if readers.unreadable || !readers.claims.isEmpty then return 0
  else removeNumbers at_ numbers

/-- A slot that the next claim may read: a signal kept past its grace is superseded,
and what is below the head is removed. -/
def sweepLive (now : Instant) (at_ : PendingSlot) (numbers : List ℕ) : Async ℕ := do
  match ← highestPendingRecord at_ with
  | .found (.pending pending) =>
    if heldUntil pending + PENDING_SIGNAL_LAPSE_GRACE_MS < now then do
      match ← createPendingRecord (.lapse ⟨at_, pending.number + 1, now⟩) with
      | .found _ => removeNumbers at_ (numbers.filter (· < pending.number + 1))
      | _ => return 0
    else removeNumbers at_ (numbers.filter (· < pending.number))
  | .found (.lapse lapse) => removeNumbers at_ (numbers.filter (· < lapse.number))
  | _ => return 0

/-- One slot. -/
def sweepSlot (now : Instant) (at_ : PendingSlot) (numbers : List ℕ) : Async ℕ := do
  let highest ← highestKeyRecord at_.under
  match highest.readable with
  | none => return 0
  | some highest =>
    if slotClaimed at_.slot highest then sweepDead at_ numbers highest
    else sweepLive now at_ numbers

/-- One slot after another. -/
def sweepSlots (now : Instant) : List (PendingSlot × List ℕ) → Async ℕ
  | [] => pure 0
  | (at_, numbers) :: rest => do
      let first ← sweepSlot now at_ numbers
      return first + (← sweepSlots now rest)

/-- The addresses by their slot, in the order the slots are met. -/
def bySlot (addresses : List (PendingSlot × ℕ)) : List (PendingSlot × List ℕ) :=
  (addresses.map Prod.fst).eraseDups.map
    (fun at_ => (at_, (addresses.filter (fun entry => entry.1 = at_)).map Prod.snd))

/-- `sweepPendingSignals`. -/
def sweepPendingSignals (now : Instant) : Async ℕ := do
  sweepSlots now (bySlot (← listPendingAddresses))

end Swamp.SignalWaits
