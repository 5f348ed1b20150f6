import Swamp.MapOverlay
import Swamp.WriterLeaseRecords

/-!
# Published lineages

Writers share one replica root.  Each writes its copy to a lineage of its own,
named by the fence it began at, and publishes for it a start, heads and a
confirmation.  Who may continue a lineage and which one a copy is restored from
are decided from these records alone; `step` lets any number of writers commit,
sync, publish, crash, pause and hold, in any order.

Transaction ids are numbers here; a record's texts and instants decide nothing
and are left out.
-/

namespace Swamp

open Js MapOverlay

/-- `ReplicaRoot`: an S3 root also knows what the same bucket and path end
with. -/
structure ReplicaRoot where
  value : JsString
  s3Suffix : Option JsString

/-- `matches`: an S3 root matches under any endpoint. -/
def ReplicaRoot.matchesRoot (self : ReplicaRoot) (recorded : JsString) : Bool :=
  if recorded = self.value then true
  else
    match self.s3Suffix with
    | none => false
    | some suffix =>
      if (js "s3:").isPrefixOf recorded && suffix.isSuffixOf recorded &&
          decide ((js "s3:").length + suffix.length ≤ recorded.length) then
        let endpoint :=
          (recorded.take (recorded.length - suffix.length)).drop (js "s3:").length
        !(endpoint.head? == some (unit ':'))
      else false

@[simp] theorem ReplicaRoot.matchesRoot_value (self : ReplicaRoot) :
    self.matchesRoot self.value = true := by
  simp [ReplicaRoot.matchesRoot]

structure LineageStarted where
  fence : ℕ
  replicaRoot : JsString

structure LineageConfirmed where
  fence : ℕ
  txid : ℕ

/-- The last commit a writer acknowledged: the cursor, and the commit at it. -/
structure HighWaterMark where
  cursor : ℕ
  commit : Option ℕ

structure LineageHead where
  fence : ℕ
  txid : ℕ
  writerFence : ℕ
  mark : HighWaterMark

structure PublishedLineage where
  fence : ℕ
  started : Option LineageStarted
  confirmed : Option LineageConfirmed
  head : Option LineageHead

structure CompleteLineage where
  fence : ℕ
  started : LineageStarted
  confirmed : LineageConfirmed
  head : LineageHead

structure LocalCopyState where
  replicaRoot : JsString
  lineageFence : ℕ
  txid : ℕ

structure AbandonedLineage where
  replicaRoot : JsString
  fence : ℕ

structure ReplicationLineage where
  replicaRoot : JsString
  lineageFence : ℕ
  lastFence : ℕ
  previousLineages : List AbandonedLineage

/-- The found item of the highest rank, the first one of equals. -/
def highestBy {α β : Type} (find : α → Option β) (rank : β → ℕ) (items : List α) : Option β :=
  items.foldl
    (fun held item =>
      match find item, held with
      | some found, none => some found
      | some found, some held => if rank held < rank found then some found else some held
      | none, held => held)
    none

section Decisions

variable (root : ReplicaRoot)

/-- A lineage with all its records, under the root. -/
def PublishedLineage.complete (lineage : PublishedLineage) : Option CompleteLineage :=
  match lineage.started, lineage.confirmed, lineage.head with
  | some started, some confirmed, some head =>
    if root.matchesRoot started.replicaRoot = true ∧ head.fence = lineage.fence then
      some ⟨lineage.fence, started, confirmed, head⟩
    else none
  | _, _, _ => none

/-- `currentLineage`: the highest complete one. -/
def currentLineage (lineages : List PublishedLineage) : Option CompleteLineage :=
  highestBy (PublishedLineage.complete root) CompleteLineage.fence lineages

/-- Whether a lineage was started under the root. -/
def PublishedLineage.isStarted (lineage : PublishedLineage) : Bool :=
  match lineage.started with
  | some started => root.matchesRoot started.replicaRoot
  | none => false

/-- `newestStartedFence`. -/
def newestStartedFence (lineages : List PublishedLineage) : Option ℕ :=
  highestBy (fun lineage => if lineage.isStarted root then some lineage.fence else none) id lineages

/-- Why a copy is restored. -/
inductive RestoreKind where
  | missing
  | behind
  | foreign

/-- What becomes of a local copy. -/
inductive LocalCopyDecision where
  | none
  | current
  | restore (kind : RestoreKind) (lineage : CompleteLineage)

/-- What a checkout knows of its copy. -/
structure LocalCopy where
  copy : Option LocalCopyState
  lineage : Option ReplicationLineage

/-- Whether the copy's own lineage is newer than the current one, and the newest
started. -/
def ownsNewest (lineages : List PublishedLineage) (current : CompleteLineage)
    (own : Option ReplicationLineage) : Bool :=
  match own with
  | some own =>
    root.matchesRoot own.replicaRoot && decide (current.fence < own.lineageFence) &&
      decide (newestStartedFence root lineages = some own.lineageFence)
  | none => false

/-- `decideLocalCopy`. -/
def decideLocalCopy (localCopy : Option LocalCopy) (lineages : List PublishedLineage) :
    LocalCopyDecision :=
  match currentLineage root lineages with
  | none => .none
  | some current =>
    match localCopy with
    | none => .restore .missing current
    | some held =>
      if ownsNewest root lineages current held.lineage then .current
      else
        match held.copy with
        | some copy =>
          if !root.matchesRoot copy.replicaRoot || decide (copy.lineageFence ≠ current.fence)
          then .restore .foreign current
          else if current.head.txid ≤ copy.txid then .current
          else .restore .behind current
        | none => .restore .foreign current

/-- `mayContinueLineage`. -/
def mayContinueLineage (previous : Option ReplicationLineage)
    (lineages : List PublishedLineage) : Bool :=
  match previous with
  | none => false
  | some previous =>
    root.matchesRoot previous.replicaRoot &&
      lineages.any (fun lineage =>
        decide (lineage.fence = previous.lineageFence) && lineage.isStarted root) &&
      decide (newestStartedFence root lineages = some previous.lineageFence)

/-- `restartLineage`; none when the fence is refused. -/
def restartLineage (previous : Option ReplicationLineage) (fence : ℕ) :
    Option ReplicationLineage :=
  if isFence fence then
    some
      { replicaRoot := root.value, lineageFence := fence, lastFence := fence
        previousLineages :=
          match previous with
          | none => []
          | some previous =>
            previous.previousLineages ++ [⟨previous.replicaRoot, previous.lineageFence⟩] }
  else none

/-- What becomes of a copy's lineage at a fence. -/
inductive LineageDecision where
  | new (lineage : ReplicationLineage)
  | continue (lineage : ReplicationLineage)
  | restart (lineage : ReplicationLineage)
  | conflict (lineage : ReplicationLineage)

/-- Whether a copy began a lineage at the fence before. -/
def ReplicationLineage.used (previous : ReplicationLineage) (fence : ℕ) : Bool :=
  (root.matchesRoot previous.replicaRoot && decide (previous.lineageFence = fence)) ||
    previous.previousLineages.any (fun old =>
      root.matchesRoot old.replicaRoot && decide (old.fence = fence))

/-- `decideLineage`; none when the fence is refused. -/
def decideLineage (previous : Option ReplicationLineage) (fence : ℕ) : Option LineageDecision :=
  if isFence fence then
    match previous with
    | none => some (.new ⟨root.value, fence, fence, []⟩)
    | some previous =>
      if root.matchesRoot previous.replicaRoot = true ∧ fence = previous.lastFence then
        some (.continue previous)
      else if root.matchesRoot previous.replicaRoot = true ∧ fence = previous.lastFence + 1 then
        some (.continue { previous with lastFence := fence })
      else if previous.used root fence then some (.conflict previous)
      else
        some (.restart
          ⟨root.value, fence, fence,
            previous.previousLineages ++ [⟨previous.replicaRoot, previous.lineageFence⟩]⟩)
  else none

end Decisions

/-- What is published of a lineage. -/
structure LineageRecords where
  started : Option LineageStarted
  confirmed : Option LineageConfirmed
  head : Option LineageHead

/-- Nothing is published. -/
def LineageRecords.none : LineageRecords := ⟨.none, .none, .none⟩

/-- How far a command is. -/
inductive Phase where
  | isOpen
  | synced
  | headed
  | confirmed
deriving DecidableEq

/-- A command in progress: the fence it holds, the commits its sync covered, and
those its head covers. -/
structure Session where
  fence : ℕ
  phase : Phase
  markLen : ℕ
  txid : ℕ
  headed : List ℕ

/-- A writer, and whether an overlap check of its entry has completed. -/
structure Writer where
  copy : Option (List ℕ)
  copyState : Option LocalCopyState
  lineage : Option ReplicationLineage
  session : Option Session

/-- A writer that did nothing yet. -/
def Writer.idle : Writer := ⟨none, none, none, none⟩

namespace LineageWorld

/-- The fences taken so far, by their holders; what is published; the replicas
the lineages were uploaded to; the writers; the commits acknowledged, and those
a head covered in a command that was not. -/
structure World where
  holders : List ℕ
  records : Finmap (fun _ : ℕ => LineageRecords)
  replicas : Finmap (fun _ : ℕ => List ℕ)
  writers : ℕ → Writer
  acked : Finset ℕ
  exposed : Finset ℕ
  nextCommit : ℕ

namespace World

/-- Nothing happened yet. -/
def start : World := ⟨[], ∅, ∅, fun _ => Writer.idle, ∅, ∅, 1⟩

/-- The highest fence taken. -/
def maxFence (s : World) : ℕ := s.holders.length

def recordsOf (s : World) (fence : ℕ) : LineageRecords :=
  (s.records.lookup fence).getD LineageRecords.none

def replicaOf (s : World) (fence : ℕ) : List ℕ := (s.replicas.lookup fence).getD []

/-- The lineages, as they are published. -/
def publishedList (s : World) : List PublishedLineage :=
  (sortedEntries s.records).map (fun entry =>
    ⟨entry.1, entry.2.started, entry.2.confirmed, entry.2.head⟩)

/-- The commits a restore of a lineage at its head gives. -/
def restore (s : World) (lineage : CompleteLineage) : List ℕ :=
  ((s.replicaOf lineage.fence).take lineage.head.txid).take lineage.head.mark.cursor

def setWriter (s : World) (w : ℕ) (writer : Writer) : World :=
  { s with writers := Function.update s.writers w writer }

def setRecords (s : World) (fence : ℕ) (records : LineageRecords) : World :=
  { s with records := s.records.insert fence records }

def setReplica (s : World) (fence : ℕ) (replica : List ℕ) : World :=
  { s with replicas := s.replicas.insert fence replica }

/-- A writer takes the next fence. -/
def takeFence (s : World) (w : ℕ) : World := { s with holders := s.holders ++ [w] }

end World

section Steps

variable (root : ReplicaRoot)

/-- A fresh copy, restored from the current lineage at its head. -/
def freshRestore (s : World) : Option (List ℕ) :=
  match decideLocalCopy root none s.publishedList with
  | .restore _ lineage => some (s.restore lineage)
  | _ => none

/-- Whether a lineage was started under the root. -/
def isStarted (s : World) (fence : ℕ) : Bool :=
  match (s.recordsOf fence).started with
  | some started => root.matchesRoot started.replicaRoot
  | none => false

/-- What a begin makes of a writer's copy and lineage, and whether the lineage is
a fresh one. -/
structure Begun where
  copy : List ℕ
  copyState : Option LocalCopyState
  lineage : ReplicationLineage
  fresh : Bool

/-- The copy a writer begins with, and whether it was restored. -/
def beginCopy (s : World) (writer : Writer) : List ℕ × Option LocalCopyState × Bool :=
  match decideLocalCopy root (writer.copy.map (fun _ => ⟨writer.copyState, writer.lineage⟩))
      s.publishedList with
  | .restore _ lineage =>
    (s.restore lineage, some ⟨root.value, lineage.fence, lineage.head.txid⟩, true)
  | _ => (writer.copy.getD [], writer.copyState, false)

/-- Whether the fence lets a writer's lineage continue. -/
def fenceRule (writer : Writer) (fence : ℕ) : Bool :=
  match writer.lineage with
  | none => false
  | some lineage =>
    match decideLineage root (some lineage) fence with
    | some (.continue _) => true
    | _ => false

/-- A begin at a fence: the copy is restored unless it is current, and the
lineage is continued or restarted. -/
def begin (s : World) (writer : Writer) (fence : ℕ) : Option Begun :=
  let (copy, copyState, restored) := beginCopy root s writer
  if !restored && fenceRule root writer fence &&
      mayContinueLineage root writer.lineage s.publishedList then
    writer.lineage.map (fun lineage =>
      ⟨copy, copyState, { lineage with lastFence := fence }, false⟩)
  else
    (restartLineage root writer.lineage fence).map (fun lineage =>
      ⟨copy, copyState, lineage, true⟩)

/-- What can happen. -/
inductive Action where
  | begin (w : ℕ)
  | beginCrash (w : ℕ)
  | commit (w : ℕ)
  | upload (w k : ℕ)
  | sync (w : ℕ)
  | publishHead (w : ℕ)
  | publishConfirmed (w : ℕ)
  | check (w : ℕ)
  | crash (w : ℕ)
  | hold (w : ℕ)

/-- A command ends without an acknowledgement: what its head covered may be
restored all the same. -/
def endUnacknowledged (s : World) (w : ℕ) (session : Session) : World :=
  { s.setWriter w { s.writers w with session := none } with
    exposed := s.exposed ∪ session.headed.toFinset.filter (fun id => id ∉ s.acked) }

/-- A writer takes a fence and begins; a crash leaves it before anything is
published. -/
def stepBegin (s : World) (w : ℕ) (crashes : Bool) : World :=
  let writer := s.writers w
  let fence := s.maxFence + 1
  match writer.session, begin root s writer fence with
  | none, some begun =>
    let begunWriter : Writer := ⟨some begun.copy, begun.copyState, some begun.lineage, none⟩
    if crashes then (s.takeFence w).setWriter w begunWriter
    else
      let taken := s.takeFence w
      let started :=
        if begun.fresh then
          taken.setRecords fence { s.recordsOf fence with started := some ⟨fence, root.value⟩ }
        else taken
      started.setWriter w { begunWriter with session := some ⟨fence, .isOpen, 0, 0, []⟩ }
  | _, _ => s

def stepCommit (s : World) (w : ℕ) : World :=
  let writer := s.writers w
  match writer.session, writer.copy with
  | some _, some copy =>
    { s.setWriter w { writer with copy := some (copy ++ [s.nextCommit]) } with
      nextCommit := s.nextCommit + 1 }
  | _, _ => s

/-- The sidecar uploads the copy's lineage, also after its command ended, once the
lineage was started. -/
def stepUpload (s : World) (w k : ℕ) : World :=
  match (s.writers w).copy, (s.writers w).lineage with
  | some copy, some lineage =>
    let path := lineage.lineageFence
    if isStarted root s path then
      s.setReplica path (copy.take (min copy.length ((s.replicaOf path).length + k)))
    else s
  | _, _ => s

/-- A command in progress, with the copy and lineage it works on. -/
def working (writer : Writer) (phase : Phase) : Option (Session × List ℕ × ReplicationLineage) :=
  match writer.session, writer.copy, writer.lineage with
  | some session, some copy, some lineage =>
    if session.phase = phase then some (session, copy, lineage) else none
  | _, _, _ => none

def stepSync (s : World) (w : ℕ) : World :=
  match working (s.writers w) .isOpen with
  | some (session, copy, lineage) =>
    (s.setReplica lineage.lineageFence copy).setWriter w
      { s.writers w with
        session := some { session with markLen := copy.length, phase := .synced } }
  | none => s

/-- The sync's transaction id is at or past the commits it covered: commits made
since may be uploaded too. -/
def stepPublishHead (s : World) (w : ℕ) : World :=
  match working (s.writers w) .synced with
  | some (session, copy, lineage) =>
    let path := lineage.lineageFence
    let txid := (s.replicaOf path).length
    let mark : HighWaterMark :=
      ⟨session.markLen, if session.markLen = 0 then none else copy[session.markLen - 1]?⟩
    (s.setRecords path
        { s.recordsOf path with head := some ⟨path, txid, session.fence, mark⟩ }).setWriter w
      { s.writers w with
        session := some
          { session with
            txid := txid, headed := copy.take session.markLen, phase := .headed } }
  | none => s

def stepPublishConfirmed (s : World) (w : ℕ) : World :=
  match working (s.writers w) .headed with
  | some (session, _, lineage) =>
    let path := lineage.lineageFence
    let confirmed := (s.recordsOf path).confirmed.getD ⟨path, session.txid⟩
    (s.setRecords path { s.recordsOf path with confirmed := some confirmed }).setWriter w
      { s.writers w with session := some { session with phase := .confirmed } }
  | none => s

/-- The last step of a command: it acknowledges only if it still holds the
highest fence. -/
def stepCheck (s : World) (w : ℕ) : World :=
  match working (s.writers w) .confirmed with
  | some (session, _, lineage) =>
    if session.fence = s.maxFence then
      { s.setWriter w
          { s.writers w with
            copyState := some ⟨root.value, lineage.lineageFence, session.txid⟩
            session := none } with
        acked := s.acked ∪ session.headed.toFinset
        exposed := s.exposed \ session.headed.toFinset }
    else endUnacknowledged s w session
  | none => s

def stepCrash (s : World) (w : ℕ) : World :=
  match (s.writers w).session with
  | some session => endUnacknowledged s w session
  | none => s

/-- A read-only recovery hold takes the lease and records the fence in the copy's
lineage, and publishes nothing. -/
def stepHold (s : World) (w : ℕ) : World :=
  let writer := s.writers w
  let fence := s.maxFence + 1
  match writer.session, writer.copy, decideLineage root writer.lineage fence with
  | some _, _, _ => s
  | none, none, _ => s.takeFence w
  | none, some _, some decision =>
    match decision with
    | .new lineage => (s.takeFence w).setWriter w { writer with lineage := some lineage }
    | .continue lineage => (s.takeFence w).setWriter w { writer with lineage := some lineage }
    | .restart lineage => (s.takeFence w).setWriter w { writer with lineage := some lineage }
    | .conflict _ => s.takeFence w
  | none, some _, none => s

def step (s : World) : Action → World
  | .begin w => stepBegin root s w false
  | .beginCrash w => stepBegin root s w true
  | .commit w => stepCommit s w
  | .upload w k => stepUpload root s w k
  | .sync w => stepSync s w
  | .publishHead w => stepPublishHead s w
  | .publishConfirmed w => stepPublishConfirmed s w
  | .check w => stepCheck root s w
  | .crash w => stepCrash s w
  | .hold w => stepHold root s w

/-- The worlds the writers can come to. -/
def run (actions : List Action) : World := actions.foldl (step root) World.start

end Steps

end LineageWorld

end Swamp
