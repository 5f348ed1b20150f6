import Swamp.CommitUnit

/-!
# A takeover beside an executor's unit

An executor saves a run through a unit of work.  Another writer takes the run
over: from then on the executor's saves are withdrawn, and the other writer
commits to the run's partition.  The executor reads the head of the partition,
then asks which of its puts are withdrawn, and appends at the seq after that
head, so that a commit in between costs it the append.

Steps of the unit, of the other writer, of further writers and of a recovery of
the outbox interleave.  An append that lands and whose answer is lost is found
landed, as one that is answered.
-/

namespace Swamp

namespace TakeoverFence

open CommitUnit

/-- A commit of the log, with the group it is of when the unit made it. -/
structure Landed where
  txnId : Option ℕ
  ops : List Change
deriving DecidableEq

/-- An outbox entry: the ops of a commit prepared at a head. -/
structure Entry where
  partition : PartitionKey
  txnId : ℕ
  base : ℕ
  ops : List Change

/-- Where the append of a group stands: `ops` are those stored, `kept` those not
withdrawn. -/
inductive Appending where
  | storing (progress : Storing)
  | stored (ops : List Change)
  | retrying (ops : List Change) (attempt : ℕ)
  | headRead (ops : List Change) (attempt head : ℕ)
  | checked (ops kept : List Change) (attempt head : ℕ)
  | prepared (ops kept : List Change) (attempt head : ℕ)
  | landed
  | withdrawn (locked : Bool)

/-- Whether the append holds the lock of its partition. -/
def Appending.locked : Appending → Bool
  | .storing _ => false
  | .stored _ => false
  | .landed => false
  | .withdrawn locked => locked
  | _ => true

/-- The partition taken over, how often an append is tried, and whether the other
writer shares the sink's locks. -/
structure Settings where
  run : PartitionKey
  seqGapAttempts : ℕ
  shared : Bool

structure World where
  unit : UnitState
  /-- Every change staged, in order. -/
  all : List Change
  appending : Option (Group × Appending)
  /-- How much had been staged when the flush under way began. -/
  flushing : Option ℕ
  /-- How much had been staged when the last flush began that succeeded before
  the takeover. -/
  flushed : ℕ
  log : PartitionKey → List Landed
  outbox : List Entry
  takenOver : Bool
  /-- The seq of the other writer's commit. -/
  taken : Option ℕ
  /-- The groups that ended with every op withdrawn. -/
  withdrawn : List Group

def World.initial : World where
  unit := .empty
  all := []
  appending := none
  flushing := none
  flushed := 0
  log := fun _ => []
  outbox := []
  takenOver := false
  taken := none
  withdrawn := []

/-- A put that yields to a takeover. -/
def asks (change : Change) : Bool := decide (change.source ≠ .built) && change.fenced

namespace World

variable (w : World)

/-- `withdrawn`, of a put that asks for it. -/
def isWithdrawn (change : Change) : Bool := asks change && w.takenOver

/-- The group that is appended goes on. -/
def goes (group : Group) (appending : Appending) : World :=
  { w with appending := some (group, appending) }

/-- The group that was appended leaves the unit. -/
def leaves (group : Group) : World :=
  { w with
    unit :=
      { w.unit with
        pending := w.unit.pending.filter (fun other => other.txnId ≠ group.txnId)
        inFlight := none }
    appending := none }

/-- The entry of a group leaves the outbox. -/
def settles (txnId : ℕ) : World :=
  { w with outbox := w.outbox.filter (fun entry => entry.txnId ≠ txnId) }

/-- The append failed: the flush ends and its group stays pending. -/
def fails : World :=
  { w with unit := { w.unit with inFlight := none }, appending := none, flushing := none }

/-- A commit lands. -/
def lands (partition : PartitionKey) (commit : Landed) : World :=
  { w with log := Function.update w.log partition (w.log partition ++ [commit]) }

/-- Whether a group has a commit in the log. -/
def hasLanded (partition : PartitionKey) (txnId : ℕ) : Bool :=
  (w.log partition).any (fun commit => commit.txnId = some txnId)

/-- The group being appended holds the lock of a partition. -/
def isLocked (partition : PartitionKey) : Bool :=
  w.appending.any (fun p => p.1.partition = partition && p.2.locked)

end World

inductive Label where
  | stage (changes : List Change)
  | flush
  | next
  | done
  | storeNext
  | storeRead (readable : Bool)
  | commitChunks
  | readHead
  | check
  | prepare
  | append
  | settle
  | discard
  | fail
  | takeOver
  | takerCommits
  | otherCommits (partition : PartitionKey)
  | recover (txnId : ℕ)

/-- `requireBatchWithinLimit`. -/
def withinLimit (batch : List Change) : Bool :=
  (byPartition batch).all (fun part => decide (part.changes.length ≤ MAX_COMMIT_OPS))

/-- Only saves of the run yield to its takeover. -/
def savesOfRun (run : PartitionKey) (changes : List Change) : Bool :=
  changes.all (fun change => !asks change || change.partition = run)

/-- The changes of a batch as the objects they are staged as. -/
def numbered (n : ℕ) (changes : List Change) : List Change :=
  changes.mapIdx (fun i change => { change with id := n + i })

/-- A step of the unit. -/
def World.unitStep (cfg : Settings) (w : World) : Label → Option World
  | .stage changes =>
    if withinLimit changes ∧ savesOfRun cfg.run changes then
      some
        { w with
          unit := w.unit.record (numbered w.all.length changes)
          all := w.all ++ numbered w.all.length changes }
    else none
  | .flush =>
    match w.flushing with
    | none => some { w with unit := w.unit.startFlush, flushing := some w.all.length }
    | some _ => none
  | .next =>
    match w.flushing, w.appending, w.unit.pending with
    | some _, none, group :: _ =>
      some
        { w with
          unit := { w.unit with inFlight := some group.txnId }
          appending := some (group, .storing (.next group.changes [])) }
    | _, _, _ => none
  | .done =>
    match w.flushing, w.appending, w.unit.pending with
    | some n, none, [] =>
      some { w with flushing := none, flushed := if w.takenOver then w.flushed else n }
    | _, _, _ => none
  | .storeNext =>
    match w.appending with
    | some (group, .storing progress) =>
      (w.unit.storeNext w.isWithdrawn progress).map (fun progress =>
        w.goes group (.storing progress))
    | _ => none
  | .storeRead readable =>
    match w.appending with
    | some (group, .storing progress) =>
      (w.unit.storeRead readable progress).map (fun p =>
        { w with unit := p.1 }.goes group (.storing p.2))
    | _ => none
  | .commitChunks =>
    match w.appending with
    | some (group, .storing (.next [] ops)) =>
      if ops = [] then
        if group.changes.any w.isWithdrawn then some (w.goes group (.withdrawn false))
        else some (w.leaves group)
      else some (w.goes group (.stored ops))
    | _ => none
  | .readHead =>
    match w.appending with
    | some (group, .stored ops) =>
      some (w.goes group (.headRead ops 1 (w.log group.partition).length))
    | some (group, .retrying ops attempt) =>
      some (w.goes group (.headRead ops attempt (w.log group.partition).length))
    | _ => none
  | .check =>
    match w.appending with
    | some (group, .headRead ops attempt head) =>
      let kept := ops.filter (fun op => !w.isWithdrawn op)
      if kept = [] then some (w.goes group (.withdrawn true))
      else some (w.goes group (.checked ops kept attempt head))
    | _ => none
  | .prepare =>
    match w.appending with
    | some (group, .checked ops kept attempt head) =>
      some
        ({ w with
            outbox := ⟨group.partition, group.txnId, head, kept⟩ ::
              (w.settles group.txnId).outbox }.goes group (.prepared ops kept attempt head))
    | _ => none
  | .append =>
    match w.appending with
    | some (group, .prepared ops kept attempt head) =>
      if w.hasLanded group.partition group.txnId then some (w.goes group .landed)
      else if (w.log group.partition).length = head then
        some ((w.lands group.partition ⟨some group.txnId, kept⟩).goes group .landed)
      else if attempt < cfg.seqGapAttempts then
        some (w.goes group (.retrying ops (attempt + 1)))
      else some w.fails
    | _ => none
  | .settle =>
    match w.appending with
    | some (group, .landed) => some ((w.settles group.txnId).leaves group)
    | _ => none
  | .discard =>
    match w.appending with
    | some (group, .withdrawn _) =>
      some
        { (w.settles group.txnId).leaves group with
          withdrawn := group :: w.withdrawn }
    | _ => none
  | .fail =>
    match w.appending with
    | some (group, .prepared _ _ _ _) =>
      if w.hasLanded group.partition group.txnId then some (w.goes group .landed)
      else some w.fails
    | some (_, .landed) => none
    | some (_, .withdrawn _) => none
    | some _ => some w.fails
    | none => none
  | _ => none

/-- A step of another writer, or of a recovery. -/
def World.otherStep (cfg : Settings) (w : World) : Label → Option World
  | .takeOver => some { w with takenOver := true }
  | .takerCommits =>
    if w.takenOver = false ∨ (cfg.shared && w.isLocked cfg.run) = true then none
    else
      some
        { w.lands cfg.run ⟨none, []⟩ with
          taken := w.taken.or (some ((w.log cfg.run).length + 1)) }
  | .otherCommits partition => some (w.lands partition ⟨none, []⟩)
  | .recover txnId =>
    match w.taken, w.outbox.find? (fun entry => entry.txnId = txnId) with
    | none, _ => none
    | _, none => none
    | some _, some entry =>
      if w.hasLanded entry.partition txnId then some (w.settles txnId)
      else if (w.log entry.partition).length = entry.base then
        some ((w.settles txnId).lands entry.partition ⟨some txnId, entry.ops⟩)
      else some (w.settles txnId)
  | _ => none

/-- One step, none when it cannot be taken. -/
def World.step (cfg : Settings) (w : World) (label : Label) : Option World :=
  (w.unitStep cfg label).orElse (fun _ => w.otherStep cfg label)

/-- Several steps. -/
def World.steps (cfg : Settings) : World → List Label → Option World
  | w, [] => some w
  | w, label :: labels => (w.step cfg label).bind (fun w' => World.steps cfg w' labels)

/-- What a step can do. -/
inductive Moves (cfg : Settings) (w : World) : World → Prop
  | stage (changes : List Change) (hruns : savesOfRun cfg.run changes = true) :
      Moves cfg w
        { w with
          unit := w.unit.record (numbered w.all.length changes)
          all := w.all ++ numbered w.all.length changes }
  | flush (hidle : w.flushing = none) :
      Moves cfg w { w with unit := w.unit.startFlush, flushing := some w.all.length }
  | next {group : Group} {groups : List Group} (hidle : w.appending = none)
      (hpending : w.unit.pending = group :: groups) :
      Moves cfg w
        { w with
          unit := { w.unit with inFlight := some group.txnId }
          appending := some (group, .storing (.next group.changes [])) }
  | done {n : ℕ} (hflush : w.flushing = some n) (hpending : w.unit.pending = []) :
      Moves cfg w { w with flushing := none, flushed := if w.takenOver then w.flushed else n }
  | storing {group : Group} {progress progress' : Storing}
      (hat : w.appending = some (group, .storing progress))
      (hnext : w.unit.storeNext w.isWithdrawn progress = some progress') :
      Moves cfg w (w.goes group (.storing progress'))
  | read {group : Group} {progress progress' : Storing} {readable : Bool} {u : UnitState}
      (hat : w.appending = some (group, .storing progress))
      (hread : w.unit.storeRead readable progress = some (u, progress')) :
      Moves cfg w ({ w with unit := u }.goes group (.storing progress'))
  | gone {group : Group} (hat : w.appending = some (group, .storing (.next [] []))) :
      Moves cfg w (w.goes group (.withdrawn false))
  | skipped {group : Group} (hat : w.appending = some (group, .storing (.next [] []))) :
      Moves cfg w (w.leaves group)
  | stored {group : Group} {ops : List Change}
      (hat : w.appending = some (group, .storing (.next [] ops))) (hops : ops ≠ []) :
      Moves cfg w (w.goes group (.stored ops))
  | readHead {group : Group} {phase : Appending} {ops : List Change} {attempt : ℕ}
      (hat : w.appending = some (group, phase))
      (hphase : phase = .stored ops ∨ phase = .retrying ops attempt) :
      Moves cfg w (w.goes group (.headRead ops attempt (w.log group.partition).length))
  | withdraws {group : Group} {ops : List Change} {attempt head : ℕ}
      (hat : w.appending = some (group, .headRead ops attempt head))
      (hkept : ops.filter (fun op => !w.isWithdrawn op) = []) :
      Moves cfg w (w.goes group (.withdrawn true))
  | checks {group : Group} {ops : List Change} {attempt head : ℕ}
      (hat : w.appending = some (group, .headRead ops attempt head))
      (hkept : ops.filter (fun op => !w.isWithdrawn op) ≠ []) :
      Moves cfg w
        (w.goes group (.checked ops (ops.filter (fun op => !w.isWithdrawn op)) attempt head))
  | prepares {group : Group} {ops kept : List Change} {attempt head : ℕ}
      (hat : w.appending = some (group, .checked ops kept attempt head)) :
      Moves cfg w
        ({ w with
            outbox := ⟨group.partition, group.txnId, head, kept⟩ ::
              (w.settles group.txnId).outbox }.goes group (.prepared ops kept attempt head))
  | found {group : Group} {ops kept : List Change} {attempt head : ℕ}
      (hat : w.appending = some (group, .prepared ops kept attempt head))
      (hlanded : w.hasLanded group.partition group.txnId = true) :
      Moves cfg w (w.goes group .landed)
  | lands {group : Group} {ops kept : List Change} {attempt head : ℕ}
      (hat : w.appending = some (group, .prepared ops kept attempt head))
      (hhead : (w.log group.partition).length = head) :
      Moves cfg w ((w.lands group.partition ⟨some group.txnId, kept⟩).goes group .landed)
  | retries {group : Group} {ops kept : List Change} {attempt head : ℕ}
      (hat : w.appending = some (group, .prepared ops kept attempt head)) :
      Moves cfg w (w.goes group (.retrying ops (attempt + 1)))
  | fails (hnot : ∀ group, w.appending ≠ some (group, .landed)) : Moves cfg w w.fails
  | settles {group : Group} (hat : w.appending = some (group, .landed)) :
      Moves cfg w ((w.settles group.txnId).leaves group)
  | discards {group : Group} {locked : Bool} (hat : w.appending = some (group, .withdrawn locked)) :
      Moves cfg w
        { (w.settles group.txnId).leaves group with withdrawn := group :: w.withdrawn }
  | takeOver : Moves cfg w { w with takenOver := true }
  | takerCommits (htaken : w.takenOver = true) :
      Moves cfg w
        { w.lands cfg.run ⟨none, []⟩ with
          taken := w.taken.or (some ((w.log cfg.run).length + 1)) }
  | otherCommits (partition : PartitionKey) : Moves cfg w (w.lands partition ⟨none, []⟩)
  | dropped (txnId : ℕ) : Moves cfg w (w.settles txnId)
  | recovered {entry : Entry} (hmem : entry ∈ w.outbox) (htaken : w.taken.isSome = true)
      (hbase : (w.log entry.partition).length = entry.base) :
      Moves cfg w
        ((w.settles entry.txnId).lands entry.partition ⟨some entry.txnId, entry.ops⟩)

variable {cfg : Settings} {w' : World} {label : Label}

theorem unitStep_moves {w : World} (h : w.unitStep cfg label = some w') : Moves cfg w w' := by
  cases label with
  | stage changes =>
    simp only [World.unitStep] at h
    split at h
    case isTrue hlimit =>
      cases h
      exact .stage changes hlimit.2
    case isFalse => cases h
  | flush =>
    simp only [World.unitStep] at h
    split at h
    case h_1 hidle =>
      cases h
      exact .flush hidle
    case h_2 => cases h
  | next =>
    simp only [World.unitStep] at h
    split at h
    case h_1 hidle hpending =>
      cases h
      exact .next hidle hpending
    case h_2 => cases h
  | done =>
    simp only [World.unitStep] at h
    split at h
    case h_1 hflush _ hpending =>
      cases h
      exact .done hflush hpending
    case h_2 => cases h
  | storeNext =>
    simp only [World.unitStep] at h
    split at h
    case h_1 hat =>
      obtain ⟨progress', hnext, rfl⟩ := Option.map_eq_some_iff.mp h
      exact .storing hat hnext
    case h_2 => cases h
  | storeRead readable =>
    simp only [World.unitStep] at h
    split at h
    case h_1 hat =>
      obtain ⟨⟨u, progress'⟩, hread, rfl⟩ := Option.map_eq_some_iff.mp h
      exact .read hat hread
    case h_2 => cases h
  | commitChunks =>
    simp only [World.unitStep] at h
    split at h
    case h_1 group ops hat =>
      split at h
      case isTrue hempty =>
        subst hempty
        split at h
        · cases h
          exact .gone hat
        · cases h
          exact .skipped hat
      case isFalse hops =>
        cases h
        exact .stored hat hops
    case h_2 => cases h
  | readHead =>
    simp only [World.unitStep] at h
    split at h
    case h_1 hat =>
      cases h
      exact .readHead hat (Or.inl rfl)
    case h_2 hat =>
      cases h
      exact .readHead hat (Or.inr rfl)
    case h_3 => cases h
  | check =>
    simp only [World.unitStep] at h
    split at h
    case h_1 hat =>
      split at h
      case isTrue hkept =>
        cases h
        exact .withdraws hat hkept
      case isFalse hkept =>
        cases h
        exact .checks hat hkept
    case h_2 => cases h
  | prepare =>
    simp only [World.unitStep] at h
    split at h
    case h_1 hat =>
      cases h
      exact .prepares hat
    case h_2 => cases h
  | append =>
    simp only [World.unitStep] at h
    split at h
    case h_1 hat =>
      split at h
      case isTrue hlanded =>
        cases h
        exact .found hat hlanded
      case isFalse =>
        split at h
        case isTrue hhead =>
          cases h
          exact .lands hat hhead
        case isFalse =>
          split at h
          · cases h
            exact .retries hat
          · cases h
            exact .fails (fun _ hlanded => by simp [hat] at hlanded)
    case h_2 => cases h
  | settle =>
    simp only [World.unitStep] at h
    split at h
    case h_1 hat =>
      cases h
      exact .settles hat
    case h_2 => cases h
  | discard =>
    simp only [World.unitStep] at h
    split at h
    case h_1 hat =>
      cases h
      exact .discards hat
    case h_2 => cases h
  | fail =>
    simp only [World.unitStep] at h
    split at h
    case h_1 hat =>
      split at h
      case isTrue hlanded =>
        cases h
        exact .found hat hlanded
      case isFalse =>
        cases h
        exact .fails (fun _ hlanded => by simp [hat] at hlanded)
    case h_2 => cases h
    case h_3 => cases h
    case h_4 hnot _ hat =>
      cases h
      refine .fails (fun group hlanded => ?_)
      rw [hat] at hlanded
      exact hnot group (Option.some.inj hlanded)
    case h_5 => cases h
  | takeOver | takerCommits | otherCommits partition | recover txnId => cases h

theorem otherStep_moves {w : World} (h : w.otherStep cfg label = some w') : Moves cfg w w' := by
  cases label with
  | takeOver =>
    cases h
    exact .takeOver
  | takerCommits =>
    simp only [World.otherStep] at h
    split at h
    case isTrue => cases h
    case isFalse hfree =>
      cases h
      refine .takerCommits ?_
      by_contra htaken
      exact hfree (Or.inl (Bool.eq_false_iff.mpr htaken))
  | otherCommits partition =>
    cases h
    exact .otherCommits partition
  | recover txnId =>
    simp only [World.otherStep] at h
    split at h
    case h_1 => cases h
    case h_2 => cases h
    case h_3 entry htaken hfind =>
      have htxn : entry.txnId = txnId := by simpa using List.find?_some hfind
      subst htxn
      split at h
      case isTrue =>
        cases h
        exact .dropped entry.txnId
      case isFalse =>
        split at h
        case isTrue hbase =>
          cases h
          exact .recovered (List.mem_of_find?_eq_some hfind) (by rw [htaken]; rfl) hbase
        case isFalse =>
          cases h
          exact .dropped entry.txnId
  | _ => cases h

/-- **A step** does one of these. -/
theorem step_moves {w : World} (h : w.step cfg label = some w') : Moves cfg w w' := by
  unfold World.step at h
  cases hunit : w.unitStep cfg label with
  | some next =>
    rw [hunit] at h
    cases h
    exact unitStep_moves hunit
  | none =>
    rw [hunit] at h
    exact otherStep_moves h

end TakeoverFence

end Swamp
