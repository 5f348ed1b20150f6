import Mathlib.Data.List.Basic
import Mathlib.Data.Nat.Notation

/-!
# The file lock

Any number of `FileLock` instances share one path.  Each call is the file
operations it performs, one a step, with what the instance does between two of
them; steps of different calls interleave.

An instance runs its rewrites one at a time, in the order they were called.  A
release waits for the rewrites called before it and goes on ahead of those
called after it, so it stands in the same queue.

Which instance last created the file is kept beside the file: it is what a lock
is lost by.
-/

namespace Swamp

namespace FileLock

/-- A UUID.  None is issued twice, so each is of one instance. -/
structure Nonce where
  issuer : ℕ
  number : ℕ
deriving DecidableEq

/-- What a lock file says of its holder. -/
structure LockInfo where
  nonce : Nonce
  acquiredAt : ℕ
  ttlMs : ℕ
  hostname : ℕ
  pid : ℕ
  skipping : List Nonce

/-- The file at the path: the instance that put it there, and its text, none
while it is being written. -/
structure LockFile where
  owner : ℕ
  inode : ℕ
  info : Option LockInfo
  mtime : ℕ

/-- The options and the process of an instance. -/
structure Settings where
  ttlMs : ℕ
  sameHostPidCheck : Bool
  hostname : ℕ
  pid : ℕ

/-- How often a call tries to create the file: `acquire` until its wait is over,
`tryAcquire` once more when a stale holder was cleared. -/
inductive Tries where
  | unbounded
  | first
  | last
deriving DecidableEq

/-- What an `acquire` or a `tryAcquire` does next. -/
inductive Acquiring where
  | create (nonce : Nonce) (tries : Tries)
  | write (nonce : Nonce) (inode : ℕ)
  | cleanUp
  | hold (nonce : Nonce)
  | judge (nonce : Nonce) (tries : Tries)
  | stat (nonce : Nonce) (tries : Tries)
  | clear (nonce : Nonce) (tries : Tries)

/-- The tries that are left once a stale holder was cleared. -/
def Tries.again : Tries → Tries
  | .first => .last
  | tries => tries

/-- What an acquisition does that finds the lock held. -/
def Tries.waits (nonce : Nonce) : Tries → Option Acquiring
  | .first => none
  | tries => some (.create nonce tries)

/-- A call that waits for the rewrites before it. -/
inductive Job where
  | extend
  | rekey
  | publishSkipping (nonces : List Nonce)
  | release
deriving DecidableEq

/-- What the rewrite under way does next; `next` is the nonce a `rekey` goes over
to. -/
inductive Stage where
  | reading
  | deciding (seen : Option Nonce)
  | replacing (info : LockInfo) (next : Option Nonce)
  | kept (next : Option Nonce)
  | cleaning

/-- A `FileLock`, with its calls under way. -/
structure Inst where
  held : Bool
  releasing : Bool
  nonce : Option Nonce
  skipping : List Nonce
  heartbeat : Bool
  queue : List Job
  stage : Option Stage
  acquiring : List Acquiring
  removing : ℕ

def Inst.initial : Inst := ⟨false, false, none, [], false, [], none, [], 0⟩

/-- The `k`-th acquisition under way goes on as `next` says, or is done. -/
def Inst.goOn (inst : Inst) (k : ℕ) (next : Option Acquiring) : Inst :=
  { inst with
    acquiring := match next with
      | some a => inst.acquiring.set k a
      | none => inst.acquiring.eraseIdx k }

/-- The path, the clock, and the instances. -/
structure World where
  file : Option LockFile
  lastCreator : Option ℕ
  insts : ℕ → Inst
  now : ℕ
  fresh : ℕ
  forcing : ℕ

def World.initial : World := ⟨none, none, fun _ => .initial, 0, 0, 0⟩

def World.setInst (w : World) (i : ℕ) (inst : Inst) : World :=
  { w with insts := Function.update w.insts i inst }

/-- `MAX_LOCK_SKIPPING`. -/
def MAX_LOCK_SKIPPING : ℕ := 1024

/-- `buildLockInfo`. -/
def buildLockInfo (settings : Settings) (now : ℕ) (nonce : Nonce) (skipping : List Nonce) :
    LockInfo :=
  ⟨nonce, now, settings.ttlMs, settings.hostname, settings.pid, skipping⟩

/-- Whether `clearStaleHolder` takes a holder for stale; `gone` is
`isProcessGone` of its pid. -/
def isStale (settings : Settings) (now : ℕ) (gone : Bool) (info : LockInfo) : Bool :=
  (if settings.sameHostPidCheck && info.hostname != settings.hostname then false else gone) ||
    decide (info.ttlMs < now - info.acquiredAt)

/-- A step: a call is made, or a call under way goes on. -/
inductive Label where
  | tick
  | acquire (i : ℕ)
  | tryAcquire (i : ℕ)
  | create (i k : ℕ)
  | write (i k : ℕ) (ok : Bool)
  | cleanUp (i k : ℕ) (ok : Bool)
  | hold (i k : ℕ)
  | judge (i k : ℕ) (gone : Bool)
  | stat (i k : ℕ)
  | clear (i k : ℕ) (ok : Bool)
  | giveUp (i k : ℕ)
  | extend (i : ℕ)
  | rekey (i : ℕ)
  | publishSkipping (i : ℕ) (nonces : List Nonce)
  | release (i : ℕ)
  | begin (i : ℕ)
  | read (i : ℕ)
  | decide (i : ℕ)
  | replace (i : ℕ) (ok : Bool)
  | settle (i : ℕ)
  | clean (i : ℕ) (ok : Bool)
  | remove (i : ℕ) (ok : Bool)
  | forceRead (expectedNonce : Nonce)
  | forceRemove (ok : Bool)

namespace World

variable (cfg : ℕ → Settings) (w : World)

/-- `acquire` and `tryAcquire`, up to their first file operation. -/
def startAcquire (i : ℕ) (tries : Tries) : World :=
  let inst := w.insts i
  let nonce : Nonce := ⟨i, w.fresh⟩
  { w.setInst i { inst with
      releasing := false, acquiring := inst.acquiring ++ [.create nonce tries] } with
    fresh := w.fresh + 1 }

/-- The `k`-th acquisition of an instance goes on. -/
def setAcquiring (i k : ℕ) (next : Option Acquiring) : World :=
  w.setInst i ((w.insts i).goOn k next)

/-- Create the file, which fails when it is there. -/
def create (i k : ℕ) : Option World :=
  match (w.insts i).acquiring[k]? with
  | some (.create nonce tries) =>
    match w.file with
    | none =>
      some { w.setAcquiring i k (some (.write nonce w.fresh)) with
        file := some ⟨i, w.fresh, none, w.now⟩
        lastCreator := some i
        fresh := w.fresh + 1 }
    | some _ =>
      some (w.setAcquiring i k (if tries = .last then none else some (.judge nonce tries)))
  | _ => none

/-- Write the text of the file that was created, wherever it now is. -/
def write (i k : ℕ) (ok : Bool) : Option World :=
  match (w.insts i).acquiring[k]? with
  | some (.write nonce inode) =>
    if ok then
      some { w.setAcquiring i k (some (.hold nonce)) with
        file := w.file.map (fun f =>
          if f.inode = inode then
            { f with info := some (buildLockInfo (cfg i) w.now nonce []), mtime := w.now }
          else f) }
    else some (w.setAcquiring i k (some .cleanUp))
  | _ => none

/-- Remove the file that could not be written; a failure is passed over. -/
def cleanUp (i k : ℕ) (ok : Bool) : Option World :=
  match (w.insts i).acquiring[k]? with
  | some .cleanUp => some { w.setAcquiring i k none with file := if ok then none else w.file }
  | _ => none

/-- The file is written: the instance holds the lock. -/
def hold (i k : ℕ) : Option World :=
  match (w.insts i).acquiring[k]? with
  | some (.hold nonce) =>
    let after := w.setAcquiring i k none
    some (after.setInst i
      { after.insts i with held := true, nonce := some nonce, heartbeat := true })
  | _ => none

/-- `clearStaleHolder`, as far as the text of the file, up to its removal. -/
def judge (i k : ℕ) (gone : Bool) : Option World :=
  match (w.insts i).acquiring[k]? with
  | some (.judge nonce tries) =>
    some (w.setAcquiring i k (match w.file.bind LockFile.info with
      | some info =>
        if isStale (cfg i) w.now gone info then some (.clear nonce tries.again)
        else tries.waits nonce
      | none => some (.stat nonce tries)))
  | _ => none

/-- `clearStaleHolder` of a file whose text could not be read, by its age. -/
def stat (i k : ℕ) : Option World :=
  match (w.insts i).acquiring[k]? with
  | some (.stat nonce tries) =>
    some (w.setAcquiring i k (match w.file with
      | none => some (.create nonce tries.again)
      | some f =>
        if w.now - f.mtime ≤ (cfg i).ttlMs then tries.waits nonce
        else some (.clear nonce tries.again)))
  | _ => none

/-- Remove the file of the stale holder; a failure is passed over. -/
def clear (i k : ℕ) (ok : Bool) : Option World :=
  match (w.insts i).acquiring[k]? with
  | some (.clear nonce tries) =>
    some { w.setAcquiring i k (some (.create nonce tries)) with
      file := if ok then none else w.file }
  | _ => none

/-- An `acquire` whose wait is over, or which is aborted. -/
def giveUp (i k : ℕ) : Option World :=
  match (w.insts i).acquiring[k]? with
  | some (.create _ .unbounded) => some (w.setAcquiring i k none)
  | _ => none

/-- A rewrite or a release is called. -/
def enqueue (i : ℕ) (job : Job) : World :=
  w.setInst i { w.insts i with queue := (w.insts i).queue ++ [job] }

/-- `release`, up to its wait for the rewrites. -/
def callRelease (i : ℕ) : World :=
  w.setInst i { w.insts i with
    releasing := true, heartbeat := false, queue := (w.insts i).queue ++ [.release] }

/-- The job whose turn it is starts: a release lets go of the lock, a rewrite
checks what the instance knows. -/
def start (i : ℕ) : Option World :=
  let inst := w.insts i
  match inst.stage, inst.queue with
  | none, .release :: rest =>
    some (w.setInst i (if inst.held then
      { inst with
        queue := rest, held := false, nonce := none, skipping := []
        removing := inst.removing + 1 }
      else { inst with queue := rest }))
  | none, _ :: rest =>
    some (w.setInst i (if !inst.held || inst.nonce.isNone || inst.releasing then
      { inst with queue := rest } else { inst with stage := some .reading }))
  | _, _ => none

/-- Read the nonce the file holds. -/
def read (i : ℕ) : Option World :=
  let inst := w.insts i
  match inst.stage with
  | some .reading =>
    some (w.setInst i { inst with
      stage := some (.deciding ((w.file.bind LockFile.info).map LockInfo.nonce)) })
  | _ => none

/-- The end of `stillOwned`, and what the rewrite is to write. -/
def decide (i : ℕ) : Option World :=
  let inst := w.insts i
  match inst.stage, inst.queue with
  | some (.deciding seen), job :: rest =>
    match seen with
    | none =>
      some (w.setInst i
        { inst with held := false, heartbeat := false, stage := none, queue := rest })
    | some current =>
      if inst.nonce ≠ some current then
        some (w.setInst i
          { inst with held := false, heartbeat := false, stage := none, queue := rest })
      else if inst.releasing then some (w.setInst i { inst with stage := none, queue := rest })
      else
        match job with
        | .rekey =>
          let nonce : Nonce := ⟨i, w.fresh⟩
          some { w.setInst i { inst with
              stage := some (.replacing (buildLockInfo (cfg i) w.now nonce inst.skipping)
                (some nonce)) } with
            fresh := w.fresh + 1 }
        | .publishSkipping nonces =>
          let skipping := nonces.take MAX_LOCK_SKIPPING
          some (w.setInst i { inst with
            skipping
            stage := some
              (.replacing (buildLockInfo (cfg i) w.now current skipping) none) })
        | _ =>
          some (w.setInst i { inst with
            stage := some
              (.replacing (buildLockInfo (cfg i) w.now current inst.skipping) none) })
  | _, _ => none

/-- Replace the file whole; a rewrite whose write fails is over. -/
def replace (i : ℕ) (ok : Bool) : Option World :=
  let inst := w.insts i
  match inst.stage with
  | some (.replacing info next) =>
    if ok then
      some { w.setInst i { inst with stage := some (.kept next) } with
        file := some ⟨i, w.fresh, some info, w.now⟩
        fresh := w.fresh + 1 }
    else some (w.setInst i { inst with stage := none, queue := inst.queue.tail })
  | _ => none

/-- `keptAfterWrite`, up to its removal, and the end of the rewrite. -/
def settle (i : ℕ) : Option World :=
  let inst := w.insts i
  match inst.stage with
  | some (.kept next) =>
    some (w.setInst i (if inst.held then
      { inst with nonce := next.or inst.nonce, stage := none, queue := inst.queue.tail }
      else { inst with stage := some .cleaning }))
  | _ => none

/-- Remove the file written after the lock was let go. -/
def clean (i : ℕ) (ok : Bool) : Option World :=
  let inst := w.insts i
  match inst.stage with
  | some .cleaning =>
    some { w.setInst i { inst with stage := none, queue := inst.queue.tail } with
      file := if ok then none else w.file }
  | _ => none

/-- The removal of a release, which only logs a failure. -/
def remove (i : ℕ) (ok : Bool) : Option World :=
  let inst := w.insts i
  match inst.removing with
  | 0 => none
  | n + 1 =>
    some { w.setInst i { inst with removing := n } with file := if ok then none else w.file }

/-- `forceRelease`, up to its removal. -/
def forceRead (expectedNonce : Nonce) : Option World :=
  if (w.file.bind LockFile.info).map LockInfo.nonce = some expectedNonce then
    some { w with forcing := w.forcing + 1 }
  else some w

/-- The removal of a `forceRelease`. -/
def forceRemove (ok : Bool) : Option World :=
  match w.forcing with
  | 0 => none
  | n + 1 => some { w with forcing := n, file := if ok then none else w.file }

/-- One step, none when it cannot be taken. -/
def step : Label → Option World
  | .tick => some { w with now := w.now + 1 }
  | .acquire i => some (w.startAcquire i .unbounded)
  | .tryAcquire i => some (w.startAcquire i .first)
  | .create i k => w.create i k
  | .write i k ok => w.write cfg i k ok
  | .cleanUp i k ok => w.cleanUp i k ok
  | .hold i k => w.hold i k
  | .judge i k gone => w.judge cfg i k gone
  | .stat i k => w.stat cfg i k
  | .clear i k ok => w.clear i k ok
  | .giveUp i k => w.giveUp i k
  | .extend i => if (w.insts i).heartbeat then some (w.enqueue i .extend) else none
  | .rekey i => some (w.enqueue i .rekey)
  | .publishSkipping i nonces => some (w.enqueue i (.publishSkipping nonces))
  | .release i => some (w.callRelease i)
  | .begin i => w.start i
  | .read i => w.read i
  | .decide i => w.decide cfg i
  | .replace i ok => w.replace i ok
  | .settle i => w.settle i
  | .clean i ok => w.clean i ok
  | .remove i ok => w.remove i ok
  | .forceRead expectedNonce => w.forceRead expectedNonce
  | .forceRemove ok => w.forceRemove ok

end World

/-- Several steps. -/
def World.steps (cfg : ℕ → Settings) : World → List Label → Option World
  | w, [] => some w
  | w, label :: labels => (w.step cfg label).bind (fun w' => World.steps cfg w' labels)

end FileLock

end Swamp
