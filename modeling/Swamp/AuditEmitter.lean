import Mathlib.Data.List.Basic
import Mathlib.Logic.Function.Basic
import Mathlib.Algebra.Group.Nat.Defs
import Swamp.RingBuffer

/-!
# The audit emitter

Events are pushed to a ring buffer.  A drain chains what is new, once, and keeps
the chained events by their position until every sink has them; it writes the
durable sinks itself, one after another, and starts a delivery of each other
sink's own, which writes until nothing is left.  One step of the model is what
runs between two awaits, and steps of different calls interleave.

A write settles on its own, and is given up on when its timeout fires first.
The handler of a settled write runs after it settled and, when the write won the
race, before the code that awaited it goes on; when the timeout won, it runs
before or after.

A drain starts whenever none runs: `flush` may start one at any time, so the
flags that ask for a drain are left out.  What is kept beside the state (the
events pushed, all that was chained, whether an overflow was met, what the
drains covered) no step reads.
-/

namespace Swamp

namespace Audit

/-- A batch handed to a sink, each event with its position. -/
structure Write (C : Type*) where
  events : List (ℕ × C)
  throughSeq : ℕ
  /-- Whether it succeeded, once it has settled. -/
  settledAs : Option Bool
  /-- Whether the timeout fired before it settled. -/
  timedOut : Bool
  /-- Whether the handler of its settlement has run. -/
  handled : Bool

/-- Where the delivery of a sink stands: none runs, it awaits a write, or it has
ended and is about to be cleared. -/
inductive Pump where
  | idle
  | awaiting (write : ℕ)
  | ending
deriving DecidableEq

/-- What the emitter keeps of a sink.  Writes are numbered in the order they
started. -/
structure Sink (C : Type*) where
  cursor : ℕ
  dropped : ℕ
  pump : Pump
  inFlight : Option ℕ
  failures : ℕ
  retryAt : ℕ
  timer : Bool
  stuckSince : Option ℕ
  writes : List (Write C)

/-- Where the drain stands: none runs, it chains the events from a position on,
it has sinks left to write, or it awaits the write of one. -/
inductive Drain (E ι : Type*) where
  | idle
  | chaining (seq : ℕ) (items : List E)
  | writing (rest : List ι)
  | awaiting (sink : ι) (write : ℕ) (rest : List ι)

/-- The outcomes of an event that `emit` tells apart. -/
inductive Outcome where
  | denied
  | success
  | other

/-- The options of an emitter, and what it reads of an event. -/
structure Settings (E C σ ρ ι : Type*) where
  sinks : List ι
  durable : ι → Bool
  /-- Whether the policy level of an event is `none`. -/
  silenced : E → Bool
  outcome : E → Outcome
  requestId : E → ρ
  /-- The hashing of an event's fields and the chain, at a position. -/
  chain : ℕ → σ → E → σ × C
  sinkBackoffBaseMs : ℕ
  sinkBackoffMaxMs : ℕ

structure World (E C σ ρ ι : Type*) where
  buffer : RingBuffer E
  deniedRequests : List ρ
  chainState : σ
  chained : List (ℕ × C)
  chainedThroughSeq : ℕ
  sinks : ι → Sink C
  drain : Drain E ι
  /-- The events pushed. -/
  emitted : List E
  /-- All that was chained, with its positions. -/
  log : List (ℕ × C)
  /-- Whether events were overwritten before they were chained. -/
  gap : Bool
  /-- Whether the writes of a sink had all settled, the last with success, when
  the drain began. -/
  calm : ι → Bool
  /-- How far the last drain had chained that found the writes of a sink so both
  when it began and when it ended. -/
  covered : ι → ℕ

variable {E C σ ρ ι : Type*}

/-- A sink nothing was handed to. -/
def Sink.initial : Sink C := ⟨0, 0, .idle, none, 0, 0, false, none, []⟩

/-- `new AuditEmitter(…)`. -/
def World.initial (capacity : ℕ) (h : 0 < capacity) (chainState : σ) : World E C σ ρ ι where
  buffer := .new capacity h
  deniedRequests := []
  chainState := chainState
  chained := []
  chainedThroughSeq := 0
  sinks := fun _ => .initial
  drain := .idle
  emitted := []
  log := []
  gap := false
  calm := fun _ => false
  covered := fun _ => 0

/-- The first position held; positions are set in order. -/
def oldestHeld (chained : List (ℕ × C)) (chainedThroughSeq : ℕ) : ℕ :=
  (chained.head?.map Prod.fst).getD (chainedThroughSeq + 1)

/-- `#clampCursor`. -/
def Sink.clampCursor (s : Sink C) (chained : List (ℕ × C)) (chainedThroughSeq : ℕ) : Sink C :=
  let oldest := oldestHeld chained chainedThroughSeq
  if oldest ≤ s.cursor + 1 then s
  else { s with dropped := s.dropped + (oldest - 1 - s.cursor), cursor := oldest - 1 }

/-- The events of `#batchFor`, for a cursor that is clamped. -/
def batchFrom (chained : List (ℕ × C)) (chainedThroughSeq cursor : ℕ) : List (ℕ × C) :=
  (List.range' (cursor + 1) (chainedThroughSeq - cursor)).filterMap
    (fun seq => (chained.lookup seq).map (fun event => (seq, event)))

/-- `#advanceCursor`. -/
def Sink.advanceCursor (s : Sink C) (throughSeq : ℕ) : Sink C :=
  if s.cursor < throughSeq then { s with cursor := throughSeq } else s

/-- What `#chainNewEvents` does to a sink when the events before `startSeq` were
overwritten. -/
def Sink.skipGap (s : Sink C) (caughtUp startSeq : ℕ) : Sink C :=
  if startSeq - 1 ≤ s.cursor then s
  else
    { s with
      dropped := if s.cursor < caughtUp then s.dropped + (caughtUp - s.cursor) else s.dropped
      cursor := startSeq - 1 }

/-- A write begins. -/
def Sink.startWrite (s : Sink C) (events : List (ℕ × C)) (throughSeq : ℕ) : Sink C :=
  { s with
    inFlight := some s.writes.length
    stuckSince := none
    writes := s.writes ++ [⟨events, throughSeq, none, false, false⟩] }

/-- `#runPump`, from the head of its loop to a write or to its end. -/
def Sink.runPump (s : Sink C) (chained : List (ℕ × C)) (chainedThroughSeq : ℕ) : Sink C :=
  let s := s.clampCursor chained chainedThroughSeq
  let events := batchFrom chained chainedThroughSeq s.cursor
  if events.isEmpty then { s with pump := .ending }
  else { s.startWrite events chainedThroughSeq with pump := .awaiting s.writes.length }

/-- `#reportStuck`, apart from its log. -/
def Sink.reportStuck (s : Sink C) (chained : List (ℕ × C)) (chainedThroughSeq : ℕ) : Sink C :=
  if s.stuckSince.isNone then s else s.clampCursor chained chainedThroughSeq

/-- `#pump`. -/
def Sink.pumpNow (s : Sink C) (chained : List (ℕ × C)) (chainedThroughSeq now : ℕ) : Sink C :=
  if s.pump ≠ .idle then s
  else if s.inFlight.isSome then s.reportStuck chained chainedThroughSeq
  else if now < s.retryAt then s
  else s.runPump chained chainedThroughSeq

/-- Whether the last write succeeded, if there was one. -/
def Sink.lastSucceeded (s : Sink C) : Bool :=
  match s.writes.getLast? with
  | none => true
  | some wr => wr.settledAs = some true

namespace World

variable [DecidableEq ι]

/-- Change what is kept of a sink. -/
def withSink (w : World E C σ ρ ι) (i : ι) (s : Sink C) : World E C σ ρ ι :=
  { w with sinks := Function.update w.sinks i s }

/-- Start or continue the delivery of a sink. -/
def pumpSink (w : World E C σ ρ ι) (now : ℕ) (i : ι) : World E C σ ρ ι :=
  w.withSink i ((w.sinks i).pumpNow w.chained w.chainedThroughSeq now)

/-- Whether every write of a sink has settled, the last with success, and what
awaited them has gone on. -/
def settled (w : World E C σ ρ ι) (i : ι) : Bool :=
  (w.sinks i).pump = .idle &&
    (match w.drain with
      | .awaiting j _ _ => j ≠ i
      | _ => true) &&
    (w.sinks i).writes.all (fun wr => wr.settledAs.isSome && wr.handled) &&
    (w.sinks i).lastSucceeded

section

variable (cfg : Settings E C σ ρ ι)

/-- `#pruneChained`. -/
def pruneChained (w : World E C σ ρ ι) : World E C σ ρ ι :=
  let behind := cfg.sinks.foldl (fun keepFrom i => min keepFrom ((w.sinks i).cursor + 1))
    (w.chainedThroughSeq + 1)
  let keepFrom := max behind w.buffer.oldestSeq
  { w with chained := w.chained.dropWhile (fun entry => entry.1 < keepFrom) }

/-- `#backoffDelay`, which is called after a failure. -/
def backoffDelay (failures : ℕ) : ℕ :=
  min cfg.sinkBackoffMaxMs (cfg.sinkBackoffBaseMs * 2 ^ (failures - 1))

/-- The event goes to the buffer. -/
def push (w : World E C σ ρ ι) (event : E) : World E C σ ρ ι :=
  { w with buffer := w.buffer.push event, emitted := w.emitted ++ [event] }

/-- `emit`. -/
def emit [DecidableEq ρ] (w : World E C σ ρ ι) (event : E) : World E C σ ρ ι :=
  if cfg.silenced event then w
  else
    match cfg.outcome event with
    | .denied =>
      let requestId := cfg.requestId event
      let added :=
        if requestId ∈ w.deniedRequests then w.deniedRequests
        else w.deniedRequests ++ [requestId]
      { w with deniedRequests := if 10000 < added.length then added.tail else added }.push event
    | .success => if cfg.requestId event ∈ w.deniedRequests then w else w.push event
    | .other => w.push event

/-- A drain begins, up to the first event to chain. -/
def beginDrain (w : World E C σ ρ ι) : World E C σ ρ ι :=
  let reading := w.buffer.readFrom w.chainedThroughSeq
  let w := { w with calm := w.settled }
  if reading.items.isEmpty then { w with drain := .writing cfg.sinks }
  else if w.chainedThroughSeq + 1 < reading.startSeq then
    { w with
      sinks := fun i => (w.sinks i).skipGap w.chainedThroughSeq reading.startSeq
      chained := []
      chainedThroughSeq := reading.startSeq - 1
      gap := true
      drain := .chaining reading.startSeq reading.items }
  else { w with drain := .chaining reading.startSeq reading.items }

/-- The drain chains an event. -/
def chainNext (w : World E C σ ρ ι) : Option (World E C σ ρ ι) :=
  match w.drain with
  | .chaining seq (event :: items) =>
    let (chainState, chainedEvent) := cfg.chain seq w.chainState event
    some
      { w with
        chainState
        chained := w.chained ++ [(seq, chainedEvent)]
        chainedThroughSeq := seq
        log := w.log ++ [(seq, chainedEvent)]
        drain := if items.isEmpty then .writing cfg.sinks else .chaining (seq + 1) items }
  | _ => none

/-- The drain comes to a sink and writes it when it is durable. -/
def durableNext (w : World E C σ ρ ι) : Option (World E C σ ρ ι) :=
  match w.drain with
  | .writing (i :: rest) =>
    let next := { w with drain := .writing rest }
    let s := w.sinks i
    if !cfg.durable i then some next
    else if s.stuckSince.isSome then
      some (next.withSink i (s.reportStuck w.chained w.chainedThroughSeq))
    else
      let s := s.clampCursor w.chained w.chainedThroughSeq
      let events := batchFrom w.chained w.chainedThroughSeq s.cursor
      if events.isEmpty then some (next.withSink i s)
      else
        some ({ w with drain := .awaiting i s.writes.length rest }.withSink i
          (s.startWrite events w.chainedThroughSeq))
  | _ => none

/-- The drain goes on after a durable write or its timeout. -/
def durableGo (w : World E C σ ρ ι) (now : ℕ) : Option (World E C σ ρ ι) :=
  match w.drain with
  | .awaiting i k rest =>
    let s := w.sinks i
    match s.writes[k]? with
    | none => none
    | some wr =>
      let next := { w with drain := .writing rest }
      if wr.handled && wr.settledAs = some true then
        some (next.withSink i ({ s with inFlight := none }.advanceCursor wr.throughSeq))
      else if wr.timedOut && s.inFlight = some k then
        some (next.withSink i { s with stuckSince := some now })
      else if wr.timedOut || wr.handled then
        some (next.withSink i { s with inFlight := none })
      else none
  | _ => none

/-- The drain ends: the other sinks are delivered to. -/
def endDrain (w : World E C σ ρ ι) (now : ℕ) : Option (World E C σ ρ ι) :=
  match w.drain with
  | .writing [] =>
    let covered := fun i =>
      if w.calm i && w.settled i then w.chainedThroughSeq else w.covered i
    some ((cfg.sinks.filter (fun i => !cfg.durable i)).foldl (pumpSink · now ·)
      ({ w with drain := .idle, covered := covered }.pruneChained cfg))
  | _ => none

/-- A write settles. -/
def settle (w : World E C σ ρ ι) (i : ι) (k : ℕ) (succeeded : Bool) :
    Option (World E C σ ρ ι) :=
  let s := w.sinks i
  match s.writes[k]? with
  | none => none
  | some wr =>
    if wr.settledAs.isSome then none
    else some (w.withSink i
      { s with writes := s.writes.set k { wr with settledAs := some succeeded } })

/-- The timeout of a write fires. -/
def timeout (w : World E C σ ρ ι) (i : ι) (k : ℕ) : Option (World E C σ ρ ι) :=
  let s := w.sinks i
  match s.writes[k]? with
  | none => none
  | some wr =>
    if wr.settledAs.isSome || wr.timedOut then none
    else some (w.withSink i { s with writes := s.writes.set k { wr with timedOut := true } })

/-- `#resumeDurableAfterLateSettle`. -/
def resumeDurableAfterLateSettle (w : World E C σ ρ ι) (i : ι) (succeeded : Bool)
    (throughSeq : ℕ) : World E C σ ρ ι :=
  let s := { w.sinks i with stuckSince := none }
  if succeeded then (w.withSink i (s.advanceCursor throughSeq)).pruneChained cfg
  else w.withSink i s

/-- `#resumeAfterLateSettle`. -/
def resumeAfterLateSettle (w : World E C σ ρ ι) (i : ι) (succeeded : Bool)
    (throughSeq now : ℕ) : World E C σ ρ ι :=
  let s := { w.sinks i with stuckSince := none }
  let resumed :=
    if succeeded then
      (w.withSink i ({ s with failures := 0, retryAt := 0 }.advanceCursor throughSeq)).pruneChained
        cfg
    else w.withSink i { s with retryAt := now + backoffDelay cfg s.failures }
  let s := resumed.sinks i
  if s.retryAt ≤ now then resumed.pumpSink now i
  else if !succeeded || !s.timer then resumed.withSink i { s with timer := true }
  else resumed

/-- The handler of a settled write runs. -/
def handle (w : World E C σ ρ ι) (i : ι) (k now : ℕ) : Option (World E C σ ρ ι) :=
  let s := w.sinks i
  match s.writes[k]? with
  | none => none
  | some wr =>
    match wr.settledAs with
    | none => none
    | some succeeded =>
      if wr.handled then none
      else
        let s := { s with writes := s.writes.set k { wr with handled := true } }
        if s.inFlight ≠ some k then some (w.withSink i s)
        else
          let next := w.withSink i { s with inFlight := none }
          if s.stuckSince.isNone then some next
          else if cfg.durable i then
            some (next.resumeDurableAfterLateSettle cfg i succeeded wr.throughSeq)
          else some (next.resumeAfterLateSettle cfg i succeeded wr.throughSeq now)

/-- The delivery of a sink goes on after a write or its timeout. -/
def pumpGo (w : World E C σ ρ ι) (i : ι) (now : ℕ) : Option (World E C σ ρ ι) :=
  let s := w.sinks i
  match s.pump with
  | .awaiting k =>
    match s.writes[k]? with
    | none => none
    | some wr =>
      if wr.timedOut then
        let failed :=
          { s with
            failures := s.failures + 1
            retryAt := now + backoffDelay cfg (s.failures + 1)
            stuckSince := if s.inFlight = some k then some now else s.stuckSince
            timer := true
            pump := .ending }
        some (w.withSink i failed)
      else if !wr.handled then none
      else if wr.settledAs = some true then
        let next := (w.withSink i
          ({ s with failures := 0, retryAt := 0 }.advanceCursor wr.throughSeq)).pruneChained cfg
        some (next.withSink i ((next.sinks i).runPump next.chained next.chainedThroughSeq))
      else
        let failed :=
          { s with
            failures := s.failures + 1
            retryAt := now + backoffDelay cfg (s.failures + 1)
            timer := true
            pump := .ending }
        some (w.withSink i failed)
  | _ => none

/-- The delivery that has ended is cleared. -/
def pumpDone (w : World E C σ ρ ι) (i : ι) : Option (World E C σ ρ ι) :=
  match (w.sinks i).pump with
  | .ending => some (w.withSink i { w.sinks i with pump := .idle })
  | _ => none

/-- The retry timer of a sink fires. -/
def timerFires (w : World E C σ ρ ι) (i : ι) (now : ℕ) : Option (World E C σ ρ ι) :=
  if (w.sinks i).timer then
    some ((w.withSink i { w.sinks i with timer := false, retryAt := 0 }).pumpSink now i)
  else none

end

end World

/-- A step, with the instant it reads from the clock. -/
inductive Label (E ι : Type*) where
  | emit (event : E)
  | drain
  | chainNext
  | durableNext
  | durableGo (now : ℕ)
  | endDrain (now : ℕ)
  | settle (sink : ι) (write : ℕ) (succeeded : Bool)
  | timeout (sink : ι) (write : ℕ)
  | handle (sink : ι) (write now : ℕ)
  | pumpGo (sink : ι) (now : ℕ)
  | pumpDone (sink : ι)
  | timerFires (sink : ι) (now : ℕ)

/-- One step, none when it cannot be taken. -/
def World.step [DecidableEq ι] [DecidableEq ρ] (cfg : Settings E C σ ρ ι) (w : World E C σ ρ ι) :
    Label E ι → Option (World E C σ ρ ι)
  | .emit event => some (w.emit cfg event)
  | .drain =>
    match w.drain with
    | .idle => some (w.beginDrain cfg)
    | _ => none
  | .chainNext => w.chainNext cfg
  | .durableNext => w.durableNext cfg
  | .durableGo now => w.durableGo now
  | .endDrain now => w.endDrain cfg now
  | .settle i k succeeded => w.settle i k succeeded
  | .timeout i k => w.timeout i k
  | .handle i k now => w.handle cfg i k now
  | .pumpGo i now => w.pumpGo cfg i now
  | .pumpDone i => w.pumpDone i
  | .timerFires i now => w.timerFires i now

/-- Several steps. -/
def World.steps [DecidableEq ι] [DecidableEq ρ] (cfg : Settings E C σ ρ ι) :
    World E C σ ρ ι → List (Label E ι) → Option (World E C σ ρ ι)
  | w, [] => some w
  | w, label :: labels => (w.step cfg label).bind (fun w' => World.steps cfg w' labels)

end Audit

end Swamp
