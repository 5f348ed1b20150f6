import Mathlib.Data.List.Basic
import Mathlib.Order.Basic
import Mathlib.Data.Nat.Basic
import Swamp.AuditEmitter
import Swamp.OrderedMap

/-!
# One audit sink

What was chained is a list of positions that only grows, and what is held of it
is its end (`Held.batch`).  A sink has at most one write that is not accounted
for; every success before it is at or below the cursor, and the write itself is
above (`SinkOk`).
-/

namespace Swamp

namespace Audit

variable {E C σ ρ ι : Type*}

/-- Events at their positions, chained in that order. -/
def chainAll (chain : ℕ → σ → E → σ × C) : σ → List (ℕ × E) → σ × List (ℕ × C)
  | state, [] => (state, [])
  | state, (seq, event) :: events =>
    let (after, chainedEvent) := chain seq state event
    let (last, rest) := chainAll chain after events
    (last, (seq, chainedEvent) :: rest)

theorem chainAll_concat (chain : ℕ → σ → E → σ × C) (state : σ) (events : List (ℕ × E)) (seq : ℕ)
    (event : E) :
    chainAll chain state (events ++ [(seq, event)]) =
      ((chain seq (chainAll chain state events).1 event).1,
        (chainAll chain state events).2 ++
          [(seq, (chain seq (chainAll chain state events).1 event).2)]) := by
  induction events generalizing state with
  | nil => rfl
  | cons p events ih =>
    simp only [List.cons_append, chainAll, ih]

theorem chainAll_positions (chain : ℕ → σ → E → σ × C) (state : σ) (events : List (ℕ × E)) :
    (chainAll chain state events).2.map Prod.fst = events.map Prod.fst := by
  induction events generalizing state with
  | nil => rfl
  | cons p events ih => simp only [chainAll, List.map_cons, ih]

/-- The events emitted, numbered from 1. -/
def numbered (emitted : List E) : List (ℕ × E) := (emitted.zipIdx 1).map Prod.swap

/-- Events stand at the positions they were emitted at. -/
structure Placed (emitted : List E) (through : ℕ) (events : List (ℕ × E)) : Prop where
  increasing : (events.map Prod.fst).Pairwise (· < ·)
  bound : ∀ p ∈ events, p.1 ≤ through
  emitted : ∀ p ∈ events, 0 < p.1 ∧ emitted[p.1 - 1]? = some p.2

/-- What is held: the end of what was chained, without a gap. -/
structure Held (log chained : List (ℕ × C)) (through : ℕ) : Prop where
  suffix : ∃ k, chained = log.drop k
  length : chained.length ≤ through
  positions : chained.map Prod.fst = List.range' (through + 1 - chained.length) chained.length

theorem Held.oldest {log chained : List (ℕ × C)} {through : ℕ} (h : Held log chained through) :
    oldestHeld chained through = through + 1 - chained.length := by
  have hpositions := h.positions
  unfold oldestHeld
  cases chained with
  | nil => rfl
  | cons p rest =>
    rw [List.map_cons, List.length_cons, List.range'_succ] at hpositions
    exact (List.cons.inj hpositions).1

theorem lookup_of_increasing {l : List (ℕ × C)} (h : (l.map Prod.fst).Pairwise (· < ·))
    {p : ℕ × C} (hp : p ∈ l) : l.lookup p.1 = some p.2 :=
  OrderedMap.lookup_of_mem (h.imp (fun hlt => Nat.ne_of_lt hlt)) hp

variable {cursor : ℕ}

/-- **The batch of a clamped cursor is what was chained after it.** -/
theorem Held.batch {log chained : List (ℕ × C)} {through : ℕ} (h : Held log chained through)
    (hclamped : oldestHeld chained through ≤ cursor + 1) (hcursor : cursor ≤ through) :
    (∃ k, batchFrom chained through cursor = log.drop k) ∧
      (batchFrom chained through cursor).map Prod.fst =
        List.range' (cursor + 1) (through - cursor) := by
  obtain ⟨k, hk⟩ := h.suffix
  have hlength := h.length
  rw [h.oldest] at hclamped
  have hdropped : (chained.drop (cursor + chained.length - through)).map Prod.fst =
      List.range' (cursor + 1) (through - cursor) := by
    rw [List.map_drop, h.positions, List.drop_range', Nat.mul_one]
    congr 1 <;> omega
  have hincreasing : (chained.map Prod.fst).Pairwise (· < ·) := by
    rw [h.positions]
    exact List.pairwise_lt_range'
  have hbatch : batchFrom chained through cursor =
      chained.drop (cursor + chained.length - through) := by
    unfold batchFrom
    rw [← hdropped, List.filterMap_map]
    conv_rhs => rw [← List.filterMap_some (l := chained.drop (cursor + chained.length - through))]
    apply List.filterMap_congr
    intro p hp
    have hlookup := lookup_of_increasing hincreasing (List.mem_of_mem_drop hp)
    show (chained.lookup p.1).map (fun event => (p.1, event)) = some p
    rw [hlookup]
    rfl
  rw [hbatch]
  refine ⟨⟨k + (cursor + chained.length - through), ?_⟩, hdropped⟩
  rw [hk, List.drop_drop]

theorem Held.dropWhile {log chained : List (ℕ × C)} {through : ℕ} (h : Held log chained through)
    (keepFrom : ℕ) : Held log (chained.dropWhile (fun p => p.1 < keepFrom)) through := by
  induction chained with
  | nil => exact h
  | cons p rest ih =>
    rw [List.dropWhile_cons]
    split
    · refine ih ⟨?_, ?_, ?_⟩
      · obtain ⟨k, hk⟩ := h.suffix
        refine ⟨k + 1, ?_⟩
        rw [← List.drop_drop, ← hk]
        rfl
      · have hlength := h.length
        rw [List.length_cons] at hlength
        omega
      · have hlength := h.length
        have hpositions := h.positions
        rw [List.length_cons] at hlength
        rw [List.map_cons, List.length_cons, List.range'_succ] at hpositions
        have htail := (List.cons.inj hpositions).2
        rw [htail]
        congr 1
        omega
    · exact h

theorem Held.append {log chained : List (ℕ × C)} {through : ℕ} (h : Held log chained through)
    (chainedEvent : C) :
    Held (log ++ [(through + 1, chainedEvent)]) (chained ++ [(through + 1, chainedEvent)])
      (through + 1) := by
  have hlength := h.length
  refine ⟨?_, ?_, ?_⟩
  · obtain ⟨k, hk⟩ := h.suffix
    refine ⟨min k log.length, ?_⟩
    rw [List.drop_append_of_le_length (Nat.min_le_right _ _), hk]
    congr 1
    by_cases hle : k ≤ log.length
    · rw [Nat.min_eq_left hle]
    · rw [Nat.min_eq_right (by omega), List.drop_length, List.drop_eq_nil_of_le (by omega)]
  · rw [List.length_append, List.length_singleton]
    omega
  · rw [List.map_append, h.positions, List.length_append, List.length_singleton, List.range'_concat]
    have hfirst : through + 1 + 1 - (chained.length + 1) = through + 1 - chained.length := by omega
    have hlast : through + 1 - chained.length + 1 * chained.length = through + 1 := by omega
    rw [hfirst, hlast]
    rfl

/-- What the successful of some writes stored, in the order they started. -/
def stored (writes : List (Write C)) : List (ℕ × C) :=
  (writes.filter (fun wr => wr.settledAs = some true)).flatMap Write.events

theorem stored_concat (writes : List (Write C)) (wr : Write C) :
    stored (writes ++ [wr]) =
      if wr.settledAs = some true then stored writes ++ wr.events else stored writes := by
  unfold stored
  rw [List.filter_append, List.flatMap_append]
  split
  · rename_i hsuccess
    rw [List.filter_cons_of_pos (by simpa using hsuccess)]
    simp
  · rename_i hfailure
    rw [List.filter_cons_of_neg (by simpa using hfailure)]
    simp

/-- What a batch is of all that was chained. -/
structure Write.Ok (log : List (ℕ × C)) (through : ℕ) (wr : Write C) : Prop where
  bound : wr.throughSeq ≤ through
  events : ∀ p ∈ wr.events, p ∈ log ∧ p.1 ≤ wr.throughSeq
  increasing : (wr.events.map Prod.fst).Pairwise (· < ·)
  answered : wr.handled = true → wr.settledAs.isSome = true

/-- A write nothing waits for any more, and the cursor knows of its success. -/
structure Write.Accounted (cursor : ℕ) (wr : Write C) : Prop where
  handled : wr.handled = true
  settled : wr.settledAs.isSome = true
  cursor : wr.settledAs = some true → wr.throughSeq ≤ cursor

/-- The write that whoever delivers to a sink awaits. -/
def Sink.held (s : Sink C) (fromDrain : Option ℕ) : Option ℕ :=
  match s.pump with
  | .awaiting k => some k
  | _ => fromDrain

/-- Where the last write stands that is not accounted for: awaited, settled and
about to be taken note of, or outstanding past its timeout. -/
inductive Phase (durable : Bool) (fromDrain : Option ℕ) (s : Sink C) (k : ℕ) (wr : Write C) : Prop
  | awaited (hheld : s.held fromDrain = some k) (hflight : s.inFlight = some k)
      (hstuck : s.stuckSince = none) (hhandled : wr.handled = false)
  | answered (hheld : s.held fromDrain = some k) (hflight : s.inFlight = none)
      (hstuck : s.stuckSince = none) (hhandled : wr.handled = true)
      (hlate : wr.timedOut = true → wr.settledAs = some true → durable = true)
  | stuck (hheld : s.held fromDrain = none) (hflight : s.inFlight = some k)
      (hstuck : s.stuckSince.isSome = true) (hhandled : wr.handled = false)
      (htimedOut : wr.timedOut = true)

/-- Either every write is accounted for, or every one but the last. -/
inductive Stand (durable : Bool) (log : List (ℕ × C)) (gap : Bool) (fromDrain : Option ℕ)
    (s : Sink C) : Prop
  | free (hheld : s.held fromDrain = none) (hflight : s.inFlight = none)
      (hstuck : s.stuckSince = none) (hwrites : ∀ wr ∈ s.writes, wr.Accounted s.cursor)
      (hexact : gap = false → s.dropped = 0 → stored s.writes = log.take s.cursor)
      (hretry : durable = false → s.lastSucceeded = true → s.retryAt = 0)
  | busy (init : List (Write C)) (wr : Write C) (hwrites : s.writes = init ++ [wr])
      (hinit : ∀ a ∈ init, a.Accounted s.cursor)
      (hexact : gap = false → s.dropped = 0 → stored init = log.take s.cursor ∧
        wr.events = (log.take wr.throughSeq).drop s.cursor ∧ s.cursor ≤ wr.throughSeq)
      (hphase : Phase durable fromDrain s init.length wr)

/-- No success before another write reaches what that write holds. -/
def InOrder (writes : List (Write C)) : Prop :=
  writes.Pairwise (fun a b =>
    a.settledAs = some true → ∀ p ∈ a.events, ∀ q ∈ b.events, p.1 < q.1)

structure SinkOk (durable : Bool) (log : List (ℕ × C)) (through : ℕ) (gap : Bool)
    (fromDrain : Option ℕ) (s : Sink C) : Prop where
  cursor : s.cursor ≤ through
  writes : ∀ wr ∈ s.writes, wr.Ok log through
  ordered : InOrder s.writes
  stand : Stand durable log gap fromDrain s
  pump : durable = true → s.pump = .idle
  timer : durable = true → s.timer = false

/-- How far a sink gets once its last write succeeds. -/
def Sink.reach (s : Sink C) : ℕ := max s.cursor ((s.writes.map Write.throughSeq).getLast?.getD 0)

/-- What every operation on a sink keeps. -/
structure Grows (durable : Bool) (s s' : Sink C) : Prop where
  reach : s.reach ≤ s'.reach
  flight : durable = true → s.inFlight = none → s'.inFlight = none

variable {init : List (Write C)} {wr : Write C}

theorem Sink.last_mem {s : Sink C} (h : s.writes = init ++ [wr]) : wr ∈ s.writes := by
  rw [h]
  exact List.mem_append_right _ List.mem_cons_self

theorem advanceCursor_eq (s : Sink C) (throughSeq : ℕ) :
    s.advanceCursor throughSeq = { s with cursor := max s.cursor throughSeq } := by
  unfold Sink.advanceCursor
  split
  · rw [Nat.max_eq_right (by omega)]
  · rw [Nat.max_eq_left (by omega)]

theorem Write.Accounted.mono {cursor' : ℕ} (h : wr.Accounted cursor) (hle : cursor ≤ cursor') :
    wr.Accounted cursor' :=
  ⟨h.handled, h.settled, fun hsuccess => (h.cursor hsuccess).trans hle⟩

theorem Write.Ok.mono {log log' : List (ℕ × C)} {through through' : ℕ} (h : wr.Ok log through)
    (hlog : log <+: log') (hle : through ≤ through') :
    wr.Ok log' through' where
  bound := h.bound.trans hle
  events := fun p hp => ⟨hlog.subset (h.events p hp).1, (h.events p hp).2⟩
  increasing := h.increasing
  answered := h.answered

/-- A cursor moves on, and more is chained.  A sink that nothing was dropped for
is where it was. -/
theorem SinkOk.moved {durable : Bool} {log log' : List (ℕ × C)} {through through' : ℕ}
    {gap gap' : Bool} {fromDrain : Option ℕ} {s : Sink C} {dropped : ℕ}
    (h : SinkOk durable log through gap fromDrain s) (hlog : log <+: log')
    (hthrough : through ≤ through') (hgap : gap' = false → gap = false ∧ log.length = through)
    (hle : s.cursor ≤ cursor) (hcursor : cursor ≤ through')
    (hsame : gap' = false → dropped = 0 → cursor = s.cursor ∧ s.dropped = 0) :
    SinkOk durable log' through' gap' fromDrain
      { s with cursor := cursor, dropped := dropped } where
  cursor := hcursor
  writes := fun wr hwr => (h.writes wr hwr).mono hlog hthrough
  ordered := h.ordered
  pump := h.pump
  timer := h.timer
  stand := by
    obtain ⟨tail, rfl⟩ := hlog
    have htake : ∀ n ≤ through, gap' = false → (log ++ tail).take n = log.take n := by
      intro n hn hno
      exact List.take_append_of_le_length ((hgap hno).2 ▸ hn)
    cases h.stand with
    | free hheld hflight hstuck hwrites hexact hretry =>
      refine .free hheld hflight hstuck (fun wr hwr => (hwrites wr hwr).mono hle) ?_ hretry
      intro hno hzero
      obtain ⟨heq, hdropped⟩ := hsame hno hzero
      show stored s.writes = (log ++ tail).take cursor
      rw [heq, htake _ h.cursor hno]
      exact hexact (hgap hno).1 hdropped
    | busy init wr hwrites hinit hexact hphase =>
      refine .busy init wr hwrites (fun a ha => (hinit a ha).mono hle) ?_ ?_
      · intro hno hzero
        obtain ⟨heq, hdropped⟩ := hsame hno hzero
        have hwr := h.writes wr (Sink.last_mem hwrites)
        show stored init = (log ++ tail).take cursor ∧
          wr.events = ((log ++ tail).take wr.throughSeq).drop cursor ∧ cursor ≤ wr.throughSeq
        rw [heq, htake _ h.cursor hno, htake _ hwr.bound hno]
        exact hexact (hgap hno).1 hdropped
      · cases hphase with
        | awaited hheld hflight hstuck hhandled => exact .awaited hheld hflight hstuck hhandled
        | answered hheld hflight hstuck hhandled hlate =>
          exact .answered hheld hflight hstuck hhandled hlate
        | stuck hheld hflight hstuck hhandled htimedOut =>
          exact .stuck hheld hflight hstuck hhandled htimedOut

theorem clampCursor_cases {log chained : List (ℕ × C)} {through : ℕ}
    (hheld : Held log chained through) {s : Sink C} (hcursor : s.cursor ≤ through) :
    ∃ cursor dropped,
      s.clampCursor chained through = { s with cursor := cursor, dropped := dropped } ∧
      s.cursor ≤ cursor ∧ cursor ≤ through ∧ oldestHeld chained through ≤ cursor + 1 ∧
      (dropped = 0 → cursor = s.cursor ∧ s.dropped = 0) := by
  have holdest := hheld.oldest
  unfold Sink.clampCursor
  dsimp only
  split
  · rename_i hclamped
    exact ⟨s.cursor, s.dropped, rfl, le_refl _, hcursor, hclamped, fun hzero => ⟨rfl, hzero⟩⟩
  · rename_i hbehind
    exact ⟨_, _, rfl, by omega, by omega, by omega, fun hzero => by omega⟩

theorem skipGap_cases (s : Sink C) {caughtUp startSeq : ℕ} (hstart : caughtUp < startSeq)
    (hcursor : s.cursor ≤ caughtUp) :
    ∃ cursor dropped,
      s.skipGap caughtUp startSeq = { s with cursor := cursor, dropped := dropped } ∧
      s.cursor ≤ cursor ∧ cursor ≤ startSeq - 1 := by
  unfold Sink.skipGap
  split
  · exact ⟨s.cursor, s.dropped, rfl, le_refl _, by omega⟩
  · exact ⟨_, _, rfl, by omega, le_refl _⟩

theorem grows_refl (durable : Bool) (s : Sink C) : Grows durable s s := ⟨le_refl _, fun _ h => h⟩

theorem Grows.trans {durable : Bool} {s s' s'' : Sink C} (h : Grows durable s s')
    (h' : Grows durable s' s'') : Grows durable s s'' where
  reach := h.reach.trans h'.reach
  flight := fun hdurable hnone => h'.flight hdurable (h.flight hdurable hnone)

theorem Grows.of_cursor {durable : Bool} {s s' : Sink C} (hcursor : s.cursor ≤ s'.cursor)
    (hwrites : s'.writes.map Write.throughSeq = s.writes.map Write.throughSeq)
    (hflight : s.inFlight = none → s'.inFlight = none) : Grows durable s s' where
  reach := by
    unfold Sink.reach
    rw [hwrites]
    omega
  flight := fun _ => hflight

theorem reach_concat {s : Sink C} (h : s.writes = init ++ [wr]) :
    s.reach = max s.cursor wr.throughSeq := by
  unfold Sink.reach
  rw [h, List.map_append, List.map_singleton, List.getLast?_concat]
  rfl

section

variable {durable : Bool} {log chained : List (ℕ × C)} {through : ℕ} {gap : Bool}
  {fromDrain : Option ℕ} {s : Sink C}

theorem SinkOk.clampCursor (h : SinkOk durable log through gap fromDrain s)
    (hheld : Held log chained through) (hgap : gap = false → log.length = through) :
    SinkOk durable log through gap fromDrain (s.clampCursor chained through) ∧
      Grows durable s (s.clampCursor chained through) := by
  obtain ⟨cursor, dropped, heq, hle, hcursor, -, hsame⟩ := clampCursor_cases hheld h.cursor
  rw [heq]
  exact ⟨h.moved (List.prefix_refl log) (le_refl _) (fun hno => ⟨hno, hgap hno⟩) hle hcursor
    (fun _ => hsame), .of_cursor hle rfl id⟩

theorem SinkOk.reach_le (h : SinkOk durable log through gap fromDrain s) : s.reach ≤ through := by
  have hcursor := h.cursor
  unfold Sink.reach
  rcases List.eq_nil_or_concat' s.writes with hnil | ⟨init, wr, hwrites⟩
  · rw [hnil]
    exact Nat.max_le.mpr ⟨hcursor, Nat.zero_le _⟩
  · have hwr := h.writes wr (Sink.last_mem hwrites)
    rw [hwrites, List.map_append, List.map_singleton, List.getLast?_concat]
    exact Nat.max_le.mpr ⟨hcursor, hwr.bound⟩

/-- **A write begins where no other is left.** -/
theorem SinkOk.startWrite {events : List (ℕ × C)} {fromDrain' : Option ℕ} (pump : Pump)
    (h : SinkOk durable log through gap fromDrain s) (hheld : s.held fromDrain = none)
    (hflight : s.inFlight = none) (hlog : ∃ k, events = log.drop k)
    (hpositions : events.map Prod.fst = List.range' (s.cursor + 1) (through - s.cursor))
    (hincreasing : (log.map Prod.fst).Pairwise (· < ·))
    (hgap : gap = false → log.length = through)
    (hpump : durable = true → pump = .idle)
    (hnext : { s.startWrite events through with pump := pump }.held fromDrain' =
      some s.writes.length) :
    SinkOk durable log through gap fromDrain'
      { s.startWrite events through with pump := pump } := by
  obtain ⟨k, rfl⟩ := hlog
  have hafter : ∀ p ∈ log.drop k, s.cursor < p.1 ∧ p.1 ≤ through := by
    intro p hp
    have hmem := List.mem_map_of_mem (f := Prod.fst) hp
    rw [hpositions, List.mem_range'_1] at hmem
    have hcursor := h.cursor
    omega
  cases h.stand with
  | busy init wr hwrites hinit hexact hphase =>
    cases hphase with
    | awaited hheld' _ _ _ | answered hheld' _ _ _ _ => rw [hheld] at hheld'; cases hheld'
    | stuck _ hflight' _ _ _ => rw [hflight] at hflight'; cases hflight'
  | free _ _ _ hwrites hexact _ =>
    refine ⟨h.cursor, ?_, ?_, ?_, hpump, h.timer⟩
    · intro wr hwr
      rcases List.mem_append.mp hwr with hwr | hwr
      · exact h.writes wr hwr
      · rw [List.mem_singleton.mp hwr]
        refine ⟨le_refl _, fun p hp => ⟨List.mem_of_mem_drop hp, (hafter p hp).2⟩, ?_, nofun⟩
        rw [List.map_drop]
        exact hincreasing.sublist (List.drop_sublist _ _)
    · refine List.pairwise_append.mpr ⟨h.ordered, List.pairwise_singleton _ _, ?_⟩
      intro a ha b hb hsuccess p hp q hq
      rw [List.mem_singleton.mp hb] at hq
      have hbound := ((h.writes a ha).events p hp).2
      have hcursor := (hwrites a ha).cursor hsuccess
      have hq' := (hafter q hq).1
      omega
    · refine .busy s.writes _ rfl hwrites ?_ (.awaited hnext rfl rfl rfl)
      intro hno hzero
      refine ⟨hexact hno hzero, ?_, h.cursor⟩
      have hlength := hgap hno
      have hcount := congrArg List.length hpositions
      rw [List.length_map, List.length_drop, List.length_range'] at hcount
      show log.drop k = (log.take through).drop s.cursor
      rw [List.take_of_length_le (by omega)]
      by_cases hk : k = s.cursor
      · rw [hk]
      · have hcursor := h.cursor
        rw [List.drop_eq_nil_of_le (by omega), List.drop_eq_nil_of_le (by omega)]

theorem SinkOk.repump (h : SinkOk false log through gap none s) (hfree : s.held none = none)
    (pump : Pump) (hpump : ∀ k, pump ≠ .awaiting k) :
    SinkOk false log through gap none { s with pump := pump } := by
  have hheld : { s with pump := pump }.held none = none := by
    unfold Sink.held
    cases pump with
    | idle | ending => rfl
    | awaiting k => exact absurd rfl (hpump k)
  refine ⟨h.cursor, h.writes, h.ordered, ?_, nofun, nofun⟩
  cases h.stand with
  | free _ hflight hstuck hwrites hexact hretry =>
    exact .free hheld hflight hstuck hwrites hexact hretry
  | busy init wr hwrites hinit hexact hphase =>
    refine .busy init wr hwrites hinit hexact ?_
    cases hphase with
    | awaited hheld' _ _ _ | answered hheld' _ _ _ _ => rw [hfree] at hheld'; cases hheld'
    | stuck _ hflight hstuck hhandled htimedOut =>
      exact .stuck hheld hflight hstuck hhandled htimedOut

/-- **A delivery goes as far as was chained, or begins a write that does.** -/
theorem SinkOk.runPump (h : SinkOk false log through gap none s) (hfree : s.held none = none)
    (hflight : s.inFlight = none) (hheld : Held log chained through)
    (hincreasing : (log.map Prod.fst).Pairwise (· < ·)) (hgap : gap = false → log.length = through)
    (pump : Pump) :
    SinkOk false log through gap none ({ s with pump := pump }.runPump chained through) ∧
      Grows false s ({ s with pump := pump }.runPump chained through) ∧
      through ≤ ({ s with pump := pump }.runPump chained through).reach := by
  obtain ⟨cursor, dropped, heq, hle, hcursor, hclamped, hsame⟩ :=
    clampCursor_cases hheld (s := { s with pump := pump }) h.cursor
  have hmoved := h.moved (List.prefix_refl log) (le_refl _) (fun hno => ⟨hno, hgap hno⟩) hle hcursor
    (fun _ => hsame)
  obtain ⟨hlog, hpositions⟩ := hheld.batch hclamped hcursor
  unfold Sink.runPump
  rw [heq]
  dsimp only
  split
  · rename_i hempty
    rw [List.isEmpty_iff.mp hempty] at hpositions
    have hcount := congrArg List.length hpositions
    rw [List.map_nil, List.length_nil, List.length_range'] at hcount
    refine ⟨hmoved.repump hfree .ending (by simp), .of_cursor hle rfl id, ?_⟩
    unfold Sink.reach
    dsimp only
    omega
  · have hreach : ∀ {s' : Sink C} {wr : Write C}, s'.writes = s.writes ++ [wr] →
        wr.throughSeq = through → through ≤ s'.reach := by
      intro s' wr hwrites hthrough
      rw [reach_concat hwrites, hthrough]
      exact Nat.le_max_right _ _
    exact ⟨hmoved.startWrite (.awaiting s.writes.length) hfree hflight hlog hpositions
      hincreasing hgap nofun rfl, ⟨h.reach_le.trans (hreach rfl rfl), nofun⟩, hreach rfl rfl⟩

theorem held_of_pump (fromDrain : Option ℕ) (hpump : s.pump = .idle) :
    s.held fromDrain = fromDrain := by
  unfold Sink.held
  rw [hpump]

theorem SinkOk.pumpNow (h : SinkOk false log through gap none s) (hheld : Held log chained through)
    (hincreasing : (log.map Prod.fst).Pairwise (· < ·)) (hgap : gap = false → log.length = through)
    (now : ℕ) :
    SinkOk false log through gap none (s.pumpNow chained through now) ∧
      Grows false s (s.pumpNow chained through now) ∧
      (s.pump = .idle → s.inFlight = none → s.retryAt = 0 →
        through ≤ (s.pumpNow chained through now).reach) := by
  unfold Sink.pumpNow
  by_cases hpump : s.pump = .idle
  · rw [if_neg (by simpa using hpump)]
    by_cases hflight : s.inFlight = none
    · rw [hflight, if_neg (by simp)]
      by_cases hretry : now < s.retryAt
      · rw [if_pos hretry]
        exact ⟨h, grows_refl _ _, fun _ _ hzero => by omega⟩
      · rw [if_neg hretry]
        obtain ⟨hok, hgrows, hreach⟩ := h.runPump (held_of_pump none hpump) hflight hheld
          hincreasing hgap s.pump
        exact ⟨hok, hgrows, fun _ _ _ => hreach⟩
    · rw [if_pos (Option.isSome_iff_ne_none.mpr hflight)]
      unfold Sink.reportStuck
      by_cases hstuck : s.stuckSince.isNone = true
      · rw [if_pos hstuck]
        exact ⟨h, grows_refl _ _, fun _ hnone _ => absurd hnone hflight⟩
      · rw [if_neg hstuck]
        obtain ⟨hok, hgrows⟩ := h.clampCursor hheld hgap
        exact ⟨hok, hgrows, fun _ hnone _ => absurd hnone hflight⟩
  · rw [if_pos hpump]
    exact ⟨h, grows_refl _ _, fun hidle _ _ => absurd hidle hpump⟩

theorem SinkOk.last_of_unhandled (h : SinkOk durable log through gap fromDrain s) {k : ℕ}
    (hk : s.writes[k]? = some wr) (hhandled : wr.handled = false) :
    ∃ init, s.writes = init ++ [wr] ∧ init.length = k ∧ (∀ a ∈ init, a.Accounted s.cursor) ∧
      (gap = false → s.dropped = 0 → stored init = log.take s.cursor ∧
        wr.events = (log.take wr.throughSeq).drop s.cursor ∧ s.cursor ≤ wr.throughSeq) ∧
      Phase durable fromDrain s k wr := by
  have hnot : ∀ a : Write C, a.Accounted s.cursor → a ≠ wr := by
    intro a ha heq
    rw [heq] at ha
    exact absurd ha.handled (by rw [hhandled]; nofun)
  cases h.stand with
  | free _ _ _ hwrites _ _ => exact absurd rfl (hnot wr (hwrites wr (List.mem_of_getElem? hk)))
  | busy init last hwrites hinit hexact hphase =>
    rw [hwrites] at hk
    by_cases hlt : k < init.length
    · rw [List.getElem?_append_left hlt] at hk
      exact absurd rfl (hnot wr (hinit wr (List.mem_of_getElem? hk)))
    · have hlength := (List.getElem?_eq_some_iff.mp hk).1
      rw [List.length_append, List.length_singleton] at hlength
      have heq : k = init.length := by omega
      rw [heq, List.getElem?_concat_length] at hk
      cases hk
      exact ⟨init, hwrites, heq.symm, hinit, hexact, heq ▸ hphase⟩

theorem set_last (init : List (Write C)) (wr wr' : Write C) :
    (init ++ [wr]).set init.length wr' = init ++ [wr'] := by
  rw [List.set_append_right _ _ (Nat.le_refl _), Nat.sub_self]
  rfl

variable {wr' : Write C}

theorem InOrder.last (h : InOrder (init ++ [wr])) (hevents : wr'.events = wr.events) :
    InOrder (init ++ [wr']) := by
  obtain ⟨hinit, -, hlast⟩ := List.pairwise_append.mp h
  refine List.pairwise_append.mpr ⟨hinit, List.pairwise_singleton _ _, ?_⟩
  intro a ha b hb
  rw [List.mem_singleton.mp hb, hevents]
  exact hlast a ha wr List.mem_cons_self

/-- Something is noted of the last write. -/
structure Write.Marked (wr wr' : Write C) : Prop where
  events : wr'.events = wr.events
  throughSeq : wr'.throughSeq = wr.throughSeq
  answered : wr'.handled = true → wr'.settledAs.isSome = true

theorem SinkOk.marked_writes (h : SinkOk durable log through gap fromDrain s)
    (hwrites : s.writes = init ++ [wr]) (hmarked : wr.Marked wr') :
    (∀ a ∈ init ++ [wr'], a.Ok log through) ∧ InOrder (init ++ [wr']) := by
  have hok := h.writes
  have hordered := h.ordered
  rw [hwrites] at hok hordered
  obtain ⟨hinit, hlast⟩ := List.forall_mem_append.mp hok
  have hwr := hlast wr List.mem_cons_self
  refine ⟨List.forall_mem_append.mpr ⟨hinit, List.forall_mem_singleton.mpr ?_⟩,
    hordered.last hmarked.events⟩
  exact
    { bound := hmarked.throughSeq ▸ hwr.bound
      events := by rw [hmarked.events, hmarked.throughSeq]; exact hwr.events
      increasing := hmarked.events ▸ hwr.increasing
      answered := hmarked.answered }

/-- The last write settles, or its timeout fires. -/
theorem SinkOk.mark (h : SinkOk durable log through gap fromDrain s) {k : ℕ}
    (hk : s.writes[k]? = some wr) (hhandled : wr.handled = false) (hmarked : wr.Marked wr')
    (hhandled' : wr'.handled = false) (htimedOut : wr.timedOut = true → wr'.timedOut = true) :
    SinkOk durable log through gap fromDrain { s with writes := s.writes.set k wr' } := by
  obtain ⟨init, hwrites, rfl, hinit, hexact, hphase⟩ := h.last_of_unhandled hk hhandled
  obtain ⟨hok, hordered⟩ := h.marked_writes hwrites hmarked
  rw [hwrites, set_last]
  refine ⟨h.cursor, hok, hordered, .busy init wr' rfl hinit ?_ ?_, h.pump, h.timer⟩
  · rw [hmarked.events, hmarked.throughSeq]
    exact hexact
  · cases hphase with
    | awaited hheld hflight hstuck _ => exact .awaited hheld hflight hstuck hhandled'
    | answered _ _ _ hhandled'' _ => rw [hhandled] at hhandled''; cases hhandled''
    | stuck hheld hflight hstuck _ htimedOut' =>
      exact .stuck hheld hflight hstuck hhandled' (htimedOut htimedOut')

/-- **The last write is accounted for**: its success moves the cursor. -/
theorem SinkOk.account (h : SinkOk durable log through gap fromDrain s) (fromDrain' : Option ℕ)
    (s' : Sink C) (hwrites : s.writes = init ++ [wr]) (hmarked : wr.Marked wr')
    (hinit : ∀ a ∈ init, a.Accounted s.cursor)
    (hexact : gap = false → s.dropped = 0 → stored init = log.take s.cursor ∧
      wr.events = (log.take wr.throughSeq).drop s.cursor ∧ s.cursor ≤ wr.throughSeq)
    (hhandled : wr'.handled = true) (hwrites' : s'.writes = init ++ [wr']) (hcursor : s'.cursor =
      if wr'.settledAs = some true then max s.cursor wr.throughSeq else s.cursor)
    (hdropped : s'.dropped = s.dropped) (hheld : s'.held fromDrain' = none)
    (hflight : s'.inFlight = none) (hstuck : s'.stuckSince = none)
    (hretry : durable = false → wr'.settledAs = some true → s'.retryAt = 0)
    (hpump : durable = true → s'.pump = .idle) (htimer : durable = true → s'.timer = false) :
    SinkOk durable log through gap fromDrain' s' ∧ Grows durable s s' := by
  obtain ⟨hok, hordered⟩ := h.marked_writes hwrites hmarked
  have hle : s.cursor ≤ s'.cursor := by
    rw [hcursor]
    split
    · exact Nat.le_max_left _ _
    · exact le_refl _
  have hgrows : Grows durable s s' := by
    refine .of_cursor hle ?_ (fun _ => hflight)
    rw [hwrites, hwrites', List.map_append, List.map_append, List.map_singleton,
      List.map_singleton, hmarked.throughSeq]
  have hbound := (hok wr' (List.mem_append_right _ List.mem_cons_self)).bound
  rw [hmarked.throughSeq] at hbound
  refine ⟨⟨?_, hwrites' ▸ hok, hwrites' ▸ hordered, ?_, hpump, htimer⟩, hgrows⟩
  · have hcursor' := h.cursor
    rw [hcursor]
    split
    · exact Nat.max_le.mpr ⟨hcursor', hbound⟩
    · exact hcursor'
  · refine .free hheld hflight hstuck ?_ ?_ ?_
    · rw [hwrites']
      refine List.forall_mem_append.mpr
        ⟨fun a ha => (hinit a ha).mono hle, List.forall_mem_singleton.mpr ?_⟩
      refine ⟨hhandled, hmarked.answered hhandled, ?_⟩
      intro hsuccess
      rw [hcursor, if_pos hsuccess, hmarked.throughSeq]
      exact Nat.le_max_right _ _
    · intro hno hzero
      obtain ⟨hstored, hevents, hthrough⟩ := hexact hno (hdropped ▸ hzero)
      rw [hwrites', stored_concat, hcursor]
      split
      · rw [hstored, hmarked.events, hevents, Nat.max_eq_right hthrough]
        have hsplit := List.take_append_drop s.cursor (log.take wr.throughSeq)
        rw [List.take_take, Nat.min_eq_left hthrough] at hsplit
        exact hsplit
      · exact hstored
    · intro hdurable hlast
      unfold Sink.lastSucceeded at hlast
      rw [hwrites', List.getLast?_concat] at hlast
      exact hretry hdurable (of_decide_eq_true hlast)

end

end Audit

end Swamp
