import Mathlib.Data.List.Basic
import Swamp.AuditEvidence
import Swamp.AuditSinks

/-!
# Every sink is delivered to once, in order

Every step of the emitter keeps what is known of the chain and of each sink, and
how far the drain under way has come (`Inv.step`).

A delivery that retries counts a write as failed when its timeout won, even one
whose success was handled before the delivery went on; the durable sinks look.
So a batch may be stored twice, and `audit_delivered_once` is about the runs
where no success comes so late.
-/

namespace Swamp

namespace Audit

open Js

variable {E C σ ρ ι : Type*}

/-- What is known of the chain: which events were chained, what is held of them,
and what a drain has read that is left to chain. -/
structure Chaining (cfg : Settings E C σ ρ ι) (start : σ) (w : World E C σ ρ ι) : Prop where
  log : ∃ events, chainAll cfg.chain start events = (w.chainState, w.log) ∧
    Placed w.emitted w.chainedThroughSeq events ∧
    (w.gap = false → events.map Prod.fst = List.range' 1 w.chainedThroughSeq)
  through : w.chainedThroughSeq ≤ w.emitted.length
  held : Held w.log w.chained w.chainedThroughSeq
  items : ∀ seq items, w.drain = .chaining seq items →
    seq = w.chainedThroughSeq + 1 ∧ items <+: w.emitted.drop w.chainedThroughSeq

variable {cfg : Settings E C σ ρ ι} {start : σ} {w : World E C σ ρ ι}

theorem Chaining.increasing (h : Chaining cfg start w) :
    (w.log.map Prod.fst).Pairwise (· < ·) := by
  obtain ⟨events, hlog, hplaced, -⟩ := h.log
  have hpositions := chainAll_positions cfg.chain start events
  rw [hlog] at hpositions
  rw [hpositions]
  exact hplaced.increasing

theorem Chaining.length (h : Chaining cfg start w) :
    w.gap = false → w.log.length = w.chainedThroughSeq := by
  intro hno
  obtain ⟨events, hlog, -, hall⟩ := h.log
  have hpositions := chainAll_positions cfg.chain start events
  rw [hlog, hall hno] at hpositions
  have hlength := congrArg List.length hpositions
  rwa [List.length_map, List.length_range'] at hlength

variable [DecidableEq ι]

/-- The write of a sink that the drain awaits. -/
def Drain.awaits (d : Drain E ι) (i : ι) : Option ℕ :=
  match d with
  | .awaiting j k _ => if j = i then some k else none
  | _ => none

/-- Whether a drain has yet to come to a sink. -/
def Drain.Ahead (d : Drain E ι) (i : ι) : Prop :=
  match d with
  | .idle => False
  | .chaining _ _ => True
  | .writing rest => i ∈ rest
  | .awaiting _ _ rest => i ∈ rest

/-- Whether a drain has chained all that it read. -/
def Drain.Past (d : Drain E ι) : Prop :=
  match d with
  | .chaining _ _ => False
  | _ => True

/-- What holds while `#next` is still to be called. -/
structure Core (cfg : Settings E C σ ρ ι) (start : σ) (w : World E C σ ρ ι) : Prop where
  buffer : w.buffer.Holds w.emitted
  chaining : Chaining cfg start w
  sinks : ∀ i, SinkOk (cfg.durable i) w.log w.chainedThroughSeq w.gap (w.drain.awaits i) (w.sinks i)
  drained : ∀ i k rest, w.drain = .awaiting i k rest → cfg.durable i = true

/-- What a drain under way has seen to, of the durable sinks it found settled:
those behind it get as far as it chained once their write succeeds. -/
def Progress (cfg : Settings E C σ ρ ι) (w : World E C σ ρ ι) : Prop :=
  ∀ i ∈ cfg.sinks, cfg.durable i = true → w.calm i = true → w.drain ≠ .idle →
    (w.drain.Ahead i ∧ (w.sinks i).inFlight = none) ∨
      (w.drain.Past ∧ w.chainedThroughSeq ≤ (w.sinks i).reach)

/-- **The invariant.** -/
structure Inv (cfg : Settings E C σ ρ ι) (start : σ) (w : World E C σ ρ ι) : Prop
    extends Core cfg start w where
  covered : ∀ i ∈ cfg.sinks, w.covered i ≤ (w.sinks i).reach
  progress : Progress cfg w

variable {w' : World E C σ ρ ι}

section

variable {i : ι}

theorem awaits_other {j : ι} (hne : j ≠ i) (k : ℕ) (rest : List ι) :
    (Drain.awaiting i k rest : Drain E ι).awaits j = none := if_neg (fun heq => hne heq.symm)

variable {s : Sink C} {drain : Drain E ι} {chained : List (ℕ × C)}

theorem awaits_none (hdrained : ∀ i k rest, drain = .awaiting i k rest → cfg.durable i = true)
    (hdurable : cfg.durable i = false) : drain.awaits i = none := by
  cases drain with
  | awaiting j k rest =>
    have hj := hdrained j k rest rfl
    refine awaits_other ?_ k rest
    intro heq
    rw [← heq, hdurable] at hj
    cases hj
  | idle | chaining seq items | writing rest => rfl

/-- **A step on one sink keeps the invariant of all.** -/
theorem Core.update (h : Core cfg start w)
    (hok : SinkOk (cfg.durable i) w.log w.chainedThroughSeq w.gap (drain.awaits i) s)
    (hheld : Held w.log chained w.chainedThroughSeq)
    (hothers : ∀ j, j ≠ i → drain.awaits j = w.drain.awaits j)
    (hitems : ∀ seq items, drain = .chaining seq items → w.drain = drain)
    (hdrained : ∀ j k rest, drain = .awaiting j k rest → cfg.durable j = true) :
    Core cfg start
      { w with chained := chained, drain := drain, sinks := Function.update w.sinks i s } where
  buffer := h.buffer
  chaining :=
    { log := h.chaining.log
      through := h.chaining.through
      held := hheld
      items := fun seq items hdrain =>
        h.chaining.items seq items ((hitems seq items hdrain).trans hdrain) }
  sinks := (Function.forall_update_iff w.sinks (fun j s => SinkOk (cfg.durable j) w.log
    w.chainedThroughSeq w.gap (drain.awaits j) s)).mpr
      ⟨hok, fun j hj => hothers j hj ▸ h.sinks j⟩
  drained := hdrained

theorem Inv.update (h : Inv cfg start w)
    (hok : SinkOk (cfg.durable i) w.log w.chainedThroughSeq w.gap (drain.awaits i) s)
    (hreach : (w.sinks i).reach ≤ s.reach) (hheld : Held w.log chained w.chainedThroughSeq)
    (hothers : ∀ j, j ≠ i → drain.awaits j = w.drain.awaits j)
    (hitems : ∀ seq items, drain = .chaining seq items → w.drain = drain)
    (hdrained : ∀ j k rest, drain = .awaiting j k rest → cfg.durable j = true)
    (hprogress : Progress cfg
      { w with chained := chained, drain := drain, sinks := Function.update w.sinks i s }) :
    Inv cfg start
      { w with chained := chained, drain := drain, sinks := Function.update w.sinks i s } where
  toCore := h.toCore.update hok hheld hothers hitems hdrained
  covered := by
    intro j hj
    have hcovered := h.covered j hj
    show w.covered j ≤ (Function.update w.sinks i s j).reach
    by_cases hji : j = i
    · rw [hji] at hcovered ⊢
      rw [Function.update_self]
      exact hcovered.trans hreach
    · rw [Function.update_of_ne hji]
      exact hcovered
  progress := hprogress

/-- A step on one sink outside the drain. -/
theorem Inv.withSink (h : Inv cfg start w)
    (hok : SinkOk (cfg.durable i) w.log w.chainedThroughSeq w.gap (w.drain.awaits i) s)
    (hgrows : Grows (cfg.durable i) (w.sinks i) s) (hheld : Held w.log chained w.chainedThroughSeq)
    : Inv cfg start { w with chained := chained, sinks := Function.update w.sinks i s } := by
  refine h.update hok hgrows.reach hheld (fun _ _ => rfl) (fun _ _ _ => rfl) h.drained ?_
  intro j hj hdurable hcalm hdrain
  have hprogress := h.progress j hj hdurable hcalm hdrain
  show (w.drain.Ahead j ∧ (Function.update w.sinks i s j).inFlight = none) ∨
    (w.drain.Past ∧ w.chainedThroughSeq ≤ (Function.update w.sinks i s j).reach)
  by_cases hji : j = i
  · rw [hji] at hdurable hprogress ⊢
    rw [Function.update_self]
    exact hprogress.imp (fun hahead => ⟨hahead.1, hgrows.flight hdurable hahead.2⟩)
      (fun hpast => ⟨hpast.1, hpast.2.trans hgrows.reach⟩)
  · rw [Function.update_of_ne hji]
    exact hprogress

theorem Core.free_of_settled (h : Core cfg start w) (hsettled : w.settled i = true) :
    (w.sinks i).pump = .idle ∧ (w.sinks i).inFlight = none ∧
      (∀ wr ∈ (w.sinks i).writes, wr.Accounted (w.sinks i).cursor) ∧
      (w.gap = false → (w.sinks i).dropped = 0 →
        stored (w.sinks i).writes = w.log.take (w.sinks i).cursor) ∧
      (cfg.durable i = false → (w.sinks i).retryAt = 0) ∧ (w.sinks i).lastSucceeded = true := by
  unfold World.settled at hsettled
  simp only [Bool.and_eq_true, decide_eq_true_eq, List.all_eq_true] at hsettled
  obtain ⟨⟨⟨hpump, hdrain⟩, hhandled⟩, hlast⟩ := hsettled
  have hawaits : w.drain.awaits i = none := by
    cases hcase : w.drain with
    | awaiting j k rest =>
      rw [hcase] at hdrain
      exact if_neg (of_decide_eq_true hdrain)
    | idle | chaining seq items | writing rest => rfl
  have hheld : (w.sinks i).held (w.drain.awaits i) = none := by
    rw [held_of_pump _ hpump, hawaits]
  cases (h.sinks i).stand with
  | free _ hflight _ hwrites hexact hretry =>
    exact ⟨hpump, hflight, hwrites, hexact, fun hdurable => hretry hdurable hlast, hlast⟩
  | busy init wr hwrites _ _ hphase =>
    have hwr := (hhandled wr (Sink.last_mem hwrites)).2
    cases hphase with
    | awaited _ _ _ hunhandled
    | stuck _ _ _ hunhandled _ => rw [hwr] at hunhandled; cases hunhandled
    | answered hheld' _ _ _ _ => rw [hheld] at hheld'; cases hheld'

theorem Inv.push (h : Inv cfg start w) (event : E) : Inv cfg start (w.push event) where
  buffer := h.buffer.push event
  chaining := by
    have hthrough := h.chaining.through
    obtain ⟨events, hlog, hplaced, hall⟩ := h.chaining.log
    refine ⟨⟨events, hlog, ⟨hplaced.increasing, hplaced.bound, ?_⟩, hall⟩, ?_, h.chaining.held, ?_⟩
    · intro p hp
      obtain ⟨hpos, hevent⟩ := hplaced.emitted p hp
      have hlt := (List.getElem?_eq_some_iff.mp hevent).1
      exact ⟨hpos, (List.getElem?_append_left hlt).trans hevent⟩
    · show w.chainedThroughSeq ≤ (w.emitted ++ [event]).length
      rw [List.length_append]
      omega
    · intro seq items hdrain
      obtain ⟨hseq, hitems⟩ := h.chaining.items seq items hdrain
      refine ⟨hseq, hitems.trans ?_⟩
      show w.emitted.drop w.chainedThroughSeq <+: (w.emitted ++ [event]).drop w.chainedThroughSeq
      rw [List.drop_append_of_le_length hthrough]
      exact List.prefix_append _ _
  sinks := h.sinks
  drained := h.drained
  covered := h.covered
  progress := h.progress

theorem Inv.denied (h : Inv cfg start w) (deniedRequests : List ρ) :
    Inv cfg start { w with deniedRequests := deniedRequests } where
  buffer := h.buffer
  chaining := ⟨h.chaining.log, h.chaining.through, h.chaining.held, h.chaining.items⟩
  sinks := h.sinks
  drained := h.drained
  covered := h.covered
  progress := h.progress

theorem Inv.emit [DecidableEq ρ] (h : Inv cfg start w) (event : E) :
    Inv cfg start (w.emit cfg event) := by
  unfold World.emit
  split
  · exact h
  · split
    · exact (h.denied _).push event
    · split
      · exact h
      · exact h.push event
    · exact h.push event

/-- A drain begins. -/
theorem Inv.beginDrain (h : Inv cfg start w) (hidle : w.drain = .idle) :
    Inv cfg start (w.beginDrain cfg) := by
  have hawaits : ∀ i, w.drain.awaits i = none := by
    intro i
    rw [hidle]
    rfl
  have hflight : ∀ i, w.settled i = true → (w.sinks i).inFlight = none :=
    fun i hsettled => (h.free_of_settled hsettled).2.1
  have hsinks := h.sinks
  simp only [hawaits] at hsinks
  obtain ⟨hafter, hend, hwithin, -⟩ := h.buffer.readFrom_start h.chaining.through
  have hitems := h.buffer.readFrom_items w.chainedThroughSeq
  unfold World.beginDrain
  dsimp only
  split
  · exact
      { buffer := h.buffer
        chaining := ⟨h.chaining.log, h.chaining.through, h.chaining.held, nofun⟩
        sinks := hsinks
        drained := nofun
        covered := h.covered
        progress := fun i hi _ hcalm _ => .inl ⟨hi, hflight i hcalm⟩ }
  · rename_i hsome
    have hlength : (w.buffer.readFrom w.chainedThroughSeq).startSeq ≤ w.emitted.length := by
      by_contra hpast
      rw [hitems, List.drop_eq_nil_of_le (by omega)] at hsome
      exact hsome rfl
    split
    · rename_i hgap
      generalize hseq : (w.buffer.readFrom w.chainedThroughSeq).startSeq = startSeq at *
      have hskip := fun i => skipGap_cases (w.sinks i) hafter (hsinks i).cursor
      obtain ⟨events, hlog, hplaced, -⟩ := h.chaining.log
      refine
        { buffer := h.buffer
          chaining := ⟨⟨events, hlog, ⟨hplaced.increasing, ?_, hplaced.emitted⟩, nofun⟩, ?_,
            ⟨⟨w.log.length, List.drop_length.symm⟩, Nat.zero_le _, rfl⟩, ?_⟩
          sinks := ?_
          drained := nofun
          covered := ?_
          progress := ?_ }
      · intro p hp
        have hbound := hplaced.bound p hp
        show p.1 ≤ startSeq - 1
        omega
      · show startSeq - 1 ≤ w.emitted.length
        omega
      · intro seq items hdrain
        cases hdrain
        show startSeq = startSeq - 1 + 1 ∧ _
        exact ⟨by omega, hitems ▸ List.prefix_refl _⟩
      · intro i
        obtain ⟨cursor, dropped, heq, hle, hcursor⟩ := hskip i
        have hahead : w.chainedThroughSeq ≤ startSeq - 1 := by omega
        show SinkOk _ _ _ _ _ ((w.sinks i).skipGap w.chainedThroughSeq startSeq)
        rw [heq]
        exact (hsinks i).moved (List.prefix_refl _) hahead nofun hle hcursor nofun
      · intro i hi
        obtain ⟨cursor, dropped, heq, hle, -⟩ := hskip i
        have hgrows : Grows (cfg.durable i) (w.sinks i)
            { w.sinks i with cursor := cursor, dropped := dropped } := .of_cursor hle rfl id
        show w.covered i ≤ ((w.sinks i).skipGap w.chainedThroughSeq startSeq).reach
        rw [heq]
        exact (h.covered i hi).trans hgrows.reach
      · intro i _ _ hcalm _
        obtain ⟨cursor, dropped, heq, -, -⟩ := hskip i
        refine .inl ⟨trivial, ?_⟩
        show ((w.sinks i).skipGap w.chainedThroughSeq startSeq).inFlight = none
        rw [heq]
        exact hflight i hcalm
    · rename_i hnext
      have hseq : (w.buffer.readFrom w.chainedThroughSeq).startSeq = w.chainedThroughSeq + 1 := by
        omega
      rw [hseq, Nat.add_sub_cancel] at hitems
      rw [hseq, hitems]
      exact
        { buffer := h.buffer
          chaining := ⟨h.chaining.log, h.chaining.through, h.chaining.held, by
            intro seq items hdrain
            cases hdrain
            exact ⟨rfl, List.prefix_refl _⟩⟩
          sinks := hsinks
          drained := nofun
          covered := h.covered
          progress := fun i _ _ hcalm _ => .inl ⟨trivial, hflight i hcalm⟩ }

/-- **The drain chains the next event emitted.** -/
theorem Inv.chainNext (h : Inv cfg start w) (hstep : w.chainNext cfg = some w') :
    Inv cfg start w' := by
  unfold World.chainNext at hstep
  split at hstep
  · rename_i seq event items hdrain
    obtain ⟨rfl, hitems⟩ := h.chaining.items _ _ hdrain
    obtain ⟨tail, htail⟩ := hitems
    have hevent : w.emitted[w.chainedThroughSeq]? = some event := by
      rw [← Nat.add_zero w.chainedThroughSeq, ← List.getElem?_drop, ← htail]
      rfl
    have hrest : items <+: w.emitted.drop (w.chainedThroughSeq + 1) := by
      refine ⟨tail, ?_⟩
      rw [← List.drop_drop, ← htail]
      rfl
    have hlt := (List.getElem?_eq_some_iff.mp hevent).1
    obtain ⟨events, hlog, hplaced, hall⟩ := h.chaining.log
    have hawaits : ∀ i, w.drain.awaits i = none := by
      intro i
      rw [hdrain]
      rfl
    have hsinks := h.sinks
    simp only [hawaits] at hsinks
    have hflight : ∀ i ∈ cfg.sinks, cfg.durable i = true → w.calm i = true →
        (w.sinks i).inFlight = none := by
      intro i hi hdurable hcalm
      have hprogress := h.progress i hi hdurable hcalm (by rw [hdrain]; nofun)
      rw [hdrain] at hprogress
      exact (hprogress.resolve_right (fun hpast => hpast.1)).2
    cases hstep
    refine
      { buffer := h.buffer
        chaining := ⟨⟨events ++ [(w.chainedThroughSeq + 1, event)], ?_, ⟨?_, ?_, ?_⟩, ?_⟩, hlt,
          h.chaining.held.append _, ?_⟩
        sinks := ?_
        drained := ?_
        covered := h.covered
        progress := ?_ }
    · rw [chainAll_concat, hlog]
    · rw [List.map_append]
      refine List.pairwise_append.mpr ⟨hplaced.increasing, List.pairwise_singleton _ _, ?_⟩
      intro a ha b hb
      obtain ⟨p, hp, rfl⟩ := List.mem_map.mp ha
      rw [List.mem_singleton.mp hb]
      exact Nat.lt_succ_of_le (hplaced.bound p hp)
    · intro p hp
      rcases List.mem_append.mp hp with hp | hp
      · exact (hplaced.bound p hp).trans (Nat.le_succ _)
      · rw [List.mem_singleton.mp hp]
    · intro p hp
      rcases List.mem_append.mp hp with hp | hp
      · exact hplaced.emitted p hp
      · rw [List.mem_singleton.mp hp]
        exact ⟨Nat.succ_pos _, hevent⟩
    · intro hno
      rw [List.map_append, hall hno, List.map_singleton, List.range'_concat, Nat.one_mul,
        Nat.add_comm 1]
    · intro seq' items' hnext
      dsimp only at hnext
      split at hnext
      · cases hnext
      · cases hnext
        exact ⟨rfl, hrest⟩
    · intro i
      have hnone : (if items.isEmpty then Drain.writing cfg.sinks
          else .chaining (w.chainedThroughSeq + 1 + 1) items : Drain E ι).awaits i = none := by
        split <;> rfl
      show SinkOk _ _ _ _ (Drain.awaits _ i) _
      rw [hnone]
      exact (hsinks i).moved (List.prefix_append _ _) (Nat.le_succ _)
        (fun hno => ⟨hno, h.chaining.length hno⟩) (le_refl _)
        ((hsinks i).cursor.trans (Nat.le_succ _)) (fun _ hzero => ⟨rfl, hzero⟩)
    · intro i k rest hnext
      dsimp only at hnext
      split at hnext
      · cases hnext
      · cases hnext
    · intro i hi hdurable hcalm _
      refine .inl ⟨?_, hflight i hi hdurable hcalm⟩
      show Drain.Ahead _ i
      split
      · exact hi
      · trivial
  · cases hstep

theorem Inv.drainTo (h : Inv cfg start w) {rest : List ι}
    (hfrom : w.drain = .writing (i :: rest) ∨ ∃ k, w.drain = .awaiting i k rest)
    (hto : drain = .writing rest ∨ cfg.durable i = true ∧ ∃ k, drain = .awaiting i k rest)
    (hok : SinkOk (cfg.durable i) w.log w.chainedThroughSeq w.gap (drain.awaits i) s)
    (hreach : (w.sinks i).reach ≤ s.reach)
    (hdone : i ∈ cfg.sinks → cfg.durable i = true → w.calm i = true →
      (i ∈ rest ∧ s.inFlight = none) ∨ w.chainedThroughSeq ≤ s.reach) :
    Inv cfg start { w with drain := drain, sinks := Function.update w.sinks i s } := by
  have hbefore : ∀ j, j ≠ i → w.drain.awaits j = none ∧ (w.drain.Ahead j → j ∈ rest) := by
    intro j hj
    rcases hfrom with hfrom | ⟨k, hfrom⟩
    · rw [hfrom]
      exact ⟨rfl, fun hmem => (List.mem_cons.mp hmem).resolve_left hj⟩
    · rw [hfrom]
      exact ⟨awaits_other hj k rest, id⟩
  have hafter : (∀ j, j ≠ i → drain.awaits j = none) ∧ (∀ j, drain.Ahead j ↔ j ∈ rest) ∧
      drain.Past ∧ (∀ seq items, drain ≠ .chaining seq items) := by
    rcases hto with rfl | ⟨-, k, rfl⟩
    · exact ⟨fun _ _ => rfl, fun _ => Iff.rfl, trivial, nofun⟩
    · exact ⟨fun j hj => awaits_other hj k rest, fun _ => Iff.rfl, trivial, nofun⟩
  obtain ⟨hothers, hahead, hpast, hnot⟩ := hafter
  apply h.update hok hreach h.chaining.held
  · intro j hj
    rw [hothers j hj, (hbefore j hj).1]
  · exact fun seq items heq => absurd heq (hnot seq items)
  · intro j k rest' heq
    rcases hto with hto | ⟨hdurable, k', hto⟩
    · rw [hto] at heq
      cases heq
    · rw [hto] at heq
      cases heq
      exact hdurable
  · intro j hj hdurable hcalm _
    show (drain.Ahead j ∧ (Function.update w.sinks i s j).inFlight = none) ∨
      (drain.Past ∧ w.chainedThroughSeq ≤ (Function.update w.sinks i s j).reach)
    rw [hahead]
    by_cases hji : j = i
    · rw [hji] at hj hdurable hcalm ⊢
      rw [Function.update_self]
      exact (hdone hj hdurable hcalm).imp_right (fun hle => ⟨hpast, hle⟩)
    · rw [Function.update_of_ne hji]
      have hrunning : w.drain ≠ .idle := by
        rcases hfrom with hfrom | ⟨k, hfrom⟩ <;> exact hfrom ▸ nofun
      exact (h.progress j hj hdurable hcalm hrunning).imp
        (fun hahead => ⟨(hbefore j hji).2 hahead.1, hahead.2⟩) (fun hle => ⟨hpast, hle.2⟩)

theorem Inv.seen (h : Inv cfg start w) {rest : List ι}
    (hdrain : w.drain = .writing rest ∨ ∃ j k, w.drain = .awaiting j k rest) (hi : i ∈ cfg.sinks)
    (hdurable : cfg.durable i = true) (hcalm : w.calm i = true) :
    (i ∈ rest ∧ (w.sinks i).inFlight = none) ∨ w.chainedThroughSeq ≤ (w.sinks i).reach := by
  have hrunning : w.drain ≠ .idle := by
    rcases hdrain with hdrain | ⟨j, k, hdrain⟩ <;> exact hdrain ▸ nofun
  have hprogress := h.progress i hi hdurable hcalm hrunning
  rcases hdrain with hdrain | ⟨j, k, hdrain⟩
  · rw [hdrain] at hprogress
    exact hprogress.imp_right And.right
  · rw [hdrain] at hprogress
    exact hprogress.imp_right And.right

variable {log : List (ℕ × C)} {through : ℕ} {gap : Bool} {fromDrain : Option ℕ}

theorem SinkOk.stuck_iff {durable : Bool} (h : SinkOk durable log through gap fromDrain s)
    (hheld : s.held fromDrain = none) : s.stuckSince.isSome = s.inFlight.isSome := by
  cases h.stand with
  | free _ hflight hstuck _ _ _ => rw [hflight, hstuck]
  | busy init wr _ _ _ hphase =>
    cases hphase with
    | awaited hheld' _ _ _ | answered hheld' _ _ _ _ => rw [hheld] at hheld'; cases hheld'
    | stuck _ hflight hstuck _ _ => rw [hflight, hstuck]; rfl

variable {k : ℕ} {wr : Write C}

/-- A write that is awaited is the last. -/
theorem SinkOk.last_of_held {durable : Bool} (h : SinkOk durable log through gap fromDrain s)
    (hheld : s.held fromDrain = some k) (hk : s.writes[k]? = some wr) :
    ∃ init, s.writes = init ++ [wr] ∧ init.length = k ∧ (∀ a ∈ init, a.Accounted s.cursor) ∧
      (gap = false → s.dropped = 0 → stored init = log.take s.cursor ∧
        wr.events = (log.take wr.throughSeq).drop s.cursor ∧ s.cursor ≤ wr.throughSeq) ∧
      s.stuckSince = none ∧
      ((s.inFlight = some k ∧ wr.handled = false) ∨ (s.inFlight = none ∧ wr.handled = true ∧
        (wr.timedOut = true → wr.settledAs = some true → durable = true))) := by
  cases h.stand with
  | free hheld' _ _ _ _ _ => rw [hheld] at hheld'; cases hheld'
  | busy init last hwrites hinit hexact hphase =>
    have hlast : ∀ {n}, s.held fromDrain = some n → n = init.length →
        init.length = k ∧ last = wr := by
      intro n hheld' hn
      rw [hheld] at hheld'
      cases hheld'
      rw [hwrites, hn, List.getElem?_concat_length] at hk
      exact ⟨hn.symm, Option.some.inj hk⟩
    cases hphase with
    | awaited hheld' hflight hstuck hhandled =>
      obtain ⟨rfl, rfl⟩ := hlast hheld' rfl
      exact ⟨init, hwrites, rfl, hinit, hexact, hstuck, .inl ⟨hflight, hhandled⟩⟩
    | answered hheld' hflight hstuck hhandled hlate =>
      obtain ⟨rfl, rfl⟩ := hlast hheld' rfl
      exact ⟨init, hwrites, rfl, hinit, hexact, hstuck, .inr ⟨hflight, hhandled, hlate⟩⟩
    | stuck hheld' _ _ _ _ => rw [hheld] at hheld'; cases hheld'

/-- **The drain writes what a durable sink has not had.** -/
theorem Inv.durableNext (h : Inv cfg start w) (hstep : w.durableNext cfg = some w') :
    Inv cfg start w' := by
  unfold World.durableNext at hstep
  split at hstep
  · rename_i i rest hdrain
    have hok := h.sinks i
    rw [show w.drain.awaits i = none from by rw [hdrain]; rfl] at hok
    have hseen := h.seen (i := i) (.inl hdrain)
    dsimp only at hstep
    split at hstep
    · rename_i hnot
      cases hstep
      rw [← Function.update_eq_self i w.sinks]
      have hlost : ∀ {p : Prop}, cfg.durable i = true → p := by
        intro p hdurable
        rw [hdurable] at hnot
        cases hnot
      exact h.drainTo (.inl hdrain) (.inl rfl) hok (le_refl _) (fun _ hdurable => hlost hdurable)
    · rename_i hdurable
      have hdurable : cfg.durable i = true := by simpa using hdurable
      have hheld : (w.sinks i).held none = none := held_of_pump none (hok.pump hdurable)
      have hstuck := hok.stuck_iff hheld
      split at hstep
      · rename_i hsome
        cases hstep
        obtain ⟨hclamped, hgrows⟩ := hok.clampCursor h.chaining.held h.chaining.length
        have hreport : (w.sinks i).reportStuck w.chained w.chainedThroughSeq =
            (w.sinks i).clampCursor w.chained w.chainedThroughSeq := by
          unfold Sink.reportStuck
          rw [Option.isNone_eq_false_iff.mpr hsome]
          rfl
        rw [hreport]
        apply h.drainTo (.inl hdrain) (.inl rfl) hclamped hgrows.reach
        intro hi hdurable hcalm
        rcases hseen hi hdurable hcalm with ⟨-, hnone⟩ | hle
        · rw [hnone, hsome] at hstuck
          cases hstuck
        · exact .inr (hle.trans hgrows.reach)
      · rename_i hnone
        have hflight : (w.sinks i).inFlight = none := by
          rw [Bool.not_eq_true] at hnone
          rw [hnone] at hstuck
          exact Option.isSome_eq_false_iff.mp hstuck.symm |> Option.isNone_iff_eq_none.mp
        obtain ⟨cursor, dropped, heq, hle, hcursor, hclamped, hsame⟩ :=
          clampCursor_cases h.chaining.held hok.cursor
        have hmoved := hok.moved (List.prefix_refl _) (le_refl _)
          (fun hno => ⟨hno, h.chaining.length hno⟩) hle hcursor (fun _ => hsame)
        obtain ⟨hlog, hpositions⟩ := h.chaining.held.batch hclamped hcursor
        rw [heq] at hstep
        dsimp only at hstep
        split at hstep
        · rename_i hempty
          cases hstep
          rw [List.isEmpty_iff.mp hempty] at hpositions
          have hcount := congrArg List.length hpositions
          rw [List.map_nil, List.length_nil, List.length_range'] at hcount
          have hgrows : Grows (cfg.durable i) (w.sinks i)
              { w.sinks i with cursor := cursor, dropped := dropped } := .of_cursor hle rfl id
          refine h.drainTo (.inl hdrain) (.inl rfl) hmoved hgrows.reach (fun _ _ _ => .inr ?_)
          unfold Sink.reach
          dsimp only
          omega
        · cases hstep
          have hreach : w.chainedThroughSeq ≤ ({ w.sinks i with cursor, dropped }.startWrite
              (batchFrom w.chained w.chainedThroughSeq cursor) w.chainedThroughSeq).reach := by
            rw [reach_concat rfl]
            exact Nat.le_max_right _ _
          refine h.drainTo (.inl hdrain) (.inr ⟨hdurable, _, rfl⟩) ?_ (hok.reach_le.trans hreach)
            (fun _ _ _ => .inr hreach)
          have hpump := hok.pump hdurable
          refine hmoved.startWrite (w.sinks i).pump hheld hflight hlog hpositions
            h.chaining.increasing h.chaining.length hok.pump ?_
          refine (held_of_pump _ ?_).trans (if_pos rfl)
          exact hpump
  · cases hstep

/-- What `#advanceCursor` makes of a sink whose last write succeeded. -/
theorem marked_refl (h : wr.handled = true → wr.settledAs.isSome = true) :
    wr.Marked wr := ⟨rfl, rfl, h⟩

variable {now : ℕ}

/-- **The drain goes on after a durable write.**  A success is taken for one
whether or not the timeout fired before it. -/
theorem Inv.durableGo (h : Inv cfg start w) (hstep : w.durableGo now = some w') :
    Inv cfg start w' := by
  unfold World.durableGo at hstep
  split at hstep
  · rename_i i k rest hdrain
    dsimp only at hstep
    split at hstep
    · cases hstep
    · rename_i wr hk
      have hdurable := h.drained i k rest hdrain
      have hok := h.sinks i
      rw [show w.drain.awaits i = some k from by rw [hdrain]; exact if_pos rfl] at hok
      have hpump := hok.pump hdurable
      have hheld : (w.sinks i).held (some k) = some k := held_of_pump _ hpump
      have hseen := h.seen (i := i) (.inr ⟨i, k, hdrain⟩)
      obtain ⟨init, hwrites, rfl, hinit, hexact, hstuck, hphase⟩ := hok.last_of_held hheld hk
      have hwr := hok.writes wr (Sink.last_mem hwrites)
      split at hstep
      · rename_i hsuccess
        simp only [Bool.and_eq_true, decide_eq_true_eq] at hsuccess
        cases hstep
        rw [advanceCursor_eq]
        obtain ⟨haccounted, hgrows⟩ := hok.account none
          { w.sinks i with inFlight := none, cursor := max (w.sinks i).cursor wr.throughSeq }
          hwrites (marked_refl hwr.answered) hinit hexact hsuccess.1 hwrites
          (if_pos hsuccess.2).symm rfl (held_of_pump _ hpump) rfl hstuck
          (fun hnot => absurd hdurable (by rw [hnot]; nofun)) hok.pump hok.timer
        exact h.drainTo (.inr ⟨_, hdrain⟩) (.inl rfl) haccounted hgrows.reach
          (fun hi hdurable hcalm => (hseen hi hdurable hcalm).imp (fun hahead => ⟨hahead.1, rfl⟩)
            (fun hle => hle.trans hgrows.reach))
      · rename_i hnot
        split at hstep
        · rename_i htimedOut
          simp only [Bool.and_eq_true, decide_eq_true_eq] at htimedOut
          cases hstep
          rcases hphase with ⟨hflight, hhandled⟩ | ⟨hflight, -, -⟩
          · refine h.drainTo (.inr ⟨_, hdrain⟩) (.inl rfl) ?_ (le_refl _) ?_
            · exact
                { cursor := hok.cursor
                  writes := hok.writes
                  ordered := hok.ordered
                  stand := .busy init wr hwrites hinit hexact
                    (.stuck (held_of_pump _ hpump) hflight rfl hhandled htimedOut.1)
                  pump := hok.pump
                  timer := hok.timer }
            · intro hi hdurable hcalm
              exact (hseen hi hdurable hcalm).imp_left (fun hahead => ⟨hahead.1, hahead.2⟩)
          · rw [htimedOut.2] at hflight
            cases hflight
        · rename_i hnotLate
          split at hstep
          · rename_i hraced
            cases hstep
            rcases hphase with ⟨hflight, hhandled⟩ | ⟨hflight, hhandled, -⟩
            · rw [hhandled, Bool.or_false] at hraced
              exact absurd (by simp [hraced, hflight]) hnotLate
            · have hfailed : wr.settledAs ≠ some true := by
                intro hsuccess
                exact hnot (by simp [hhandled, hsuccess])
              obtain ⟨haccounted, hgrows⟩ := hok.account none { w.sinks i with inFlight := none }
                hwrites (marked_refl hwr.answered) hinit hexact hhandled hwrites
                (if_neg hfailed).symm rfl (held_of_pump _ hpump) rfl hstuck
                (fun hnot => absurd hdurable (by rw [hnot]; nofun)) hok.pump hok.timer
              exact h.drainTo (.inr ⟨_, hdrain⟩) (.inl rfl) haccounted hgrows.reach
                (fun hi hdurable hcalm => (hseen hi hdurable hcalm).imp
                  (fun hahead => ⟨hahead.1, rfl⟩) (fun hle => hle.trans hgrows.reach))
          · cases hstep
  · cases hstep

/-- The deliveries a drain starts as it ends. -/
theorem Core.pumpAll (h : Core cfg start w) (now : ℕ) (sinks : List ι)
    (hsinks : ∀ i ∈ sinks, cfg.durable i = false) :
    Core cfg start (sinks.foldl (World.pumpSink · now ·) w) ∧
      (sinks.foldl (World.pumpSink · now ·) w).drain = w.drain ∧
      (sinks.foldl (World.pumpSink · now ·) w).covered = w.covered ∧
      ∀ i, (w.sinks i).reach ≤ ((sinks.foldl (World.pumpSink · now ·) w).sinks i).reach ∧
        (i ∈ sinks → (w.sinks i).pump = .idle → (w.sinks i).inFlight = none →
          (w.sinks i).retryAt = 0 → w.chainedThroughSeq ≤
            ((sinks.foldl (World.pumpSink · now ·) w).sinks i).reach) := by
  induction sinks generalizing w with
  | nil => exact ⟨h, rfl, rfl, fun i => ⟨le_refl _, fun hmem => absurd hmem List.not_mem_nil⟩⟩
  | cons j sinks ih =>
    obtain ⟨hj, hrest⟩ := List.forall_mem_cons.mp hsinks
    have hok := h.sinks j
    have hawaits := awaits_none h.drained hj
    rw [hawaits, hj] at hok
    obtain ⟨hpumped, hgrows, hreach⟩ := hok.pumpNow h.chaining.held h.chaining.increasing
      h.chaining.length now
    rw [← hawaits, ← hj] at hpumped
    have hcore : Core cfg start (w.pumpSink now j) :=
      h.update hpumped h.chaining.held (fun _ _ => rfl) (fun _ _ _ => rfl) h.drained
    obtain ⟨hlast, hdrain, hcovered, hall⟩ := ih hcore hrest
    refine ⟨hlast, hdrain, hcovered, ?_⟩
    intro i
    have hsink : (w.pumpSink now j).sinks i =
        if i = j then (w.sinks j).pumpNow w.chained w.chainedThroughSeq now else w.sinks i :=
      Function.update_apply _ _ _ _
    by_cases hij : i = j
    · rw [if_pos hij] at hsink
      have hafter := (hall i).1
      rw [hsink] at hafter
      rw [hij] at hafter ⊢
      exact ⟨hgrows.reach.trans hafter,
        fun _ hpump hflight hretry => (hreach hpump hflight hretry).trans hafter⟩
    · rw [if_neg hij] at hsink
      have hafter := hall i
      rw [hsink] at hafter
      exact ⟨hafter.1, fun hmem => hafter.2 ((List.mem_cons.mp hmem).resolve_left hij)⟩

/-- **The drain ends.**  What it covers of a sink, that sink reaches. -/
theorem Inv.endDrain (h : Inv cfg start w) (hstep : w.endDrain cfg now = some w') :
    Inv cfg start w' := by
  unfold World.endDrain at hstep
  split at hstep
  · rename_i hdrain
    dsimp only at hstep
    cases hstep
    have hawaits : ∀ i, w.drain.awaits i = none := by
      intro i
      rw [hdrain]
      rfl
    have hsinks := h.sinks
    simp only [hawaits] at hsinks
    have hidle : ∀ covered : ι → ℕ, Core cfg start
        ({ w with drain := .idle, covered := covered }.pruneChained cfg) := fun covered =>
      { buffer := h.buffer
        chaining := ⟨h.chaining.log, h.chaining.through, h.chaining.held.dropWhile _, nofun⟩
        sinks := hsinks
        drained := nofun }
    obtain ⟨hcore, hdrain', hcovered, hall⟩ := (hidle (fun i =>
      if w.calm i && w.settled i then w.chainedThroughSeq else w.covered i)).pumpAll now
        (cfg.sinks.filter (fun i => !cfg.durable i))
        (fun i hi => by simpa using (List.mem_filter.mp hi).2)
    refine { toCore := hcore, covered := ?_, progress := ?_ }
    · intro i hi
      obtain ⟨hmono, hpumped⟩ := hall i
      rw [hcovered]
      show (if w.calm i && w.settled i then w.chainedThroughSeq else w.covered i) ≤ _
      split
      · rename_i hboth
        obtain ⟨hcalm, hsettled⟩ := Bool.and_eq_true_iff.mp hboth
        obtain ⟨hpump, hflight, -, -, hretry, -⟩ := h.free_of_settled hsettled
        by_cases hdurable : cfg.durable i = true
        · have hseen := (h.seen (.inl hdrain) hi hdurable hcalm).resolve_left
            (fun hahead => absurd hahead.1 List.not_mem_nil)
          exact hseen.trans hmono
        · rw [Bool.not_eq_true] at hdurable
          exact hpumped (List.mem_filter.mpr ⟨hi, by rw [hdurable]; rfl⟩) hpump hflight
            (hretry hdurable)
      · exact (h.covered i hi).trans hmono
    · intro i _ _ _ hrunning
      exact absurd hdrain' hrunning
  · cases hstep

theorem grows_set (durable : Bool) {wr' : Write C} (hk : s.writes[k]? = some wr)
    (hthrough : wr'.throughSeq = wr.throughSeq) :
    Grows durable s { s with writes := s.writes.set k wr' } := by
  refine .of_cursor (le_refl _) ?_ id
  obtain ⟨hlt, hget⟩ := List.getElem?_eq_some_iff.mp hk
  have hlt' : k < (s.writes.map Write.throughSeq).length := by rwa [List.length_map]
  have hself : (s.writes.map Write.throughSeq).set k (s.writes.map Write.throughSeq)[k] =
      s.writes.map Write.throughSeq := List.set_getElem_self hlt'
  show (s.writes.set k wr').map Write.throughSeq = s.writes.map Write.throughSeq
  rw [List.map_set, hthrough, ← hget]
  rwa [List.getElem_map] at hself

/-- A write settles, or its timeout fires: nothing else changes. -/
theorem Inv.mark (h : Inv cfg start w) {wr' : Write C} (hk : (w.sinks i).writes[k]? = some wr)
    (hunsettled : wr.settledAs = none) (hmarked : wr.Marked wr')
    (hhandled' : wr'.handled = wr.handled) (htimedOut : wr.timedOut = true → wr'.timedOut = true) :
    Inv cfg start (w.withSink i { w.sinks i with writes := (w.sinks i).writes.set k wr' }) := by
  have hok := h.sinks i
  have hhandled : wr.handled = false := by
    by_contra hhandled
    have hsettled := (hok.writes wr (List.mem_of_getElem? hk)).answered
      (Bool.eq_true_of_not_eq_false hhandled)
    rw [hunsettled] at hsettled
    cases hsettled
  exact h.withSink (hok.mark hk hhandled hmarked (hhandled'.trans hhandled) htimedOut)
    (grows_set _ hk hmarked.throughSeq) h.chaining.held

variable {succeeded : Bool}

theorem Inv.settle (h : Inv cfg start w) (hstep : w.settle i k succeeded = some w') :
    Inv cfg start w' := by
  unfold World.settle at hstep
  dsimp only at hstep
  split at hstep
  · cases hstep
  · rename_i wr hk
    split at hstep
    · cases hstep
    · rename_i hnone
      cases hstep
      exact h.mark hk (by simpa using hnone) ⟨rfl, rfl, fun _ => rfl⟩ rfl id

theorem Inv.timeout (h : Inv cfg start w) (hstep : w.timeout i k = some w') : Inv cfg start w' := by
  unfold World.timeout at hstep
  dsimp only at hstep
  split at hstep
  · cases hstep
  · rename_i wr hk
    split at hstep
    · cases hstep
    · rename_i hnone
      simp only [Bool.or_eq_true, not_or] at hnone
      cases hstep
      have hanswered := ((h.sinks i).writes wr (List.mem_of_getElem? hk)).answered
      exact h.mark hk (by simpa using hnone.1) ⟨rfl, rfl, hanswered⟩ rfl (fun _ => rfl)

/-- Whether the handler of a write finds a success where the timeout has fired and
the delivery, of a sink that is not durable, has yet to go on. -/
def lateSuccess (cfg : Settings E C σ ρ ι) (w : World E C σ ρ ι) : Label E ι → Bool
  | .handle i k _ =>
    match (w.sinks i).writes[k]? with
    | none => false
    | some wr => !cfg.durable i && (w.sinks i).pump = .awaiting k && wr.timedOut &&
        wr.settledAs = some true
  | _ => false

/-- The condition under which no delivery is mistaken about a success. -/
def Timely (cfg : Settings E C σ ρ ι) (w : World E C σ ρ ι) (label : Label E ι) : Prop :=
  lateSuccess cfg w label = false

/-- A sink whose late write is accounted for is delivered to again. -/
theorem Inv.pumpSink (h : Inv cfg start w) (hdurable : cfg.durable i = false) (now : ℕ) :
    Inv cfg start (w.pumpSink now i) := by
  have hok := h.sinks i
  have hawaits := awaits_none h.drained hdurable
  rw [hawaits, hdurable] at hok
  obtain ⟨hpumped, hgrows, -⟩ := hok.pumpNow h.chaining.held h.chaining.increasing
    h.chaining.length now
  rw [← hawaits, ← hdurable] at hpumped
  rw [← hdurable] at hgrows
  exact h.withSink hpumped hgrows h.chaining.held

theorem Inv.pruneChained (h : Inv cfg start w) : Inv cfg start (w.pruneChained cfg) where
  buffer := h.buffer
  chaining := ⟨h.chaining.log, h.chaining.through, h.chaining.held.dropWhile _, h.chaining.items⟩
  sinks := h.sinks
  drained := h.drained
  covered := h.covered
  progress := h.progress

theorem SinkOk.retimed (h : SinkOk false log through gap fromDrain s) (timer : Bool) {retryAt : ℕ}
    (hretry : retryAt = 0 ∨ retryAt = s.retryAt) :
    SinkOk false log through gap fromDrain { s with timer := timer, retryAt := retryAt } := by
  refine ⟨h.cursor, h.writes, h.ordered, ?_, nofun, nofun⟩
  cases h.stand with
  | free hheld hflight hstuck hwrites hexact hrest =>
    refine .free hheld hflight hstuck hwrites hexact ?_
    intro hdurable hlast
    exact hretry.elim id (fun heq => heq.trans (hrest hdurable hlast))
  | busy init wr hwrites hinit hexact hphase =>
    refine .busy init wr hwrites hinit hexact ?_
    cases hphase with
    | awaited hheld hflight hstuck hhandled => exact .awaited hheld hflight hstuck hhandled
    | answered hheld hflight hstuck hhandled hlate =>
      exact .answered hheld hflight hstuck hhandled hlate
    | stuck hheld hflight hstuck hhandled htimedOut =>
      exact .stuck hheld hflight hstuck hhandled htimedOut

theorem Inv.timerFires (h : Inv cfg start w) (hstep : w.timerFires i now = some w') :
    Inv cfg start w' := by
  unfold World.timerFires at hstep
  split at hstep
  · rename_i htimer
    cases hstep
    have hok := h.sinks i
    have hdurable : cfg.durable i = false := by
      by_contra hdurable
      rw [hok.timer (Bool.eq_true_of_not_eq_false hdurable)] at htimer
      cases htimer
    have hretimed : SinkOk (cfg.durable i) w.log w.chainedThroughSeq w.gap (w.drain.awaits i)
        { w.sinks i with timer := false, retryAt := 0 } := by
      rw [hdurable] at hok ⊢
      exact hok.retimed false (.inl rfl)
    have hquiet : Inv cfg start
        (w.withSink i { w.sinks i with timer := false, retryAt := 0 }) :=
      h.withSink hretimed (.of_cursor (le_refl _) rfl id) h.chaining.held
    exact hquiet.pumpSink hdurable now
  · cases hstep

theorem Inv.pumpDone (h : Inv cfg start w) (hstep : w.pumpDone i = some w') : Inv cfg start w' := by
  unfold World.pumpDone at hstep
  split at hstep
  · rename_i hpump
    cases hstep
    have hok := h.sinks i
    have hdurable : cfg.durable i = false := by
      by_contra hdurable
      rw [hok.pump (Bool.eq_true_of_not_eq_false hdurable)] at hpump
      cases hpump
    have hawaits := awaits_none h.drained hdurable
    rw [hawaits, hdurable] at hok
    have hfree : (w.sinks i).held none = none := by
      unfold Sink.held
      rw [hpump]
    have hdone := hok.repump hfree .idle (by simp)
    rw [← hawaits, ← hdurable] at hdone
    exact h.withSink hdone (.of_cursor (le_refl _) rfl id) h.chaining.held
  · cases hstep

@[simp] theorem withSink_self (w : World E C σ ρ ι) (i : ι) (s : Sink C) :
    (w.withSink i s).sinks i = s := Function.update_self _ _ _

@[simp] theorem withSink_withSink (w : World E C σ ρ ι) (i : ι) (s s' : Sink C) :
    (w.withSink i s).withSink i s' = w.withSink i s' := by
  unfold World.withSink
  rw [Function.update_idem]

omit [DecidableEq ι] in
theorem pruneChained_held (cfg : Settings E C σ ρ ι) (w : World E C σ ρ ι) :
    ∃ chained, w.pruneChained cfg = { w with chained := chained } ∧
      ∀ {log : List (ℕ × C)} {through : ℕ}, Held log w.chained through → Held log chained through :=
  ⟨_, rfl, fun hheld => hheld.dropWhile _⟩

theorem Inv.deliverAgain (h : Inv cfg start w) (hdurable : cfg.durable i = false) :
    Inv cfg start (if (w.sinks i).retryAt ≤ now then w.pumpSink now i
      else if !succeeded || !(w.sinks i).timer then
        w.withSink i { w.sinks i with timer := true }
      else w) := by
  split
  · exact h.pumpSink hdurable now
  · split
    · have hok := h.sinks i
      have hretimed : SinkOk (cfg.durable i) w.log w.chainedThroughSeq w.gap (w.drain.awaits i)
          { w.sinks i with timer := true } := by
        rw [hdurable] at hok ⊢
        exact hok.retimed true (.inr rfl)
      exact h.withSink hretimed (.of_cursor (le_refl _) rfl id) h.chaining.held
    · exact h

/-- A write that settles past its timeout frees the sink. -/
theorem Inv.resume (h : Inv cfg start w) {throughSeq : ℕ}
    (hok : SinkOk (cfg.durable i) w.log w.chainedThroughSeq w.gap (w.drain.awaits i)
      { s with
        stuckSince := none
        failures := if succeeded then 0 else s.failures
        retryAt := if succeeded then 0 else now + World.backoffDelay cfg s.failures
        cursor := if succeeded then max s.cursor throughSeq else s.cursor })
    (hgrows : Grows (cfg.durable i) (w.sinks i)
      { s with
        stuckSince := none
        failures := if succeeded then 0 else s.failures
        retryAt := if succeeded then 0 else now + World.backoffDelay cfg s.failures
        cursor := if succeeded then max s.cursor throughSeq else s.cursor })
    (hdurable : cfg.durable i = false) :
    Inv cfg start ((w.withSink i s).resumeAfterLateSettle cfg i succeeded throughSeq now) := by
  unfold World.resumeAfterLateSettle
  dsimp only
  refine Inv.deliverAgain (w := ?_) ?_ hdurable
  simp only [withSink_self, withSink_withSink, advanceCursor_eq]
  have hnext : Inv cfg start (w.withSink i _) := h.withSink hok hgrows h.chaining.held
  cases succeeded with
  | true => exact hnext.pruneChained
  | false => exact hnext

/-- **The handler of a settled write runs.** -/
theorem Inv.handle [DecidableEq ρ] (h : Inv cfg start w) (htimely : Timely cfg w (.handle i k now))
    (hstep : w.handle cfg i k now = some w') : Inv cfg start w' := by
  unfold World.handle at hstep
  dsimp only at hstep
  split at hstep
  · cases hstep
  · rename_i wr hk
    split at hstep
    · cases hstep
    · rename_i succeeded hsettled
      split at hstep
      · cases hstep
      · rename_i hunhandled
        have hunhandled : wr.handled = false := by simpa using hunhandled
        have hok := h.sinks i
        obtain ⟨init, hwrites, rfl, hinit, hexact, hphase⟩ := hok.last_of_unhandled hk hunhandled
        have hmarked : wr.Marked { wr with handled := true } :=
          ⟨rfl, rfl, fun _ => by rw [hsettled]; rfl⟩
        have hset : (w.sinks i).writes.set init.length { wr with handled := true } =
            init ++ [{ wr with handled := true }] := by
          rw [hwrites, set_last]
        rw [hset] at hstep
        cases hphase with
        | answered _ _ _ hhandled _ => rw [hunhandled] at hhandled; cases hhandled
        | awaited hheld hflight hstuck _ =>
          rw [if_neg (by rw [hflight]; simp), if_pos (by rw [hstuck]; rfl)] at hstep
          cases hstep
          obtain ⟨hwritesOk, hordered⟩ := hok.marked_writes hwrites hmarked
          refine h.withSink ⟨hok.cursor, hwritesOk, hordered, .busy init _ rfl hinit hexact
            (.answered hheld rfl hstuck rfl ?_), hok.pump, hok.timer⟩ ?_ h.chaining.held
          · intro (htimedOut : wr.timedOut = true) (hsuccess : wr.settledAs = some true)
            by_contra hdurable
            rw [Bool.not_eq_true] at hdurable
            rw [awaits_none h.drained hdurable] at hheld
            have hpump : (w.sinks i).pump = .awaiting init.length := by
              unfold Sink.held at hheld
              split at hheld
              · rename_i k hpump
                rw [hpump, Option.some.inj hheld]
              · cases hheld
            unfold Timely lateSuccess at htimely
            dsimp only at htimely
            rw [hk] at htimely
            simp [hdurable, hpump, htimedOut, hsuccess] at htimely
          · refine .of_cursor (le_refl _) ?_ (fun _ => rfl)
            show (init ++ [_]).map Write.throughSeq = _
            rw [hwrites, List.map_append, List.map_append]
            rfl
        | stuck hheld hflight hstuck _ htimedOut =>
          rw [if_neg (by rw [hflight]; simp),
            if_neg (by rw [Option.isNone_eq_false_iff.mpr hstuck]; simp)] at hstep
          split at hstep
          · rename_i hdurable
            cases hstep
            obtain ⟨haccounted, hgrows⟩ := hok.account (w.drain.awaits i)
              { w.sinks i with
                writes := init ++ [{ wr with handled := true }]
                inFlight := none
                stuckSince := none
                cursor := if succeeded then max (w.sinks i).cursor wr.throughSeq
                  else (w.sinks i).cursor }
              hwrites hmarked hinit hexact rfl rfl (by simp [hsettled]) rfl hheld rfl rfl
              (fun hnot => absurd hdurable (by rw [hnot]; nofun)) hok.pump hok.timer
            unfold World.resumeDurableAfterLateSettle
            simp only [withSink_self, withSink_withSink, advanceCursor_eq]
            have hnext : Inv cfg start (w.withSink i _) :=
              h.withSink haccounted hgrows h.chaining.held
            cases succeeded with
            | true => exact hnext.pruneChained
            | false => exact hnext
          · rename_i hdurable
            cases hstep
            rw [Bool.not_eq_true] at hdurable
            obtain ⟨haccounted, hgrows⟩ := hok.account (w.drain.awaits i)
              { w.sinks i with
                writes := init ++ [{ wr with handled := true }]
                inFlight := none
                stuckSince := none
                failures := if succeeded then 0 else (w.sinks i).failures
                retryAt := if succeeded then 0 else
                  now + World.backoffDelay cfg (w.sinks i).failures
                cursor := if succeeded then max (w.sinks i).cursor wr.throughSeq
                  else (w.sinks i).cursor }
              hwrites hmarked hinit hexact rfl rfl (by simp [hsettled]) rfl hheld rfl rfl
              (fun _ hsuccess => if_pos (by simpa [hsettled] using hsuccess)) hok.pump hok.timer
            exact h.resume haccounted hgrows hdurable

/-- **A delivery goes on after a write.** -/
theorem Inv.pumpGo (h : Inv cfg start w) (hstep : w.pumpGo cfg i now = some w') :
    Inv cfg start w' := by
  unfold World.pumpGo at hstep
  dsimp only at hstep
  split at hstep
  · rename_i k hpump
    split at hstep
    · cases hstep
    · rename_i wr hk
      have hok := h.sinks i
      have hdurable : cfg.durable i = false := by
        by_contra hdurable
        rw [hok.pump (Bool.eq_true_of_not_eq_false hdurable)] at hpump
        cases hpump
      have hawaits := awaits_none h.drained hdurable
      have hheld : (w.sinks i).held (w.drain.awaits i) = some k := by
        unfold Sink.held
        rw [hpump]
      have hended : ∀ {s : Sink C}, s.pump = .ending → s.held (w.drain.awaits i) = none := by
        intro s hending
        unfold Sink.held
        rw [hending]
        exact hawaits
      obtain ⟨init, hwrites, rfl, hinit, hexact, hstuck, hphase⟩ := hok.last_of_held hheld hk
      have hwr := hok.writes wr (Sink.last_mem hwrites)
      have hnot : ∀ {p : Prop}, cfg.durable i = true → p := by
        intro p htrue
        rw [hdurable] at htrue
        cases htrue
      have hfails : wr.handled = true → wr.settledAs ≠ some true → (w.sinks i).inFlight = none →
          Inv cfg start (w.withSink i { w.sinks i with
            failures := (w.sinks i).failures + 1
            retryAt := now + World.backoffDelay cfg ((w.sinks i).failures + 1)
            timer := true
            pump := .ending }) := by
        intro hhandled hfailed hflight
        obtain ⟨haccounted, hgrows⟩ := hok.account (w.drain.awaits i)
          { w.sinks i with
            failures := (w.sinks i).failures + 1
            retryAt := now + World.backoffDelay cfg ((w.sinks i).failures + 1)
            timer := true
            pump := .ending }
          hwrites (marked_refl hwr.answered) hinit hexact hhandled hwrites (if_neg hfailed).symm rfl
          (hended rfl) hflight hstuck (fun _ hsuccess => absurd hsuccess hfailed) hnot hnot
        exact h.withSink haccounted hgrows h.chaining.held
      split at hstep
      · rename_i htimedOut
        cases hstep
        rcases hphase with ⟨hflight, hhandled⟩ | ⟨hflight, hhandled, hlate⟩
        · rw [if_pos hflight]
          refine h.withSink ⟨hok.cursor, hok.writes, hok.ordered, .busy init wr hwrites hinit hexact
            (.stuck (hended rfl) hflight rfl hhandled htimedOut), hnot, hnot⟩
            (.of_cursor (le_refl _) rfl id) h.chaining.held
        · rw [if_neg (by rw [hflight]; nofun)]
          exact hfails hhandled (fun hsuccess => hnot (hlate htimedOut hsuccess)) hflight
      · split at hstep
        · cases hstep
        · rename_i hhandled
          have hhandled : wr.handled = true := by simpa using hhandled
          have hflight : (w.sinks i).inFlight = none := by
            rcases hphase with ⟨-, hunhandled⟩ | ⟨hflight, -, -⟩
            · rw [hhandled] at hunhandled
              cases hunhandled
            · exact hflight
          split at hstep
          · rename_i hsuccess
            cases hstep
            obtain ⟨haccounted, hgrows⟩ := hok.account (w.drain.awaits i)
              { w.sinks i with
                failures := 0
                retryAt := 0
                cursor := max (w.sinks i).cursor wr.throughSeq
                pump := .ending }
              hwrites (marked_refl hwr.answered) hinit hexact hhandled hwrites
              (if_pos hsuccess).symm rfl (hended rfl) hflight hstuck (fun _ _ => rfl) hnot hnot
            rw [hawaits, hdurable] at haccounted
            rw [hdurable] at hgrows
            rw [advanceCursor_eq]
            obtain ⟨chained, hprune, hpruned⟩ := pruneChained_held cfg (w.withSink i
              { w.sinks i with
                failures := 0, retryAt := 0, cursor := max (w.sinks i).cursor wr.throughSeq })
            rw [hprune]
            have hheld' : Held w.log chained w.chainedThroughSeq := hpruned h.chaining.held
            obtain ⟨hpumped, hgrows', -⟩ := haccounted.runPump rfl hflight hheld'
              h.chaining.increasing h.chaining.length (w.sinks i).pump
            rw [← hawaits, ← hdurable] at hpumped
            have hstep : Grows (cfg.durable i) (w.sinks i) _ := hdurable ▸ hgrows.trans hgrows'
            have hnext := h.withSink hpumped hstep hheld'
            unfold World.withSink
            dsimp only
            rw [Function.update_self, Function.update_idem]
            exact hnext
          · rename_i hfailed
            cases hstep
            exact hfails hhandled hfailed hflight
  · cases hstep

theorem Inv.initial (cfg : Settings E C σ ρ ι) (capacity : ℕ) (h : 0 < capacity) (start : σ) :
    Inv cfg start (World.initial capacity h start) where
  buffer := RingBuffer.new_holds capacity h
  chaining := by
    refine ⟨⟨[], rfl, ⟨List.Pairwise.nil, List.forall_mem_nil _, List.forall_mem_nil _⟩,
      fun _ => rfl⟩, Nat.zero_le _, ⟨⟨0, rfl⟩, Nat.zero_le _, rfl⟩, nofun⟩
  sinks := fun i =>
    { cursor := Nat.zero_le _
      writes := List.forall_mem_nil _
      ordered := List.Pairwise.nil
      stand := .free rfl rfl rfl (List.forall_mem_nil _) (fun _ _ => rfl) (fun _ _ => rfl)
      pump := fun _ => rfl
      timer := fun _ => rfl }
  drained := nofun
  covered := fun _ _ => Nat.zero_le _
  progress := fun _ _ _ _ hrunning => absurd rfl hrunning

/-- **Every step keeps the invariant**, when no success comes too late. -/
theorem Inv.step [DecidableEq ρ] (h : Inv cfg start w) {label : Label E ι}
    (htimely : Timely cfg w label) (hstep : w.step cfg label = some w') : Inv cfg start w' := by
  cases label with
  | emit event =>
    cases hstep
    exact h.emit event
  | drain =>
    unfold World.step at hstep
    dsimp only at hstep
    split at hstep
    · rename_i hidle
      cases hstep
      exact h.beginDrain hidle
    · cases hstep
  | chainNext => exact h.chainNext hstep
  | durableNext => exact h.durableNext hstep
  | durableGo now => exact h.durableGo hstep
  | endDrain now => exact h.endDrain hstep
  | settle i k succeeded => exact h.settle hstep
  | timeout i k => exact h.timeout hstep
  | handle i k now => exact h.handle htimely hstep
  | pumpGo i now => exact h.pumpGo hstep
  | pumpDone i => exact h.pumpDone hstep
  | timerFires i now => exact h.timerFires hstep

end

/-- The states reached from an emitter no event was emitted to, by steps that
meet a condition. -/
inductive Run [DecidableEq ρ] (cfg : Settings E C σ ρ ι)
    (ok : World E C σ ρ ι → Label E ι → Prop) (start : σ) : World E C σ ρ ι → Prop
  | initial (capacity : ℕ) (h : 0 < capacity) : Run cfg ok start (.initial capacity h start)
  | step {w w' : World E C σ ρ ι} {label : Label E ι} (hrun : Run cfg ok start w)
      (hok : ok w label) (hstep : w.step cfg label = some w') : Run cfg ok start w'

/-- What delivery to every sink is to be.  Events are chained once each, in the
order they were emitted; all sinks are handed the same chained event for a
position; a sink has at most one write outstanding, and its successful writes
store increasing positions; and a sink nothing was dropped for, in a run without
an overflow, whose writes have all settled, the last with success, before and
since a drain that chained all that was emitted, has stored exactly that. -/
structure Delivered (cfg : Settings E C σ ρ ι) (start : σ) (w : World E C σ ρ ι) : Prop where
  chained : ∃ events : List (ℕ × E), w.log = (chainAll cfg.chain start events).2 ∧
    (events.map Prod.fst).Pairwise (· < ·) ∧
    ∀ p ∈ events, 0 < p.1 ∧ w.emitted[p.1 - 1]? = some p.2
  same : ∀ i j, ∀ a ∈ (w.sinks i).writes, ∀ b ∈ (w.sinks j).writes, ∀ p ∈ a.events, ∀ q ∈ b.events,
    p ∈ w.log ∧ (p.1 = q.1 → p = q)
  outstanding : ∀ i, ((w.sinks i).writes.filter (fun wr => wr.settledAs.isNone)).length ≤ 1
  increasing : ∀ i, ((stored (w.sinks i).writes).map Prod.fst).Pairwise (· < ·)
  complete : ∀ i ∈ cfg.sinks, w.gap = false → (w.sinks i).dropped = 0 → w.settled i = true →
    w.covered i = w.emitted.length →
    stored (w.sinks i).writes = (chainAll cfg.chain start (numbered w.emitted)).2

section

variable {cfg : Settings E C σ ρ ι} {start : σ} {w : World E C σ ρ ι}

omit [DecidableEq ι] in
theorem numbered_of_positions {emitted : List E} {events : List (ℕ × E)}
    (hpositions : events.map Prod.fst = List.range' 1 emitted.length)
    (hemitted : ∀ p ∈ events, 0 < p.1 ∧ emitted[p.1 - 1]? = some p.2) :
    events = numbered emitted := by
  apply List.ext_getElem?
  intro k
  have hposition := congrArg (fun l : List ℕ => l[k]?) hpositions
  rw [List.getElem?_map] at hposition
  unfold numbered
  rw [List.getElem?_map, List.getElem?_zipIdx]
  by_cases hk : k < emitted.length
  · rw [List.getElem?_range' hk] at hposition
    obtain ⟨p, hp, hfirst⟩ := Option.map_eq_some_iff.mp hposition
    obtain ⟨-, hevent⟩ := hemitted p (List.mem_of_getElem? hp)
    have hnumber : p.1 - 1 = k := by omega
    rw [hnumber] at hevent
    rw [hp, hevent]
    refine congrArg some (Prod.ext ?_ rfl)
    show p.1 = 1 + k
    omega
  · have hlength := congrArg List.length hpositions
    rw [List.length_map, List.length_range'] at hlength
    rw [List.getElem?_eq_none (by omega), List.getElem?_eq_none (by omega)]
    rfl

theorem Inv.delivered (h : Inv cfg start w) : Delivered cfg start w := by
  obtain ⟨events, hlog, hplaced, hall⟩ := h.chaining.log
  have hincreasing := h.chaining.increasing
  refine ⟨⟨events, by rw [hlog], hplaced.increasing, hplaced.emitted⟩, ?_, ?_, ?_, ?_⟩
  · intro i j a ha b hb p hp q hq
    have hpLog := (((h.sinks i).writes a ha).events p hp).1
    have hqLog := (((h.sinks j).writes b hb).events q hq).1
    refine ⟨hpLog, fun heq => ?_⟩
    have hlookup := lookup_of_increasing hincreasing hpLog
    rw [heq, lookup_of_increasing hincreasing hqLog] at hlookup
    exact Prod.ext heq (Option.some.inj hlookup).symm
  · intro i
    have hnone : ∀ {cursor : ℕ} {writes : List (Write C)}, (∀ wr ∈ writes, wr.Accounted cursor) →
        writes.filter (fun wr => wr.settledAs.isNone) = [] := by
      intro cursor writes hwrites
      apply List.filter_eq_nil_iff.mpr
      intro wr hwr
      simpa using Option.isSome_iff_ne_none.mp (hwrites wr hwr).settled
    cases (h.sinks i).stand with
    | free _ _ _ hwrites _ _ =>
      rw [hnone hwrites]
      exact Nat.zero_le _
    | busy init wr hwrites hinit _ _ =>
      rw [hwrites, List.filter_append, hnone hinit, List.nil_append]
      exact List.length_filter_le _ _
  · intro i
    have hok := h.sinks i
    unfold stored
    rw [List.map_flatMap, List.pairwise_flatMap]
    refine ⟨fun wr hwr => (hok.writes wr (List.mem_of_mem_filter hwr)).increasing, ?_⟩
    apply (hok.ordered.filter _).imp_of_mem
    intro a b ha _ hbefore x hx y hy
    obtain ⟨p, hp, rfl⟩ := List.mem_map.mp hx
    obtain ⟨q, hq, rfl⟩ := List.mem_map.mp hy
    exact hbefore (of_decide_eq_true (List.mem_filter.mp ha).2) p hp q hq
  · intro i hi hgap hdropped hsettled hcovered
    obtain ⟨-, -, hwrites, hexact, -, hlast⟩ := h.free_of_settled hsettled
    have hreach : (w.sinks i).reach = (w.sinks i).cursor := by
      rcases List.eq_nil_or_concat' (w.sinks i).writes with hnil | ⟨init, wr, hconcat⟩
      · unfold Sink.reach
        rw [hnil]
        exact Nat.max_eq_left (Nat.zero_le _)
      · unfold Sink.lastSucceeded at hlast
        rw [hconcat, List.getLast?_concat] at hlast
        have hwr := hwrites wr (Sink.last_mem hconcat)
        rw [reach_concat hconcat]
        exact Nat.max_eq_left (hwr.cursor (of_decide_eq_true hlast))
    have hle := h.covered i hi
    have hcursor := (h.sinks i).cursor
    have hthrough := h.chaining.through
    have hlength := h.chaining.length hgap
    have hend : w.chainedThroughSeq = w.emitted.length := by omega
    have hpositions := hall hgap
    rw [hend] at hpositions
    rw [hexact hgap hdropped, List.take_of_length_le (by omega),
      ← numbered_of_positions hpositions hplaced.emitted, hlog]

theorem Run.inv [DecidableEq ρ] (h : Run cfg (Timely cfg) start w) : Inv cfg start w := by
  induction h with
  | initial capacity hpos => exact .initial cfg capacity hpos start
  | step _ hok hstep ih => exact ih.step hok hstep

end

/-- An event that was chained. -/
abbrev ChainedAuditEvent := List (JsString × Option JsonValue)

/-- `AuditEmitterOptions`.  The fields of an event are hashed by what holds at its
position. -/
structure AuditEmitterOptions (ι : Type*) where
  sinks : List ι
  durable : ι → Bool
  silenced : AuditEvent → Bool
  hmac : ℕ → AuditEvent → AuditEvent
  sinkBackoffBaseMs : ℕ
  sinkBackoffMaxMs : ℕ

/-- A field of an event, when it is a text. -/
def textField (event : AuditEvent) (name : JsString) : JsString :=
  match event.fields.lookup name with
  | some (some (.str text)) => text
  | _ => []

section

variable (numberText : ℚ → JsString) (sha256 : List (Fin 256) → List (Fin 256))

/-- An emitter of audit events. -/
def AuditEmitterOptions.settings (o : AuditEmitterOptions ι) :
    Settings AuditEvent ChainedAuditEvent AuditChainState JsString ι where
  sinks := o.sinks
  durable := o.durable
  silenced := o.silenced
  outcome := fun event =>
    if textField event (js "outcome") = js "denied" then .denied
    else if textField event (js "outcome") = js "success" then .success
    else .other
  requestId := fun event => textField event (js "requestId")
  chain := fun seq chainState event => chainState.chain numberText sha256 (o.hmac seq event)
  sinkBackoffBaseMs := o.sinkBackoffBaseMs
  sinkBackoffMaxMs := o.sinkBackoffMaxMs

/-- What a sink holds: the events of its successful writes, as JSON. -/
def received (s : Sink ChainedAuditEvent) : List Fields :=
  (stored s.writes).map (fun p => storedFields p.2)

omit [DecidableEq ι] in
theorem chainAll_store (hmac : ℕ → AuditEvent → AuditEvent) (start : AuditChainState)
    (events : List (ℕ × AuditEvent)) :
    (chainAll (fun seq chainState event => AuditChainState.chain numberText sha256 chainState
        (hmac seq event)) start events).2.map (fun p => storedFields p.2) =
      (start.store numberText sha256 (events.map (fun p => hmac p.1 p.2))).2 := by
  induction events generalizing start with
  | nil => rfl
  | cons p events ih => exact congrArg (_ :: ·) (ih _)

/-- **Audit delivery is ordered and exactly once per sink**, in every run where
no success of a sink that is not durable is handled between its timeout and its
delivery's taking note of that.  A sink that has had all that was emitted holds
a list that `verifyChain` accepts. -/
theorem audit_delivered_once (o : AuditEmitterOptions ι) (start : AuditChainState)
    (w : World AuditEvent ChainedAuditEvent AuditChainState JsString ι)
    (hrun : Run (o.settings numberText sha256) (Timely (o.settings numberText sha256)) start w) :
    Delivered (o.settings numberText sha256) start w ∧
      ∀ i ∈ o.sinks, w.gap = false → (w.sinks i).dropped = 0 → w.settled i = true →
        w.covered i = w.emitted.length →
        received (w.sinks i) = (start.store numberText sha256
            ((numbered w.emitted).map (fun p => o.hmac p.1 p.2))).2 ∧
          verifyChain numberText sha256 start.previousDigest (received (w.sinks i)) = .valid := by
  have hdelivered := hrun.inv.delivered
  refine ⟨hdelivered, ?_⟩
  intro i hi hgap hdropped hsettled hcovered
  have hreceived : received (w.sinks i) = (start.store numberText sha256
      ((numbered w.emitted).map (fun p => o.hmac p.1 p.2))).2 := by
    unfold received
    rw [hdelivered.complete i hi hgap hdropped hsettled hcovered]
    exact chainAll_store numberText sha256 o.hmac start _
  refine ⟨hreceived, ?_⟩
  rw [hreceived]
  exact verifyChain_store start _

end

/-- An emitter with one sink that is not durable, backing off for 100 ms. -/
def oneSink : Settings AuditEvent ChainedAuditEvent AuditChainState JsString Unit :=
  AuditEmitterOptions.settings (fun _ => []) loginSha256
    ⟨[()], fun _ => false, fun _ => false, fun _ event => event, 100, 1000⟩

/-- The sink is handed the event. -/
def handed : List (Label AuditEvent Unit) :=
  [.emit loginEvent, .drain, .chainNext, .durableNext, .endDrain 0]

/-- Its write succeeds. -/
def succeeds : List (Label AuditEvent Unit) :=
  [.settle () 0 true, .handle () 0 0, .pumpGo () 0, .pumpDone ()]

/-- Its write succeeds just as the timeout fires, and is retried. -/
def succeedsLate : List (Label AuditEvent Unit) :=
  [.timeout () 0, .settle () 0 true, .handle () 0 0, .pumpGo () 0, .pumpDone (),
   .timerFires () 100, .settle () 1 true]

/-- Several steps, none of which comes upon a late success. -/
def World.timelySteps [DecidableEq ρ] (cfg : Settings E C σ ρ ι) :
    World E C σ ρ ι → List (Label E ι) → Option (World E C σ ρ ι)
  | w, [] => some w
  | w, label :: labels =>
    if lateSuccess cfg w label then none
    else (w.step cfg label).bind (fun w' => World.timelySteps cfg w' labels)

theorem Run.timelySteps [DecidableEq ρ] {cfg : Settings E C σ ρ ι} {start : σ} {w : World E C σ ρ ι}
    {labels : List (Label E ι)} (h : Run cfg (Timely cfg) start w)
    (hsteps : w.timelySteps cfg labels = some w') : Run cfg (Timely cfg) start w' := by
  induction labels generalizing w with
  | nil =>
    cases hsteps
    exact h
  | cons label labels ih =>
    unfold World.timelySteps at hsteps
    split at hsteps
    · cases hsteps
    · rename_i htimely
      obtain ⟨v, hstep, hsteps⟩ := Option.bind_eq_some_iff.mp hsteps
      exact ih (h.step (Bool.eq_false_of_not_eq_true htimely) hstep) hsteps

theorem Run.steps [DecidableEq ρ] {cfg : Settings E C σ ρ ι} {start : σ} {w : World E C σ ρ ι}
    {labels : List (Label E ι)} (h : Run cfg (fun _ _ => True) start w)
    (hsteps : w.steps cfg labels = some w') : Run cfg (fun _ _ => True) start w' := by
  induction labels generalizing w with
  | nil =>
    cases hsteps
    exact h
  | cons label labels ih =>
    obtain ⟨v, hstep, hsteps⟩ := Option.bind_eq_some_iff.mp hsteps
    exact ih (h.step trivial hstep) hsteps

/-- An emitter with room for 10 events. -/
def newEmitter : World AuditEvent ChainedAuditEvent AuditChainState JsString Unit :=
  .initial 10 (by decide) .initial

/-- A durable sink, `true`, and one that is not. -/
def twoSinkOptions : AuditEmitterOptions Bool :=
  ⟨[true, false], id, fun _ => false, fun _ event => event, 100, 1000⟩

def logoutEvent : AuditEvent where
  fields := [(js "id", some (.str (js "b"))), (js "action", some (.str (js "logout")))]
  distinct := by decide

/-- Two events: the durable sink's first write fails and it is written both with
its second. -/
def bothHanded : List (Label AuditEvent Bool) :=
  [.emit loginEvent, .drain, .chainNext, .durableNext, .settle true 0 false, .handle true 0 0,
   .durableGo 0, .durableNext, .endDrain 0, .settle false 0 true, .emit logoutEvent,
   .handle false 0 0, .pumpGo false 0, .pumpDone false, .drain, .chainNext, .durableNext,
   .settle true 1 true, .handle true 1 0, .durableGo 0, .durableNext, .endDrain 0,
   .settle false 1 true, .handle false 1 0, .pumpGo false 0, .pumpDone false, .drain,
   .durableNext, .durableNext, .endDrain 0, .pumpDone false]

def newTwoSinks : World AuditEvent ChainedAuditEvent AuditChainState JsString Bool :=
  .initial 10 (by decide) .initial

/-- The emitter after both sinks have stored both events. -/
def deliveredBoth : Option (World AuditEvent ChainedAuditEvent AuditChainState JsString Bool) :=
  newTwoSinks.timelySteps (twoSinkOptions.settings (fun _ => []) loginSha256) bothHanded

theorem deliveredBoth_settled : deliveredBoth.all (fun w => !w.gap && w.emitted.length = 2 &&
    [true, false].all (fun i => (w.sinks i).dropped = 0 && w.settled i &&
      w.covered i = w.emitted.length)) = true := by decide +kernel

/-- Two events, each delivered to two sinks. -/
theorem audit_delivered_once_two_sinks :
    ∃ w, deliveredBoth = some w ∧ w.emitted.length = 2 ∧
      Delivered (twoSinkOptions.settings (fun _ => []) loginSha256) .initial w ∧
      ∀ i : Bool,
        received (w.sinks i) = (AuditChainState.initial.store (fun _ => []) loginSha256
          ((numbered w.emitted).map Prod.snd)).2 ∧
        verifyChain (fun _ => []) loginSha256 CHAIN_SEED_DIGEST (received (w.sinks i)) =
          .valid := by
  obtain ⟨w, hw⟩ : ∃ w, deliveredBoth = some w :=
    Option.isSome_iff_exists.mp (by decide +kernel)
  have hsettled := deliveredBoth_settled
  rw [hw] at hsettled
  simp only [Option.all_some, Bool.and_eq_true, Bool.not_eq_true', decide_eq_true_eq,
    List.all_eq_true] at hsettled
  obtain ⟨⟨hgap, hlength⟩, hsinks⟩ := hsettled
  have hrun : Run (twoSinkOptions.settings (fun _ => []) loginSha256)
      (Timely (twoSinkOptions.settings (fun _ => []) loginSha256)) .initial w :=
    Run.timelySteps (.initial 10 (by decide)) hw
  obtain ⟨hdelivered, haccepted⟩ :=
    audit_delivered_once (fun _ => []) loginSha256 twoSinkOptions .initial w hrun
  refine ⟨w, hw, hlength, hdelivered, ?_⟩
  intro i
  have hi : i ∈ [true, false] := by cases i <;> decide
  obtain ⟨⟨hdropped, hquiet⟩, hcovered⟩ := hsinks i hi
  exact haccepted i hi hgap hdropped hquiet hcovered

/-- **A batch is stored twice**: the write succeeds just as its timeout fires,
and the delivery retries it. -/
theorem late_success_stored_twice :
    ¬ ∀ w, Run oneSink (fun _ _ => True) .initial w → Delivered oneSink .initial w := by
  intro hclaim
  obtain ⟨w, hw⟩ : ∃ w, newEmitter.steps oneSink (handed ++ succeedsLate) = some w :=
    Option.isSome_iff_exists.mp (by decide +kernel)
  have htwice : (newEmitter.steps oneSink (handed ++ succeedsLate)).all
      (fun w => (stored (w.sinks ()).writes).map Prod.fst = [1, 1]) = true := by decide +kernel
  rw [hw] at htwice
  have hincreasing := (hclaim w (Run.steps (.initial 10 (by decide)) hw)).increasing ()
  rw [of_decide_eq_true htwice] at hincreasing
  exact absurd hincreasing (by decide)

end Audit

end Swamp
