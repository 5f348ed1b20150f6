import Swamp.PartitionReplay
import Swamp.StoreRuns

/-!
# What the rows of a partition stand for

`Standing db a p` says that the rows of a partition stand for the state `p`: its
snapshot, or the empty partition, is where a rebuild starts, the stored commits
past it replay to `p`, and the head is `p`'s.  Any partition the store holds in
memory is tied to the rows through this `p`.
-/

namespace Swamp

open Js Swamp.Partition

/-- Nothing forgotten. -/
def nothing (_ : JsString) : Prop := False

namespace CommitsDb

variable (db : CommitsDb)

/-- The stored commits of a partition, in feed order. -/
def commitsOf (a : Address) : List Commit := (db.rowsOf a).map CommitRow.commit

/-- The stored commits of a partition past a seq. -/
def commitsPast (a : Address) (seq : ℕ) : List Commit :=
  (db.commitsOf a).filter (fun commit => seq < commit.seq)

/-- Whether a txnId is known, stored or compacted. -/
def Knows (a : Address) (txnId : JsString) : Prop :=
  txnId ∈ (db.commitsOf a).map Commit.txnId ∨
    ∃ txn ∈ db.compactedTxns, txn.address = a ∧ txn.txnId = txnId

end CommitsDb

/-- Where a rebuild starts: at the snapshot's state, or empty. -/
structure StartsAt (db : CommitsDb) (a : Address) (s : Partition) : Prop where
  key : s.key.value = a.2
  sound : s.Sound
  txns : ∀ txnId, s.hasTxn txnId = db.txnUpTo a s.seq txnId
  row : (db.snapshots.lookup a = none ∧ Alike nothing (Partition.empty s.key) s) ∨
    db.snapshots.lookup a = some s.snapshotRow

/-- The head a partition's state gives. -/
def HeadOf (row : Option HeadRow) (p : Partition) : Prop :=
  (row = none ∧ p.seq = 0) ∨ (row = some ⟨p.seq, p.highestFence⟩ ∧ 0 < p.seq)

/-- The rows of a partition stand for a state. -/
structure Standing (db : CommitsDb) (a : Address) (p : Partition) : Prop where
  seqs : (db.commitsOf a).map Commit.seq =
    List.range' (db.compactedSeq a + 1) (db.commitsOf a).length
  distinct : ((db.commitsOf a).map Commit.txnId).Nodup
  compacted : ∀ txn ∈ db.compactedTxns, txn.address = a → 0 < txn.seq ∧
    txn.seq ≤ db.compactedSeq a ∧ txn.txnId ∉ (db.commitsOf a).map Commit.txnId
  start : ∃ s, StartsAt db a s ∧ db.compactedSeq a ≤ s.seq ∧
    s.seq ≤ db.compactedSeq a + (db.commitsOf a).length ∧ Replays s (db.commitsPast a s.seq) p
  head : HeadOf (db.heads.lookup a) p

/-- The rows of every partition stand for some state. -/
def CommitsDb.Stands (db : CommitsDb) : Prop :=
  ∀ (ns : JsString) (key : PartitionKey), ∃ p, Standing db (ns, key.value) p

theorem pairwise_seq {cs : List Commit} {n : ℕ} (h : cs.map Commit.seq = List.range' n cs.length) :
    cs.Pairwise (fun c d => c.seq < d.seq) := by
  have hrange : (cs.map Commit.seq).Pairwise (· < ·) := by
    rw [h]
    exact List.pairwise_lt_range'
  exact List.pairwise_map.mp hrange

/-- What stands in order of a number splits at any number. -/
theorem filter_split {α : Type*} (f : α → ℕ) {xs : List α}
    (h : xs.Pairwise (fun x y => f x < f y)) (n : ℕ) :
    xs = xs.filter (fun x => f x ≤ n) ++ xs.filter (fun x => n < f x) := by
  induction xs with
  | nil => rfl
  | cons x xs ih =>
    obtain ⟨hfirst, hrest⟩ := List.pairwise_cons.mp h
    by_cases hx : f x ≤ n
    · rw [List.filter_cons_of_pos (by simpa using hx),
        List.filter_cons_of_neg (by simpa using hx), List.cons_append, ← ih hrest]
    · have hnone : xs.filter (fun y => f y ≤ n) = [] := by
        apply List.filter_eq_nil_iff.mpr
        intro y hy
        have := hfirst y hy
        simp only [decide_eq_true_eq]
        omega
      have hall : xs.filter (fun y => n < f y) = xs := by
        apply List.filter_eq_self.mpr
        intro y hy
        have := hfirst y hy
        simp only [decide_eq_true_eq]
        omega
      rw [List.filter_cons_of_neg (by simpa using hx),
        List.filter_cons_of_pos (by simpa using Nat.lt_of_not_le hx), hnone, hall,
        List.nil_append]

namespace Standing

variable {db : CommitsDb} {a : Address} {p : Partition}

theorem ordered (h : Standing db a p) : (db.commitsOf a).Pairwise (fun c d => c.seq < d.seq) :=
  pairwise_seq h.seqs

theorem commitsFrom_eq (h : Standing db a p) (n : ℕ) :
    db.commitsFrom a (n + 1) = db.commitsPast a n := by
  have hsorted : (db.commitsPast a n).Pairwise (fun c d => c.seq ≤ d.seq) :=
    (h.ordered.filter _).imp (fun hlt => Nat.le_of_lt hlt)
  exact hsorted.insertionSort_eq

theorem mem_seq (h : Standing db a p) {c : Commit} (hc : c ∈ db.commitsOf a) :
    db.compactedSeq a < c.seq ∧ c.seq ≤ db.compactedSeq a + (db.commitsOf a).length := by
  have hmem : c.seq ∈ (db.commitsOf a).map Commit.seq := List.mem_map.mpr ⟨c, hc, rfl⟩
  rw [h.seqs, List.mem_range'_1] at hmem
  omega

/-- The state's seq is that of the last commit. -/
theorem seq_eq (h : Standing db a p) :
    p.seq = db.compactedSeq a + (db.commitsOf a).length := by
  obtain ⟨s, -, hlow, hhigh, hreplays⟩ := h.start
  have hlast := hreplays.next_seq
  have hsplit := congrArg List.length (filter_split Commit.seq h.ordered s.seq)
  rw [List.length_append] at hsplit
  have hpast : (db.commitsPast a s.seq).length =
      ((db.commitsOf a).filter (fun c => s.seq < c.seq)).length := rfl
  have hkept : ((db.commitsOf a).filter (fun c => c.seq ≤ s.seq)).length =
      s.seq - db.compactedSeq a := by
    have hcount : ((db.commitsOf a).filter (fun c => c.seq ≤ s.seq)).length =
        (((db.commitsOf a).map Commit.seq).filter (fun n => n ≤ s.seq)).length := by
      rw [List.filter_map, List.length_map]
      rfl
    rw [hcount, h.seqs]
    clear hcount hpast hsplit hlast hreplays
    generalize (db.commitsOf a).length = n at hhigh ⊢
    generalize db.compactedSeq a = c at hlow hhigh ⊢
    have hrange : (List.range' (c + 1) n).filter (fun m => m ≤ s.seq) =
        List.range' (c + 1) (s.seq - c) := by
      obtain ⟨k, rfl⟩ : ∃ k, n = (s.seq - c) + k := ⟨n - (s.seq - c), by omega⟩
      rw [← List.range'_append_1, List.filter_append]
      have hfirst : (List.range' (c + 1) (s.seq - c)).filter (fun m => m ≤ s.seq) =
          List.range' (c + 1) (s.seq - c) := by
        apply List.filter_eq_self.mpr
        intro m hm
        rw [List.mem_range'_1] at hm
        simp only [decide_eq_true_eq]
        omega
      have hsecond : (List.range' (c + 1 + (s.seq - c)) k).filter (fun m => m ≤ s.seq) = [] := by
        apply List.filter_eq_nil_iff.mpr
        intro m hm
        rw [List.mem_range'_1] at hm
        simp only [decide_eq_true_eq]
        omega
      rw [hfirst, hsecond, List.append_nil]
    rw [hrange, List.length_range']
  omega

theorem key (h : Standing db a p) : p.key.value = a.2 := by
  obtain ⟨s, hs, -, -, hreplays⟩ := h.start
  rw [hreplays.key]
  exact hs.key

theorem sound (h : Standing db a p) : p.Sound := by
  obtain ⟨s, hs, -, -, hreplays⟩ := h.start
  exact hreplays.sound hs.sound

theorem headSeq_eq (h : Standing db a p) : db.headSeq a = p.seq := by
  unfold CommitsDb.headSeq
  rcases h.head with ⟨hrow, hseq⟩ | ⟨hrow, -⟩
  · rw [hrow, hseq]
  · rw [hrow]

end Standing

theorem txnUpTo_iff (db : CommitsDb) (a : Address) (n : ℕ) (txnId : JsString) :
    db.txnUpTo a n txnId = true ↔
      (∃ c ∈ db.commitsOf a, c.txnId = txnId ∧ c.seq ≤ n) ∨
        ∃ txn ∈ db.compactedTxns, txn.address = a ∧ txn.txnId = txnId ∧ txn.seq ≤ n := by
  unfold CommitsDb.txnUpTo CommitsDb.commitsOf
  simp

namespace Standing

variable {db : CommitsDb} {a : Address} {p : Partition}

/-- **The txnIds of the state** are those stored or compacted. -/
theorem hasTxn_iff (h : Standing db a p) (txnId : JsString) :
    p.hasTxn txnId = true ↔ db.Knows a txnId := by
  obtain ⟨s, hs, hlow, -, hreplays⟩ := h.start
  rw [hreplays.hasTxn, Bool.or_eq_true, hs.txns, txnUpTo_iff, decide_eq_true_eq, List.mem_map]
  unfold CommitsDb.Knows
  rw [List.mem_map]
  constructor
  · intro hknown
    rcases hknown with (⟨c, hc, htxn, -⟩ | ⟨txn, htxn, haddr, hid, -⟩) | ⟨c, hc, htxn⟩
    · exact Or.inl ⟨c, hc, htxn⟩
    · exact Or.inr ⟨txn, htxn, haddr, hid⟩
    · exact Or.inl ⟨c, (List.mem_filter.mp hc).1, htxn⟩
  · intro hknown
    rcases hknown with ⟨c, hc, htxn⟩ | ⟨txn, htxn, haddr, hid⟩
    · by_cases hle : c.seq ≤ s.seq
      · exact Or.inl (Or.inl ⟨c, hc, htxn, hle⟩)
      · refine Or.inr ⟨c, List.mem_filter.mpr ⟨hc, ?_⟩, htxn⟩
        simpa using Nat.lt_of_not_le hle
    · exact Or.inl (Or.inr ⟨txn, htxn, haddr, hid, (h.compacted txn htxn haddr).2.1.trans hlow⟩)

theorem hasTxn_eq (h : Standing db a p) (txnId : JsString) :
    p.hasTxn txnId = db.txnUpTo a p.seq txnId := by
  rw [Bool.eq_iff_iff, h.hasTxn_iff, txnUpTo_iff]
  unfold CommitsDb.Knows
  rw [List.mem_map]
  have hseq := h.seq_eq
  constructor
  · intro hknown
    rcases hknown with ⟨c, hc, htxn⟩ | ⟨txn, htxn, haddr, hid⟩
    · exact Or.inl ⟨c, hc, htxn, by have := (h.mem_seq hc).2; omega⟩
    · exact Or.inr ⟨txn, htxn, haddr, hid, by have := (h.compacted txn htxn haddr).2.1; omega⟩
  · intro hknown
    rcases hknown with ⟨c, hc, htxn, -⟩ | ⟨txn, htxn, haddr, hid, -⟩
    · exact Or.inl ⟨c, hc, htxn⟩
    · exact Or.inr ⟨txn, htxn, haddr, hid⟩

end Standing

/-- A partition in memory whose lookup of txnIds is the one the tables give. -/
def CachedPartition.Current (cached : CachedPartition) (db : CommitsDb) (a : Address) : Prop :=
  ∀ upTo, cached.upTo = some upTo → cached.partition.priorTxn = db.txnUpTo a upTo

theorem CachedPartition.Current.view {cached : CachedPartition} {db : CommitsDb} {a : Address}
    (h : cached.Current db a) : cached.view db a = cached.partition := by
  unfold CachedPartition.view
  cases hupTo : cached.upTo with
  | none => rfl
  | some upTo =>
    simp only
    rw [← h upTo hupTo]

variable {s : Partition} {upTo : ℕ}

theorem StartsAt.rebuildStart {db : CommitsDb} {ns : JsString} {key : PartitionKey}
    (hs : StartsAt db (ns, key.value) s) (hle : s.seq ≤ upTo) :
    ∃ cached, db.rebuildStart ns key upTo = .ok cached ∧ Alike nothing s cached.partition ∧
      cached.partition.key = key ∧ cached.Current db (ns, key.value) ∧
      ∀ n, cached.upTo = some n → n = s.seq := by
  unfold CommitsDb.rebuildStart CommitsDb.usableSnapshot
  rcases hs.row with ⟨hrow, hempty⟩ | hrow
  · rw [hrow]
    refine ⟨⟨Partition.empty key, none⟩, rfl, ?_, rfl, by simp [CachedPartition.Current], by simp⟩
    have hkeys : Alike nothing (Partition.empty key) (Partition.empty s.key) :=
      ⟨hs.key, ⟨rfl, rfl, rfl, rfl, rfl, rfl⟩, fun _ _ => rfl⟩
    exact (hkeys.trans hempty).symm
  · have hsound : ({ s with key := key } : Partition).Sound :=
      ⟨hs.sound.seq_safe, hs.sound.holder_ne, hs.sound.holder_fence, hs.sound.names⟩
    have hbody : ({ s with key := key } : Partition).snapshot = s.snapshot := by
      have hkey : key.value = s.key.value := hs.key.symm
      simp only [Partition.snapshot, hkey]
    have hrestore := restore_snapshot hsound (db.txnUpTo (ns, key.value) s.seq)
    rw [hbody] at hrestore
    have husable : (some s.snapshotRow).filter (fun row => row.seq ≤ upTo) =
        some s.snapshotRow := by
      simp [Option.filter, Partition.snapshotRow, hle]
    rw [hrow, husable]
    simp only [CommitsDb.restoreSnapshot, Partition.snapshotRow, hrestore, Except.map, ne_eq,
      not_true_eq_false, if_false]
    refine ⟨_, rfl, ⟨hs.key.symm, ⟨rfl, rfl, rfl, rfl, rfl, rfl⟩, ?_⟩, rfl, ?_, ?_⟩
    · intro txnId _
      rw [hs.txns]
      simp [Partition.hasTxn]
    · intro n hn
      cases hn
      rfl
    · intro n hn
      cases hn
      rfl

/-- Replaying stored commits up to a seq. -/
theorem replayCommits_eq {a : Address} {p q : Partition} {cs rest : List Commit}
    (hcs : Replays p cs q) (hle : ∀ c ∈ cs, c.seq ≤ upTo) (hrest : ∀ c ∈ rest, upTo < c.seq) :
    replayCommits a upTo p (cs ++ rest) = .ok (rest.isEmpty, q) := by
  induction hcs with
  | nil p =>
    cases rest with
    | nil => rfl
    | cons c rest =>
      rw [List.nil_append, replayCommits, if_pos (hrest c List.mem_cons_self)]
      rfl
  | @cons p mid q c cs head tail ih =>
    have hc : ¬ upTo < c.seq := Nat.not_lt.mpr (hle c List.mem_cons_self)
    have happend : p.append c true = (.ok (.appended c.seq), mid) := apply_of_landed head
    rw [List.cons_append, replayCommits, if_neg hc, happend]
    exact ih (fun d hd => hle d (List.mem_cons_of_mem _ hd))

namespace Standing

variable {db : CommitsDb} {ns : JsString} {key : PartitionKey} {p : Partition}

/-- **A rebuild up to a seq** at or past its start: the commits up to the seq are
replayed. -/
theorem rebuild_upTo (h : Standing db (ns, key.value) p) (hs : StartsAt db (ns, key.value) s)
    (hreplays : Replays s (db.commitsPast (ns, key.value) s.seq) p) (hle : s.seq ≤ upTo) :
    ∃ m cached, Replays s ((db.commitsPast (ns, key.value) s.seq).filter (fun c => c.seq ≤ upTo)) m ∧
      Replays m ((db.commitsPast (ns, key.value) s.seq).filter (fun c => upTo < c.seq)) p ∧
      db.rebuild ns key upTo = .ok cached ∧ Alike nothing m cached.partition ∧
      cached.Current db (ns, key.value) ∧ ∀ n, cached.upTo = some n → n = s.seq := by
  have hordered : (db.commitsPast (ns, key.value) s.seq).Pairwise (fun c d => c.seq < d.seq) :=
    h.ordered.filter _
  have hsplit := filter_split Commit.seq hordered upTo
  rw [hsplit] at hreplays
  obtain ⟨m, hm, hlater⟩ := hreplays.split
  obtain ⟨start, hstart, halike, hkey, hcurrent, hupTo⟩ := hs.rebuildStart hle
  obtain ⟨m', hm', halike'⟩ := halike.replays (fun _ _ hF => hF) hm
  have hseq : start.partition.seq = s.seq := halike.state.seq.symm
  have hreplay : replayCommits (ns, key.value) upTo start.partition
      ((db.commitsPast (ns, key.value) s.seq).filter (fun c => c.seq ≤ upTo) ++
        (db.commitsPast (ns, key.value) s.seq).filter (fun c => upTo < c.seq)) = _ :=
    replayCommits_eq hm' (fun c hc => by simpa using (List.mem_filter.mp hc).2)
      (fun c hc => by simpa using (List.mem_filter.mp hc).2)
  rw [← hsplit] at hreplay
  refine ⟨m, { start with partition := m' }, hm, hlater, ?_, halike', ?_, hupTo⟩
  · unfold CommitsDb.rebuild
    rw [hstart]
    simp only [bind, Except.bind, hseq, h.commitsFrom_eq, hreplay]
    have hhead : ¬ ((((db.commitsPast (ns, key.value) s.seq).filter
        (fun c => upTo < c.seq)).isEmpty = true) ∧
          db.headSeq (ns, key.value) < m'.seq) := by
      intro hbad
      have hnil : (db.commitsPast (ns, key.value) s.seq).filter (fun c => upTo < c.seq) = [] :=
        List.isEmpty_iff.mp hbad.1
      rw [hnil] at hlater
      cases hlater
      rw [h.headSeq_eq, halike'.state.seq] at hbad
      exact absurd hbad.2 (Nat.lt_irrefl _)
    rw [if_neg hhead]
  · intro n hn
    rw [hm'.priorTxn]
    exact hcurrent n hn

/-- **A whole rebuild** gives the state the rows stand for. -/
theorem rebuild (h : Standing db (ns, key.value) p) :
    ∃ cached, db.rebuild ns key maxSafeInteger = .ok cached ∧ Alike nothing p cached.partition ∧
      cached.Current db (ns, key.value) ∧ ∀ n, cached.upTo = some n → n ≤ p.seq := by
  obtain ⟨s, hs, -, -, hreplays⟩ := h.start
  obtain ⟨m, cached, -, hlater, hrebuild, halike, hcurrent, hupTo⟩ :=
    h.rebuild_upTo hs hreplays hs.sound.seq_safe
  have hnone : (db.commitsPast (ns, key.value) s.seq).filter (fun c => maxSafeInteger < c.seq) =
      [] := by
    apply List.filter_eq_nil_iff.mpr
    intro c _
    simpa using c.seq_safe
  rw [hnone] at hlater
  cases hlater
  refine ⟨cached, hrebuild, halike, hcurrent, ?_⟩
  intro n hn
  rw [hupTo n hn, hreplays.next_seq]
  exact Nat.le_add_right _ _

end Standing

theorem Standing.unique {db : CommitsDb} {a : Address} {p q : Partition} (hp : Standing db a p)
    (hq : Standing db a q) : Alike nothing p q := by
  obtain ⟨ns, value⟩ := a
  have hvalue : p.key.value = value := hp.key
  subst hvalue
  obtain ⟨cached, hcached, hpc, -, -⟩ := hp.rebuild
  obtain ⟨cached', hcached', hqc, -, -⟩ := hq.rebuild
  rw [hcached] at hcached'
  cases hcached'
  exact hpc.trans hqc.symm

/-- What a rebuild of a partition reads is the same in two stores. -/
structure SameRows (a : Address) (db next : CommitsDb) : Prop where
  commits : next.commitsOf a = db.commitsOf a
  compacted : next.compactedSeq a = db.compactedSeq a
  txns : ∀ txn : CompactedTxn, txn.address = a →
    (txn ∈ next.compactedTxns ↔ txn ∈ db.compactedTxns)
  snapshot : next.snapshots.lookup a = db.snapshots.lookup a
  head : next.heads.lookup a = db.heads.lookup a

theorem SameRows.txnUpTo {a : Address} {db next : CommitsDb} (h : SameRows a db next) (n : ℕ) :
    next.txnUpTo a n = db.txnUpTo a n := by
  funext txnId
  rw [Bool.eq_iff_iff, txnUpTo_iff, txnUpTo_iff, h.commits]
  apply or_congr Iff.rfl
  constructor
  · intro hex
    obtain ⟨txn, hmem, haddr, hrest⟩ := hex
    exact ⟨txn, (h.txns txn haddr).mp hmem, haddr, hrest⟩
  · intro hex
    obtain ⟨txn, hmem, haddr, hrest⟩ := hex
    exact ⟨txn, (h.txns txn haddr).mpr hmem, haddr, hrest⟩

theorem Standing.sameRows {a : Address} {db next : CommitsDb} {p : Partition}
    (h : Standing db a p) (hrows : SameRows a db next) : Standing next a p := by
  obtain ⟨s, hs, hlow, hhigh, hreplays⟩ := h.start
  refine ⟨?_, ?_, ?_, ⟨s, ⟨hs.key, hs.sound, ?_, ?_⟩, ?_, ?_, ?_⟩, ?_⟩
  · rw [hrows.commits, hrows.compacted]
    exact h.seqs
  · rw [hrows.commits]
    exact h.distinct
  · intro txn htxn haddr
    rw [hrows.commits, hrows.compacted]
    exact h.compacted txn ((hrows.txns txn haddr).mp htxn) haddr
  · rw [hrows.txnUpTo]
    exact hs.txns
  · rw [hrows.snapshot]
    exact hs.row
  · rw [hrows.compacted]
    exact hlow
  · rw [hrows.commits, hrows.compacted]
    exact hhigh
  · unfold CommitsDb.commitsPast
    rw [hrows.commits]
    exact hreplays
  · rw [hrows.head]
    exact h.head

/-- **Rows that replay to a state stand for it**, with the txnIds the tables
know. -/
theorem standing_of_replays {db : CommitsDb} {a : Address} {p : Partition}
    (hseqs : (db.commitsOf a).map Commit.seq =
      List.range' (db.compactedSeq a + 1) (db.commitsOf a).length)
    (hdistinct : ((db.commitsOf a).map Commit.txnId).Nodup)
    (hcompacted : ∀ txn ∈ db.compactedTxns, txn.address = a → 0 < txn.seq ∧
      txn.seq ≤ db.compactedSeq a ∧ txn.txnId ∉ (db.commitsOf a).map Commit.txnId)
    (hkey : s.key.value = a.2) (hsound : s.Sound)
    (hrow : (db.snapshots.lookup a = none ∧ (Partition.empty s.key).SameState s) ∨
      db.snapshots.lookup a = some s.snapshotRow) (hlow : db.compactedSeq a ≤ s.seq)
    (hhigh : s.seq ≤ db.compactedSeq a + (db.commitsOf a).length)
    (hreplays : Replays s (db.commitsPast a s.seq) p) (hhead : HeadOf (db.heads.lookup a) p) :
    ∃ q, Standing db a q ∧ p.SameState q ∧ q.key = p.key := by
  -- The start with the txnIds at or below it, as the tables have them.
  obtain ⟨start, hstart⟩ : ∃ start : Partition,
      start = { s with txnIds := ∅, priorTxn := db.txnUpTo a s.seq } := ⟨_, rfl⟩
  have hfresh : ∀ c ∈ db.commitsPast a s.seq, db.txnUpTo a s.seq c.txnId = false := by
    intro c hc
    obtain ⟨hmem, hpast⟩ := List.mem_filter.mp hc
    rw [← Bool.not_eq_true, txnUpTo_iff]
    intro hknown
    rcases hknown with ⟨d, hd, htxn, hle⟩ | ⟨txn, hmem', haddr, htxn, -⟩
    · have hsame := List.inj_on_of_nodup_map hdistinct hd hmem htxn
      subst hsame
      simp only [decide_eq_true_eq] at hpast
      omega
    · exact (hcompacted txn hmem' haddr).2.2 (htxn ▸ List.mem_map.mpr ⟨c, hmem, rfl⟩)
  have halike : Alike (fun txnId => start.hasTxn txnId ≠ s.hasTxn txnId) s start := by
    subst hstart
    exact ⟨rfl, ⟨rfl, rfl, rfl, rfl, rfl, rfl⟩, fun _ hF => not_not.mp hF⟩
  have hagree : ∀ c ∈ db.commitsPast a s.seq, ¬ (start.hasTxn c.txnId ≠ s.hasTxn c.txnId) := by
    intro c hc
    rw [hreplays.fresh c hc, hstart]
    simp [Partition.hasTxn, hfresh c hc]
  obtain ⟨q, hq, halike'⟩ := halike.replays hagree hreplays
  have hseq : start.seq = s.seq := by rw [hstart]
  have htxns : ∀ txnId, start.hasTxn txnId = db.txnUpTo a start.seq txnId := by
    intro txnId
    rw [hstart]
    simp [Partition.hasTxn]
  refine ⟨q, ⟨hseqs, hdistinct, hcompacted, ⟨start, ⟨?_, ?_, htxns, ?_⟩, ?_, ?_, ?_⟩, ?_⟩,
    halike'.state, ?_⟩
  · rw [hstart]
    exact hkey
  · rw [hstart]
    exact ⟨hsound.seq_safe, hsound.holder_ne, hsound.holder_fence, hsound.names⟩
  · rcases hrow with ⟨hnone, hempty⟩ | hsome
    · refine Or.inl ⟨hnone, ?_, ?_, ?_⟩
      · rfl
      · rw [hstart]
        exact ⟨hempty.seq, hempty.records, hempty.names, hempty.highestFence, hempty.leaseFence,
          hempty.leaseHolder⟩
      · intro txnId _
        -- Nothing is compacted and every seq is past 0.
        rw [htxns, hseq, Bool.eq_iff_iff, txnUpTo_iff]
        constructor
        · intro hknown
          exfalso
          have hzero : s.seq = 0 := hempty.seq.symm
          rcases hknown with ⟨c, hc, -, hle⟩ | ⟨txn, hmem, haddr, -, hle⟩
          · have hmem : c.seq ∈ (db.commitsOf a).map Commit.seq := List.mem_map.mpr ⟨c, hc, rfl⟩
            rw [hseqs, List.mem_range'_1] at hmem
            omega
          · have := (hcompacted txn hmem haddr).1
            omega
        · intro hknown
          simp [Partition.hasTxn, Partition.empty] at hknown
    · apply Or.inr
      rw [hsome, hstart]
      rfl
  · rw [hseq]
    exact hlow
  · rw [hseq]
    exact hhigh
  · rw [hseq]
    exact hq
  · rcases hhead with ⟨hnone, hzero⟩ | ⟨hsome, hpos⟩
    · exact Or.inl ⟨hnone, halike'.state.seq ▸ hzero⟩
    · refine Or.inr ⟨?_, halike'.state.seq ▸ hpos⟩
      rw [hsome, halike'.state.seq, halike'.state.highestFence]
  · rw [hq.key, hreplays.key, hstart]

section

variable {options : StoreOptions} {db : CommitsDb} {commit : Commit} {p next : Partition}

theorem commitsOf_withCommit (a : Address) :
    (db.withCommit options commit next).commitsOf a =
      db.commitsOf a ++ if commit.address = a then [commit] else [] := by
  unfold CommitsDb.commitsOf CommitsDb.rowsOf CommitsDb.withCommit
  rw [List.filter_append, List.map_append]
  by_cases h : commit.address = a
  · simp [CommitRow.address, h]
  · simp [CommitRow.address, h]

/-- The rows of other partitions stay. -/
theorem withCommit_sameRows {a : Address} (h : commit.address ≠ a) :
    SameRows a db (db.withCommit options commit next) := by
  refine ⟨?_, rfl, fun _ _ => Iff.rfl, ?_, ?_⟩
  · rw [commitsOf_withCommit, if_neg h, List.append_nil]
  · simp only [CommitsDb.withCommit]
    split
    · exact Finmap.lookup_insert_of_ne _ (Ne.symm h)
    · rfl
  · exact Finmap.lookup_insert_of_ne _ (Ne.symm h)

/-- A commit that lands was not known. -/
theorem Standing.not_knows {a : Address} {replay observed : Bool} (h : Standing db a p)
    (hland : p.Landed commit replay observed next) : ¬ db.Knows a commit.txnId := by
  rw [← h.hasTxn_iff, hland.fresh]
  exact Bool.false_ne_true

theorem txnUpTo_withCommit (n : ℕ) (txnId : JsString) :
    (db.withCommit options commit next).txnUpTo commit.address n txnId =
      (db.txnUpTo commit.address n txnId ||
        decide (commit.txnId = txnId ∧ commit.seq ≤ n)) := by
  rw [Bool.eq_iff_iff, Bool.or_eq_true, txnUpTo_iff, txnUpTo_iff, commitsOf_withCommit, if_pos rfl,
    decide_eq_true_eq]
  have htxns : (db.withCommit options commit next).compactedTxns = db.compactedTxns := rfl
  rw [htxns]
  constructor
  · intro hknown
    rcases hknown with ⟨c, hc, hrest⟩ | hcompacted
    · rcases List.mem_append.mp hc with hc | hc
      · exact Or.inl (Or.inl ⟨c, hc, hrest⟩)
      · rw [List.mem_singleton.mp hc] at hrest
        exact Or.inr hrest
    · exact Or.inl (Or.inr hcompacted)
  · intro hknown
    rcases hknown with (⟨c, hc, hrest⟩ | hcompacted) | hnew
    · exact Or.inl ⟨c, List.mem_append_left _ hc, hrest⟩
    · exact Or.inr hcompacted
    · exact Or.inl ⟨commit, List.mem_append_right _ (List.mem_singleton.mpr rfl), hnew⟩

/-- **The rows of a commit that lands** stand for the state it leaves. -/
theorem Standing.written (h : Standing db commit.address p)
    (hland : p.Landed commit false false next) :
    Standing (db.withCommit options commit next) commit.address next := by
  have hseq : commit.seq = p.seq + 1 := hland.seq
  have hnext : next.seq = commit.seq := hland.next_seq
  have hlast := h.seq_eq
  have hunknown := h.not_knows hland
  have hcommits : (db.withCommit options commit next).commitsOf commit.address =
      db.commitsOf commit.address ++ [commit] := by
    rw [commitsOf_withCommit, if_pos rfl]
  have hcompacted : (db.withCommit options commit next).compactedSeq commit.address =
      db.compactedSeq commit.address := rfl
  obtain ⟨s, hs, hlow, hhigh, hreplays⟩ := h.start
  refine ⟨?_, ?_, ?_, ?_, ?_⟩
  · rw [hcommits, hcompacted, List.map_append, h.seqs, List.length_append, List.range'_append_1.symm]
    simp only [List.map_cons, List.map_nil, List.length_cons, List.length_nil]
    congr 2
    omega
  · rw [hcommits, List.map_append]
    refine List.nodup_append.mpr ⟨h.distinct, List.nodup_singleton _, ?_⟩
    intro txnId htxn other hother heq
    rw [List.map_cons, List.map_nil, List.mem_singleton] at hother
    exact hunknown (Or.inl (by rw [← hother, ← heq]; exact htxn))
  · intro txn htxn haddr
    obtain ⟨hpos, hle, hnot⟩ := h.compacted txn htxn haddr
    refine ⟨hpos, hle, ?_⟩
    rw [hcommits, List.map_append, List.mem_append, not_or]
    refine ⟨hnot, ?_⟩
    intro hmem
    rw [List.map_cons, List.map_nil, List.mem_singleton] at hmem
    exact hunknown (Or.inr ⟨txn, htxn, haddr, hmem⟩)
  · by_cases hdue : snapshotDue options next.seq = true
    · -- The snapshot the commit wrote is where a rebuild starts.
      refine ⟨next, ⟨?_, hland.sound h.sound, ?_, Or.inr ?_⟩, ?_, ?_, ?_⟩
      · rw [hland.key]
        exact h.key
      · intro txnId
        have hprior : db.txnUpTo commit.address next.seq txnId = p.hasTxn txnId := by
          rw [Bool.eq_iff_iff, h.hasTxn_eq, txnUpTo_iff, txnUpTo_iff]
          apply or_congr
          · constructor
            · intro hex
              obtain ⟨c, hc, htxn, -⟩ := hex
              exact ⟨c, hc, htxn, by have := (h.mem_seq hc).2; omega⟩
            · intro hex
              obtain ⟨c, hc, htxn, hle⟩ := hex
              exact ⟨c, hc, htxn, by omega⟩
          · constructor
            · intro hex
              obtain ⟨txn, hmem, haddr, htxn, -⟩ := hex
              exact ⟨txn, hmem, haddr, htxn, by have := (h.compacted txn hmem haddr).2.1; omega⟩
            · intro hex
              obtain ⟨txn, hmem, haddr, htxn, hle⟩ := hex
              exact ⟨txn, hmem, haddr, htxn, by omega⟩
        rw [hland.next_hasTxn, txnUpTo_withCommit, hprior, Bool.or_comm]
        congr 1
        rw [decide_eq_decide]
        constructor
        · intro heq
          exact ⟨heq.symm, hnext ▸ le_refl _⟩
        · intro heq
          exact heq.1.symm
      · simp only [CommitsDb.withCommit, hdue, if_true]
        exact Finmap.lookup_insert _
      · rw [hcompacted, hnext]
        omega
      · rw [hcompacted, hcommits, hnext, List.length_append, List.length_singleton]
        omega
      · have hnone : (db.withCommit options commit next).commitsPast commit.address next.seq =
            [] := by
          apply List.filter_eq_nil_iff.mpr
          intro c hc
          rw [hcommits, List.mem_append, List.mem_singleton] at hc
          simp only [decide_eq_true_eq]
          rcases hc with hc | rfl
          · have := (h.mem_seq hc).2
            omega
          · omega
        rw [hnone]
        exact Replays.nil next
    · refine ⟨s, ⟨hs.key, hs.sound, ?_, ?_⟩, ?_, ?_, ?_⟩
      · intro txnId
        rw [txnUpTo_withCommit, hs.txns, decide_eq_false (by omega), Bool.or_false]
      · have hsnapshots : (db.withCommit options commit next).snapshots = db.snapshots := by
          simp only [CommitsDb.withCommit, hdue, if_false, Bool.false_eq_true]
        rw [hsnapshots]
        exact hs.row
      · exact hlow
      · rw [hcompacted, hcommits, List.length_append]
        omega
      · have hpast : (db.withCommit options commit next).commitsPast commit.address s.seq =
            db.commitsPast commit.address s.seq ++ [commit] := by
          unfold CommitsDb.commitsPast
          rw [hcommits, List.filter_append]
          congr 1
          rw [List.filter_cons_of_pos (by simpa using by omega), List.filter_nil]
        rw [hpast]
        exact hreplays.append (Replays.cons hland.replayed (Replays.nil next))
  · refine Or.inr ⟨?_, by omega⟩
    exact Finmap.lookup_insert _

end

/-- **The rows of any commit that lands** keep every partition standing. -/
theorem CommitsDb.Stands.written {options : StoreOptions} {db : CommitsDb} {commit : Commit}
    {p next : Partition} (h : db.Stands) (hp : Standing db commit.address p)
    (hland : p.Landed commit false false next) : (db.withCommit options commit next).Stands := by
  intro ns key
  by_cases ha : commit.address = (ns, key.value)
  · rw [← ha]
    exact ⟨next, hp.written hland⟩
  · obtain ⟨q, hq⟩ := h ns key
    exact ⟨q, hq.sameRows (withCommit_sameRows ha)⟩

end Swamp
