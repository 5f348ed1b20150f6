import Swamp.CompactedRows

/-!
# The rows a truncation leaves

A truncation takes the rows past a mark away.  Of each partition among them the
commits before its first removed one stay, and its head and snapshot are written
anew: the rows stand for the state that `truncatePartition` rebuilt, or for that
state with the retained versions, which is then in the snapshot.  The rows of the
other partitions are the ones they were.
-/

namespace Swamp

open Js Swamp.Partition ExceptTriples ExceptRules

variable {q : Partition}

theorem replays_of_replayCommits {a : Address} {upTo : ℕ} {p : Partition} {cs : List Commit}
    {all : Bool} (hordered : cs.Pairwise (fun c d => c.seq < d.seq))
    (h : replayCommits a upTo p cs = .ok (all, q)) :
    Replays p (cs.filter (fun c => c.seq ≤ upTo)) q := by
  induction cs generalizing p with
  | nil =>
    cases h
    exact Replays.nil _
  | cons c cs ih =>
    obtain ⟨hfirst, hrest⟩ := List.pairwise_cons.mp hordered
    rw [replayCommits] at h
    split at h
    · rename_i hlt
      cases h
      have hnone : (c :: cs).filter (fun c => c.seq ≤ upTo) = [] := by
        apply List.filter_eq_nil_iff.mpr
        intro d hd
        rcases List.mem_cons.mp hd with rfl | hd
        · simpa using hlt
        · have := hfirst d hd
          simp only [decide_eq_true_eq]
          omega
      rw [hnone]
      exact Replays.nil _
    · rename_i hle
      rw [List.filter_cons_of_pos (by simpa using hle)]
      split at h
      · cases h
      · cases h
      · rename_i seq mid happend
        have hseq : seq = c.seq := by
          rcases apply_outcome p c true false with ⟨e, he⟩ | ⟨hdup, -, -⟩ | ⟨after, happ, -⟩
          · simp only [Partition.append, he, Prod.mk.injEq] at happend
            cases happend.1
          · simp only [Partition.append, hdup, Prod.mk.injEq] at happend
            cases happend.1
          · simp only [Partition.append, happ, Prod.mk.injEq] at happend
            cases happend.1
            rfl
        rw [hseq] at happend
        exact Replays.cons (landed_iff.mpr happend) (ih hrest h)

/-- A replay has one end. -/
theorem Partition.Replays.unique {p r : Partition} {cs : List Commit} (hq : Replays p cs q)
    (hr : Replays p cs r) : q = r := by
  induction hq with
  | nil p =>
    cases hr
    rfl
  | cons head tail ih =>
    cases hr with
    | cons head' tail' =>
      have hmid := (apply_of_landed head).symm.trans (apply_of_landed head')
      cases congrArg Prod.snd hmid
      exact ih tail'

/-- The stored commits of a partition up to a seq. -/
def CommitsDb.commitsUpTo (db : CommitsDb) (a : Address) (seq : ℕ) : List Commit :=
  (db.commitsOf a).filter (fun commit => commit.seq ≤ seq)

section

variable {db : CommitsDb} {ns : JsString} {key : PartitionKey} {p : Partition}

/-- **A rebuild without a snapshot** replays the stored commits on the empty
partition. -/
theorem Standing.replays_of_rebuild (h : Standing db (ns, key.value) p) {upTo : ℕ}
    {cached : CachedPartition} (husable : db.usableSnapshot (ns, key.value) upTo = none)
    (hrebuild : db.rebuild ns key upTo = .ok cached) :
    Replays (Partition.empty key) (db.commitsUpTo (ns, key.value) upTo) cached.partition := by
  unfold CommitsDb.rebuild CommitsDb.rebuildStart at hrebuild
  rw [husable] at hrebuild
  obtain ⟨start, hstart, hrebuild⟩ := bind_ok hrebuild
  cases hstart
  obtain ⟨⟨all, q⟩, hreplay, hlast⟩ := bind_ok hrebuild
  have hzero : (Partition.empty key).seq = 0 := rfl
  rw [hzero, h.commitsFrom_eq] at hreplay
  have hall : db.commitsPast (ns, key.value) 0 = db.commitsOf (ns, key.value) := by
    apply List.filter_eq_self.mpr
    intro c hc
    have := (h.mem_seq hc).1
    simp only [decide_eq_true_eq]
    omega
  rw [hall] at hreplay
  simp only at hlast
  split at hlast
  · cases hlast
  · cases hlast
    exact replays_of_replayCommits h.ordered hreplay

end

/-- A partition that only its names set apart from another one. -/
structure NamesApart (before after : Partition) : Prop where
  retains : before.Retains after
  seq : after.seq = before.seq
  highestFence : after.highestFence = before.highestFence

theorem NamesApart.refl (p : Partition) : NamesApart p p := ⟨Retains.refl p, rfl, rfl⟩

theorem NamesApart.trans {p r : Partition} (hpq : NamesApart p q) (hqr : NamesApart q r) :
    NamesApart p r :=
  ⟨hpq.retains.trans hqr.retains, hqr.seq.trans hpq.seq,
    hqr.highestFence.trans hpq.highestFence⟩

theorem fields_foldl {α : Type*} (step : Bool × Partition → α → Bool × Partition) (items : List α)
    (hstep : ∀ state item, (step state item).2.seq = state.2.seq ∧
      (step state item).2.highestFence = state.2.highestFence) (state : Bool × Partition) :
    (items.foldl step state).2.seq = state.2.seq ∧
      (items.foldl step state).2.highestFence = state.2.highestFence := by
  induction items generalizing state with
  | nil => exact ⟨rfl, rfl⟩
  | cons item items ih =>
    rw [List.foldl_cons]
    exact ⟨(ih _).1.trans (hstep state item).1, (ih _).2.trans (hstep state item).2⟩

theorem retainDroppedVersions_namesApart (p : Partition) (name : JsString)
    (versions : List Version) : NamesApart p (p.retainDroppedVersions name versions).2 := by
  have hfields := fields_foldl
    (fun (state : Bool × Partition) version =>
      ((state.1 || (retainVersion (state.2.nameEntry name) version).1),
        { state.2 with names :=
          state.2.names.insert name (retainVersion (state.2.nameEntry name) version).2 }))
    versions (fun _ _ => ⟨rfl, rfl⟩) (false, p)
  exact ⟨retainDroppedVersions_retains p name versions, hfields.1, hfields.2⟩

theorem retainVersionsOf_namesApart (p : Partition) {later : Partition} (hlater : later.Sound) :
    NamesApart p (p.retainVersionsOf later).2 := by
  have hfields := fields_foldl
    (fun (state : Bool × Partition) (entry : JsString × DataName) =>
      ((state.1 || (retainEntry (state.2.nameEntry entry.1) entry.2).1),
        { state.2 with names :=
          state.2.names.insert entry.1 (retainEntry (state.2.nameEntry entry.1) entry.2).2 }))
    (MapOverlay.sortedEntries later.names) (fun _ _ => ⟨rfl, rfl⟩) (false, p)
  exact ⟨retainVersionsOf_retains p hlater, hfields.1, hfields.2⟩

theorem retainDropped_namesApart (p : Partition) (dropped : OrderedMap JsString (List Version)) :
    NamesApart p (retainDropped p dropped).2 := by
  unfold retainDropped
  induction dropped.entries using List.reverseRecOn with
  | nil => exact NamesApart.refl p
  | append_singleton entries entry ih =>
    rw [List.foldl_append]
    exact ih.trans (retainDroppedVersions_namesApart _ entry.1 entry.2)

theorem retainLater_namesApart {key : PartitionKey} {keep : ℕ} {stored : Option SnapshotRow}
    {p next : Partition} {changed : Bool} (hstored : ∀ row, stored = some row →
      ∃ s : Partition, s.Sound ∧ s.key.value = key.value ∧ row = s.snapshotRow)
    (h : retainLater key keep stored p = .ok (changed, next)) : NamesApart p next := by
  unfold retainLater at h
  cases hrow : stored with
  | none =>
    rw [hrow] at h
    cases h
    exact NamesApart.refl p
  | some row =>
    obtain ⟨s, hsound, hkey, rfl⟩ := hstored row hrow
    rw [hrow] at h
    simp only at h
    split at h
    · have hsame : ({ s with key := key } : Partition).Sound :=
        ⟨hsound.seq_safe, hsound.holder_ne, hsound.holder_fence, hsound.names⟩
      have hbody : ({ s with key := key } : Partition).snapshot = s.snapshot := by
        simp only [Partition.snapshot, hkey]
      have hrestore := restore_snapshot hsame (fun _ => false)
      rw [hbody] at hrestore
      simp only [Partition.snapshotRow, hrestore] at h
      have hnext : _ = next := congrArg Prod.snd (Except.ok.inj h)
      rw [← hnext]
      exact retainVersionsOf_namesApart p
        ⟨hsame.seq_safe, hsame.holder_ne, hsame.holder_fence, hsame.names⟩
    · cases h
      exact NamesApart.refl p

/-- The rows of a partition whose commits past a seq were removed, under the head
that a truncation writes. -/
structure TruncatedTo (db : CommitsDb) (a : Address) (head : TruncatedHead) (keep : ℕ)
    (next : CommitsDb) : Prop where
  commits : next.commitsOf a = db.commitsUpTo a keep
  compacted : next.compactedSeq a = db.compactedSeq a
  txns : next.compactedTxns = db.compactedTxns
  heads : next.heads.lookup a = (db.writeTruncated head).heads.lookup a
  snapshots : next.snapshots.lookup a = (db.writeTruncated head).snapshots.lookup a

variable {head : TruncatedHead} {commits : List Commit} {first : Commit}

section

variable {db next : CommitsDb} {a : Address} {p : Partition}

/-- The commits of a partition before one of them. -/
theorem Standing.commitsUpTo_length (h : Standing db a p) {n : ℕ} (hlow : db.compactedSeq a ≤ n)
    (hhigh : n ≤ db.compactedSeq a + (db.commitsOf a).length) :
    db.compactedSeq a + (db.commitsUpTo a n).length = n ∧
      (db.commitsUpTo a n).map Commit.seq =
        List.range' (db.compactedSeq a + 1) (db.commitsUpTo a n).length := by
  have hsplit := filter_split Commit.seq h.ordered n
  have hseqs := h.seqs
  have hlength := congrArg List.length hsplit
  have hupTo : (db.commitsOf a).filter (fun c => c.seq ≤ n) = db.commitsUpTo a n := rfl
  rw [hupTo] at hsplit hlength
  rw [hsplit, List.map_append, List.length_append, ← List.range'_append_1] at hseqs
  obtain ⟨hfirst, hrest⟩ := List.append_inj hseqs (by simp)
  refine ⟨?_, hfirst⟩
  rw [List.length_append] at hlength
  -- Were one commit more or one less at or below the seq, its own seq would tell.
  rcases Nat.lt_trichotomy (db.compactedSeq a + (db.commitsUpTo a n).length) n with hlt | heq | hgt
  · exfalso
    have hmem : n ∈ ((db.commitsOf a).filter (fun c => n < c.seq)).map Commit.seq := by
      rw [hrest, List.mem_range'_1]
      omega
    obtain ⟨c, hc, hseq⟩ := List.mem_map.mp hmem
    have := of_decide_eq_true (List.mem_filter.mp hc).2
    omega
  · exact heq
  · exfalso
    have hmem : n + 1 ∈ (db.commitsUpTo a n).map Commit.seq := by
      rw [hfirst, List.mem_range'_1]
      omega
    obtain ⟨c, hc, hseq⟩ := List.mem_map.mp hmem
    have := of_decide_eq_true (List.mem_filter.mp hc).2
    omega

/-- A head at a seq, as a truncation writes it. -/
theorem writeTruncated_head (db : CommitsDb) (hseq : head.state.seq = q.seq)
    (hfence : head.state.highestFence = q.highestFence)
    (hlow : db.compactedSeq head.address ≤ q.seq) :
    HeadOf ((db.writeTruncated head).heads.lookup head.address) q := by
  simp only [CommitsDb.writeTruncated]
  by_cases hzero : head.state.seq = 0 ∧ db.compactedSeq head.address = 0
  · rw [if_pos hzero]
    exact Or.inl ⟨Finmap.lookup_erase _ _, hseq ▸ hzero.1⟩
  · rw [if_neg hzero, Finmap.lookup_insert, hseq, hfence]
    refine Or.inr ⟨rfl, ?_⟩
    rw [hseq] at hzero
    omega

theorem writeTruncated_snapshot (db : CommitsDb) (head : TruncatedHead) :
    (db.writeTruncated head).snapshots.lookup head.address =
      match head.snapshot with
      | some row => some row
      | none => (db.snapshots.lookup head.address).filter (fun row => row.seq ≤ head.state.seq) := by
  simp only [CommitsDb.writeTruncated]
  cases head.snapshot with
  | some row => exact Finmap.lookup_insert _
  | none =>
    simp only
    cases hlookup : db.snapshots.lookup head.address with
    | none => simp [hlookup]
    | some row =>
      simp only
      by_cases hlt : head.state.seq < row.seq
      · rw [if_pos hlt, Finmap.lookup_erase]
        simp [Option.filter, hlt]
      · rw [if_neg hlt, hlookup]
        simp [Option.filter, Nat.not_lt.mp hlt]

/-- The parts of a touched partition's truncation. -/
structure TruncatedParts (db : CommitsDb) (options : StoreOptions) (commits : List Commit)
    (first : Commit) (head : TruncatedHead) where
  rebuilt : CachedPartition
  rebuild : db.rebuild first.ns first.partition (first.seq - 1) = .ok rebuilt
  seq : rebuilt.partition.seq = first.seq - 1
  later : Bool × Partition
  retained : retainLater first.partition (first.seq - 1) (db.snapshots.lookup first.address)
    (retainDropped rebuilt.partition (droppedVersions commits first.address)).2 = .ok later
  address : head.address = first.address
  state : head.state = later.2
  snapshot : db.truncatedSnapshot options first (first.seq - 1)
    (db.snapshots.lookup first.address)
    ((retainDropped rebuilt.partition (droppedVersions commits first.address)).1 || later.1)
    later.2 = .ok head.snapshot

theorem truncatePartition_parts {options : StoreOptions}
    (h : db.truncatePartition options commits first = .ok head) :
    Nonempty (TruncatedParts db options commits first head) := by
  unfold CommitsDb.truncatePartition at h
  obtain ⟨rebuilt, hrebuild, hrest⟩ := bind_ok h
  simp only at hrest
  split at hrest
  · cases hrest
  · rename_i hseq
    obtain ⟨later, hlater, hrest⟩ := bind_ok hrest
    obtain ⟨snapshot, hsnapshot, hrest⟩ := bind_ok hrest
    cases hrest
    exact ⟨⟨rebuilt, hrebuild, not_not.mp hseq, later, hlater, rfl, rfl, hsnapshot⟩⟩

/-- A partition cut back to a seq: its rows up to there rebuild to a state that the
written head has with more versions named. -/
structure TruncatedAt (db : CommitsDb) (a : Address) (head : TruncatedHead) (keep : ℕ)
    (rebuilt : Partition) (next : CommitsDb) : Prop where
  rows : TruncatedTo db a head keep next
  low : db.compactedSeq a ≤ keep
  high : keep ≤ db.compactedSeq a + (db.commitsOf a).length
  address : head.address = a
  apart : NamesApart rebuilt head.state
  seq : rebuilt.seq = keep

variable {keep : ℕ} {rebuilt : Partition}

theorem TruncatedAt.head_seq (h : TruncatedAt db a head keep rebuilt next) :
    head.state.seq = keep := h.apart.seq.trans h.seq

theorem TruncatedAt.snapshots (h : TruncatedAt db a head keep rebuilt next) :
    next.snapshots.lookup a =
      match head.snapshot with
      | some row => some row
      | none => (db.snapshots.lookup a).filter (fun row => row.seq ≤ keep) := by
  have hwritten := writeTruncated_snapshot db head
  rw [h.address, h.head_seq] at hwritten
  rw [h.rows.snapshots, hwritten]

/-- A state that the stored snapshot or none of it starts, and that the kept commits
lead to the head from, is one the new rows stand for. -/
theorem TruncatedAt.standing (hp : Standing db a p) (h : TruncatedAt db a head keep rebuilt next)
    {start last : Partition} (hkey : start.key.value = a.2) (hsound : start.Sound)
    (hrow : (next.snapshots.lookup a = none ∧ (Partition.empty start.key).SameState start) ∨
      next.snapshots.lookup a = some start.snapshotRow)
    (hlow : db.compactedSeq a ≤ start.seq) (hhigh : start.seq ≤ keep)
    (hlast : Replays start ((db.commitsUpTo a keep).filter (fun c => start.seq < c.seq)) last)
    (hseq : last.seq = keep) (hfence : last.highestFence = head.state.highestFence) :
    ∃ q, Standing next a q := by
  obtain ⟨hlength, hseqs⟩ := hp.commitsUpTo_length h.low h.high
  have hsub : (db.commitsUpTo a keep).Sublist (db.commitsOf a) := List.filter_sublist
  have hnextSeqs : (next.commitsOf a).map Commit.seq =
      List.range' (next.compactedSeq a + 1) (next.commitsOf a).length := by
    rw [h.rows.commits, h.rows.compacted]
    exact hseqs
  have hnextDistinct : ((next.commitsOf a).map Commit.txnId).Nodup := by
    rw [h.rows.commits]
    exact hp.distinct.sublist (hsub.map _)
  have hnextTxns : ∀ txn ∈ next.compactedTxns, txn.address = a → 0 < txn.seq ∧
      txn.seq ≤ next.compactedSeq a ∧ txn.txnId ∉ (next.commitsOf a).map Commit.txnId := by
    intro txn htxn haddr
    rw [h.rows.txns] at htxn
    obtain ⟨hpos, hle, hnot⟩ := hp.compacted txn htxn haddr
    rw [h.rows.compacted, h.rows.commits]
    exact ⟨hpos, hle, fun hin => hnot ((hsub.map _).subset hin)⟩
  have hnextPast : next.commitsPast a start.seq =
      (db.commitsUpTo a keep).filter (fun c => start.seq < c.seq) := by
    unfold CommitsDb.commitsPast
    rw [h.rows.commits]
  have hhead := writeTruncated_head db (h.head_seq.trans hseq.symm) hfence.symm
    (by rw [h.address, hseq]; exact h.low)
  rw [h.address, ← h.rows.heads] at hhead
  obtain ⟨q, hq, -, -⟩ := standing_of_replays hnextSeqs hnextDistinct hnextTxns hkey hsound hrow
    (by rw [h.rows.compacted]; exact hlow)
    (by rw [h.rows.compacted, h.rows.commits, hlength]; exact hhigh)
    (by rw [hnextPast]; exact hlast) hhead
  exact ⟨q, hq⟩

/-- The state in the written snapshot is the head's own. -/
theorem TruncatedAt.standing_own (hp : Standing db a p)
    (h : TruncatedAt db a head keep rebuilt next) (hsound : rebuilt.Sound)
    (hkey : rebuilt.key.value = a.2)
    (hwritten : head.snapshot = some ⟨keep, head.state.snapshot.toJson⟩) :
    ∃ q, Standing next a q := by
  have hsnapshots := h.snapshots
  rw [hwritten] at hsnapshots
  have hnone : (db.commitsUpTo a keep).filter (fun c => head.state.seq < c.seq) = [] := by
    apply List.filter_eq_nil_iff.mpr
    intro c hc
    have := of_decide_eq_true (List.mem_filter.mp hc).2
    simp only [decide_eq_true_eq, h.head_seq]
    omega
  refine h.standing hp ?_ (h.apart.retains.sound hsound) (Or.inr ?_) ?_ ?_
    (hnone ▸ Replays.nil _) h.head_seq rfl
  · rw [h.apart.retains.key]
    exact hkey
  · rw [hsnapshots, Partition.snapshotRow, h.head_seq]
  · rw [h.head_seq]
    exact h.low
  · exact Nat.le_of_eq h.head_seq

theorem commitsPast_upTo (db : CommitsDb) (a : Address) (n keep : ℕ) :
    (db.commitsPast a n).filter (fun c => c.seq ≤ keep) =
      (db.commitsUpTo a keep).filter (fun c => n < c.seq) := by
  unfold CommitsDb.commitsPast CommitsDb.commitsUpTo
  rw [List.filter_filter, List.filter_filter]
  apply List.filter_congr
  intro c _
  rw [Bool.and_comm]

/-- The stored snapshot is at the new head or before it, and stays. -/
theorem TruncatedAt.standing_kept (hp : Standing db a p)
    (h : TruncatedAt db a head keep rebuilt next) {s m : Partition} (hs : StartsAt db a s)
    (hlow : db.compactedSeq a ≤ s.seq) (hle : s.seq ≤ keep) (hwritten : head.snapshot = none)
    (hm : Replays s ((db.commitsUpTo a keep).filter (fun c => s.seq < c.seq)) m)
    (halike : Alike nothing m rebuilt) : ∃ q, Standing next a q := by
  have hsnapshots := h.snapshots
  rw [hwritten] at hsnapshots
  refine h.standing hp hs.key hs.sound ?_ hlow hle hm (halike.state.seq.trans h.seq) ?_
  · rcases hs.row with ⟨hnone, hempty⟩ | hsome
    · refine Or.inl ⟨?_, hempty.state⟩
      rw [hsnapshots, hnone]
      rfl
    · apply Or.inr
      rw [hsnapshots, hsome]
      simp [Option.filter, Partition.snapshotRow, hle]
  · rw [h.apart.highestFence]
    exact halike.state.highestFence

/-- The rows start at the state of an earlier seq, which the appends from the empty
partition led to. -/
theorem TruncatedAt.standing_earlier (hp : Standing db a p)
    (h : TruncatedAt db a head keep rebuilt next) {key : PartitionKey} {earlier : Partition} {n : ℕ}
    (hkey : key.value = a.2) (hreplay : Replays (Partition.empty key) (db.commitsUpTo a keep) rebuilt)
    (hearlier : Replays (Partition.empty key) (db.commitsUpTo a n) earlier)
    (hseq : earlier.seq = n) (hlow : db.compactedSeq a ≤ n) (hle : n ≤ keep)
    (hrow : (next.snapshots.lookup a = none ∧ (Partition.empty earlier.key).SameState earlier) ∨
      next.snapshots.lookup a = some earlier.snapshotRow) : ∃ q, Standing next a q := by
  have hordered : (db.commitsUpTo a keep).Pairwise (fun c d => c.seq < d.seq) :=
    hp.ordered.filter _
  have hfirstPart : (db.commitsUpTo a keep).filter (fun c => c.seq ≤ n) = db.commitsUpTo a n := by
    unfold CommitsDb.commitsUpTo
    rw [List.filter_filter]
    apply List.filter_congr
    intro c _
    rw [Bool.eq_iff_iff]
    simp only [Bool.and_eq_true, decide_eq_true_eq]
    omega
  rw [filter_split Commit.seq hordered n, hfirstPart] at hreplay
  obtain ⟨mid, hmid, hlater⟩ := hreplay.split
  have hsame := hearlier.unique hmid
  subst hsame
  refine h.standing hp ?_ (hearlier.sound (empty_sound key)) hrow ?_ ?_ ?_ h.seq
    h.apart.highestFence.symm
  · rw [hearlier.key]
    exact hkey
  · rw [hseq]
    exact hlow
  · rw [hseq]
    exact hle
  · rw [hseq]
    exact hlater

/-- What a truncation writes as a snapshot: the head's own state, nothing, or the
state that the appends wrote one of last, where the stored one is past the head. -/
theorem truncatedSnapshot_cases {options : StoreOptions} {stored written : Option SnapshotRow}
    {retained : Bool} {state : Partition}
    (h : db.truncatedSnapshot options first keep stored retained state = .ok written) :
    written = some ⟨keep, state.snapshot.toJson⟩ ∨ written = none ∨
      stored.any (fun row => keep < row.seq) = true ∧ ∃ at_ earlier, at_ ≤ keep ∧
        db.rebuild first.ns first.partition at_ = .ok earlier ∧
          written = some ⟨at_, earlier.partition.snapshot.toJson⟩ := by
  unfold CommitsDb.truncatedSnapshot at h
  simp only at h
  split at h
  · exact Or.inl (Except.ok.inj h).symm
  · split at h
    · rename_i hpast
      split at h
      · rename_i heq
        rw [heq] at h
        exact Or.inl (Except.ok.inj h).symm
      · cases hrebuild : db.rebuild first.ns first.partition
            (keep - keep % options.snapshotInterval) with
        | error e =>
          rw [hrebuild] at h
          cases h
        | ok earlier =>
          rw [hrebuild] at h
          exact Or.inr (Or.inr ⟨hpast.1, _, earlier, Nat.sub_le _ _, hrebuild,
            (Except.ok.inj h).symm⟩)
    · exact Or.inr (Or.inl (Except.ok.inj h).symm)

/-- Where the stored snapshot is past a seq, a rebuild up to it starts at the empty
partition: nothing was compacted. -/
theorem Standing.replays_past (hp : Standing db first.address p) {s : Partition}
    (hs : StartsAt db first.address s) {upTo : ℕ} {cached : CachedPartition}
    (hlt : upTo < s.seq) (hrebuild : db.rebuild first.ns first.partition upTo = .ok cached) :
    Replays (Partition.empty first.partition) (db.commitsUpTo first.address upTo)
      cached.partition := by
  have hrow : db.snapshots.lookup first.address = some s.snapshotRow := by
    rcases hs.row with ⟨-, hempty⟩ | hsome
    · have hzero : 0 = s.seq := hempty.state.seq
      omega
    · exact hsome
  have husable : db.usableSnapshot first.address upTo = none := by
    unfold CommitsDb.usableSnapshot
    rw [hrow]
    exact Option.filter_some_neg (decide_eq_false (Nat.not_le.mpr hlt))
  exact hp.replays_of_rebuild husable hrebuild

/-- **The rows of a touched partition stand for a state** at its new head. -/
theorem truncatePartition_stands {options : StoreOptions} (hp : Standing db first.address p)
    (hfirst : first ∈ db.commitsOf first.address)
    (h : db.truncatePartition options commits first = .ok head)
    (hrows : TruncatedTo db first.address head (first.seq - 1) next) :
    ∃ q, Standing next first.address q := by
  obtain ⟨parts⟩ := truncatePartition_parts h
  obtain ⟨s, hs, hlow, -, hreplays⟩ := hp.start
  have hmem := hp.mem_seq hfirst
  obtain ⟨cached, hrebuild, hseq, later, hlater, haddress, hstate, hsnapshot⟩ := parts
  have hstored : ∀ row, db.snapshots.lookup first.address = some row →
      ∃ s : Partition, s.Sound ∧ s.key.value = first.partition.value ∧ row = s.snapshotRow := by
    intro row hrow
    rcases hs.row with ⟨hnone, -⟩ | hsome
    · rw [hnone] at hrow
      cases hrow
    · rw [hsome] at hrow
      exact ⟨s, hs.sound, hs.key, (Option.some.inj hrow).symm⟩
  have hat : TruncatedAt db first.address head (first.seq - 1) cached.partition next := by
    refine ⟨hrows, by omega, by omega, haddress, ?_, hseq⟩
    rw [hstate]
    exact (retainDropped_namesApart _ _).trans (retainLater_namesApart hstored hlater)
  rw [← hstate] at hsnapshot
  by_cases hstart : s.seq ≤ first.seq - 1
  · obtain ⟨m, other, hm, -, hother, halike, -, -⟩ := hp.rebuild_upTo hs hreplays hstart
    have hsame : other = cached := Except.ok.inj (hother.symm.trans hrebuild)
    subst hsame
    have hm' := hm
    rw [commitsPast_upTo] at hm'
    rcases truncatedSnapshot_cases hsnapshot with hwritten | hwritten | ⟨hpast, -⟩
    · refine hat.standing_own hp (halike.state.sound (hm.sound hs.sound)) ?_ hwritten
      rw [halike.key, hm.key]
      exact hs.key
    · exact hat.standing_kept hp hs hlow hstart hwritten hm' halike
    · -- The stored snapshot is not past the head.
      exfalso
      rcases hs.row with ⟨hnone, -⟩ | hsome
      · rw [hnone] at hpast
        cases hpast
      · rw [hsome] at hpast
        have : first.seq - 1 < s.seq := by simpa [Partition.snapshotRow] using hpast
        omega
  · have hreplay := hp.replays_past hs (by omega) hrebuild
    have hzero : db.compactedSeq first.address = 0 := by
      have hcount := hreplay.next_seq
      have hlength := (hp.commitsUpTo_length hat.low hat.high).1
      have hempty : (Partition.empty first.partition).seq = 0 := rfl
      omega
    rcases truncatedSnapshot_cases hsnapshot with hwritten | hwritten |
        ⟨-, at_, earlier, hle, hearlier, hwritten⟩
    · refine hat.standing_own hp (hreplay.sound (empty_sound first.partition)) ?_ hwritten
      rw [hreplay.key]
      rfl
    · have hnone : db.commitsUpTo first.address 0 = [] := by
        apply List.filter_eq_nil_iff.mpr
        intro c hc
        have := (hp.mem_seq hc).1
        simp only [decide_eq_true_eq]
        omega
      have hnil : Replays (Partition.empty first.partition) (db.commitsUpTo first.address 0)
          (Partition.empty first.partition) := by
        rw [hnone]
        exact Replays.nil _
      have hsnapshots := hat.snapshots
      rw [hwritten] at hsnapshots
      refine hat.standing_earlier hp rfl hreplay hnil rfl (Nat.le_of_eq hzero)
        (Nat.zero_le _) (Or.inl ⟨?_, SameState.refl _⟩)
      rw [hsnapshots]
      rcases hs.row with ⟨hrow, -⟩ | hrow
      · rw [hrow]
        rfl
      · rw [hrow]
        exact Option.filter_some_neg (decide_eq_false hstart)
    · have hreplay' := hp.replays_past hs (by omega) hearlier
      have hearlierSeq : earlier.partition.seq = at_ := by
        have hcount := hreplay'.next_seq
        have hlength := (hp.commitsUpTo_length (n := at_) (by omega) (by omega)).1
        have hempty : (Partition.empty first.partition).seq = 0 := rfl
        omega
      have hsnapshots := hat.snapshots
      rw [hwritten] at hsnapshots
      refine hat.standing_earlier hp rfl hreplay hreplay' hearlierSeq (by omega) hle (Or.inr ?_)
      rw [hsnapshots, Partition.snapshotRow, hearlierSeq]

end

theorem touchedBy_append (rows : List CommitRow) (row : CommitRow) :
    touchedBy (rows ++ [row]) =
      if (touchedBy rows).has row.address then touchedBy rows
      else (touchedBy rows).set row.address row.commit := by
  unfold touchedBy
  rw [List.foldl_append]
  rfl

theorem touchedBy_get (rows : List CommitRow) (a : Address) :
    (touchedBy rows).get a =
      (rows.filter (fun row => row.address = a)).head?.map CommitRow.commit := by
  induction rows using List.reverseRecOn with
  | nil => rfl
  | append_singleton rows row ih =>
    rw [touchedBy_append, List.filter_append]
    unfold OrderedMap.has
    by_cases h : row.address = a
    · rw [h, ih]
      cases hfilter : rows.filter (fun row => row.address = a) with
      | nil =>
        simp only [List.head?_nil, Option.map_none, Option.isSome_none, Bool.false_eq_true,
          if_false, List.nil_append, OrderedMap.get_set_self]
        simp [h]
      | cons first rest =>
        simp only [List.head?_cons, Option.map_some, Option.isSome_some, if_true, ih, hfilter,
          List.cons_append]
    · have hnone : [row].filter (fun row => row.address = a) = [] := by simp [h]
      rw [hnone, List.append_nil, ← ih]
      split
      · rfl
      · exact OrderedMap.get_set_ne _ _ (Ne.symm h)

theorem writeTruncated_others {a : Address} {heads : List TruncatedHead}
    (h : ∀ head ∈ heads, head.address ≠ a) (db : CommitsDb) :
    (heads.foldl CommitsDb.writeTruncated db).heads.lookup a = db.heads.lookup a ∧
      (heads.foldl CommitsDb.writeTruncated db).snapshots.lookup a = db.snapshots.lookup a := by
  induction heads generalizing db with
  | nil => exact ⟨rfl, rfl⟩
  | cons head heads ih =>
    have hne : a ≠ head.address := (h head List.mem_cons_self).symm
    obtain ⟨hheads, hsnapshots⟩ := ih
      (fun other hother => h other (List.mem_cons_of_mem _ hother)) (db.writeTruncated head)
    rw [List.foldl_cons, hheads, hsnapshots]
    simp only [CommitsDb.writeTruncated]
    refine ⟨?_, ?_⟩
    · split
      · exact Finmap.lookup_erase_ne hne
      · exact Finmap.lookup_insert_of_ne _ hne
    · have hkept : (match db.snapshots.lookup head.address with
          | some row =>
            if head.state.seq < row.seq then db.snapshots.erase head.address else db.snapshots
          | none => db.snapshots).lookup a = db.snapshots.lookup a := by
        split
        · split
          · exact Finmap.lookup_erase_ne hne
          · rfl
        · rfl
      split
      · rw [Finmap.lookup_insert_of_ne _ hne]
        exact hkept
      · exact hkept

theorem writeTruncated_congr {db other : CommitsDb}
    (hcompacted : other.compactedSeq head.address = db.compactedSeq head.address)
    (hsnapshots : other.snapshots.lookup head.address = db.snapshots.lookup head.address) :
    (other.writeTruncated head).heads.lookup head.address =
        (db.writeTruncated head).heads.lookup head.address ∧
      (other.writeTruncated head).snapshots.lookup head.address =
        (db.writeTruncated head).snapshots.lookup head.address := by
  refine ⟨?_, ?_⟩
  · simp only [CommitsDb.writeTruncated, hcompacted]
    split
    · rw [Finmap.lookup_erase, Finmap.lookup_erase]
    · rw [Finmap.lookup_insert, Finmap.lookup_insert]
  · rw [writeTruncated_snapshot, writeTruncated_snapshot, hsnapshots]

theorem foldl_writeTruncated_base (heads : List TruncatedHead) (db : CommitsDb) :
    (heads.foldl CommitsDb.writeTruncated db).base = db.base := by
  obtain ⟨headRows, snapshots, heq⟩ := writeTruncated_frame db heads
  rw [heq]

theorem writeTruncated_own {heads : List TruncatedHead} (hmem : head ∈ heads)
    (hdistinct : (heads.map TruncatedHead.address).Nodup) (db : CommitsDb) :
    (heads.foldl CommitsDb.writeTruncated db).heads.lookup head.address =
        (db.writeTruncated head).heads.lookup head.address ∧
      (heads.foldl CommitsDb.writeTruncated db).snapshots.lookup head.address =
        (db.writeTruncated head).snapshots.lookup head.address := by
  obtain ⟨before, after, rfl⟩ := List.append_of_mem hmem
  rw [List.map_append, List.map_cons, List.nodup_append, List.nodup_cons] at hdistinct
  have hbefore : ∀ other ∈ before, other.address ≠ head.address := by
    intro other hother
    exact hdistinct.2.2 _ (List.mem_map.mpr ⟨other, hother, rfl⟩) _ List.mem_cons_self
  have hafter : ∀ other ∈ after, other.address ≠ head.address := by
    intro other hother heq
    exact hdistinct.2.1.1 (heq ▸ List.mem_map.mpr ⟨other, hother, rfl⟩)
  rw [List.foldl_append, List.foldl_cons]
  obtain ⟨hheads, hsnapshots⟩ := writeTruncated_others hafter
    ((before.foldl CommitsDb.writeTruncated db).writeTruncated head)
  rw [hheads, hsnapshots]
  refine writeTruncated_congr ?_ (writeTruncated_others hbefore db).2
  unfold CommitsDb.compactedSeq
  rw [foldl_writeTruncated_base]

/-- The tables a truncation leaves: the rows up to the mark, under the heads it
wrote. -/
structure TruncatedBy (db : CommitsDb) (mark : StoreHighWaterMark) (heads : List TruncatedHead)
    (next : CommitsDb) : Prop where
  commits : next.commits = db.commits.filter (fun row => row.cursor ≤ mark.cursor)
  sequence : next.sequence = db.sequence
  point : next.point = db.point
  base : next.base = db.base
  txns : next.compactedTxns = db.compactedTxns
  headRows : next.heads = (heads.foldl CommitsDb.writeTruncated db).heads
  snapshots : next.snapshots = (heads.foldl CommitsDb.writeTruncated db).snapshots

theorem foldl_writeTruncated_congr (db other : CommitsDb) (hheads : other.heads = db.heads)
    (hsnapshots : other.snapshots = db.snapshots) (hbase : other.base = db.base)
    (heads : List TruncatedHead) :
    (heads.foldl CommitsDb.writeTruncated other).heads =
        (heads.foldl CommitsDb.writeTruncated db).heads ∧
      (heads.foldl CommitsDb.writeTruncated other).snapshots =
        (heads.foldl CommitsDb.writeTruncated db).snapshots := by
  induction heads generalizing db other with
  | nil => exact ⟨hheads, hsnapshots⟩
  | cons head heads ih =>
    rw [List.foldl_cons, List.foldl_cons]
    have hcompacted : other.compactedSeq head.address = db.compactedSeq head.address := by
      unfold CommitsDb.compactedSeq
      rw [hbase]
    refine ih _ _ ?_ ?_ hbase
    · simp only [CommitsDb.writeTruncated, hcompacted, hheads]
    · simp only [CommitsDb.writeTruncated, hsnapshots]

/-- **The tables a truncation's transaction leaves.** -/
theorem truncateRows_rows {db next : CommitsDb} {mark : StoreHighWaterMark} {now : ℤ}
    {rows : List CommitRow} {heads : List TruncatedHead}
    (h : db.truncateRows mark now rows heads = .ok next) : TruncatedBy db mark heads next := by
  unfold CommitsDb.truncateRows at h
  obtain ⟨batch, hbatch, hlast⟩ := bind_ok h
  have honly : OnlyRefs (BaseBatch.begin db now) batch := by
    apply foldlM_ok hbatch (OnlyRefs.refl _)
      (P := fun _ b => OnlyRefs (BaseBatch.begin db now) b)
    intro before row rest b mid _ hb hmid
    exact hb.trans ((releaseAll_onlyRefs b _ _).of_ok hmid)
  obtain ⟨refs, partitions, chunks, released, rfl⟩ := honly
  cases hlast
  have hcommits : (db.commits.filter (fun row => ¬ mark.cursor < row.cursor)) =
      db.commits.filter (fun row => row.cursor ≤ mark.cursor) := by
    apply List.filter_congr
    intro row _
    rw [decide_eq_decide]
    exact Nat.not_lt
  obtain ⟨headRows, snapshots, heq⟩ := writeTruncated_frame
    { (BaseBatch.begin db now).db with
      chunkRefs := refs
      chunkPartitions := partitions
      releasedChunks := chunks
      commits := db.commits.filter (fun row => ¬ mark.cursor < row.cursor) } heads
  obtain ⟨hheads, hsnapshots⟩ := foldl_writeTruncated_congr db
    { (BaseBatch.begin db now).db with
      chunkRefs := refs
      chunkPartitions := partitions
      releasedChunks := chunks
      commits := db.commits.filter (fun row => ¬ mark.cursor < row.cursor) } rfl rfl rfl heads
  refine ⟨?_, ?_, ?_, ?_, ?_, hheads, hsnapshots⟩
  · simp only [BaseBatch.begin] at heq ⊢
    rw [heq]
    exact hcommits
  · simp only [BaseBatch.begin] at heq ⊢
    rw [heq]
  · simp only [BaseBatch.begin] at heq ⊢
    rw [heq]
  · simp only [BaseBatch.begin] at heq ⊢
    rw [heq]
  · simp only [BaseBatch.begin] at heq ⊢
    rw [heq]

section

variable {db next : CommitsDb} {options : StoreOptions} {mark : StoreHighWaterMark}
  {heads : List TruncatedHead}

theorem map_eq_of_forall₂ {α β γ : Type*} {f : α → γ} {g : β → γ} {xs : List α} {ys : List β}
    (h : List.Forall₂ (fun x y => g y = f x) xs ys) : ys.map g = xs.map f := by
  induction h with
  | nil => rfl
  | cons hhead _ ih => rw [List.map_cons, List.map_cons, hhead, ih]

theorem heads_of_touched {rows : List CommitRow}
    (h : (touchedBy rows).values.mapM (db.truncatePartition options commits) = .ok heads) :
    (heads.map TruncatedHead.address).Nodup ∧
      (∀ head ∈ heads, ∃ first, (touchedBy rows).get head.address = some first ∧
        first.address = head.address ∧ db.truncatePartition options commits first = .ok head) ∧
      ∀ row ∈ rows, ∃ head ∈ heads, head.address = row.address := by
  have haddress : ∀ {a : Address} {first : Commit}, (touchedBy rows).get a = some first →
      first.address = a := by
    intro a first hget
    rw [touchedBy_get, Option.map_eq_some_iff] at hget
    obtain ⟨row, hrow, rfl⟩ := hget
    exact of_decide_eq_true (List.mem_filter.mp (List.mem_of_head? hrow)).2
  have hown : ∀ {first : Commit} {head : TruncatedHead},
      db.truncatePartition options commits first = .ok head → head.address = first.address := by
    intro first head hhead
    obtain ⟨parts⟩ := truncatePartition_parts hhead
    exact parts.address
  have hall := mapM_ok h
  have hkeys : heads.map TruncatedHead.address = (touchedBy rows).keys := by
    have hsame : List.Forall₂ (fun first head => head.address = first.address)
        (touchedBy rows).values heads := hall.imp (fun _ _ hhead => hown hhead)
    have hvalues : (touchedBy rows).values.map Commit.address = (touchedBy rows).keys := by
      unfold OrderedMap.values OrderedMap.keys
      rw [List.map_map]
      apply List.map_congr_left
      intro entry hentry
      exact haddress (OrderedMap.mem_entries.mp hentry)
    rw [← hvalues]
    exact map_eq_of_forall₂ hsame
  refine ⟨hkeys ▸ (touchedBy rows).nodup, ?_, ?_⟩
  · intro head hhead
    obtain ⟨first, hfirst, htruncated⟩ := mem_mapM h hhead
    obtain ⟨a, ha⟩ := OrderedMap.mem_values.mp hfirst
    have hsame := haddress ha
    refine ⟨first, ?_, (hown htruncated).symm, htruncated⟩
    rw [hown htruncated, hsame]
    exact ha
  · intro row hrow
    have hmem : row.address ∈ heads.map TruncatedHead.address := by
      rw [hkeys, OrderedMap.mem_keys, touchedBy_get, Option.isSome_map, List.isSome_head?]
      exact List.ne_nil_of_mem (List.mem_filter.mpr ⟨hrow, decide_eq_true rfl⟩)
    exact List.mem_map.mp hmem

theorem TruncatedBy.compactedSeq (h : TruncatedBy db mark heads next) (a : Address) :
    next.compactedSeq a = db.compactedSeq a := by
  unfold CommitsDb.compactedSeq
  rw [h.base]

theorem TruncatedBy.untouched (h : TruncatedBy db mark heads next) {a : Address}
    (hrows : ∀ row ∈ db.commits, row.address = a → row.cursor ≤ mark.cursor)
    (hheads : ∀ head ∈ heads, head.address ≠ a) : SameRows a db next := by
  obtain ⟨hheadRows, hsnapshots⟩ := writeTruncated_others hheads db
  refine ⟨?_, h.compactedSeq a, ?_, ?_, ?_⟩
  · unfold CommitsDb.commitsOf CommitsDb.rowsOf
    rw [h.commits, List.filter_filter]
    congr 1
    apply List.filter_congr
    intro row hrow
    rw [Bool.eq_iff_iff]
    simp only [Bool.and_eq_true, decide_eq_true_eq]
    exact ⟨And.left, fun ha => ⟨ha, hrows row hrow ha⟩⟩
  · intro txn _
    rw [h.txns]
  · rw [h.snapshots, hsnapshots]
  · rw [h.headRows, hheadRows]

theorem TruncatedBy.touched (h : TruncatedBy db mark heads next) (horder : db.InOrder)
    {p : Partition} (hp : Standing db head.address p) (hmem : head ∈ heads)
    (hdistinct : (heads.map TruncatedHead.address).Nodup)
    (hfirst : (touchedBy (db.rowsPast mark.cursor)).get head.address = some first) :
    first ∈ db.commitsOf head.address ∧
      TruncatedTo db head.address head (first.seq - 1) next := by
  obtain ⟨hheads, hsnapshots⟩ := writeTruncated_own hmem hdistinct db
  have hsplit : db.rowsOf head.address =
      (db.rowsOf head.address).filter (fun row => row.cursor ≤ mark.cursor) ++
        (db.rowsOf head.address).filter (fun row => mark.cursor < row.cursor) :=
    filter_split CommitRow.cursor (horder.ordered.filter _) mark.cursor
  have hpast : (db.rowsOf head.address).filter (fun row => mark.cursor < row.cursor) =
      (db.rowsPast mark.cursor).filter (fun row => row.address = head.address) := by
    unfold CommitsDb.rowsOf CommitsDb.rowsPast
    rw [List.filter_filter, List.filter_filter]
    apply List.filter_congr
    intro row _
    rw [Bool.and_comm]
  rw [touchedBy_get, ← hpast, Option.map_eq_some_iff] at hfirst
  obtain ⟨row, hrow, rfl⟩ := hfirst
  obtain ⟨later, hlater⟩ : ∃ later,
      (db.rowsOf head.address).filter (fun row => mark.cursor < row.cursor) = row :: later := by
    cases hfilter : (db.rowsOf head.address).filter (fun row => mark.cursor < row.cursor) with
    | nil =>
      rw [hfilter] at hrow
      cases hrow
    | cons other later =>
      rw [hfilter] at hrow
      cases hrow
      exact ⟨later, rfl⟩
  have hof : db.commitsOf head.address =
      ((db.rowsOf head.address).filter (fun row => row.cursor ≤ mark.cursor)).map CommitRow.commit ++
        row.commit :: later.map CommitRow.commit := by
    have hmap := congrArg (List.map CommitRow.commit) hsplit
    rw [hlater, List.map_append, List.map_cons] at hmap
    exact hmap
  have hordered := hp.ordered
  rw [hof, List.pairwise_append, List.pairwise_cons] at hordered
  refine ⟨hof ▸ List.mem_append_right _ List.mem_cons_self, ?_, h.compactedSeq _, h.txns, ?_, ?_⟩
  · have hnext : next.commitsOf head.address =
        ((db.rowsOf head.address).filter (fun row => row.cursor ≤ mark.cursor)).map
          CommitRow.commit := by
      unfold CommitsDb.commitsOf CommitsDb.rowsOf
      rw [h.commits, List.filter_filter, List.filter_filter]
      congr 1
      apply List.filter_congr
      intro row _
      rw [Bool.and_comm]
    have hpos := (hp.mem_seq (hof ▸ List.mem_append_right _ List.mem_cons_self :
      row.commit ∈ db.commitsOf head.address)).1
    have hkept : (((db.rowsOf head.address).filter (fun row => row.cursor ≤ mark.cursor)).map
        CommitRow.commit).filter (fun c => c.seq ≤ row.commit.seq - 1) =
          ((db.rowsOf head.address).filter (fun row => row.cursor ≤ mark.cursor)).map
            CommitRow.commit := by
      apply List.filter_eq_self.mpr
      intro c hc
      have := hordered.2.2 c hc _ List.mem_cons_self
      simp only [decide_eq_true_eq]
      omega
    have hgone : (row.commit :: later.map CommitRow.commit).filter
        (fun c => c.seq ≤ row.commit.seq - 1) = [] := by
      apply List.filter_eq_nil_iff.mpr
      intro c hc
      simp only [decide_eq_true_eq]
      rcases List.mem_cons.mp hc with rfl | hc
      · omega
      · have := hordered.2.1.1 c hc
        omega
    unfold CommitsDb.commitsUpTo
    rw [hnext, hof, List.filter_append, hkept, hgone, List.append_nil]
  · rw [h.headRows]
    exact hheads
  · rw [h.snapshots]
    exact hsnapshots

end

end Swamp
