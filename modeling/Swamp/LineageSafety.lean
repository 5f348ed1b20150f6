import Swamp.LineageRecords

/-!
# A fresh copy holds every acknowledged commit

Fences are taken one after another, and a writer continues its lineage only while
it takes them without a gap.  So when a command still holds the highest fence at
its end, no lineage was started after its own: what it acknowledges is under the
head every later copy is restored from.
-/

namespace Swamp.LineageWorld

open Js MapOverlay

variable {root : ReplicaRoot} {s s' : World} {la w : ℕ}

theorem writers_setWriter (writer : Writer) : (s.setWriter w writer).writers w = writer := by
  simp [World.setWriter]

@[simp] theorem recordsOf_setWriter (writer : Writer) (fence : ℕ) :
    (s.setWriter w writer).recordsOf fence = s.recordsOf fence := rfl

@[simp] theorem replicaOf_setWriter (writer : Writer) (fence : ℕ) :
    (s.setWriter w writer).replicaOf fence = s.replicaOf fence := rfl

@[simp] theorem recordsOf_takeFence (fence : ℕ) :
    (s.takeFence w).recordsOf fence = s.recordsOf fence := rfl

@[simp] theorem replicaOf_takeFence (fence : ℕ) :
    (s.takeFence w).replicaOf fence = s.replicaOf fence := rfl

@[simp] theorem recordsOf_setReplica (path : ℕ) (replica : List ℕ) (fence : ℕ) :
    (s.setReplica path replica).recordsOf fence = s.recordsOf fence := rfl

@[simp] theorem replicaOf_setRecords (path : ℕ) (records : LineageRecords) (fence : ℕ) :
    (s.setRecords path records).replicaOf fence = s.replicaOf fence := rfl

theorem recordsOf_setRecords (path : ℕ) (records : LineageRecords) (fence : ℕ) :
    (s.setRecords path records).recordsOf fence =
      if fence = path then records else s.recordsOf fence := by
  unfold World.recordsOf World.setRecords
  by_cases h : fence = path
  · subst h
    simp
  · simp [h, Finmap.lookup_insert_of_ne _ h]

theorem replicaOf_setReplica (path : ℕ) (replica : List ℕ) (fence : ℕ) :
    (s.setReplica path replica).replicaOf fence =
      if fence = path then replica else s.replicaOf fence := by
  unfold World.replicaOf World.setReplica
  by_cases h : fence = path
  · subst h
    simp
  · simp [h, Finmap.lookup_insert_of_ne _ h]

variable {fence : ℕ}

theorem isStarted_congr (h : (s'.recordsOf fence).started = (s.recordsOf fence).started) :
    isStarted root s' fence = isStarted root s fence := by
  unfold isStarted
  rw [h]

/-- The writer took the fence. -/
def HeldBy (s : World) (fence w : ℕ) : Prop := 1 ≤ fence ∧ s.holders[fence - 1]? = some w

theorem HeldBy.unique {w' : ℕ} (h : HeldBy s fence w) (h' : HeldBy s fence w') : w = w' :=
  Option.some.inj (h.2.symm.trans h'.2)

theorem HeldBy.le_maxFence (h : HeldBy s fence w) : fence ≤ s.maxFence := by
  have hlt : fence - 1 < s.holders.length := (List.getElem?_eq_some_iff.mp h.2).1
  unfold World.maxFence
  omega

theorem HeldBy.mono (h : HeldBy s fence w) (hwithin : s.holders <+: s'.holders) :
    HeldBy s' fence w := by
  obtain ⟨rest, hrest⟩ := hwithin
  refine ⟨h.1, ?_⟩
  rw [← hrest, List.getElem?_append_left (List.getElem?_eq_some_iff.mp h.2).1]
  exact h.2

/-- The fence a writer takes next is held by it. -/
theorem heldBy_takeFence : HeldBy (s.takeFence w) (s.maxFence + 1) w := by
  refine ⟨by omega, ?_⟩
  unfold World.maxFence World.takeFence
  simp

/-- A command in progress on a lineage and a copy. -/
structure SessionOk (root : ReplicaRoot) (s : World) (la : ℕ) (session : Session)
    (lineage : ReplicationLineage) (copy : List ℕ) : Prop where
  started : isStarted root s lineage.lineageFence = true
  fence : session.fence = lineage.lastFence
  unheaded : session.phase = .isOpen ∨ session.phase = .synced → session.headed = []
  marked : session.phase ≠ .isOpen →
    session.markLen ≤ (s.replicaOf lineage.lineageFence).length ∧
      (la ≤ lineage.lineageFence → ∀ id ∈ s.acked, id ∈ copy.take session.markLen)
  headed : session.phase = .headed ∨ session.phase = .confirmed →
    session.headed = copy.take session.markLen ∧
      ∃ head, (s.recordsOf lineage.lineageFence).head = some head ∧
        head.mark.cursor = session.markLen
  confirmed : session.phase = .confirmed → (s.recordsOf lineage.lineageFence).confirmed ≠ none

/-- A writer.  Its lineage spans fences it holds, of which only the first may be
started; its copy holds every acknowledged commit when its lineage, or the one it
was restored from, is no older than the last acknowledgement's. -/
structure WriterOk (root : ReplicaRoot) (s : World) (la w : ℕ) (writer : Writer) : Prop where
  uncopied : writer.copy = none → writer.lineage = none ∧ writer.copyState = none
  owned : ∀ lineage, writer.lineage = some lineage →
    lineage.lineageFence ≤ lineage.lastFence ∧
      ∀ fence, lineage.lineageFence ≤ fence → fence ≤ lineage.lastFence → HeldBy s fence w
  unstarted : ∀ lineage, writer.lineage = some lineage → ∀ fence,
    lineage.lineageFence < fence → fence ≤ lineage.lastFence → isStarted root s fence = false
  replicated : ∀ lineage copy, writer.lineage = some lineage → writer.copy = some copy →
    s.replicaOf lineage.lineageFence <+: copy
  restored : ∀ state, writer.copyState = some state →
    isStarted root s state.lineageFence = true ∧
      (HeldBy s state.lineageFence w ∨ ∃ fence, state.lineageFence < fence ∧ HeldBy s fence w)
  acks : ∀ copy, writer.copy = some copy →
    ((∃ lineage, writer.lineage = some lineage ∧
        isStarted root s lineage.lineageFence = true ∧ la ≤ lineage.lineageFence) ∨
      ∃ state, writer.copyState = some state ∧ la ≤ state.lineageFence) →
    ∀ id ∈ s.acked, id ∈ copy
  session : ∀ session, writer.session = some session → ∃ lineage copy,
    writer.lineage = some lineage ∧ writer.copy = some copy ∧
      SessionOk root s la session lineage copy

/-- A head covered the commit: in a command that was acknowledged, in one that
was not, or in one in progress. -/
def Covered (s : World) (id : ℕ) : Prop :=
  id ∈ s.acked ∨ id ∈ s.exposed ∨
    ∃ w session, (s.writers w).session = some session ∧ id ∈ session.headed

/-- What the records and replicas say of each lineage. -/
structure LineagesOk (root : ReplicaRoot) (s : World) (la : ℕ) : Prop where
  fresh : ∀ fence, s.maxFence < fence →
    s.recordsOf fence = LineageRecords.none ∧ s.replicaOf fence = []
  heads : ∀ fence head, (s.recordsOf fence).head = some head →
    isStarted root s fence = true ∧ head.fence = fence ∧ head.mark.cursor ≤ head.txid ∧
      head.mark.cursor ≤ (s.replicaOf fence).length
  ackedOn : s.acked = ∅ ∨ IsComplete root s la
  acked : ∀ fence head, (s.recordsOf fence).head = some head → la ≤ fence →
    ∀ id ∈ s.acked, id ∈ (s.replicaOf fence).take head.mark.cursor
  covered : ∀ fence head, (s.recordsOf fence).head = some head →
    ∀ id ∈ (s.replicaOf fence).take head.mark.cursor, Covered s id

/-- **The invariant**, `la` being the lineage of the last acknowledgement. -/
structure Sound (root : ReplicaRoot) (s : World) (la : ℕ) : Prop where
  writers : ∀ w, WriterOk root s la w (s.writers w)
  lineages : LineagesOk root s la

theorem sound_start (root : ReplicaRoot) : Sound root World.start 0 := by
  refine ⟨?_, ?_⟩
  · intro w
    refine ⟨?_, ?_, ?_, ?_, ?_, ?_, ?_⟩ <;> intro <;> simp_all [World.start, Writer.idle]
  · refine ⟨?_, ?_, Or.inl rfl, ?_, ?_⟩
    · intro fence _
      exact ⟨rfl, rfl⟩
    · intro fence head h
      cases h
    · intro fence head h
      cases h
    · intro fence head h
      cases h

theorem le_maxFence_of_started (h : LineagesOk root s la) (hstarted : isStarted root s fence = true)
    :
    fence ≤ s.maxFence := by
  by_contra hlt
  exact ne_none_of_started hstarted (h.fresh fence (by omega)).1

variable {writer : Writer}

theorem WriterOk.frame (h : WriterOk root s la w writer) (hholders : s.holders <+: s'.holders)
    (hstarted : ∀ fence, isStarted root s fence = true → isStarted root s' fence = true)
    (hown : ∀ fence, HeldBy s fence w →
      s'.recordsOf fence = s.recordsOf fence ∧ s'.replicaOf fence = s.replicaOf fence)
    (hacked : s'.acked = s.acked) : WriterOk root s' la w writer := by
  have hsame : ∀ fence, HeldBy s fence w → isStarted root s' fence = isStarted root s fence :=
    fun fence hheld => isStarted_congr (by rw [(hown fence hheld).1])
  have hfirst : ∀ lineage, writer.lineage = some lineage → HeldBy s lineage.lineageFence w :=
    fun lineage hlineage =>
      (h.owned lineage hlineage).2 _ (le_refl _) (h.owned lineage hlineage).1
  refine ⟨h.uncopied, ?_, ?_, ?_, ?_, ?_, ?_⟩
  · intro lineage hlineage
    obtain ⟨hle, hheld⟩ := h.owned lineage hlineage
    exact ⟨hle, fun fence hlow hhigh => (hheld fence hlow hhigh).mono hholders⟩
  · intro lineage hlineage fence hlow hhigh
    rw [hsame fence ((h.owned lineage hlineage).2 fence hlow.le hhigh)]
    exact h.unstarted lineage hlineage fence hlow hhigh
  · intro lineage copy hlineage hcopy
    rw [(hown _ (hfirst lineage hlineage)).2]
    exact h.replicated lineage copy hlineage hcopy
  · intro state hstate
    obtain ⟨hstart, hheld⟩ := h.restored state hstate
    refine ⟨hstarted _ hstart, ?_⟩
    rcases hheld with hheld | ⟨fence, hlt, hheld⟩
    · exact Or.inl (hheld.mono hholders)
    · exact Or.inr ⟨fence, hlt, hheld.mono hholders⟩
  · intro copy hcopy hrecent
    rw [hacked]
    apply h.acks copy hcopy
    rcases hrecent with ⟨lineage, hlineage, hstart, hle⟩ | hstate
    · rw [hsame _ (hfirst lineage hlineage)] at hstart
      exact Or.inl ⟨lineage, hlineage, hstart, hle⟩
    · exact Or.inr hstate
  · intro session hsession
    obtain ⟨lineage, copy, hlineage, hcopy, hok⟩ := h.session session hsession
    obtain ⟨hrecords, hreplica⟩ := hown _ (hfirst lineage hlineage)
    refine ⟨lineage, copy, hlineage, hcopy, ?_⟩
    exact
      { started := hstarted _ hok.started
        fence := hok.fence
        unheaded := hok.unheaded
        marked := by rw [hreplica, hacked]; exact hok.marked
        headed := by rw [hrecords]; exact hok.headed
        confirmed := by rw [hrecords]; exact hok.confirmed }

/-- **One writer acts.**  The others keep what holds of them when their fences
are left alone. -/
theorem writersOk_of_actor {actor : Writer} (h : ∀ w, WriterOk root s la w (s.writers w))
    (hwriters : s'.writers = Function.update s.writers w actor)
    (hholders : s.holders <+: s'.holders)
    (hstarted : ∀ fence, isStarted root s fence = true → isStarted root s' fence = true)
    (hothers : ∀ fence, ¬ HeldBy s fence w → fence ≤ s.maxFence →
      s'.recordsOf fence = s.recordsOf fence ∧ s'.replicaOf fence = s.replicaOf fence)
    (hacked : s'.acked = s.acked) (hactor : WriterOk root s' la w actor) :
    ∀ w', WriterOk root s' la w' (s'.writers w') := by
  intro w'
  rw [hwriters]
  by_cases hsame : w' = w
  · rw [hsame, Function.update_self]
    exact hactor
  · rw [Function.update_of_ne hsame]
    refine (h w').frame hholders hstarted ?_ hacked
    intro fence hheld
    exact hothers fence (fun hw => hsame (hheld.unique hw)) hheld.le_maxFence

theorem Covered.actor {actor : Writer} {id : ℕ} (h : Covered s id)
    (hwriters : s'.writers = Function.update s.writers w actor)
    (hacked : ∀ id ∈ s.acked, id ∈ s'.acked)
    (hexposed : ∀ id ∈ s.exposed, id ∈ s'.exposed ∨ id ∈ s'.acked)
    (hsession : ∀ session, (s.writers w).session = some session →
      ∀ id ∈ session.headed, Covered s' id) : Covered s' id := by
  rcases h with hmem | hmem | ⟨w', session, hw', hid⟩
  · exact Or.inl (hacked id hmem)
  · rcases hexposed id hmem with hmem | hmem
    · exact Or.inr (Or.inl hmem)
    · exact Or.inl hmem
  · by_cases hsame : w' = w
    · subst hsame
      exact hsession session hw' id hid
    · refine Or.inr (Or.inr ⟨w', session, ?_, hid⟩)
      rw [hwriters, Function.update_of_ne hsame]
      exact hw'

/-- A head's commits stay the same while its replica grows. -/
theorem take_of_grown {old new : List ℕ} {cursor : ℕ} (hgrown : old <+: new)
    (hcursor : cursor ≤ old.length) : new.take cursor = old.take cursor := by
  obtain ⟨rest, rfl⟩ := hgrown
  exact List.take_append_of_le_length hcursor

theorem LineagesOk.grow (h : LineagesOk root s la)
    (hfresh : ∀ fence, s'.maxFence < fence →
      s'.recordsOf fence = LineageRecords.none ∧ s'.replicaOf fence = [])
    (hhead : ∀ fence, (s'.recordsOf fence).head = (s.recordsOf fence).head)
    (hstarted : ∀ fence, isStarted root s fence = true → isStarted root s' fence = true)
    (hconfirmed : ∀ fence, (s.recordsOf fence).confirmed ≠ none →
      (s'.recordsOf fence).confirmed ≠ none)
    (hreplica : ∀ fence, s.replicaOf fence <+: s'.replicaOf fence)
    (hacked : s'.acked = s.acked) (hcovered : ∀ id, Covered s id → Covered s' id) :
    LineagesOk root s' la := by
  have htake : ∀ fence head, (s.recordsOf fence).head = some head →
      (s'.replicaOf fence).take head.mark.cursor = (s.replicaOf fence).take head.mark.cursor :=
    fun fence head hpublished =>
      take_of_grown (hreplica fence) (h.heads fence head hpublished).2.2.2
  refine ⟨hfresh, ?_, ?_, ?_, ?_⟩
  · intro fence head hpublished
    rw [hhead] at hpublished
    obtain ⟨hstart, hfence, htxid, hcursor⟩ := h.heads fence head hpublished
    exact ⟨hstarted fence hstart, hfence, htxid, le_trans hcursor (hreplica fence).length_le⟩
  · rw [hacked]
    apply h.ackedOn.imp_right
    intro hcomplete
    exact ⟨hstarted la hcomplete.started, hconfirmed la hcomplete.confirmed,
      by rw [hhead]; exact hcomplete.head⟩
  · intro fence head hpublished hle id hid
    rw [hhead] at hpublished
    rw [hacked] at hid
    rw [htake fence head hpublished]
    exact h.acked fence head hpublished hle id hid
  · intro fence head hpublished id hid
    rw [hhead] at hpublished
    rw [htake fence head hpublished] at hid
    exact hcovered id (h.covered fence head hpublished id hid)

variable {session : Session} {copy : List ℕ} {lineage : ReplicationLineage}

theorem working_some {phase : Phase} (h : working writer phase = some (session, copy, lineage)) :
    writer.session = some session ∧ writer.copy = some copy ∧ writer.lineage = some lineage ∧
      session.phase = phase := by
  unfold working at h
  split at h
  · rename_i session' copy' lineage' hsession hcopy hlineage
    split at h
    · rename_i hphase
      simp only [Option.some.injEq, Prod.mk.injEq] at h
      obtain ⟨rfl, rfl, rfl⟩ := h
      exact ⟨hsession, hcopy, hlineage, hphase⟩
    · cases h
  · cases h

/-- A command in progress, with what holds of it. -/
theorem Sound.working (h : Sound root s la) {phase : Phase}
    (hworking : working (s.writers w) phase = some (session, copy, lineage)) :
    (s.writers w).session = some session ∧ (s.writers w).copy = some copy ∧
      (s.writers w).lineage = some lineage ∧ session.phase = phase ∧
      SessionOk root s la session lineage copy ∧ HeldBy s lineage.lineageFence w := by
  obtain ⟨hsession, hcopy, hlineage, hphase⟩ := working_some hworking
  obtain ⟨lineage', copy', hlineage', hcopy', hok⟩ := (h.writers w).session session hsession
  obtain rfl := Option.some.inj (hlineage.symm.trans hlineage')
  obtain rfl := Option.some.inj (hcopy.symm.trans hcopy')
  obtain ⟨hle, hheld⟩ := (h.writers w).owned lineage hlineage
  exact ⟨hsession, hcopy, hlineage, hphase, hok, hheld _ (le_refl _) hle⟩

theorem sound_commit (h : Sound root s la) (w : ℕ) : Sound root (stepCommit s w) la := by
  unfold stepCommit
  simp only
  split
  · rename_i session copy hsession hcopy
    have hw := h.writers w
    refine ⟨writersOk_of_actor h.writers rfl List.prefix_rfl (fun _ hs => hs)
      (fun _ _ _ => ⟨rfl, rfl⟩) rfl ?_, ?_⟩
    · refine ⟨?_, hw.owned, hw.unstarted, ?_, hw.restored, ?_, ?_⟩
      · intro hnone
        cases hnone
      · intro lineage copy' hlineage hcopy'
        obtain rfl := Option.some.inj hcopy'
        exact (hw.replicated lineage copy hlineage hcopy).trans (List.prefix_append _ _)
      · intro copy' hcopy' hrecent id hid
        obtain rfl := Option.some.inj hcopy'
        exact List.mem_append_left _ (hw.acks copy hcopy hrecent id hid)
      · intro session' hsession'
        obtain ⟨lineage, copy', hlineage, hcopy', hok⟩ := hw.session session' hsession'
        obtain rfl := Option.some.inj (hcopy.symm.trans hcopy')
        refine ⟨lineage, _, hlineage, rfl, ?_⟩
        -- What the sync marked lies in the replica, hence in the copy before.
        have hmark : session'.phase ≠ .isOpen →
            (copy ++ [s.nextCommit]).take session'.markLen = copy.take session'.markLen := by
          intro hphase
          have hle := (hok.marked hphase).1
          have hlength := (hw.replicated lineage copy hlineage hcopy).length_le
          exact List.take_append_of_le_length (by omega)
        refine ⟨hok.started, hok.fence, hok.unheaded, ?_, ?_, hok.confirmed⟩
        · intro hphase
          rw [hmark hphase]
          exact hok.marked hphase
        · intro hphase
          have hopen : session'.phase ≠ .isOpen := by
            rcases hphase with hphase | hphase <;> simp [hphase]
          rw [hmark hopen]
          exact hok.headed hphase
    · refine h.lineages.grow h.lineages.fresh (fun _ => rfl) (fun _ hs => hs) (fun _ hc => hc)
        (fun _ => List.prefix_rfl) rfl ?_
      intro id hid
      refine hid.actor rfl (fun _ hm => hm) (fun _ hm => Or.inl hm) ?_
      intro session' hsession' id' hid'
      refine Or.inr (Or.inr ⟨w, session', ?_, hid'⟩)
      simpa [World.setWriter] using hsession'
  · exact h

/-- A replica that grows along its writer's copy. -/
theorem sound_setReplica (h : Sound root s la) {replica : List ℕ}
    (hlineage : (s.writers w).lineage = some lineage) (hcopy : (s.writers w).copy = some copy)
    (hgrown : s.replicaOf lineage.lineageFence <+: replica) (hwithin : replica <+: copy) :
    Sound root (s.setReplica lineage.lineageFence replica) la := by
  have hw := h.writers w
  have hheld : HeldBy s lineage.lineageFence w :=
    (hw.owned lineage hlineage).2 _ (le_refl _) (hw.owned lineage hlineage).1
  have hreplica : ∀ fence,
      s.replicaOf fence <+: (s.setReplica lineage.lineageFence replica).replicaOf fence := by
    intro fence
    rw [replicaOf_setReplica]
    split
    · rename_i heq
      rw [heq]
      exact hgrown
    · exact List.prefix_rfl
  have hupdate : (s.setReplica lineage.lineageFence replica).writers =
      Function.update s.writers w (s.writers w) := (Function.update_eq_self w s.writers).symm
  refine ⟨writersOk_of_actor h.writers hupdate List.prefix_rfl (fun _ hs => hs) ?_ rfl ?_, ?_⟩
  · intro fence hnot _
    refine ⟨rfl, ?_⟩
    rw [replicaOf_setReplica, if_neg]
    intro heq
    exact hnot (heq ▸ hheld)
  · refine ⟨hw.uncopied, hw.owned, hw.unstarted, ?_, hw.restored, hw.acks, ?_⟩
    · intro lineage' copy' hlineage' hcopy'
      obtain rfl := Option.some.inj (hlineage.symm.trans hlineage')
      obtain rfl := Option.some.inj (hcopy.symm.trans hcopy')
      rw [replicaOf_setReplica, if_pos rfl]
      exact hwithin
    · intro session hsession
      obtain ⟨lineage', copy', hlineage', hcopy', hok⟩ := hw.session session hsession
      refine ⟨lineage', copy', hlineage', hcopy', ?_⟩
      refine ⟨hok.started, hok.fence, hok.unheaded, ?_, hok.headed, hok.confirmed⟩
      intro hphase
      obtain ⟨hle, hacked⟩ := hok.marked hphase
      exact ⟨le_trans hle (hreplica _).length_le, hacked⟩
  · refine h.lineages.grow ?_ (fun _ => rfl) (fun _ hs => hs) (fun _ hc => hc) hreplica rfl ?_
    · intro fence hlt
      obtain ⟨hrecords, hempty⟩ := h.lineages.fresh fence hlt
      refine ⟨hrecords, ?_⟩
      rw [replicaOf_setReplica, if_neg, hempty]
      intro heq
      have hle := hheld.le_maxFence
      have hlt' : s.maxFence < fence := hlt
      omega
    · exact fun id hid => hid

theorem sound_upload (h : Sound root s la) (w k : ℕ) : Sound root (stepUpload root s w k) la := by
  unfold stepUpload
  split
  · rename_i copy lineage hcopy hlineage
    simp only
    split
    · refine sound_setReplica h hlineage hcopy ?_ (List.take_prefix _ _)
      have hwithin := (h.writers w).replicated lineage copy hlineage hcopy
      rw [List.prefix_take_iff]
      refine ⟨hwithin, ?_⟩
      have hlength := hwithin.length_le
      omega
    · exact h
  · exact h

/-- A writer's session changes, and nothing else. -/
theorem WriterOk.setSession (h : WriterOk root s la w writer) {session : Option Session}
    (hsession : ∀ next, session = some next → ∃ lineage copy, writer.lineage = some lineage ∧
      writer.copy = some copy ∧ SessionOk root s la next lineage copy) :
    WriterOk root s la w { writer with session := session } :=
  ⟨h.uncopied, h.owned, h.unstarted, h.replicated, h.restored, h.acks, hsession⟩

/-- A command goes on: what its session had headed stays headed. -/
theorem sound_setSession (h : Sound root s la) {next : Session}
    (hsession : (s.writers w).session = some session)
    (hlineage : (s.writers w).lineage = some lineage) (hcopy : (s.writers w).copy = some copy)
    (hok : SessionOk root s la next lineage copy) (hheaded : next.headed = session.headed) :
    Sound root (s.setWriter w { s.writers w with session := some next }) la := by
  have hactor : WriterOk root s la w { s.writers w with session := some next } := by
    apply (h.writers w).setSession
    intro other hother
    obtain rfl := Option.some.inj hother
    exact ⟨lineage, copy, hlineage, hcopy, hok⟩
  refine ⟨writersOk_of_actor h.writers rfl List.prefix_rfl (fun _ hs => hs)
    (fun _ _ _ => ⟨rfl, rfl⟩) rfl
    (hactor.frame List.prefix_rfl (fun _ hs => hs) (fun _ _ => ⟨rfl, rfl⟩) rfl), ?_⟩
  refine h.lineages.grow h.lineages.fresh (fun _ => rfl) (fun _ hs => hs) (fun _ hc => hc)
    (fun _ => List.prefix_rfl) rfl ?_
  intro id hid
  refine hid.actor rfl (fun _ hm => hm) (fun _ hm => Or.inl hm) ?_
  intro old hold id' hid'
  obtain rfl := Option.some.inj (hsession.symm.trans hold)
  exact Or.inr (Or.inr ⟨w, next, congrArg Writer.session (writers_setWriter _), hheaded ▸ hid'⟩)

theorem sound_sync (h : Sound root s la) (w : ℕ) : Sound root (stepSync s w) la := by
  unfold stepSync
  split
  · rename_i session copy lineage hworking
    obtain ⟨hsession, hcopy, hlineage, hphase, hok, hheld⟩ := h.working hworking
    have hwithin := (h.writers w).replicated lineage copy hlineage hcopy
    have hreplica : ((s.setReplica lineage.lineageFence copy).replicaOf lineage.lineageFence) =
        copy := by
      rw [replicaOf_setReplica, if_pos rfl]
    have huploaded := sound_setReplica h hlineage hcopy hwithin List.prefix_rfl
    refine sound_setSession huploaded hsession hlineage hcopy ?_ rfl
    refine ⟨hok.started, hok.fence, fun _ => hok.unheaded (Or.inl hphase), ?_, ?_, ?_⟩
    · intro _
      refine ⟨?_, ?_⟩
      · rw [hreplica]
      · intro hle id hid
        rw [List.take_length]
        exact (h.writers w).acks copy hcopy (Or.inl ⟨lineage, hlineage, hok.started, hle⟩) id hid
    · intro hnext
      rcases hnext with hnext | hnext <;> cases hnext
    · intro hnext
      cases hnext
  · exact h

theorem SessionOk.take_replica (h : SessionOk root s la session lineage copy)
    (hphase : session.phase ≠ .isOpen) (hwithin : s.replicaOf lineage.lineageFence <+: copy) :
    (s.replicaOf lineage.lineageFence).take session.markLen = copy.take session.markLen :=
  (take_of_grown hwithin (h.marked hphase).1).symm

/-- Records that are published at the fence of a writer's lineage, with its
session, leave the writers as they are when the start stays. -/
theorem writersOk_publish (h : ∀ w, WriterOk root s la w (s.writers w)) (hheld : HeldBy s fence w)
    {records : LineageRecords} (hstart : records.started = (s.recordsOf fence).started)
    (hlineage : (s.writers w).lineage = some lineage) (hcopy : (s.writers w).copy = some copy)
    (hok : SessionOk root (s.setRecords fence records) la session lineage copy) :
    ∀ w', WriterOk root
      ((s.setRecords fence records).setWriter w { s.writers w with session := some session }) la w'
      (((s.setRecords fence records).setWriter w
        { s.writers w with session := some session }).writers w') := by
  have hstarted : ∀ other, isStarted root (s.setRecords fence records) other =
      isStarted root s other := by
    intro other
    apply isStarted_congr
    rw [recordsOf_setRecords]
    split
    · rename_i heq
      rw [heq, hstart]
    · rfl
  have hw := h w
  refine writersOk_of_actor h rfl List.prefix_rfl (fun other hs => (hstarted other).trans hs) ?_ rfl
    ?_
  · intro other hnot _
    refine ⟨?_, rfl⟩
    rw [recordsOf_setWriter, recordsOf_setRecords, if_neg]
    intro heq
    exact hnot (heq ▸ hheld)
  · refine ⟨hw.uncopied, hw.owned, ?_, hw.replicated, ?_, ?_, ?_⟩
    · intro lineage' hlineage' other hlow hhigh
      exact (hstarted other).trans (hw.unstarted lineage' hlineage' other hlow hhigh)
    · intro state hstate
      obtain ⟨hs, hheld'⟩ := hw.restored state hstate
      exact ⟨(hstarted _).trans hs, hheld'⟩
    · intro copy' hcopy' hrecent
      apply hw.acks copy' hcopy'
      rcases hrecent with ⟨lineage', hlineage', hs, hle⟩ | hstate
      · exact Or.inl ⟨lineage', hlineage', (hstarted _).symm.trans hs, hle⟩
      · exact Or.inr hstate
    · intro next hnext
      obtain rfl := Option.some.inj hnext
      exact ⟨lineage, copy, hlineage, hcopy, hok.started, hok.fence, hok.unheaded, hok.marked,
        hok.headed, hok.confirmed⟩

/-- Publishing a head: it covers what the sync marked. -/
theorem sound_publishHead (h : Sound root s la) (w : ℕ) :
    Sound root (stepPublishHead s w) la := by
  unfold stepPublishHead
  split
  · rename_i session copy lineage hworking
    obtain ⟨hsession, hcopy, hlineage, hphase, hok, hheld⟩ := h.working hworking
    have hopen : session.phase ≠ .isOpen := by simp [hphase]
    obtain ⟨hmark, hacked⟩ := hok.marked hopen
    have htake := hok.take_replica hopen
      ((h.writers w).replicated lineage copy hlineage hcopy)
    simp only
    generalize hhead : (⟨lineage.lineageFence, (s.replicaOf lineage.lineageFence).length,
      session.fence, ⟨session.markLen,
        if session.markLen = 0 then none else copy[session.markLen - 1]?⟩⟩ : LineageHead) = head
    have hcursor : head.mark.cursor = session.markLen := by rw [← hhead]
    have hpublished : ((s.setRecords lineage.lineageFence
        { s.recordsOf lineage.lineageFence with head := some head }).recordsOf
          lineage.lineageFence) =
        { s.recordsOf lineage.lineageFence with head := some head } := by
      rw [recordsOf_setRecords, if_pos rfl]
    refine ⟨writersOk_publish h.writers hheld ?_ hlineage hcopy ?_, ?_⟩
    · rfl
    · refine ⟨?_, hok.fence, ?_, fun _ => ⟨hmark, hacked⟩, ?_, ?_⟩
      · exact (isStarted_congr (by rw [hpublished])).trans hok.started
      · intro hnext
        rcases hnext with hnext | hnext <;> cases hnext
      · intro _
        exact ⟨rfl, head, by rw [hpublished], hcursor⟩
      · intro hnext
        cases hnext
    · have hother : ∀ fence, fence ≠ lineage.lineageFence →
          (s.setRecords lineage.lineageFence
            { s.recordsOf lineage.lineageFence with head := some head }).recordsOf fence =
          s.recordsOf fence := by
        intro fence hne
        rw [recordsOf_setRecords, if_neg hne]
      refine ⟨?_, ?_, ?_, ?_, ?_⟩
      · intro fence hlt
        have hne : fence ≠ lineage.lineageFence := by
          intro heq
          have hle := hheld.le_maxFence
          have hlt' : s.maxFence < fence := hlt
          omega
        rw [recordsOf_setWriter, hother fence hne]
        exact h.lineages.fresh fence hlt
      · intro fence found hfound
        by_cases heq : fence = lineage.lineageFence
        · rw [heq, recordsOf_setWriter, hpublished] at hfound
          obtain rfl := Option.some.inj hfound
          refine ⟨?_, ?_, ?_, ?_⟩
          · rw [heq]
            exact (isStarted_congr (by rw [recordsOf_setWriter, hpublished])).trans hok.started
          · rw [← hhead, heq]
          · rw [hcursor, ← hhead]
            exact hmark
          · rw [hcursor, heq]
            exact hmark
        · rw [recordsOf_setWriter, hother fence heq] at hfound
          obtain ⟨hs, hrest⟩ := h.lineages.heads fence found hfound
          refine ⟨?_, hrest⟩
          exact (isStarted_congr (by rw [recordsOf_setWriter, hother fence heq])).trans hs
      · apply h.lineages.ackedOn.imp_right
        intro hcomplete
        by_cases heq : la = lineage.lineageFence
        · have hfence : head.fence = la := by rw [← hhead, heq]
          refine ⟨?_, ?_, head, ?_, hfence⟩
          · rw [heq]
            exact (isStarted_congr (by rw [recordsOf_setWriter, hpublished])).trans hok.started
          · rw [heq, recordsOf_setWriter, hpublished, ← heq]
            exact hcomplete.confirmed
          · rw [heq, recordsOf_setWriter, hpublished]
        · refine ⟨?_, ?_, ?_⟩
          · exact (isStarted_congr (by rw [recordsOf_setWriter, hother la heq])).trans hcomplete.started
          · rw [recordsOf_setWriter, hother la heq]
            exact hcomplete.confirmed
          · rw [recordsOf_setWriter, hother la heq]
            exact hcomplete.head
      · intro fence found hfound hle id hid
        by_cases heq : fence = lineage.lineageFence
        · rw [heq, recordsOf_setWriter, hpublished] at hfound
          obtain rfl := Option.some.inj hfound
          rw [heq, replicaOf_setWriter, replicaOf_setRecords, hcursor, htake]
          exact hacked (heq ▸ hle) id hid
        · rw [recordsOf_setWriter, hother fence heq] at hfound
          exact h.lineages.acked fence found hfound hle id hid
      · intro fence found hfound id hid
        by_cases heq : fence = lineage.lineageFence
        · rw [heq, recordsOf_setWriter, hpublished] at hfound
          obtain rfl := Option.some.inj hfound
          rw [heq, replicaOf_setWriter, replicaOf_setRecords, hcursor, htake] at hid
          exact Or.inr (Or.inr ⟨w, _, congrArg Writer.session (writers_setWriter _), hid⟩)
        · rw [recordsOf_setWriter, hother fence heq] at hfound
          refine (h.lineages.covered fence found hfound id hid).actor rfl (fun _ hm => hm)
            (fun _ hm => Or.inl hm) ?_
          intro old hold id' hid'
          obtain rfl := Option.some.inj (hsession.symm.trans hold)
          rw [hok.unheaded (Or.inr hphase)] at hid'
          cases hid'
  · exact h

/-- Publishing a confirmation. -/
theorem sound_publishConfirmed (h : Sound root s la) (w : ℕ) :
    Sound root (stepPublishConfirmed s w) la := by
  unfold stepPublishConfirmed
  split
  · rename_i session copy lineage hworking
    obtain ⟨hsession, hcopy, hlineage, hphase, hok, hheld⟩ := h.working hworking
    simp only
    generalize (s.recordsOf lineage.lineageFence).confirmed.getD
      ⟨lineage.lineageFence, session.txid⟩ = confirmed
    have hrecords : ∀ fence,
        ((s.setRecords lineage.lineageFence
          { s.recordsOf lineage.lineageFence with confirmed := some confirmed }).recordsOf
            fence).started = (s.recordsOf fence).started ∧
        ((s.setRecords lineage.lineageFence
          { s.recordsOf lineage.lineageFence with confirmed := some confirmed }).recordsOf
            fence).head = (s.recordsOf fence).head ∧
        ((s.recordsOf fence).confirmed ≠ none ∨ fence = lineage.lineageFence →
          ((s.setRecords lineage.lineageFence
            { s.recordsOf lineage.lineageFence with confirmed := some confirmed }).recordsOf
              fence).confirmed ≠ none) := by
      intro fence
      rw [recordsOf_setRecords]
      split
      · rename_i heq
        subst heq
        exact ⟨rfl, rfl, fun _ hnone => by cases hnone⟩
      · rename_i hne
        exact ⟨rfl, rfl, fun hor => hor.resolve_right hne⟩
    refine ⟨writersOk_publish h.writers hheld ?_ hlineage hcopy ?_, ?_⟩
    · rfl
    · refine ⟨?_, hok.fence, ?_, fun _ => hok.marked (by simp [hphase]), ?_, ?_⟩
      · exact (isStarted_congr (hrecords _).1).trans hok.started
      · intro hnext
        rcases hnext with hnext | hnext <;> cases hnext
      · intro _
        obtain ⟨hheaded, head, hhead, hcursor⟩ := hok.headed (Or.inl hphase)
        exact ⟨hheaded, head, (hrecords _).2.1.trans hhead, hcursor⟩
      · intro _
        exact (hrecords _).2.2 (Or.inr rfl)
    · refine h.lineages.grow ?_ (fun fence => (hrecords fence).2.1)
        (fun fence hs => (isStarted_congr (hrecords fence).1).trans hs)
        (fun fence hc => (hrecords fence).2.2 (Or.inl hc)) (fun _ => List.prefix_rfl) rfl ?_
      · intro fence hlt
        have hne : fence ≠ lineage.lineageFence := by
          intro heq
          have hle := hheld.le_maxFence
          have hlt' : s.maxFence < fence := hlt
          omega
        rw [recordsOf_setWriter, recordsOf_setRecords, if_neg hne]
        exact h.lineages.fresh fence hlt
      · intro id hid
        refine hid.actor rfl (fun _ hm => hm) (fun _ hm => Or.inl hm) ?_
        intro old hold id' hid'
        obtain rfl := Option.some.inj (hsession.symm.trans hold)
        exact Or.inr (Or.inr ⟨w, _, congrArg Writer.session (writers_setWriter _), hid'⟩)
  · exact h

/-- A command that ends without an acknowledgement exposes what it headed. -/
theorem sound_endUnacknowledged (h : Sound root s la)
    (hsession : (s.writers w).session = some session) :
    Sound root (endUnacknowledged s w session) la := by
  have hactor : WriterOk root s la w { s.writers w with session := none } :=
    (h.writers w).setSession (fun _ hnone => by cases hnone)
  refine ⟨writersOk_of_actor h.writers rfl List.prefix_rfl (fun _ hs => hs)
    (fun _ _ _ => ⟨rfl, rfl⟩) rfl
    (hactor.frame List.prefix_rfl (fun _ hs => hs) (fun _ _ => ⟨rfl, rfl⟩) rfl), ?_⟩
  refine h.lineages.grow h.lineages.fresh (fun _ => rfl) (fun _ hs => hs) (fun _ hc => hc)
    (fun _ => List.prefix_rfl) rfl ?_
  intro id hid
  refine hid.actor rfl (fun _ hm => hm)
    (fun _ hm => Or.inl (Finset.mem_union_left _ hm)) ?_
  intro old hold id' hid'
  obtain rfl := Option.some.inj (hsession.symm.trans hold)
  by_cases hacked : id' ∈ s.acked
  · exact Or.inl hacked
  · refine Or.inr (Or.inl (Finset.mem_union_right _ ?_))
    exact Finset.mem_filter.mpr ⟨List.mem_toFinset.mpr hid', hacked⟩

theorem sound_crash (h : Sound root s la) (w : ℕ) : Sound root (stepCrash s w) la := by
  unfold stepCrash
  split
  · rename_i session hsession
    exact sound_endUnacknowledged h hsession
  · exact h

theorem highest_started (h : Sound root s la) (hlineage : (s.writers w).lineage = some lineage)
    (hok : SessionOk root s la session lineage copy) (hfence : session.fence = s.maxFence)
    (hstarted : isStarted root s fence = true) : fence ≤ lineage.lineageFence := by
  by_contra hlt
  have hle := le_maxFence_of_started h.lineages hstarted
  have hlast := hok.fence
  have hnot := (h.writers w).unstarted lineage hlineage fence (by omega) (by omega)
  rw [hnot] at hstarted
  cases hstarted

theorem acked_in_copy (h : Sound root s la) (hlineage : (s.writers w).lineage = some lineage)
    (hok : SessionOk root s la session lineage copy) (hfence : session.fence = s.maxFence)
    (hphase : session.phase = .confirmed) : ∀ id ∈ s.acked, id ∈ copy.take session.markLen := by
  intro id hid
  rcases h.lineages.ackedOn with hnone | hcomplete
  · rw [hnone] at hid
    cases hid
  · have hle := highest_started h hlineage hok hfence hcomplete.started
    exact (hok.marked (by simp [hphase])).2 hle id hid

/-- **An acknowledgement.**  Every other writer's lineage, and the lineage every
other copy was restored from, is older than the one acknowledged on. -/
theorem sound_ack (h : Sound root s la)
    (hworking : working (s.writers w) .confirmed = some (session, copy, lineage))
    (hfence : session.fence = s.maxFence) :
    Sound root
      { s.setWriter w
          { s.writers w with
            copyState := some ⟨root.value, lineage.lineageFence, session.txid⟩
            session := none } with
        acked := s.acked ∪ session.headed.toFinset
        exposed := s.exposed \ session.headed.toFinset } lineage.lineageFence := by
  obtain ⟨hsession, hcopy, hlineage, hphase, hok, hheld⟩ := h.working hworking
  have hw := h.writers w
  obtain ⟨hheaded, head, hhead, hcursor⟩ := hok.headed (Or.inr hphase)
  have hopen : session.phase ≠ .isOpen := by simp [hphase]
  have htake := hok.take_replica hopen (hw.replicated lineage copy hlineage hcopy)
  have hall : ∀ id ∈ s.acked ∪ session.headed.toFinset, id ∈ copy.take session.markLen := by
    intro id hid
    rcases Finset.mem_union.mp hid with hid | hid
    · exact acked_in_copy h hlineage hok hfence hphase id hid
    · rw [← hheaded]
      exact List.mem_toFinset.mp hid
  have hlatest : ∀ fence, isStarted root s fence = true → lineage.lineageFence ≤ fence →
      fence = lineage.lineageFence :=
    fun fence hs hle => le_antisymm (highest_started h hlineage hok hfence hs) hle
  have hspan : ∀ fence, lineage.lineageFence ≤ fence → fence ≤ s.maxFence → HeldBy s fence w := by
    intro fence hlow hhigh
    have hlast := hok.fence
    exact (hw.owned lineage hlineage).2 fence hlow (by omega)
  refine ⟨?_, ?_⟩
  · intro w'
    by_cases hsame : w' = w
    · subst hsame
      simp only [World.setWriter, Function.update_self]
      refine ⟨?_, hw.owned, hw.unstarted, hw.replicated, ?_, ?_, ?_⟩
      · intro hnone
        exact absurd (hcopy.symm.trans hnone) (Option.some_ne_none copy)
      · intro state hstate
        obtain rfl := Option.some.inj hstate
        exact ⟨hok.started, Or.inl hheld⟩
      · intro copy' hcopy' _ id hid
        obtain rfl := Option.some.inj (hcopy.symm.trans hcopy')
        exact List.mem_of_mem_take (hall id hid)
      · intro next hnext
        cases hnext
    · have hw' := h.writers w'
      have hforeign : ∀ fence, lineage.lineageFence ≤ fence → ¬ HeldBy s fence w' := by
        intro fence hle hheld'
        exact hsame (hheld'.unique (hspan fence hle hheld'.le_maxFence))
      have holder : ∀ other, (s.writers w').lineage = some other →
          ¬ lineage.lineageFence ≤ other.lineageFence := by
        intro other hother hle
        obtain ⟨hspan', hheld'⟩ := hw'.owned other hother
        exact hforeign _ hle (hheld' _ (le_refl _) hspan')
      simp only [World.setWriter, Function.update_of_ne hsame]
      refine ⟨hw'.uncopied, hw'.owned, hw'.unstarted, hw'.replicated, hw'.restored, ?_, ?_⟩
      · intro copy' hcopy' hrecent
        rcases hrecent with ⟨other, hother, hs, hle⟩ | ⟨state, hstate, hle⟩
        · exact absurd hle (holder other hother)
        · obtain ⟨hs, hheld'⟩ := hw'.restored state hstate
          have heq := hlatest _ hs hle
          rcases hheld' with hheld' | ⟨fence, hlt, hheld'⟩
          · exact absurd hheld' (hforeign _ hle)
          · exact absurd hheld' (hforeign _ (by omega))
      · intro next hnext
        obtain ⟨other, copy', hother, hcopy', hok'⟩ := hw'.session next hnext
        refine ⟨other, copy', hother, hcopy', hok'.started, hok'.fence, hok'.unheaded, ?_,
          hok'.headed, hok'.confirmed⟩
        intro hphase'
        exact ⟨(hok'.marked hphase').1, fun hle => absurd hle (holder other hother)⟩
  · refine ⟨h.lineages.fresh, h.lineages.heads, Or.inr ?_, ?_, ?_⟩
    · exact ⟨hok.started, hok.confirmed hphase, head, hhead, (h.lineages.heads _ _ hhead).2.1⟩
    · intro fence found hfound hle id hid
      obtain rfl := hlatest fence (h.lineages.heads fence found hfound).1 hle
      obtain rfl := Option.some.inj (hhead.symm.trans hfound)
      have hreplica : (s.replicaOf lineage.lineageFence).take head.mark.cursor =
          copy.take session.markLen := by
        rw [hcursor, htake]
      exact hreplica ▸ hall id hid
    · intro fence found hfound id hid
      refine (h.lineages.covered fence found hfound id hid).actor rfl
        (fun _ hm => Finset.mem_union_left _ hm) ?_ ?_
      · intro id' hm
        by_cases hnow : id' ∈ session.headed.toFinset
        · exact Or.inr (Finset.mem_union_right _ hnow)
        · exact Or.inl (Finset.mem_sdiff.mpr ⟨hm, hnow⟩)
      · intro old hold id' hid'
        obtain rfl := Option.some.inj (hsession.symm.trans hold)
        exact Or.inl (Finset.mem_union_right _ (List.mem_toFinset.mpr hid'))

theorem sound_check (h : Sound root s la) (w : ℕ) :
    ∃ la', Sound root (stepCheck root s w) la' := by
  unfold stepCheck
  split
  · rename_i session copy lineage hworking
    simp only
    split
    · rename_i hfence
      exact ⟨_, sound_ack h hworking hfence⟩
    · exact ⟨la, sound_endUnacknowledged h (h.working hworking).1⟩
  · exact ⟨la, h⟩

/-- The lineage a writer has at the fence it takes: one that begins there, or its
own, continued without a gap. -/
def NextLineage (s : World) (writer : Writer) (next : ReplicationLineage) : Prop :=
  next.lastFence = s.maxFence + 1 ∧
    (next.lineageFence = s.maxFence + 1 ∨
      ∃ lineage, writer.lineage = some lineage ∧ next.lineageFence = lineage.lineageFence ∧
        lineage.lastFence = s.maxFence)

theorem nextLineage_ok (h : Sound root s la) {next : ReplicationLineage}
    (hnext : NextLineage s (s.writers w) next) (hholders : s'.holders = s.holders ++ [w])
    (hrecords : ∀ fence ≤ s.maxFence, s'.recordsOf fence = s.recordsOf fence)
    (hstart : next.lineageFence ≤ s.maxFence → isStarted root s' (s.maxFence + 1) = false) :
    (next.lineageFence ≤ next.lastFence ∧
      ∀ fence, next.lineageFence ≤ fence → fence ≤ next.lastFence → HeldBy s' fence w) ∧
    ∀ fence, next.lineageFence < fence → fence ≤ next.lastFence →
      isStarted root s' fence = false := by
  have htaken : HeldBy s' (s.maxFence + 1) w := by
    have htake := @heldBy_takeFence s w
    exact ⟨htake.1, by rw [hholders]; exact htake.2⟩
  have hwithin : s.holders <+: s'.holders := by
    rw [hholders]
    exact List.prefix_append _ _
  obtain ⟨hlast, hfirst | ⟨lineage, hlineage, hfirst, hspan⟩⟩ := hnext
  · refine ⟨⟨by omega, ?_⟩, ?_⟩
    · intro fence hlow hhigh
      have heq : fence = s.maxFence + 1 := by omega
      rw [heq]
      exact htaken
    · intro fence hlow hhigh
      omega
  · obtain ⟨hle, hheld⟩ := (h.writers w).owned lineage hlineage
    refine ⟨⟨by omega, ?_⟩, ?_⟩
    · intro fence hlow hhigh
      by_cases heq : fence = s.maxFence + 1
      · rw [heq]
        exact htaken
      · exact (hheld fence (by omega) (by omega)).mono hwithin
    · intro fence hlow hhigh
      by_cases heq : fence = s.maxFence + 1
      · rw [heq]
        exact hstart (by omega)
      · rw [isStarted_congr (congrArg LineageRecords.started (hrecords fence (by omega)))]
        exact (h.writers w).unstarted lineage hlineage fence (by omega) (by omega)

theorem lineages_takeFence (h : LineagesOk root s la) (hmax : s'.maxFence = s.maxFence + 1)
    (hrecords : ∀ fence, fence ≠ s.maxFence + 1 → s'.recordsOf fence = s.recordsOf fence)
    (hhead : (s'.recordsOf (s.maxFence + 1)).head = none)
    (hreplica : ∀ fence, s'.replicaOf fence = s.replicaOf fence) (hacked : s'.acked = s.acked)
    (hcovered : ∀ id, Covered s id → Covered s' id) : LineagesOk root s' la := by
  have hfresh := h.fresh (s.maxFence + 1) (by omega)
  refine h.grow ?_ ?_ ?_ ?_ ?_ hacked hcovered
  · intro fence hlt
    rw [hrecords fence (by omega), hreplica]
    exact h.fresh fence (by omega)
  · intro fence
    by_cases heq : fence = s.maxFence + 1
    · rw [heq, hhead, hfresh.1]
      rfl
    · rw [hrecords fence heq]
  · intro fence hs
    have hne : fence ≠ s.maxFence + 1 := by
      have hle := le_maxFence_of_started h hs
      omega
    exact (isStarted_congr (congrArg LineageRecords.started (hrecords fence hne))).trans hs
  · intro fence hconfirmed
    have hne : fence ≠ s.maxFence + 1 := by
      intro heq
      rw [heq, hfresh.1] at hconfirmed
      exact hconfirmed rfl
    rw [hrecords fence hne]
    exact hconfirmed
  · intro fence
    rw [hreplica]

/-- A decision at the next fence gives the next lineage. -/
def DecidesNext (s : World) (writer : Writer) : LineageDecision → Prop
  | .new next => NextLineage s writer next
  | .continue next => NextLineage s writer next
  | .restart next => NextLineage s writer next
  | .conflict _ => True

theorem decidesNext (h : Sound root s la) {decision : LineageDecision}
    (hdecide : decideLineage root (s.writers w).lineage (s.maxFence + 1) = some decision) :
    DecidesNext s (s.writers w) decision := by
  unfold decideLineage at hdecide
  split at hdecide
  · cases hlineage : (s.writers w).lineage with
    | none =>
      rw [hlineage] at hdecide
      obtain rfl := Option.some.inj hdecide
      exact ⟨rfl, Or.inl rfl⟩
    | some lineage =>
      rw [hlineage] at hdecide
      simp only at hdecide
      obtain ⟨hle, hheld⟩ := (h.writers w).owned lineage hlineage
      have hpast : lineage.lastFence ≤ s.maxFence := (hheld _ hle (le_refl _)).le_maxFence
      split at hdecide
      · rename_i hsame
        omega
      · split at hdecide
        · rename_i hgapless
          obtain rfl := Option.some.inj hdecide
          exact ⟨rfl, Or.inr ⟨lineage, hlineage, rfl, by omega⟩⟩
        · split at hdecide
          · obtain rfl := Option.some.inj hdecide
            trivial
          · obtain rfl := Option.some.inj hdecide
            exact ⟨rfl, Or.inl rfl⟩
  · cases hdecide

/-- A fence is taken, and nothing else happens. -/
theorem sound_takeFence (h : Sound root s la) (w : ℕ) : Sound root (s.takeFence w) la := by
  refine ⟨?_, ?_⟩
  · intro w'
    exact (h.writers w').frame (List.prefix_append _ _) (fun _ hs => hs) (fun _ _ => ⟨rfl, rfl⟩) rfl
  · refine lineages_takeFence h.lineages (by simp [World.maxFence, World.takeFence]) (fun _ _ => rfl)
      ?_ (fun _ => rfl) rfl (fun _ hid => hid)
    rw [recordsOf_takeFence, (h.lineages.fresh _ (by omega)).1]
    rfl

theorem sound_relineage (h : Sound root s la) {next : ReplicationLineage}
    (hnext : NextLineage s (s.writers w) next) (hcopied : (s.writers w).copy ≠ none)
    (hidle : (s.writers w).session = none) :
    Sound root ((s.takeFence w).setWriter w { s.writers w with lineage := some next }) la := by
  have hw := h.writers w
  have hfresh := h.lineages.fresh (s.maxFence + 1) (by omega)
  have hunstarted : isStarted root s (s.maxFence + 1) = false := by
    unfold isStarted
    rw [hfresh.1]
    rfl
  obtain ⟨howned, hspan⟩ := @nextLineage_ok root s
    ((s.takeFence w).setWriter w { s.writers w with lineage := some next }) la w h next hnext rfl
    (fun _ _ => rfl) (fun _ => hunstarted)
  refine ⟨writersOk_of_actor h.writers rfl (List.prefix_append _ _) (fun _ hs => hs)
    (fun _ _ _ => ⟨rfl, rfl⟩) rfl ?_, ?_⟩
  · refine ⟨fun hnone => absurd hnone hcopied, ?_, ?_, ?_, ?_, ?_, ?_⟩
    · intro lineage hlineage
      obtain rfl := Option.some.inj hlineage
      exact howned
    · intro lineage hlineage
      obtain rfl := Option.some.inj hlineage
      exact hspan
    · intro lineage copy hlineage hcopy
      obtain rfl := Option.some.inj hlineage
      obtain ⟨-, hfirst | ⟨old, hold, hfirst, -⟩⟩ := hnext
      · rw [replicaOf_setWriter, replicaOf_takeFence, hfirst, hfresh.2]
        exact List.nil_prefix
      · rw [replicaOf_setWriter, replicaOf_takeFence, hfirst]
        exact hw.replicated old copy hold hcopy
    · intro state hstate
      obtain ⟨hs, hheld⟩ := hw.restored state hstate
      refine ⟨hs, ?_⟩
      rcases hheld with hheld | ⟨fence, hlt, hheld⟩
      · exact Or.inl (hheld.mono (List.prefix_append _ _))
      · exact Or.inr ⟨fence, hlt, hheld.mono (List.prefix_append _ _)⟩
    · intro copy hcopy hrecent
      apply hw.acks copy hcopy
      rcases hrecent with ⟨lineage, hlineage, hs, hle⟩ | hstate
      · obtain rfl := Option.some.inj hlineage
        obtain ⟨-, hfirst | ⟨old, hold, hfirst, -⟩⟩ := hnext
        · -- A lineage that begins at this fence was not started yet.
          have hs' : isStarted root s next.lineageFence = true := hs
          rw [hfirst, hunstarted] at hs'
          cases hs'
        · rw [hfirst] at hs hle
          exact Or.inl ⟨old, hold, hs, hle⟩
      · exact Or.inr hstate
    · intro session hsession
      exact absurd (hidle.symm.trans hsession) (by simp)
  · refine lineages_takeFence h.lineages (by simp [World.maxFence, World.takeFence, World.setWriter])
      (fun _ _ => rfl) ?_ (fun _ => rfl) rfl ?_
    · rw [recordsOf_setWriter, recordsOf_takeFence, hfresh.1]
      rfl
    · intro id hid
      refine hid.actor rfl (fun _ hm => hm) (fun _ hm => Or.inl hm) ?_
      intro session hsession
      exact absurd (hidle.symm.trans hsession) (by simp)

theorem sound_hold (h : Sound root s la) (w : ℕ) : Sound root (stepHold root s w) la := by
  unfold stepHold
  simp only
  split
  · exact h
  · exact sound_takeFence h w
  · rename_i copy decision hidle hcopy hdecide
    have hnext := decidesNext h hdecide
    have hcopied : (s.writers w).copy ≠ none := by simp [hcopy]
    cases decision with
    | new next | «continue» next | restart next => exact sound_relineage h hnext hcopied hidle
    | conflict old => exact sound_takeFence h w
  · exact h

theorem restore_current (h : LineagesOk root s la) {current : CompleteLineage}
    (hcurrent : currentLineage root s.publishedList = some current) :
    s.restore current = (s.replicaOf current.fence).take current.head.mark.cursor ∧
      (s.acked = ∅ ∨ la ≤ current.fence) ∧ ∀ id ∈ s.acked, id ∈ s.restore current := by
  obtain ⟨-, hhead, hhighest⟩ := current_some hcurrent
  obtain ⟨-, -, htxid, -⟩ := h.heads current.fence current.head hhead
  have hrestore : s.restore current =
      (s.replicaOf current.fence).take current.head.mark.cursor := by
    unfold World.restore
    rw [List.take_take, Nat.min_eq_left htxid]
  have hlatest : s.acked = ∅ ∨ la ≤ current.fence := h.ackedOn.imp_right (hhighest la)
  refine ⟨hrestore, hlatest, ?_⟩
  intro id hid
  rcases hlatest with hnone | hle
  · rw [hnone] at hid
    cases hid
  · rw [hrestore]
    exact h.acked current.fence current.head hhead hle id hid

/-- **A writer begins with every acknowledged commit**, whether its copy is
restored or found current. -/
theorem beginCopy_ok (h : Sound root s la) {state : Option LocalCopyState} {restored : Bool}
    (hbegin : beginCopy root s (s.writers w) = (copy, state, restored)) :
    (∀ id ∈ s.acked, id ∈ copy) ∧
      (∀ held, state = some held → isStarted root s held.lineageFence = true) ∧
      (restored = false → copy = (s.writers w).copy.getD [] ∧ state = (s.writers w).copyState) := by
  have hw := h.writers w
  have hkept : (∀ id ∈ s.acked, id ∈ (s.writers w).copy.getD []) →
      ((s.writers w).copy.getD [], (s.writers w).copyState, false) = (copy, state, restored) →
      (∀ id ∈ s.acked, id ∈ copy) ∧
        (∀ held, state = some held → isStarted root s held.lineageFence = true) ∧
        (restored = false →
          copy = (s.writers w).copy.getD [] ∧ state = (s.writers w).copyState) := by
    intro hacked heq
    simp only [Prod.mk.injEq] at heq
    obtain ⟨rfl, rfl, rfl⟩ := heq
    exact ⟨hacked, fun held hheld => (hw.restored held hheld).1, fun _ => ⟨rfl, rfl⟩⟩
  unfold beginCopy at hbegin
  rcases @decideLocalCopy_cases root s
      ((s.writers w).copy.map (fun _ => ⟨(s.writers w).copyState, (s.writers w).lineage⟩)) with
    ⟨hcurrent, hdecide⟩ | ⟨current, hcurrent, hdecide⟩
  · rw [hdecide] at hbegin
    refine hkept ?_ hbegin
    intro id hid
    rcases h.lineages.ackedOn with hnone | hcomplete
    · rw [hnone] at hid
      cases hid
    · exact absurd hcomplete (current_none hcurrent la)
  · obtain ⟨hrestore, hlatest, hacked⟩ := restore_current h.lineages hcurrent
    rcases hdecide with ⟨kind, hdecide⟩ | ⟨hdecide, held, hheld, hwhy⟩
    · rw [hdecide] at hbegin
      simp only [Prod.mk.injEq] at hbegin
      obtain ⟨rfl, rfl, rfl⟩ := hbegin
      refine ⟨hacked, ?_, fun hnot => by cases hnot⟩
      intro held hheld
      obtain rfl := Option.some.inj hheld
      exact (current_some hcurrent).1
    · rw [hdecide] at hbegin
      refine hkept ?_ hbegin
      intro id hid
      obtain ⟨own, hown, hpair⟩ := Option.map_eq_some_iff.mp hheld
      rw [hown, Option.getD_some]
      have hle : la ≤ current.fence := by
        apply hlatest.resolve_left
        intro hnone
        rw [hnone] at hid
        cases hid
      refine hw.acks own hown ?_ id hid
      rcases hwhy with ⟨lineage, hlineage, hlt, hnewest⟩ | ⟨state', hstate, hsame⟩
      · refine Or.inl ⟨lineage, ?_, (newest_some hnewest).1, by omega⟩
        rw [← hlineage, ← hpair]
      · refine Or.inr ⟨state', ?_, by omega⟩
        rw [← hstate, ← hpair]

theorem gapless_of_continue (h : Sound root s la) {next : ReplicationLineage}
    (hlineage : (s.writers w).lineage = some lineage)
    (hdecide : decideLineage root (some lineage) (s.maxFence + 1) = some (.continue next)) :
    lineage.lastFence = s.maxFence := by
  obtain ⟨hle, hheld⟩ := (h.writers w).owned lineage hlineage
  have hpast : lineage.lastFence ≤ s.maxFence := (hheld _ hle (le_refl _)).le_maxFence
  unfold decideLineage at hdecide
  split at hdecide
  · simp only at hdecide
    split at hdecide
    · omega
    · split at hdecide
      · omega
      · split at hdecide
        · cases hdecide
        · cases hdecide
  · cases hdecide

/-- What a begin comes to. -/
theorem begin_cases (h : Sound root s la) {begun : Begun}
    (hbegin : begin root s (s.writers w) (s.maxFence + 1) = some begun) :
    (∀ id ∈ s.acked, id ∈ begun.copy) ∧
      (∀ held, begun.copyState = some held → isStarted root s held.lineageFence = true) ∧
      NextLineage s (s.writers w) begun.lineage ∧
      ((begun.fresh = true ∧ begun.lineage.lineageFence = s.maxFence + 1) ∨
        (begun.fresh = false ∧ ∃ lineage, (s.writers w).lineage = some lineage ∧
          (s.writers w).copy = some begun.copy ∧
          begun.lineage.lineageFence = lineage.lineageFence ∧
          isStarted root s lineage.lineageFence = true)) := by
  have hw := h.writers w
  unfold begin at hbegin
  rcases hcopy : beginCopy root s (s.writers w) with ⟨copy, state, restored⟩
  rw [hcopy] at hbegin
  obtain ⟨hacked, hstate, hunrestored⟩ := beginCopy_ok h hcopy
  simp only at hbegin
  split at hbegin
  · rename_i hcontinues
    simp only [Bool.and_eq_true, Bool.not_eq_true'] at hcontinues
    obtain ⟨⟨hrestored, hrule⟩, hmay⟩ := hcontinues
    obtain ⟨lineage, hlineage, rfl⟩ := Option.map_eq_some_iff.mp hbegin
    have hstarted : isStarted root s lineage.lineageFence = true := by
      unfold mayContinueLineage at hmay
      rw [hlineage] at hmay
      simp only [Bool.and_eq_true, decide_eq_true_eq] at hmay
      exact (newest_some hmay.2).1
    have hnext : NextLineage s (s.writers w) { lineage with lastFence := s.maxFence + 1 } := by
      unfold fenceRule at hrule
      rw [hlineage] at hrule
      simp only at hrule
      split at hrule
      · rename_i next hdecide
        exact ⟨rfl, Or.inr ⟨lineage, hlineage, rfl, gapless_of_continue h hlineage hdecide⟩⟩
      · cases hrule
    refine ⟨hacked, hstate, hnext, Or.inr ⟨rfl, lineage, hlineage, ?_, rfl, hstarted⟩⟩
    rw [(hunrestored hrestored).1]
    cases hcopied : (s.writers w).copy with
    | none =>
      have hnone := (hw.uncopied hcopied).1
      rw [hlineage] at hnone
      cases hnone
    | some own => rfl
  · obtain ⟨lineage, hrestart, rfl⟩ := Option.map_eq_some_iff.mp hbegin
    unfold restartLineage at hrestart
    split at hrestart
    · obtain rfl := Option.some.inj hrestart
      exact ⟨hacked, hstate, ⟨rfl, Or.inl rfl⟩, Or.inl ⟨rfl, rfl⟩⟩
    · cases hrestart

theorem sound_begun (h : Sound root s la) {begun : Begun}
    (hbegin : begin root s (s.writers w) (s.maxFence + 1) = some begun)
    (hidle : (s.writers w).session = none) {session : Option Session}
    (hwriters : s'.writers = Function.update s.writers w
      ⟨some begun.copy, begun.copyState, some begun.lineage, session⟩)
    (hholders : s'.holders = s.holders ++ [w])
    (hrecords : ∀ fence, fence ≠ s.maxFence + 1 → s'.recordsOf fence = s.recordsOf fence)
    (hhead : (s'.recordsOf (s.maxFence + 1)).head = none)
    (hfresh : begun.fresh = false → s'.recordsOf (s.maxFence + 1) = s.recordsOf (s.maxFence + 1))
    (hreplica : ∀ fence, s'.replicaOf fence = s.replicaOf fence) (hacked : s'.acked = s.acked)
    (hexposed : s'.exposed = s.exposed)
    (hsession : ∀ next, session = some next → next = ⟨s.maxFence + 1, .isOpen, 0, 0, []⟩ ∧
      (begun.fresh = true → isStarted root s' (s.maxFence + 1) = true)) : Sound root s' la := by
  obtain ⟨hcopy, hstate, hnext, hkind⟩ := begin_cases h hbegin
  have hwithin : s.holders <+: s'.holders := by
    rw [hholders]
    exact List.prefix_append _ _
  have hmax : s'.maxFence = s.maxFence + 1 := by simp [World.maxFence, hholders]
  have hlow : ∀ fence ≤ s.maxFence, s'.recordsOf fence = s.recordsOf fence :=
    fun fence hle => hrecords fence (by omega)
  have hstarted : ∀ fence, isStarted root s fence = true → isStarted root s' fence = true := by
    intro fence hs
    have hle := le_maxFence_of_started h.lineages hs
    exact (isStarted_congr (congrArg LineageRecords.started (hlow fence hle))).trans hs
  have hempty := h.lineages.fresh (s.maxFence + 1) (by omega)
  have htaken : HeldBy s' (s.maxFence + 1) w := by
    have htake := @heldBy_takeFence s w
    exact ⟨htake.1, by rw [hholders]; exact htake.2⟩
  obtain ⟨howned, hspan⟩ := nextLineage_ok h hnext hholders hlow (by
    intro hle
    rcases hkind with ⟨-, hfirst⟩ | ⟨hcontinued, -⟩
    · omega
    · rw [isStarted_congr (congrArg LineageRecords.started (hfresh hcontinued))]
      unfold isStarted
      rw [hempty.1]
      rfl)
  refine ⟨writersOk_of_actor h.writers hwriters hwithin hstarted ?_ hacked ?_, ?_⟩
  · intro fence _ hle
    exact ⟨hlow fence hle, hreplica fence⟩
  · refine ⟨(fun hnone => by cases hnone), ?_, ?_, ?_, ?_, ?_, ?_⟩
    · intro lineage hlineage
      obtain rfl := Option.some.inj hlineage
      exact howned
    · intro lineage hlineage
      obtain rfl := Option.some.inj hlineage
      exact hspan
    · intro lineage copy hlineage hcopied
      obtain rfl := Option.some.inj hlineage
      obtain rfl := Option.some.inj hcopied
      rw [hreplica]
      rcases hkind with ⟨-, hfirst⟩ | ⟨-, old, hold, hcopied, hfirst, -⟩
      · rw [hfirst, hempty.2]
        exact List.nil_prefix
      · rw [hfirst]
        exact (h.writers w).replicated old _ hold hcopied
    · intro held hheld
      have hs := hstate held hheld
      have hle := le_maxFence_of_started h.lineages hs
      exact ⟨hstarted _ hs, Or.inr ⟨s.maxFence + 1, by omega, htaken⟩⟩
    · intro copy hcopied _ id hid
      obtain rfl := Option.some.inj hcopied
      rw [hacked] at hid
      exact hcopy id hid
    · intro next hnext'
      obtain ⟨rfl, hstart⟩ := hsession next hnext'
      refine ⟨begun.lineage, begun.copy, rfl, rfl, ?_, hnext.1.symm, fun _ => rfl, ?_, ?_, ?_⟩
      · rcases hkind with ⟨hnew, hfirst⟩ | ⟨-, old, -, -, hfirst, hs⟩
        · rw [hfirst]
          exact hstart hnew
        · rw [hfirst]
          exact hstarted _ hs
      · exact fun hopen => absurd rfl hopen
      · intro hphase
        rcases hphase with hphase | hphase <;> cases hphase
      · intro hphase
        cases hphase
  · apply lineages_takeFence h.lineages hmax hrecords hhead hreplica hacked
    intro id hid
    refine hid.actor hwriters (fun _ hm => by rw [hacked]; exact hm)
      (fun _ hm => Or.inl (by rw [hexposed]; exact hm)) ?_
    intro old hold
    exact absurd (hidle.symm.trans hold) (by simp)

theorem sound_begin (h : Sound root s la) (w : ℕ) (crashes : Bool) :
    Sound root (stepBegin root s w crashes) la := by
  unfold stepBegin
  simp only
  split
  · rename_i begun hidle hbegin
    have hempty := h.lineages.fresh (s.maxFence + 1) (by omega)
    split
    · refine sound_begun h hbegin hidle rfl rfl (fun _ _ => rfl) ?_ (fun _ => rfl) (fun _ => rfl) rfl
        rfl (fun _ hnone => by cases hnone)
      rw [recordsOf_setWriter, recordsOf_takeFence, hempty.1]
      rfl
    · split
      · rename_i hfresh
        refine sound_begun h hbegin hidle rfl rfl ?_ ?_ ?_ (fun _ => rfl) rfl rfl ?_
        · intro fence hne
          rw [recordsOf_setWriter, recordsOf_setRecords, if_neg hne]
          rfl
        · rw [recordsOf_setWriter, recordsOf_setRecords, if_pos rfl, hempty.1]
          rfl
        · intro hnot
          rw [hfresh] at hnot
          cases hnot
        · intro next hnext
          refine ⟨(Option.some.inj hnext).symm, ?_⟩
          intro _
          unfold isStarted
          rw [recordsOf_setWriter, recordsOf_setRecords, if_pos rfl]
          exact root.matchesRoot_value
      · rename_i hfresh
        refine sound_begun h hbegin hidle rfl rfl (fun _ _ => rfl) ?_ (fun _ => rfl) (fun _ => rfl)
          rfl rfl ?_
        · rw [recordsOf_setWriter, recordsOf_takeFence, hempty.1]
          rfl
        · intro next hnext
          exact ⟨(Option.some.inj hnext).symm, fun hnew => absurd hnew hfresh⟩
  · exact h

/-- **One action keeps the invariant.** -/
theorem sound_step (h : Sound root s la) (action : Action) :
    ∃ la', Sound root (step root s action) la' := by
  cases action with
  | begin w => exact ⟨la, sound_begin h w false⟩
  | beginCrash w => exact ⟨la, sound_begin h w true⟩
  | commit w => exact ⟨la, sound_commit h w⟩
  | upload w k => exact ⟨la, sound_upload h w k⟩
  | sync w => exact ⟨la, sound_sync h w⟩
  | publishHead w => exact ⟨la, sound_publishHead h w⟩
  | publishConfirmed w => exact ⟨la, sound_publishConfirmed h w⟩
  | check w => exact sound_check h w
  | crash w => exact ⟨la, sound_crash h w⟩
  | hold w => exact ⟨la, sound_hold h w⟩

/-- **Every run keeps it.** -/
theorem sound_run (root : ReplicaRoot) (actions : List Action) :
    ∃ la, Sound root (run root actions) la := by
  induction actions using List.reverseRecOn with
  | nil => exact ⟨0, sound_start root⟩
  | append_singleton actions action ih =>
    obtain ⟨la, hsound⟩ := ih
    unfold run
    rw [List.foldl_append]
    exact sound_step hsound action

/-- **A fresh copy holds every acknowledged commit**, and none that no published
head covered. -/
theorem fresh_copy_holds_acked (root : ReplicaRoot) (actions : List Action) :
    (∀ id ∈ (run root actions).acked, id ∈ (freshRestore root (run root actions)).getD []) ∧
      ∀ restored, freshRestore root (run root actions) = some restored →
        ∀ id ∈ restored, Covered (run root actions) id := by
  obtain ⟨la, h⟩ := sound_run root actions
  generalize run root actions = s at h
  cases hcurrent : currentLineage root s.publishedList with
  | none =>
    have hrestore : freshRestore root s = none := by
      simp [freshRestore, decideLocalCopy, hcurrent]
    rw [hrestore]
    refine ⟨?_, fun restored hnone => by cases hnone⟩
    intro id hid
    rcases h.lineages.ackedOn with hnone | hcomplete
    · rw [hnone] at hid
      cases hid
    · exact absurd hcomplete (current_none hcurrent la)
  | some current =>
    have hrestore : freshRestore root s = some (s.restore current) := by
      simp [freshRestore, decideLocalCopy, hcurrent]
    obtain ⟨heq, -, hacked⟩ := restore_current h.lineages hcurrent
    rw [hrestore]
    refine ⟨hacked, ?_⟩
    intro restored hsome id hid
    obtain rfl := Option.some.inj hsome
    rw [heq] at hid
    exact h.lineages.covered current.fence current.head (current_some hcurrent).2.1 id hid

end Swamp.LineageWorld
