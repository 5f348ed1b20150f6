import Swamp.NetReplayPlan

/-!
# Isolated keys meet no conflict and decide none

The keys a plan lets skip writes are isolated: no other key of the feed spells
the same, lies above or lies below, and nothing of their top directory was on
disk at first.
-/

namespace Swamp

open Js MapOverlay

theorem RecordKey.nul_not_mem (key : RecordKey) : (0 : CodeUnit) ∉ key.value := by
  have hvalid := key.valid
  unfold checkRecordKey at hvalid
  intro hmem
  simp only [hmem, or_true, if_true] at hvalid
  split at hvalid
  · cases hvalid
  · split at hvalid
    · cases hvalid
    · cases hvalid

private theorem append_last_separator_inj {sep : CodeUnit} {a a' b b' : JsString} (hb : sep ∉ b)
    (hb' : sep ∉ b') (h : a ++ sep :: b = a' ++ sep :: b') : a = a' ∧ b = b' := by
  have hreverse : b.reverse ++ sep :: a.reverse = b'.reverse ++ sep :: a'.reverse := by
    simpa using congrArg List.reverse h
  obtain ⟨hbs, has⟩ := append_separator_inj (by simpa using hb) (by simpa using hb') hreverse
  exact ⟨List.reverse_injective has, List.reverse_injective hbs⟩

variable {ns : JsString} {key : RecordKey}

theorem idOf_inj {ns' : JsString} {key' : RecordKey} :
    idOf ns key.value = idOf ns' key'.value ↔ ns = ns' ∧ key = key' := by
  constructor
  · intro h
    obtain ⟨hns, hkey⟩ := append_last_separator_inj key.nul_not_mem key'.nul_not_mem h
    exact ⟨hns, RecordKey.ext_value hkey⟩
  · rintro ⟨rfl, rfl⟩
    rfl

theorem PlannedKeys.writeId_inj {id id' : JsString} {position position' : ℕ} :
    writeId id position = writeId id' position' ↔ id = id' ∧ position = position' := by
  have hnul : ∀ n : ℕ, (0 : CodeUnit) ∉ decimal n := by
    intro n h
    have hdigit := (digit_of_mem_decimal h).1
    simp at hdigit
  constructor
  · intro h
    obtain ⟨hid, hposition⟩ := append_last_separator_inj (hnul position) (hnul position') h
    exact ⟨hid, decimal_injective hposition⟩
  · rintro ⟨rfl, rfl⟩
    rfl

theorem UnicodeText.split_foldKey (text : UnicodeText) (s : JsString) :
    split (text.foldKey s) = (split s).map text.foldKey := by
  unfold UnicodeText.foldKey
  rw [text.split_toLowerCase, text.split_normalizeNFC, List.map_map]
  rfl

section Paths

variable {text : UnicodeText} (fs : FoldingFilesystem text)

theorem path_ne_nil (key : JsString) : fs.path key ≠ [] := by
  unfold FoldingFilesystem.path
  simp

theorem path_leading (key : JsString) {i : ℕ} (hi : 1 ≤ i) :
    fs.path (leading (split key) i) = (fs.path key).take i := by
  have hne : (split key).take i ≠ [] := by
    intro hnil
    rcases List.take_eq_nil_iff.mp hnil with hzero | hempty
    · omega
    · exact split_ne_nil key hempty
  have hfree : ∀ s ∈ (split key).take i, unit '/' ∉ s := fun s hs =>
    separator_not_mem_split (List.mem_of_mem_take hs)
  unfold FoldingFilesystem.path leading
  rw [split_join hne hfree, List.map_take]

private theorem map_foldKey_of_map_fold {a b : List JsString}
    (h : a.map fs.fold = b.map fs.fold) : a.map text.foldKey = b.map text.foldKey := by
  induction a generalizing b with
  | nil =>
    cases b with
    | nil => rfl
    | cons y b => simp at h
  | cons x a ih =>
    cases b with
    | nil => simp at h
    | cons y b =>
      simp only [List.map_cons, List.cons.injEq] at h ⊢
      exact ⟨fs.finer x y h.1, ih h.2⟩

theorem foldKey_of_path_prefix {a b : JsString} (h : fs.path a <+: fs.path b) :
    text.foldKey a = leading (split (text.foldKey b)) (split a).length := by
  have htake : (split a).map fs.fold = ((split b).take (split a).length).map fs.fold := by
    have heq := List.prefix_iff_eq_take.mp h
    unfold FoldingFilesystem.path at heq
    rw [List.length_map] at heq
    rw [List.map_take]
    exact heq
  have hsegments : split (text.foldKey a) =
      (split (text.foldKey b)).take (split a).length := by
    rw [text.split_foldKey, text.split_foldKey, map_foldKey_of_map_fold fs htake, List.map_take]
  unfold leading
  rw [← hsegments, join_split]

end Paths

namespace PlannedKeys

variable {text : UnicodeText} (fs : FoldingFilesystem text) {self : PlannedKeys}

theorem ns_mem_of_mem_keysOf (h : key ∈ self.keysOf ns) : ns ∈ self.keys.keys := by
  unfold keysOf at h
  cases hlookup : self.keys.lookup ns with
  | none => simp [hlookup] at h
  | some keys => exact Finmap.mem_keys.mpr (Finmap.mem_iff.mpr ⟨keys, hlookup⟩)

theorem mem_prefixed (hns : ns ∈ self.keys.keys) (h : key ∈ sameSpelling text (self.keysOf ns) ∨
      ∃ other ∈ self.keysOf ns, key ∈ prefixesOf text (self.keysOf ns) other) :
    idOf ns key.value ∈ self.prefixed text := by
  unfold prefixed
  refine Finset.mem_biUnion.mpr ⟨ns, hns, Finset.mem_image.mpr ⟨key, ?_, rfl⟩⟩
  rcases h with hsame | ⟨other, hother, hmem⟩
  · exact Finset.mem_union_left _ hsame
  · exact Finset.mem_union_right _ (Finset.mem_biUnion.mpr ⟨other, hother, hmem⟩)

/-- A key above another makes both prefixed. -/
theorem prefixed_of_path_prefix {a b : RecordKey} (ha : a ∈ self.keysOf ns)
    (hb : b ∈ self.keysOf ns) (hne : a ≠ b) (h : fs.path a.value <+: fs.path b.value) :
    idOf ns a.value ∈ self.prefixed text ∧ idOf ns b.value ∈ self.prefixed text := by
  have hns := ns_mem_of_mem_keysOf ha
  have hspelled := foldKey_of_path_prefix fs h
  have hlength : (split (text.foldKey b.value)).length = (split b.value).length := by
    rw [text.split_foldKey, List.length_map]
  have hle : (split a.value).length ≤ (split b.value).length := by
    have hlen := h.length_le
    unfold FoldingFilesystem.path at hlen
    simpa using hlen
  by_cases hlt : (split a.value).length < (split b.value).length
  · have hmem : a ∈ spelled text (self.keysOf ns)
        (leading (split (text.foldKey b.value)) (split a.value).length) :=
      Finset.mem_filter.mpr ⟨ha, hspelled⟩
    have hpos : 1 ≤ (split a.value).length :=
      List.length_pos_iff.mpr (split_ne_nil a.value)
    have hprefixes : ∀ key, key = b ∨ key = a →
        key ∈ prefixesOf text (self.keysOf ns) b := by
      intro key hkey
      unfold prefixesOf
      refine Finset.mem_biUnion.mpr ⟨(split a.value).length, ?_, ?_⟩
      · rw [Finset.mem_range, hlength]
        exact hlt
      · rw [if_pos hpos, if_neg (Finset.ne_empty_of_mem hmem)]
        rcases hkey with rfl | rfl
        · exact Finset.mem_insert_self _ _
        · exact Finset.mem_insert_of_mem hmem
    exact ⟨mem_prefixed hns (Or.inr ⟨b, hb, hprefixes a (Or.inr rfl)⟩),
      mem_prefixed hns (Or.inr ⟨b, hb, hprefixes b (Or.inl rfl)⟩)⟩
  · -- Paths of one length: the two keys spell the same.
    have hsame : text.foldKey a.value = text.foldKey b.value := by
      have hfull : (split a.value).length = (split (text.foldKey b.value)).length := by omega
      rw [hspelled, hfull, leading, List.take_length, join_split]
    have htwo : ∀ key, key = a ∨ key = b → key ∈ sameSpelling text (self.keysOf ns) := by
      intro key hkey
      have hfold : text.foldKey key.value = text.foldKey a.value := by
        rcases hkey with rfl | rfl
        · rfl
        · exact hsame.symm
      refine Finset.mem_filter.mpr ⟨by rcases hkey with rfl | rfl <;> assumption, ?_⟩
      have hsub : ({a, b} : Finset RecordKey) ⊆
          spelled text (self.keysOf ns) (text.foldKey key.value) := by
        intro other hother
        rcases Finset.mem_insert.mp hother with rfl | hother
        · exact Finset.mem_filter.mpr ⟨ha, hfold.symm⟩
        · rw [Finset.mem_singleton.mp hother]
          exact Finset.mem_filter.mpr ⟨hb, by rw [hfold, hsame]⟩
      calc 2 = ({a, b} : Finset RecordKey).card := (Finset.card_pair hne).symm
        _ ≤ _ := Finset.card_le_card hsub
    exact ⟨mem_prefixed hns (Or.inl (htwo a (Or.inl rfl))),
      mem_prefixed hns (Or.inl (htwo b (Or.inr rfl)))⟩

end PlannedKeys

section Conflicts

variable {text : UnicodeText} (fs : FoldingFilesystem text)

/-- The keys that may skip writes, among the known ones: no other key's path
lies above or below theirs, and nothing under their top directory was on disk
at first. -/
structure Isolated (start : Disk) (known isolated : JsString → RecordKey → Prop) : Prop where
  isKnown : ∀ {ns key}, isolated ns key → known ns key
  apart : ∀ {ns key other}, isolated ns key → known ns other → other ≠ key →
    ¬ fs.path other.value <+: fs.path key.value ∧ ¬ fs.path key.value <+: fs.path other.value
  absent : ∀ {ns key}, isolated ns key → ∀ file ∈ start.keys, file.1 = ns →
    file.2.head? ≠ (fs.path key.value).head?

/-- Every file was there at first or is a known key's. -/
def Accounted (start : Disk) (known : JsString → RecordKey → Prop) (disk : Disk) : Prop :=
  ∀ file ∈ disk.keys, file ∈ start.keys ∨ ∃ key, known file.1 key ∧ file.2 = fs.path key.value

/-- Two disks with the same files, but for those of isolated keys. -/
def AgreeElsewhere (isolated : JsString → RecordKey → Prop) (disk disk' : Disk) : Prop :=
  ∀ ns path, (∀ key, isolated ns key → path ≠ fs.path key.value) →
    disk'.lookup (ns, path) = disk.lookup (ns, path)

variable {fs} {start disk disk' : Disk} {known isolated : JsString → RecordKey → Prop}

theorem Isolated.path_inj (h : Isolated fs start known isolated) {other : RecordKey}
    (hkey : isolated ns key) (hother : known ns other)
    (hpath : fs.path other.value = fs.path key.value) : other = key := by
  by_contra hne
  exact (h.apart hkey hother hne).1 (by rw [hpath])

theorem mem_keys_of_isPresentFile {key : JsString} (h : disk.isPresentFile fs ns key = true) :
    (ns, fs.path key) ∈ disk.keys :=
  Finmap.mem_keys.mpr (Finmap.lookup_isSome.mp h)

/-- **An isolated key meets no conflict.** -/
theorem conflict_isolated (h : Isolated fs start known isolated)
    (hdisk : Accounted fs start known disk) (hkey : isolated ns key) :
    disk.conflict fs ns key.value = none := by
  have habove : ¬ ((List.range' 1 ((split key.value).length - 1)).any
      (fun i => disk.isPresentFile fs ns (leading (split key.value) i)) = true) := by
    intro hany
    obtain ⟨i, hi, hpresent⟩ := List.any_eq_true.mp hany
    obtain ⟨hpos, hlt⟩ := List.mem_range'_1.mp hi
    have hfile := mem_keys_of_isPresentFile hpresent
    rw [path_leading fs key.value hpos] at hfile
    rcases hdisk _ hfile with hstart | ⟨other, hother, hpath⟩
    · apply h.absent hkey _ hstart rfl
      rw [List.head?_take, if_neg (by omega)]
    · have hgrown : fs.path other.value <+: fs.path key.value := by
        rw [← hpath]
        exact List.take_prefix _ _
      by_cases hsame : other = key
      · have hlength := congrArg List.length hpath
        rw [hsame, List.length_take] at hlength
        unfold FoldingFilesystem.path at hlength
        rw [List.length_map] at hlength
        omega
      · exact (h.apart hkey hother hsame).1 hgrown
  have hbelow : ¬ disk.hasPresentFileUnder fs ns key.value = true := by
    intro hunder
    obtain ⟨file, hfile, hns, hgrown, hne⟩ := of_decide_eq_true hunder
    rcases hdisk _ hfile with hstart | ⟨other, hother, hpath⟩
    · apply h.absent hkey _ hstart hns
      obtain ⟨rest, hrest⟩ := hgrown
      rw [← hrest]
      exact List.head?_append_of_ne_nil _ (path_ne_nil fs key.value)
    · rw [hns] at hother
      by_cases hsame : other = key
      · rw [hpath, hsame] at hne
        exact hne rfl
      · exact (h.apart hkey hother hsame).2 (by rw [← hpath]; exact hgrown)
  unfold Disk.conflict lexicalConflict
  rw [if_neg habove, if_neg hbelow]

/-- **Another key's conflicts do not depend on isolated files.** -/
theorem conflict_congr (h : Isolated fs start known isolated)
    (hagree : AgreeElsewhere fs isolated disk disk') (hknown : known ns key)
    (hother : ¬ isolated ns key) :
    disk'.conflict fs ns key.value = disk.conflict fs ns key.value := by
  have habove : ∀ i ∈ List.range' 1 ((split key.value).length - 1),
      disk'.isPresentFile fs ns (leading (split key.value) i) =
        disk.isPresentFile fs ns (leading (split key.value) i) := by
    intro i hi
    have hpos := (List.mem_range'_1.mp hi).1
    unfold Disk.isPresentFile
    rw [path_leading fs key.value hpos, hagree]
    intro other hisolated hpath
    have hne : key ≠ other := fun heq => hother (heq ▸ hisolated)
    exact (h.apart hisolated hknown hne).2 (hpath ▸ List.take_prefix _ _)
  have hfile : ∀ file : JsString × List JsString, file.1 = ns → fs.path key.value <+: file.2 →
      (file ∈ disk'.keys ↔ file ∈ disk.keys) := by
    intro file hns hgrown
    have hsame : disk'.lookup (file.1, file.2) = disk.lookup (file.1, file.2) := by
      apply hagree file.1 file.2
      intro other hisolated hpath
      rw [hns] at hisolated
      have hkey : key ≠ other := fun heq => hother (heq ▸ hisolated)
      exact (h.apart hisolated hknown hkey).1 (hpath ▸ hgrown)
    rw [Finmap.mem_keys, Finmap.mem_iff, Finmap.mem_keys, Finmap.mem_iff, hsame]
  have hbelow : disk'.hasPresentFileUnder fs ns key.value =
      disk.hasPresentFileUnder fs ns key.value := by
    unfold Disk.hasPresentFileUnder
    refine decide_eq_decide.mpr (exists_congr ?_)
    intro file
    rw [and_comm, and_comm (a := file ∈ disk.keys)]
    apply and_congr_right
    intro hplace
    exact hfile file hplace.1 hplace.2.1
  have hany : (List.range' 1 ((split key.value).length - 1)).any
      (fun i => disk'.isPresentFile fs ns (leading (split key.value) i)) =
      (List.range' 1 ((split key.value).length - 1)).any
        (fun i => disk.isPresentFile fs ns (leading (split key.value) i)) := by
    rw [Bool.eq_iff_iff, List.any_eq_true, List.any_eq_true]
    apply exists_congr
    intro i
    apply and_congr_right
    intro hi
    rw [habove i hi]
  unfold Disk.conflict lexicalConflict
  simp only [hany, hbelow]

end Conflicts

end Swamp
