import Swamp.ModelType

/-!
# The one spelling of a type is spelled so

`ModelType.create` of a normalized type gives it back.  What Unicode lowercasing
is relied on for is `LowerCasing`: a lowercased text is lower case, and a text is
lower case when the parts on both sides of a separator are.  A separator has no
case, and no letter changes with what stands beyond one.
-/

namespace Swamp

open Js

/-- The units a type's spelling replaces. -/
def isTypeSeparator (u : CodeUnit) : Bool :=
  isBlank u || u = unit ':' || u = unit '.' || u = unit '/'

/-- What is relied on of `toLowerCase`. -/
structure LowerCasing (toLowerCase : JsString → JsString) : Prop where
  idem : ∀ s, toLowerCase (toLowerCase s) = toLowerCase s
  nil : toLowerCase [] = []
  separated : ∀ a u b, isTypeSeparator u = true →
    (toLowerCase (a ++ u :: b) = a ++ u :: b ↔ toLowerCase a = a ∧ toLowerCase b = b)

theorem latinLower_lowerCasing : LowerCasing latinLower where
  idem := latinLower_idem
  nil := rfl
  separated := by
    intro a u b hu
    have hcase : latinLower [u] = [u] := by
      unfold latinLower
      rw [List.map_singleton, if_neg]
      intro hupper
      simp only [isTypeSeparator, isBlank, Bool.or_eq_true, Bool.and_eq_true, decide_eq_true_eq,
        beq_iff_eq] at hu
      rcases hu with ((hblank | rfl) | rfl) | rfl
      · omega
      · exact absurd hupper (by decide)
      · exact absurd hupper (by decide)
      · exact absurd hupper (by decide)
    have hsplit : latinLower (a ++ u :: b) = latinLower a ++ u :: latinLower b := by
      have hcons : a ++ u :: b = a ++ ([u] ++ b) := rfl
      rw [hcons]
      unfold latinLower at hcase ⊢
      rw [List.map_append, List.map_append, hcase]
      rfl
    rw [hsplit]
    constructor
    · intro h
      have hlength : (latinLower a).length = a.length := List.length_map _
      obtain ⟨ha, hb⟩ := List.append_inj h hlength
      exact ⟨ha, (List.cons.inj hb).2⟩
    · intro h
      rw [h.1, h.2]

/-- No two neighbours are both `c`. -/
def NoPair (c : CodeUnit) (s : JsString) : Prop := s.IsChain (fun a b => ¬ (a = c ∧ b = c))

variable {s : JsString} {u : CodeUnit}

theorem replaceColons_head (hu : u ≠ unit ':') (h : s.head? = some u) :
    (replaceColons s).head? = some u := by
  match s with
  | [] => cases h
  | [a] => exact h
  | a :: b :: rest =>
    have ha : a = u := Option.some.inj h
    rw [replaceColons, if_neg (fun hpair => hu (ha ▸ hpair.1))]
    exact h

theorem replaceColons_noPair (s : JsString) : NoPair (unit ':') (replaceColons s) := by
  fun_induction replaceColons s with
  | case1 a b rest hpair ih =>
    refine List.isChain_cons.mpr ⟨?_, ih⟩
    intro next _ hboth
    exact absurd hboth.1 (by decide)
  | case2 a b rest hpair ih =>
    refine List.isChain_cons.mpr ⟨?_, ih⟩
    intro next hnext hboth
    have hb : b ≠ unit ':' := fun heq => hpair ⟨hboth.1, heq⟩
    have hhead := replaceColons_head hb (show (b :: rest).head? = some b from rfl)
    rw [hhead] at hnext
    exact hb ((Option.some.inj hnext).trans hboth.2)
  | case3 s hshort =>
    match s, hshort with
    | [], _ => exact List.isChain_nil
    | [a], _ => exact List.isChain_singleton a
    | a :: b :: rest, hshort => exact absurd rfl (hshort a b rest)

variable {p : CodeUnit → Bool}

theorem mem_replaceRuns {inRun : Bool} (h : u ∈ replaceRuns p inRun s) :
    u = unit '/' ∨ (u ∈ s ∧ p u = false) := by
  fun_induction replaceRuns p inRun s with
  | case1 => cases h
  | case2 v rest hv ih =>
    rcases ih h with hslash | ⟨hmem, hp⟩
    · exact Or.inl hslash
    · exact Or.inr ⟨List.mem_cons_of_mem _ hmem, hp⟩
  | case3 inRun v rest hv hrun ih =>
    rcases List.mem_cons.mp h with hslash | h
    · exact Or.inl hslash
    · rcases ih h with hslash | ⟨hmem, hp⟩
      · exact Or.inl hslash
      · exact Or.inr ⟨List.mem_cons_of_mem _ hmem, hp⟩
  | case4 inRun v rest hv ih =>
    rcases List.mem_cons.mp h with rfl | h
    · exact Or.inr ⟨List.mem_cons_self, Bool.eq_false_iff.mpr hv⟩
    · rcases ih h with hslash | ⟨hmem, hp⟩
      · exact Or.inl hslash
      · exact Or.inr ⟨List.mem_cons_of_mem _ hmem, hp⟩

theorem replaceRuns_head (h : (replaceRuns p false s).head? = some u) :
    u = unit '/' ∨ s.head? = some u := by
  cases s with
  | nil => cases h
  | cons v rest =>
    unfold replaceRuns at h
    split at h
    · exact Or.inl (Option.some.inj h).symm
    · exact Or.inr h

/-- Replacing runs makes no new pair. -/
theorem replaceRuns_noPair {c : CodeUnit} (hc : c ≠ unit '/') (h : NoPair c s) (inRun : Bool) :
    NoPair c (replaceRuns p inRun s) := by
  fun_induction replaceRuns p inRun s with
  | case1 => exact List.isChain_nil
  | case2 v rest hv ih => exact ih h.tail
  | case3 inRun v rest hv hrun ih =>
    refine List.isChain_cons.mpr ⟨?_, ih h.tail⟩
    intro next _ hboth
    exact hc hboth.1.symm
  | case4 inRun v rest hv ih =>
    refine List.isChain_cons.mpr ⟨?_, ih h.tail⟩
    intro next hnext hboth
    rcases replaceRuns_head (Option.mem_def.mp hnext) with hslash | hhead
    · exact hc (hboth.2.symm.trans hslash)
    · exact (List.isChain_cons.mp h).1 next hhead hboth

theorem replaceRuns_slash (s : JsString) (inRun : Bool) :
    NoPair (unit '/') (replaceRuns (· = unit '/') inRun s) ∧
      (inRun = true → (replaceRuns (· = unit '/') inRun s).head? ≠ some (unit '/')) := by
  fun_induction replaceRuns (· = unit '/') inRun s with
  | case1 => exact ⟨List.isChain_nil, fun _ h => by cases h⟩
  | case2 v rest hv ih => exact ⟨ih.1, fun _ => ih.2 rfl⟩
  | case3 inRun v rest hv hrun ih =>
    refine ⟨List.isChain_cons.mpr ⟨?_, ih.1⟩, fun htrue => absurd htrue hrun⟩
    intro next hnext hboth
    exact ih.2 rfl (hboth.2 ▸ hnext)
  | case4 inRun v rest hv ih =>
    have hne : v ≠ unit '/' := of_decide_eq_false (Bool.eq_false_iff.mpr hv)
    refine ⟨List.isChain_cons.mpr ⟨fun next _ hboth => hne hboth.1, ih.1⟩, ?_⟩
    intro _ hhead
    exact hne (Option.some.inj hhead)

/-- A text without what is replaced stands as it is. -/
theorem replaceRuns_of_not_mem (h : ∀ u ∈ s, p u = false) (inRun : Bool) :
    replaceRuns p inRun s = s := by
  induction s generalizing inRun with
  | nil => rfl
  | cons u rest ih =>
    unfold replaceRuns
    rw [if_neg (by simp [h u List.mem_cons_self]),
      ih (fun v hv => h v (List.mem_cons_of_mem _ hv))]

theorem replaceRuns_of_noPair (h : NoPair (unit '/') s) (inRun : Bool)
    (hhead : inRun = true → s.head? ≠ some (unit '/')) :
    replaceRuns (· = unit '/') inRun s = s := by
  induction s generalizing inRun with
  | nil => rfl
  | cons u rest ih =>
    obtain ⟨hnext, hrest⟩ := List.isChain_cons.mp h
    unfold replaceRuns
    split
    · rename_i hu
      have hslash : u = unit '/' := of_decide_eq_true hu
      split
      · rename_i hrun
        exact absurd (congrArg some hslash) (hhead hrun)
      · rw [ih hrest true (fun _ hhead' => hnext _ hhead' ⟨hslash, rfl⟩), hslash]
    · rw [ih hrest false (fun h => absurd h Bool.false_ne_true)]

theorem replaceColons_of_noPair (h : NoPair (unit ':') s) : replaceColons s = s := by
  fun_induction replaceColons s with
  | case1 a b rest hpair ih => exact absurd hpair ((List.isChain_cons.mp h).1 b rfl)
  | case2 a b rest hpair ih => rw [ih h.tail]
  | case3 s hshort => rfl

/-- A text that neither begins nor ends with `/`. -/
structure Trimmed (s : JsString) : Prop where
  head : s.head? ≠ some (unit '/')
  last : s.getLast? ≠ some (unit '/')

/-- A text without the `/` it begins with. -/
def withoutLead (s : JsString) : JsString := if s.head? = some (unit '/') then s.tail else s

/-- A text without the `/` it ends with. -/
def withoutTail (s : JsString) : JsString :=
  if s.getLast? = some (unit '/') then s.dropLast else s

theorem stripSlashes_eq (s : JsString) : stripSlashes s = withoutTail (withoutLead s) := rfl

theorem stripSlashes_of_trimmed (h : Trimmed s) : stripSlashes s = s := by
  rw [stripSlashes_eq, withoutLead, if_neg h.head, withoutTail, if_neg h.last]

theorem isInfix_withoutLead (s : JsString) : withoutLead s <:+: s := by
  unfold withoutLead
  split
  · exact (List.tail_suffix s).isInfix
  · exact List.infix_refl s

theorem isInfix_stripSlashes (s : JsString) : stripSlashes s <:+: s := by
  rw [stripSlashes_eq]
  unfold withoutTail
  split
  · exact (List.dropLast_prefix _).isInfix.trans (isInfix_withoutLead s)
  · exact isInfix_withoutLead s

theorem withoutLead_head (h : NoPair (unit '/') s) : (withoutLead s).head? ≠ some (unit '/') := by
  unfold withoutLead
  split
  · rename_i hhead
    cases s with
    | nil => cases hhead
    | cons u rest =>
      intro hnext
      exact (List.isChain_cons.mp h).1 _ hnext ⟨Option.some.inj hhead, rfl⟩
  · rename_i hhead
    exact hhead

theorem withoutTail_trimmed (h : NoPair (unit '/') s) (hhead : s.head? ≠ some (unit '/')) :
    Trimmed (withoutTail s) := by
  unfold withoutTail
  split
  · rename_i hlast
    obtain ⟨front, rfl⟩ := List.getLast?_eq_some_iff.mp hlast
    rw [List.dropLast_concat]
    refine ⟨?_, ?_⟩
    · intro hfront
      cases front with
      | nil => cases hfront
      | cons u rest => exact hhead hfront
    · intro hfront
      obtain ⟨before, rfl⟩ := List.getLast?_eq_some_iff.mp hfront
      unfold NoPair at h
      rw [List.append_assoc] at h
      exact (List.isChain_cons.mp (List.isChain_append.mp h).2.1).1 (unit '/') rfl ⟨rfl, rfl⟩
  · rename_i hlast
    exact ⟨hhead, hlast⟩

theorem NoPair.of_infix {c : CodeUnit} {t : JsString} (h : NoPair c s) (ht : t <:+: s) :
    NoPair c t := List.IsChain.infix h ht

theorem stripSlashes_trimmed (h : NoPair (unit '/') s) : Trimmed (stripSlashes s) :=
  withoutTail_trimmed (h.of_infix (isInfix_withoutLead s)) (withoutLead_head h)

section

variable {toLowerCase : JsString → JsString} (lower : LowerCasing toLowerCase)

include lower

theorem replaceColons_lower (before : JsString) (h : toLowerCase (before ++ s) = before ++ s) :
    toLowerCase (before ++ replaceColons s) = before ++ replaceColons s := by
  fun_induction replaceColons s generalizing before with
  | case1 a b rest hpair ih =>
    obtain ⟨rfl, rfl⟩ := hpair
    obtain ⟨hbefore, hrest⟩ := (lower.separated before _ _ (by decide)).mp h
    have htail := ((lower.separated [] _ rest (by decide)).mp hrest).2
    exact (lower.separated before _ _ (by decide)).mpr ⟨hbefore, ih [] htail⟩
  | case2 a b rest hpair ih =>
    have hmoved := ih (before ++ [a]) (by simpa using h)
    simpa using hmoved
  | case3 s hshort => exact h

theorem replaceRuns_lower (hp : ∀ u, p u = true → isTypeSeparator u = true) {inRun : Bool}
    (before : JsString) (hstart : inRun = true → before = [])
    (h : toLowerCase (before ++ s) = before ++ s) :
    toLowerCase (before ++ replaceRuns p inRun s) = before ++ replaceRuns p inRun s := by
  fun_induction replaceRuns p inRun s generalizing before with
  | case1 => exact h
  | case2 u rest hu ih =>
    have htail := ((lower.separated before u rest (hp u hu)).mp h).2
    rw [hstart rfl]
    exact ih [] (fun _ => rfl) htail
  | case3 inRun u rest hu hrun ih =>
    obtain ⟨hbefore, htail⟩ := (lower.separated before u rest (hp u hu)).mp h
    exact (lower.separated before _ _ (by decide)).mpr
      ⟨hbefore, ih [] (fun _ => rfl) htail⟩
  | case4 inRun u rest hu ih =>
    have hmoved := ih (before ++ [u]) (fun h => absurd h Bool.false_ne_true)
      (by simpa using h)
    simpa using hmoved

theorem mapDots_lower (before : JsString) (h : toLowerCase (before ++ s) = before ++ s) :
    toLowerCase (before ++ s.map (fun u => if u = unit '.' then unit '/' else u)) =
      before ++ s.map (fun u => if u = unit '.' then unit '/' else u) := by
  induction s generalizing before with
  | nil => exact h
  | cons u rest ih =>
    rw [List.map_cons]
    split
    · rename_i hu
      obtain ⟨hbefore, htail⟩ := (lower.separated before u rest (by rw [hu]; decide)).mp h
      exact (lower.separated before _ _ (by decide)).mpr ⟨hbefore, ih [] htail⟩
    · have hmoved := ih (before ++ [u]) (by simpa using h)
      simpa using hmoved

theorem stripSlashes_lower (h : toLowerCase s = s) :
    toLowerCase (stripSlashes s) = stripSlashes s := by
  have hlead : toLowerCase (withoutLead s) = withoutLead s := by
    unfold withoutLead
    split
    · rename_i hhead
      cases s with
      | nil => cases hhead
      | cons u rest =>
        refine ((lower.separated [] u rest ?_).mp h).2
        rw [Option.some.inj hhead]
        decide
    · exact h
  rw [stripSlashes_eq]
  unfold withoutTail
  split
  · rename_i hlast
    obtain ⟨front, hfront⟩ := List.getLast?_eq_some_iff.mp hlast
    rw [hfront] at hlead ⊢
    rw [List.dropLast_concat]
    exact ((lower.separated front (unit '/') [] (by decide)).mp hlead).1
  · exact hlead

/-- **A normalized type is spelled as it is normalized.** -/
theorem ModelType.normalize_normalize (raw : JsString) :
    ModelType.normalize toLowerCase (ModelType.normalize toLowerCase raw) =
        ModelType.normalize toLowerCase raw ∧
      ∀ u ∈ ModelType.normalize toLowerCase raw, isBlank u = false := by
  -- The text after each replacement of `normalize`.
  obtain ⟨colons, hcolons⟩ : ∃ s, s = replaceColons (toLowerCase raw) := ⟨_, rfl⟩
  obtain ⟨blanks, hblanks⟩ : ∃ s, s = replaceRuns isBlank false colons := ⟨_, rfl⟩
  obtain ⟨dots, hdots⟩ : ∃ s, s = blanks.map (fun u => if u = unit '.' then unit '/' else u) :=
    ⟨_, rfl⟩
  obtain ⟨runs, hruns⟩ : ∃ s, s = replaceRuns (· = unit '/') false dots := ⟨_, rfl⟩
  have hnormalized : ModelType.normalize toLowerCase raw = stripSlashes runs := by
    rw [hruns, hdots, hblanks, hcolons]
    rfl
  have hdotsPair : NoPair (unit ':') dots := by
    have hblanksPair : NoPair (unit ':') blanks :=
      hblanks ▸ replaceRuns_noPair (by decide) (hcolons ▸ replaceColons_noPair _) _
    rw [hdots]
    refine List.isChain_map_of_isChain _ ?_ hblanksPair
    intro a b hab hboth
    have hkept : ∀ u : CodeUnit, (if u = unit '.' then unit '/' else u) = unit ':' →
        u = unit ':' := by
      intro u hu
      split at hu
      · exact absurd hu (by decide)
      · exact hu
    exact hab ⟨hkept a hboth.1, hkept b hboth.2⟩
  have hpair : NoPair (unit ':') (stripSlashes runs) :=
    NoPair.of_infix (hruns ▸ replaceRuns_noPair (by decide) hdotsPair _) (isInfix_stripSlashes runs)
  have hslash : NoPair (unit '/') runs := hruns ▸ (replaceRuns_slash dots false).1
  have hunits : ∀ u ∈ stripSlashes runs, isBlank u = false ∧ u ≠ unit '.' := by
    intro u hu
    have hmem := (isInfix_stripSlashes runs).subset hu
    rw [hruns] at hmem
    rcases mem_replaceRuns hmem with rfl | ⟨hmem, -⟩
    · exact ⟨by decide, by decide⟩
    · rw [hdots] at hmem
      obtain ⟨v, hv, rfl⟩ := List.mem_map.mp hmem
      split
      · exact ⟨by decide, by decide⟩
      · rename_i hdot
        rw [hblanks] at hv
        rcases mem_replaceRuns hv with rfl | ⟨-, hblank⟩
        · exact ⟨by decide, by decide⟩
        · exact ⟨hblank, hdot⟩
  have hlower : toLowerCase (stripSlashes runs) = stripSlashes runs := by
    have hcolonsLower : toLowerCase colons = colons :=
      hcolons ▸ replaceColons_lower lower [] (lower.idem raw)
    have hblanksLower : toLowerCase blanks = blanks :=
      hblanks ▸ replaceRuns_lower lower
        (fun u hu => by simp [isTypeSeparator, hu]) [] (fun _ => rfl) hcolonsLower
    have hdotsLower : toLowerCase dots = dots :=
      hdots ▸ mapDots_lower lower [] hblanksLower
    have hrunsLower : toLowerCase runs = runs :=
      hruns ▸ replaceRuns_lower lower
        (fun u hu => by rw [of_decide_eq_true hu]; decide) [] (fun _ => rfl) hdotsLower
    exact stripSlashes_lower lower hrunsLower
  rw [hnormalized]
  refine ⟨?_, fun u hu => (hunits u hu).1⟩
  have hmap : (stripSlashes runs).map (fun u => if u = unit '.' then unit '/' else u) =
      stripSlashes runs := by
    conv_rhs => rw [← List.map_id (stripSlashes runs)]
    apply List.map_congr_left
    intro u hu
    rw [if_neg (hunits u hu).2, id_eq]
  have htrimmed := stripSlashes_trimmed hslash
  unfold ModelType.normalize
  simp only
  rw [hlower, replaceColons_of_noPair hpair,
    replaceRuns_of_not_mem (fun u hu => (hunits u hu).1), hmap, replaceRuns_of_noPair (NoPair.of_infix hslash (isInfix_stripSlashes runs)) false
    (fun h => absurd h Bool.false_ne_true), stripSlashes_of_trimmed htrimmed]

/-- **The one spelling of a type makes the type again.** -/
theorem ModelType.create_normalized {raw : JsString} {type : ModelType}
    (h : ModelType.create toLowerCase raw = .ok type) :
    ModelType.create toLowerCase type.normalized = .ok ⟨type.normalized, type.normalized⟩ := by
  unfold ModelType.create at h
  simp only at h
  split at h
  · cases h
  · split at h
    · cases h
    · rename_i hne
      cases h
      obtain ⟨hagain, hblank⟩ := ModelType.normalize_normalize lower (trim raw)
      unfold ModelType.create
      simp only
      rw [trim_of_no_blank hblank, if_neg hne, hagain, if_neg hne]

end

end Swamp
