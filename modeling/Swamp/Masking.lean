import Mathlib.Tactic.Common
import Swamp.PatternScans

/-!
# Texts with stretches masked

Masking takes stretches out of a text and puts a mask in the place of each.  What shares
no unit with the mask can only be found in what was kept, so it was in the text before:
masking again masks stretches of the first text, and brings nothing new to light.
-/

universe u

/-- One text is another with runs replaced by a mask, each of them a run of a kind. -/
inductive Masked {α : Type u} (mask : List α) (sought : List α → Prop) : List α → List α → Prop
  | nil : Masked mask sought [] []
  | keep (unit : α) {text out : List α} (rest : Masked mask sought text out) :
      Masked mask sought (unit :: text) (unit :: out)
  | hide (run : List α) {text out : List α} (hsought : sought run)
      (rest : Masked mask sought text out) :
      Masked mask sought (run ++ text) (mask ++ out)

namespace Masked

variable {α : Type u} {mask : List α} {sought sought' : List α → Prop}

theorem refl (text : List α) : Masked mask sought text text := by
  induction text with
  | nil => exact .nil
  | cons unit rest ih => exact .keep unit ih

variable {text out : List α}

theorem mono (h : Masked mask sought text out) (himp : ∀ run, sought run → sought' run) :
    Masked mask sought' text out := by
  induction h with
  | nil => exact .nil
  | keep unit rest ih => exact .keep unit ih
  | hide run hsought rest ih => exact .hide run (himp run hsought) ih

variable {out' : List α}

theorem append {text' : List α} (h : Masked mask sought text out)
    (h' : Masked mask sought text' out') : Masked mask sought (text ++ text') (out ++ out') := by
  induction h with
  | nil => exact h'
  | keep unit rest ih => exact .keep unit ih
  | hide run hsought rest ih =>
    rw [List.append_assoc, List.append_assoc]
    exact .hide run hsought ih

theorem of_scan (p : Pattern α) (h : ∀ run, .matched run ∈ p.scan text → sought run) :
    Masked mask sought text (p.replaceAll (fun _ => mask) text) := by
  unfold Pattern.replaceAll
  induction text using p.scan_induction with
  | nil => exact .nil
  | matched run rest hmatch hne ih =>
    rw [p.scan_matched hmatch hne] at h ⊢
    exact .hide run (h run List.mem_cons_self)
      (ih (fun other hother => h other (List.mem_cons_of_mem _ hother)))
  | kept unit rest hnone ih =>
    rw [p.scan_keep hnone] at h ⊢
    exact .keep unit (ih (fun other hother => h other (List.mem_cons_of_mem _ hother)))

/-- Shares no unit with the mask. -/
def Free (mask text : List α) : Prop := ∀ u ∈ text, u ∉ mask

variable {rest : List α}

/-- A front that is free of the mask was kept. -/
theorem split_free (hmask : mask ≠ []) {run : List α} (hfree : Free mask run)
    (h : Masked mask sought text (run ++ rest)) :
    ∃ after, text = run ++ after ∧ Masked mask sought after rest := by
  induction run generalizing text with
  | nil => exact ⟨text, rfl, h⟩
  | cons unit run ih =>
    generalize hout : unit :: run ++ rest = out at h
    cases h with
    | nil => cases hout
    | keep other rest' =>
      obtain ⟨rfl, rfl⟩ := List.cons.inj hout
      obtain ⟨after, rfl, hafter⟩ :=
        ih (fun u hu => hfree u (List.mem_cons_of_mem _ hu)) rest'
      exact ⟨after, rfl, hafter⟩
    | hide hidden hsought rest' =>
      obtain ⟨star, stars, rfl⟩ := List.exists_cons_of_ne_nil hmask
      obtain rfl := (List.cons.inj hout).1
      exact absurd List.mem_cons_self (hfree unit List.mem_cons_self)

variable {part : List α}

/-- What is free of the mask does not begin in it. -/
theorem free_infix_of_append (hfree : Free mask part) (hnil : part ≠ [])
    (hpart : part <:+: mask ++ out) : part <:+: out := by
  induction mask with
  | nil => exact hpart
  | cons star stars ih =>
    rcases List.infix_cons_iff.mp hpart with hfront | hinner
    · obtain ⟨unit, run, rfl⟩ := List.exists_cons_of_ne_nil hnil
      obtain ⟨after, hafter⟩ := hfront
      obtain rfl := (List.cons.inj hafter).1
      exact absurd List.mem_cons_self (hfree unit List.mem_cons_self)
    · exact ih (fun u hu hmem => hfree u hu (List.mem_cons_of_mem _ hmem)) hinner

/-- **What is free of the mask and stands in the masked text stood in the text.** -/
theorem infix_of_masked (hmask : mask ≠ []) (h : Masked mask sought text out)
    (hfree : Free mask part) (hpart : part <:+: out) : part <:+: text := by
  by_cases hnil : part = []
  · rw [hnil]
    exact List.nil_infix
  · induction h with
    | nil => exact hpart
    | @keep unit text out rest ih =>
      rcases List.infix_cons_iff.mp hpart with hfront | hinner
      · obtain ⟨after, hafter⟩ := hfront
        have hmasked : Masked mask sought (unit :: text) (part ++ after) := by
          rw [hafter]
          exact .keep unit rest
        obtain ⟨left, hleft, -⟩ := split_free hmask hfree hmasked
        rw [hleft]
        exact (List.prefix_append part left).isInfix
      · exact (ih hinner).trans (List.suffix_cons unit _).isInfix
    | hide run hsought rest ih =>
      have hinner : part <:+: _ := free_infix_of_append hfree hnil hpart
      exact (ih hinner).trans (List.suffix_append run _).isInfix

variable {front : List α}

theorem free_infix_of_between (hmask : mask ≠ []) (hfree : Free mask part) (hnil : part ≠ [])
    (hpart : part <:+: front ++ (mask ++ rest)) : part <:+: front ∨ part <:+: rest := by
  induction front with
  | nil => exact Or.inr (free_infix_of_append hfree hnil hpart)
  | cons unit front ih =>
    rcases List.infix_cons_iff.mp hpart with hfront | hinner
    · by_cases hlength : part.length ≤ (unit :: front).length
      · exact Or.inl (List.prefix_of_prefix_length_le hfront
          (List.prefix_append (unit :: front) (mask ++ rest)) hlength).isInfix
      · obtain ⟨star, stars, rfl⟩ := List.exists_cons_of_ne_nil hmask
        have hlead : unit :: front ++ [star] <+: part := by
          refine List.prefix_of_prefix_length_le ⟨stars ++ rest, ?_⟩ hfront ?_
          · simp
          · rw [List.length_append, List.length_singleton]
            omega
        exact absurd List.mem_cons_self
          (hfree star (hlead.subset (List.mem_append_right _ (List.mem_singleton_self star))))
    · rcases ih hinner with hin | hin
      · exact Or.inl (hin.trans (List.suffix_cons unit front).isInfix)
      · exact Or.inr hin

/-- **What a pattern finds wherever it stands is gone** once its matches are masked. -/
theorem not_infix_replaceAll (p : Pattern α) (hmask : mask ≠ []) (hfree : Free mask part)
    (hne : part ≠ []) (hfound : ∀ rest, (p.matchLength (part ++ rest)).isSome) (text : List α) :
    ¬ part <:+: p.replaceAll (fun _ => mask) text := by
  intro hpart
  unfold Pattern.replaceAll at hpart
  induction text using p.scan_induction with
  | nil => exact hne (List.infix_nil.mp hpart)
  | matched run rest hmatch hrun ih =>
    rw [p.scan_matched hmatch hrun, List.flatMap_cons] at hpart
    exact ih (free_infix_of_append hfree hne hpart)
  | kept unit rest hnone ih =>
    rw [p.scan_keep hnone, List.flatMap_cons] at hpart
    rcases List.infix_cons_iff.mp hpart with hfront | hinner
    · obtain ⟨after, hafter⟩ := hfront
      have hrest : Masked mask (fun _ => True) rest
          ((p.scan rest).flatMap (Pattern.Piece.replaced fun _ => mask)) :=
        of_scan p (fun _ _ => trivial)
      have hmasked : Masked mask (fun _ => True) (unit :: rest) (part ++ after) := by
        rw [hafter]
        exact .keep unit hrest
      obtain ⟨left, hleft, -⟩ := split_free hmask hfree hmasked
      rw [hleft] at hnone
      have := hfound left
      rw [hnone] at this
      cases this
    · exact ih hinner

theorem keeps_mask (hfree : ∀ run, sought run → Free mask run ∧ run ≠ [])
    (hfront : ∀ u ∈ front, u ∈ mask) (h : Masked mask sought (front ++ out) out') :
    ∃ after, out' = front ++ after ∧ Masked mask sought out after := by
  induction front generalizing out' with
  | nil => exact ⟨out', rfl, h⟩
  | cons star stars ih =>
    generalize htext : star :: stars ++ out = text at h
    cases h with
    | nil => cases htext
    | keep unit rest =>
      obtain ⟨rfl, rfl⟩ := List.cons.inj htext
      obtain ⟨after, rfl, hafter⟩ :=
        ih (fun u hu => hfront u (List.mem_cons_of_mem _ hu)) rest
      exact ⟨after, rfl, hafter⟩
    | hide run hsought rest =>
      obtain ⟨unit, run', rfl⟩ := List.exists_cons_of_ne_nil (hfree run hsought).2
      obtain rfl := (List.cons.inj htext).1
      exact absurd (hfront star List.mem_cons_self)
        ((hfree _ hsought).1 star List.mem_cons_self)

/-- **Masking twice masks once**: the second time only what was kept is masked. -/
theorem trans (hmask : mask ≠ []) (hfree : ∀ run, sought' run → Free mask run ∧ run ≠ [])
    (himp : ∀ run, sought' run → sought run) (h : Masked mask sought text out)
    (h' : Masked mask sought' out out') : Masked mask sought text out' := by
  induction hlength : text.length + out.length using Nat.strong_induction_on
    generalizing text out out' with
  | _ length ih =>
    cases h with
    | nil => exact h'.mono himp
    | @hide run text out hsought rest =>
      obtain ⟨after, rfl, hafter⟩ := keeps_mask hfree (fun u hu => hu) h'
      refine .hide run hsought (ih (text.length + out.length) ?_ rest hafter rfl)
      have := List.length_pos_of_ne_nil hmask
      simp only [← hlength, List.length_append]
      omega
    | @keep unit text out rest =>
      generalize hout : unit :: out = all at h'
      cases h' with
      | nil => cases hout
      | @keep other text' out' rest' =>
        obtain ⟨rfl, rfl⟩ := List.cons.inj hout
        refine .keep unit (ih (text.length + out.length) ?_ rest rest' rfl)
        simp only [← hlength, List.length_cons]
        omega
      | @hide run text' out' hsought rest' =>
        have hall : Masked mask sought (unit :: text) (run ++ text') := by
          rw [← hout]
          exact .keep unit rest
        obtain ⟨after, hafter, hmasked⟩ := split_free hmask (hfree run hsought).1 hall
        rw [hafter]
        refine .hide run (himp run hsought) (ih (after.length + text'.length) ?_ hmasked
          rest' rfl)
        have hpos := List.length_pos_of_ne_nil (hfree run hsought).2
        have htext := congrArg List.length hafter
        have hrest := congrArg List.length hout
        simp only [List.length_cons, List.length_append] at htext hrest hlength
        omega

/-- A stretch of a text meets no run of a kind. -/
def Clear (sought : List α → Prop) (front stretch rest : List α) : Prop :=
  ∀ a run b, front ++ stretch ++ rest = a ++ run ++ b → sought run →
    a.length + run.length ≤ front.length ∨ front.length + stretch.length ≤ a.length

variable {stretch : List α}

theorem Clear.of_append (lead : List α) (h : Clear sought (lead ++ front) stretch rest) :
    Clear sought front stretch rest := by
  intro a run b heq hsought
  have hplace := h (lead ++ a) run b (by simp only [List.append_assoc, ← heq]) hsought
  simp only [List.length_append] at hplace
  omega

theorem keeps_front (hne : ∀ run, sought run → run ≠ []) (hclear : Clear sought [] stretch rest)
    (h : Masked mask sought (stretch ++ rest) out) :
    ∃ after, out = stretch ++ after ∧ Masked mask sought rest after := by
  induction stretch generalizing out with
  | nil => exact ⟨out, rfl, h⟩
  | cons unit stretch ih =>
    generalize htext : unit :: stretch ++ rest = text at h
    cases h with
    | nil => cases htext
    | keep other hrest =>
      obtain ⟨rfl, rfl⟩ := List.cons.inj htext
      have hclear' : Clear sought [] stretch rest := by
        intro a run b heq hsought
        have hplace := hclear (unit :: a) run b (by simp [← heq]) hsought
        simp only [List.length_cons, List.length_nil] at hplace ⊢
        omega
      obtain ⟨after, rfl, hafter⟩ := ih hclear' hrest
      exact ⟨after, rfl, hafter⟩
    | @hide run text out hsought hrest =>
      have hplace := hclear [] run text htext hsought
      have hpos := List.length_pos_of_ne_nil (hne run hsought)
      simp only [List.length_cons, List.length_nil] at hplace
      omega

theorem keeps_stretch (hne : ∀ run, sought run → run ≠ [])
    (hclear : Clear sought front stretch rest) (hstretch : stretch ≠ [])
    (h : Masked mask sought (front ++ stretch ++ rest) out) :
    ∃ before after, out = before ++ stretch ++ after ∧ Masked mask sought rest after := by
  generalize htext : front ++ stretch ++ rest = text at h
  induction h generalizing front with
  | nil => simp [hstretch] at htext
  | @keep unit text out hrest ih =>
    cases front with
    | nil =>
      have hall : Masked mask sought (stretch ++ rest) (unit :: out) := by
        rw [show stretch ++ rest = unit :: text from htext]
        exact .keep unit hrest
      obtain ⟨after, hout, hafter⟩ := keeps_front hne hclear hall
      exact ⟨[], after, hout, hafter⟩
    | cons lead front =>
      obtain ⟨rfl, hfront⟩ := List.cons.inj htext
      obtain ⟨before, after, rfl, hafter⟩ := ih (hclear.of_append [lead]) hfront
      exact ⟨lead :: before, after, rfl, hafter⟩
  | @hide run text out hsought hrest ih =>
    have hplace := hclear [] run text (by rw [htext, List.nil_append]) hsought
    have hpos := List.length_pos_of_ne_nil hstretch
    obtain ⟨front', rfl⟩ : run <+: front := by
      apply List.prefix_of_prefix_length_le (List.prefix_append run text)
      · rw [← htext, List.append_assoc]
        exact List.prefix_append _ _
      · simp only [List.length_nil] at hplace
        omega
    simp only [List.append_assoc, List.append_cancel_left_eq] at htext
    obtain ⟨before, after, rfl, hafter⟩ :=
      ih (hclear.of_append run) (by rw [← htext, List.append_assoc])
    exact ⟨mask ++ before, after, by simp only [List.append_assoc], hafter⟩

/-- Gaps with stretches after them, and what follows the last stretch. -/
def laid (parts : List (List α × List α)) (last : List α) : List α :=
  parts.flatMap (fun part => part.1 ++ part.2) ++ last

/-- **Stretches that no masked run meets come out as they were and in order.** -/
theorem stretches (hne : ∀ run, sought run → run ≠ []) {parts : List (List α × List α)}
    {last : List α}
    (hclear : ∀ before gap stretch after, parts = before ++ (gap, stretch) :: after →
      stretch ≠ [] ∧ Clear sought (laid before gap) stretch (laid after last))
    (h : Masked mask sought (laid parts last) out) :
    ∃ parts' last', parts'.map Prod.snd = parts.map Prod.snd ∧ out = laid parts' last' := by
  induction parts generalizing out with
  | nil => exact ⟨[], out, rfl, rfl⟩
  | cons part parts ih =>
    obtain ⟨gap, stretch⟩ := part
    obtain ⟨hstretch, hfirst⟩ := hclear [] gap stretch parts rfl
    have hsplit : laid ((gap, stretch) :: parts) last = gap ++ stretch ++ laid parts last := by
      simp [laid, List.append_assoc]
    rw [hsplit] at h
    obtain ⟨before, after, rfl, hafter⟩ :=
      keeps_stretch hne (hfirst.of_append []) hstretch h
    obtain ⟨parts', last', hsame, rfl⟩ := ih (fun before' gap' stretch' after' heq => by
      obtain ⟨hne', hclear'⟩ := hclear ((gap, stretch) :: before') gap' stretch' after'
        (by rw [heq, List.cons_append])
      refine ⟨hne', ?_⟩
      have hlead : laid ((gap, stretch) :: before') gap' =
          (gap ++ stretch) ++ laid before' gap' := by
        simp [laid, List.append_assoc]
      rw [hlead] at hclear'
      exact hclear'.of_append _) hafter
    exact ⟨(before, stretch) :: parts', last', by simp [hsame], by
      simp [laid, List.append_assoc]⟩

end Masked
