import Mathlib.Data.Nat.Notation
import Mathlib.Logic.Relation

/-!
# Interleaved programs over a shared state

Tasks run programs of atomic operations on one shared state, in any
interleaving, and new tasks may start at any time.  An operation may be answered
in several ways, so that failures and readings of a clock are answers like any
other.

A `Discipline` names an invariant of the shared state and the order in which
later states stand to earlier ones.  `Safe` says of one program, whatever the
others do in between, that each of its operations keeps both, and what holds
when it is done.
-/

namespace Interleaving

/-- A program: it is done, or an operation is answered and it goes on. -/
inductive Prog (Op : Type) (Res : Op → Type) (α : Type) : Type where
  | ret (a : α)
  | call (op : Op) (k : Res op → Prog Op Res α)

namespace Prog

variable {Op : Type} {Res : Op → Type} {α β : Type}

/-- One program after another. -/
def bind : Prog Op Res α → (α → Prog Op Res β) → Prog Op Res β
  | ret a, f => f a
  | call op k, f => call op (fun r => (k r).bind f)

/-- Keys are sorted by their text, code unit by code unit. -/
instance : Monad (Prog Op Res) where
  pure := ret
  bind := bind

/-- The program of one operation. -/
def perform (op : Op) : Prog Op Res (Res op) := call op ret

end Prog

/-- How operations are answered, which programs may start, and what a task that
is done with a round goes on with. -/
structure Machine (Op : Type) (Res : Op → Type) (σ α : Type) where
  exec : ℕ → (op : Op) → σ → Res op → σ → Prop
  starts : List (Prog Op Res α) → Prog Op Res α → Prop
  resume : α → Option (Prog Op Res α)

/-- The machine whose operations are performed only where a condition on the
state before them holds. -/
def Machine.restrict {Op : Type} {Res : Op → Type} {σ α : Type} (M : Machine Op Res σ α)
    (ok : Op → σ → Prop) : Machine Op Res σ α where
  exec := fun t op s r s' => ok op s ∧ M.exec t op s r s'
  starts := M.starts
  resume := M.resume

/-- The shared state and the tasks, by their number. -/
structure Config (Op : Type) (Res : Op → Type) (σ α : Type) where
  shared : σ
  tasks : List (Prog Op Res α)

section Runs

variable {Op : Type} {Res : Op → Type} {σ α : Type} (M : Machine Op Res σ α)

/-- Task `t` performs an operation. -/
def Acts (t : ℕ) (op : Op) (c c' : Config Op Res σ α) : Prop :=
  ∃ k r, c.tasks[t]? = some (.call op k) ∧ M.exec t op c.shared r c'.shared ∧
    c'.tasks = c.tasks.set t (k r)

/-- One step: a task starts, performs an operation, or goes on. -/
inductive Step : Config Op Res σ α → Config Op Res σ α → Prop
  | start {c p} (h : M.starts c.tasks p) : Step c ⟨c.shared, c.tasks ++ [p]⟩
  | act {c c'} (t op) (h : Acts M t op c c') : Step c c'
  | resume {c a p} (t) (hdone : c.tasks[t]? = some (.ret a)) (hnext : M.resume a = some p) :
      Step c ⟨c.shared, c.tasks.set t p⟩

/-- Any number of steps. -/
def Run : Config Op Res σ α → Config Op Res σ α → Prop := Relation.ReflTransGen (Step M)

variable {M} in
theorem Run.refl (c : Config Op Res σ α) : Run M c c := Relation.ReflTransGen.refl

variable {M} in
theorem Run.tail {c c' c'' : Config Op Res σ α} (h : Run M c c') (hstep : Step M c' c'') :
    Run M c c'' := Relation.ReflTransGen.tail h hstep

/-- Task `t` does a program undisturbed, down to what it answers. -/
inductive Does (t : ℕ) {β : Type} : Prog Op Res β → σ → β → σ → Prop
  | ret {a s} : Does t (.ret a) s a s
  | call {op k s r s' a s''} (hexec : M.exec t op s r s') (hrest : Does t (k r) s' a s'') :
      Does t (.call op k) s a s''

variable {M}

theorem Does.bind {t : ℕ} {β γ : Type} {p : Prog Op Res β} {f : β → Prog Op Res γ} {s s' s'' : σ}
    {a : β} {b : γ} (hp : Does M t p s a s') (hf : Does M t (f a) s' b s'') :
    Does M t (p >>= f) s b s'' := by
  induction hp with
  | ret => exact hf
  | call hexec _ ih => exact Does.call hexec (ih hf)

theorem Does.bind_ok {t : ℕ} {ε β γ : Type} {p : ExceptT ε (Prog Op Res) β}
    {f : β → ExceptT ε (Prog Op Res) γ} {s s' s'' : σ} {a : β} {b : Except ε γ}
    (hp : Does M t p.run s (.ok a) s') (hf : Does M t (f a).run s' b s'') :
    Does M t (p >>= f).run s b s'' :=
  Does.bind hp hf

theorem Does.lift {t : ℕ} {ε β : Type} {p : Prog Op Res β} {s s' : σ} {a : β}
    (hp : Does M t p s a s') :
    Does M t (ExceptT.lift p : ExceptT ε (Prog Op Res) β).run s (.ok a) s' :=
  Does.bind hp Does.ret

theorem Does.perform {t : ℕ} {op : Op} {s s' : σ} {r : Res op} (hexec : M.exec t op s r s') :
    Does M t (Prog.perform op) s r s' :=
  Does.call hexec Does.ret

/-! What was done, taken apart. -/

theorem Does.ret_inv {t : ℕ} {β : Type} {s s' : σ} {a b : β}
    (h : Does M t (pure a : Prog Op Res β) s b s') : b = a ∧ s' = s := by
  cases h
  exact ⟨rfl, rfl⟩

theorem Does.bind_inv {t : ℕ} {β γ : Type} {p : Prog Op Res β} {f : β → Prog Op Res γ} {s s'' : σ}
    {b : γ} (h : Does M t (p >>= f) s b s'') :
    ∃ a s', Does M t p s a s' ∧ Does M t (f a) s' b s'' := by
  induction p generalizing s with
  | ret a => exact ⟨a, s, Does.ret, h⟩
  | call op k ih =>
    cases h with
    | @call _ _ _ r s' _ _ hexec hrest =>
      obtain ⟨a, s₁, hdoes, hafter⟩ := ih r hrest
      exact ⟨a, s₁, Does.call hexec hdoes, hafter⟩

theorem Does.perform_inv {t : ℕ} {op : Op} {s s' : σ} {r : Res op}
    (h : Does M t (Prog.perform op) s r s') : M.exec t op s r s' := by
  cases h with
  | call hexec hrest =>
    cases hrest
    exact hexec

/-- One operation of a task is part of a run. -/
theorem Run.act {c : Config Op Res σ α} {s s' : σ} {tasks : List (Prog Op Res α)}
    (h : Run M c ⟨s, tasks⟩) {t : ℕ} {op : Op} {k : Res op → Prog Op Res α}
    (hget : tasks[t]? = some (.call op k)) (r : Res op) (hexec : M.exec t op s r s') :
    Run M c ⟨s', tasks.set t (k r)⟩ :=
  h.tail (Step.act t op ⟨k, r, hget, hexec, rfl⟩)

/-- Task `t` does the first part of its program, and stops where the rest begins. -/
theorem Run.does_bind {c c' : Config Op Res σ α} (h : Run M c c') {t : ℕ} {β : Type}
    {p : Prog Op Res β} {f : β → Prog Op Res α} (hget : c'.tasks[t]? = some (p >>= f)) {b : β}
    {s : σ} (hdoes : Does M t p c'.shared b s) : Run M c ⟨s, c'.tasks.set t (f b)⟩ := by
  obtain ⟨shared, tasks⟩ := c'
  simp only at hget hdoes
  induction hdoes generalizing tasks with
  | @ret b s =>
    obtain ⟨hlt, hsame⟩ := List.getElem?_eq_some_iff.mp hget
    have hrest : tasks[t] = f b := hsame
    rw [← hrest, List.set_getElem_self hlt]
    exact h
  | @call op k s r s' a s'' hexec _ ih =>
    have hnext : Run M c ⟨s', tasks.set t (k r >>= f)⟩ := h.act hget r hexec
    have hlt : t < tasks.length := (List.getElem?_eq_some_iff.mp hget).1
    have hrest := ih (tasks.set t (k r >>= f)) hnext (by simp [hlt])
    rwa [List.set_set] at hrest

/-- What a task does undisturbed is part of a run. -/
theorem Run.does {c c' : Config Op Res σ α} (h : Run M c c') {t : ℕ} {p : Prog Op Res α}
    (hget : c'.tasks[t]? = some p) {a : α} {s : σ} (hdoes : Does M t p c'.shared a s) :
    Run M c ⟨s, c'.tasks.set t (.ret a)⟩ := by
  obtain ⟨shared, tasks⟩ := c'
  simp only at hget hdoes
  induction hdoes generalizing tasks with
  | ret =>
    obtain ⟨hlt, hsame⟩ := List.getElem?_eq_some_iff.mp hget
    rw [← hsame, List.set_getElem_self hlt]
    exact h
  | @call op k s r s' a s'' hexec _ ih =>
    have hnext : Run M c ⟨s', tasks.set t (k r)⟩ :=
      h.act hget r hexec
    have hlt : t < tasks.length := (List.getElem?_eq_some_iff.mp hget).1
    have hrest := ih (tasks.set t (k r)) hnext (by simp [hlt])
    rwa [List.set_set] at hrest

end Runs

/-- An invariant of the shared state, and the order its states come in. -/
structure Discipline (σ : Type) where
  inv : σ → Prop
  later : σ → σ → Prop
  refl : ∀ s, later s s
  trans : ∀ {a b c}, later a b → later b c → later a c

section Safety

variable {Op : Type} {Res : Op → Type} {σ α β : Type} (M : Machine Op Res σ β) (D : Discipline σ)
  (t : ℕ)

/-- From `s` on, whatever the other tasks do in between, every operation of the
program keeps the discipline, and `Q` holds when it is done. -/
def Safe (Q : α → σ → Prop) : Prog Op Res α → σ → Prop
  | .ret a, s => ∀ s', D.later s s' → D.inv s' → Q a s'
  | .call op k, s => ∀ s', D.later s s' → D.inv s' → ∀ r s'', M.exec t op s' r s'' →
      D.inv s'' ∧ D.later s' s'' ∧ Safe Q (k r) s''

variable {M D t} {Q : α → σ → Prop}

/-- **Safety is stable**: other tasks cannot take it away. -/
theorem Safe.later {p : Prog Op Res α} {s s' : σ} (h : Safe M D t Q p s) (hle : D.later s s') :
    Safe M D t Q p s' := by
  cases p with
  | ret a | call op k => exact fun s'' hle' hinv => h s'' (D.trans hle hle') hinv

/-- A program may be judged at every state it can find when it goes on. -/
theorem Safe.of_later {p : Prog Op Res α} {s : σ}
    (h : ∀ s', D.later s s' → D.inv s' → Safe M D t Q p s') : Safe M D t Q p s := by
  cases p with
  | ret a | call op k => exact fun s' hle hinv => h s' hle hinv s' (D.refl s') hinv

/-- What holds at the end, at every later state too, may be weakened. -/
theorem Safe.mono {Q' : α → σ → Prop} {p : Prog Op Res α} {s : σ} (h : Safe M D t Q p s)
    (hpost : ∀ a s', D.later s s' → D.inv s' →
      (∀ s'', D.later s' s'' → D.inv s'' → Q a s'') → Q' a s') : Safe M D t Q' p s := by
  induction p generalizing s with
  | ret a =>
    intro s' hle hinv
    exact hpost a s' hle hinv (fun s'' hle' => h s'' (D.trans hle hle'))
  | call op k ih =>
    intro s' hle hinv r s'' hexec
    obtain ⟨hinv', hle', hrest⟩ := h s' hle hinv r s'' hexec
    refine ⟨hinv', hle', ih r hrest ?_⟩
    exact fun a next hlater => hpost a next (D.trans (D.trans hle hle') hlater)

/-- **One program after another.** -/
theorem Safe.bind {γ : Type} {Q : γ → σ → Prop} {p : Prog Op Res α} {f : α → Prog Op Res γ} {s : σ}
    (h : Safe M D t (fun a s => Safe M D t Q (f a) s) p s) : Safe M D t Q (p >>= f) s := by
  induction p generalizing s with
  | ret a => exact Safe.of_later h
  | call op k ih =>
    intro s' hle hinv r s'' hexec
    obtain ⟨hinv', hle', hrest⟩ := h s' hle hinv r s'' hexec
    exact ⟨hinv', hle', ih r hrest⟩

/-- A single operation. -/
theorem Safe.perform {op : Op} {Q : Res op → σ → Prop} {s : σ}
    (h : ∀ s', D.later s s' → D.inv s' → ∀ r s'', M.exec t op s' r s'' →
      D.inv s'' ∧ D.later s' s'' ∧ ∀ s₃, D.later s'' s₃ → D.inv s₃ → Q r s₃) :
    Safe M D t Q (Prog.perform op) s := h

section Throwing

variable {ε γ : Type}

variable (M D t) in
/-- Safety of a program that may throw: `Q` holds of what it returns. -/
def Returns (Q : α → σ → Prop) (p : ExceptT ε (Prog Op Res) α) (s : σ) : Prop :=
  Safe M D t (fun r s => ∀ a, r = .ok a → Q a s) p.run s

theorem Returns.mono {Q' : α → σ → Prop} {p : ExceptT ε (Prog Op Res) α} {s : σ}
    (h : Returns M D t Q p s) (hpost : ∀ a s', D.later s s' → D.inv s' → Q a s' → Q' a s') :
    Returns M D t Q' p s := by
  apply Safe.mono h
  intro r s' hle hinv hr a ha
  exact hpost a s' hle hinv (hr s' (D.refl s') hinv a ha)

theorem Returns.pure {a : α} {s : σ} (h : ∀ s', D.later s s' → D.inv s' → Q a s') :
    Returns M D t Q (Pure.pure a : ExceptT ε (Prog Op Res) α) s := by
  intro s' hle hinv b hb
  obtain rfl := Except.ok.inj hb
  exact h s' hle hinv

theorem Returns.throw {e : ε} {s : σ} :
    Returns M D t Q (throw e : ExceptT ε (Prog Op Res) α) s := by
  intro s' hle hinv b hb
  cases hb

/-- One throwing program after another. -/
theorem Returns.bind {Q : γ → σ → Prop} {p : ExceptT ε (Prog Op Res) α}
    {f : α → ExceptT ε (Prog Op Res) γ} {s : σ}
    (h : Returns M D t (fun a s => Returns M D t Q (f a) s) p s) :
    Returns M D t Q (p >>= f) s := by
  refine Safe.bind (Safe.mono h ?_)
  intro r s' hle hinv hr
  cases r with
  | ok a => exact hr s' (D.refl s') hinv a rfl
  | error e =>
    intro s'' _ _ b hb
    cases hb

/-- A program that handles what another throws. -/
theorem Returns.tryCatch {p : ExceptT ε (Prog Op Res) α} {handler : ε → ExceptT ε (Prog Op Res) α}
    {s : σ} (h : Returns M D t Q p s)
    (hhandler : ∀ e s', D.later s s' → D.inv s' → Returns M D t Q (handler e) s') :
    Returns M D t Q (tryCatch p handler) s := by
  refine Safe.bind (Safe.mono h ?_)
  intro r s' hle hinv hr
  cases r with
  | ok a => exact hr
  | error e => exact hhandler e s' hle hinv

/-- A program that never throws. -/
theorem Returns.lift {p : Prog Op Res α} {s : σ} (h : Safe M D t Q p s) :
    Returns M D t Q (ExceptT.lift p : ExceptT ε (Prog Op Res) α) s := by
  refine Safe.bind (Safe.mono h ?_)
  intro a s' hle hinv ha s'' hle' hinv' b hb
  obtain rfl := Except.ok.inj hb
  exact ha s'' hle' hinv'

end Throwing

end Safety

section Adequacy

variable {Op : Type} {Res : Op → Type} {σ α : Type} {M : Machine Op Res σ α} {D : Discipline σ}
  {Q : ℕ → α → σ → Prop}

variable (M D Q) in
/-- The invariant holds, and every task is safe from here on. -/
structure Sound (c : Config Op Res σ α) : Prop where
  inv : D.inv c.shared
  tasks : ∀ t p, c.tasks[t]? = some p → Safe M D t (Q t) p c.shared

/-- Every task that starts or goes on is safe. -/
structure Admits (M : Machine Op Res σ α) (D : Discipline σ) (Q : ℕ → α → σ → Prop) : Prop where
  starts : ∀ t s tasks p, M.starts tasks p → Safe M D t (Q t) p s
  resumes : ∀ t s a p, M.resume a = some p → Safe M D t (Q t) p s

/-- **One step** keeps every task safe, and the next state is a later one. -/
theorem Sound.step (hadmits : Admits M D Q) {c c' : Config Op Res σ α} (h : Sound M D Q c)
    (hstep : Step M c c') : Sound M D Q c' ∧ D.later c.shared c'.shared := by
  cases hstep with
  | start hstarts =>
    refine ⟨⟨h.inv, ?_⟩, D.refl _⟩
    intro t p hget
    rw [List.getElem?_append] at hget
    split at hget
    · exact h.tasks t p hget
    · obtain rfl := List.mem_singleton.mp (List.mem_of_getElem? hget)
      exact hadmits.starts t _ _ _ hstarts
  | act t op hacts =>
    obtain ⟨k, r, hget, hexec, htasks⟩ := hacts
    obtain ⟨hinv, hle, hrest⟩ := h.tasks t _ hget c.shared (D.refl _) h.inv r _ hexec
    refine ⟨⟨hinv, ?_⟩, hle⟩
    intro u p hu
    rw [htasks, List.getElem?_set] at hu
    split at hu
    · rename_i heq
      subst heq
      split at hu
      · obtain rfl := Option.some.inj hu
        exact hrest
      · cases hu
    · exact (h.tasks u p hu).later hle
  | resume t hdone hnext =>
    refine ⟨⟨h.inv, ?_⟩, D.refl _⟩
    intro u p hu
    rw [List.getElem?_set] at hu
    split at hu
    · rename_i heq
      subst heq
      split at hu
      · obtain rfl := Option.some.inj hu
        exact hadmits.resumes _ _ _ _ hnext
      · cases hu
    · exact h.tasks u p hu

/-- **A whole run** keeps every task safe, and ends at a later state. -/
theorem Sound.run (hadmits : Admits M D Q) {c c' : Config Op Res σ α} (h : Sound M D Q c)
    (hrun : Run M c c') : Sound M D Q c' ∧ D.later c.shared c'.shared := by
  induction hrun with
  | refl => exact ⟨h, D.refl _⟩
  | tail _ hstep ih =>
    obtain ⟨hsound, hle⟩ := ih.1.step hadmits hstep
    exact ⟨hsound, D.trans ih.2 hle⟩

/-- A task that is done has what was asked of it. -/
theorem Sound.done {c : Config Op Res σ α} (h : Sound M D Q c) {t : ℕ} {a : α}
    (hget : c.tasks[t]? = some (.ret a)) : Q t a c.shared :=
  h.tasks t _ hget c.shared (D.refl _) h.inv

end Adequacy

section Endings

variable {Op : Type} {Res : Op → Type} {σ α β : Type} (M : Machine Op Res σ β) (D : Discipline σ)
  (t : ℕ)

/-- From `s` on, whatever the other tasks do in between, every operation of the
program keeps the discipline, and `R` holds at the moment it is done. -/
def Ending (R : α → σ → Prop) : Prog Op Res α → σ → Prop
  | .ret a, s => R a s
  | .call op k, s => ∀ s', D.later s s' → D.inv s' → ∀ r s'', M.exec t op s' r s'' →
      D.inv s'' ∧ D.later s' s'' ∧ Ending R (k r) s''

variable {M D t}

/-- What holds at that moment may go on to hold. -/
theorem Ending.safe {R Q : α → σ → Prop} {p : Prog Op Res α} {s : σ} (h : Ending M D t R p s)
    (hstays : ∀ a s s', R a s → D.later s s' → D.inv s' → Q a s') : Safe M D t Q p s := by
  induction p generalizing s with
  | ret a => exact fun s' hle hinv => hstays a s s' h hle hinv
  | call op k ih =>
    intro s' hle hinv r s'' hexec
    obtain ⟨hinv', hle', hrest⟩ := h s' hle hinv r s'' hexec
    exact ⟨hinv', hle', ih r hrest⟩

theorem Ending.mono {R R' : α → σ → Prop} {p : Prog Op Res α} {s : σ} (h : Ending M D t R p s)
    (hpost : ∀ a s, R a s → R' a s) : Ending M D t R' p s := by
  induction p generalizing s with
  | ret a => exact hpost a s h
  | call op k ih =>
    intro s' hle hinv r s'' hexec
    obtain ⟨hinv', hle', hrest⟩ := h s' hle hinv r s'' hexec
    exact ⟨hinv', hle', ih r hrest⟩

theorem Ending.bind {γ : Type} {R : γ → σ → Prop} {p : Prog Op Res α} {f : α → Prog Op Res γ}
    {s : σ} (h : Ending M D t (fun a s => Ending M D t R (f a) s) p s) :
    Ending M D t R (p >>= f) s := by
  induction p generalizing s with
  | ret a => exact h
  | call op k ih =>
    intro s' hle hinv r s'' hexec
    obtain ⟨hinv', hle', hrest⟩ := h s' hle hinv r s'' hexec
    exact ⟨hinv', hle', ih r hrest⟩

end Endings

section Ended

variable {Op : Type} {Res : Op → Type} {σ α : Type} {M : Machine Op Res σ α} {D : Discipline σ}
  {Q R : ℕ → α → σ → Prop}

variable (M D R) in
/-- Every task that is not done ends as it should. -/
def Unfinished (c : Config Op Res σ α) : Prop :=
  ∀ t op k, c.tasks[t]? = some (.call op k) → Ending M D t (R t) (.call op k) c.shared

/-- The task is done, and was not before, at a moment when `R` held. -/
def EndedSince (R : ℕ → α → σ → Prop) (M : Machine Op Res σ α) (c c' : Config Op Res σ α) (t : ℕ)
    (a : α) : Prop :=
  ∃ mid, Run M c mid ∧ Run M mid c' ∧ R t a mid.shared

/-- **One step**: the tasks that are not done still end as they should, and one
that is done now was done before or is done as it should. -/
theorem Unfinished.step (hends : ∀ t s tasks p, M.starts tasks p → Ending M D t (R t) p s)
    (hresumes : ∀ a, M.resume a = none) {c c' : Config Op Res σ α} (hinv : D.inv c.shared)
    (h : Unfinished M D R c) (hle : D.later c.shared c'.shared) (hstep : Step M c c') :
    Unfinished M D R c' ∧ ∀ t a, c'.tasks[t]? = some (.ret a) →
      c.tasks[t]? = some (.ret a) ∨ R t a c'.shared := by
  cases hstep with
  | start hstarts =>
    constructor
    · intro t op k hget
      simp only [List.getElem?_append] at hget
      split at hget
      · exact h t op k hget
      · have hp := List.mem_singleton.mp (List.mem_of_getElem? hget)
        rw [hp]
        exact hends t _ _ _ hstarts
    · intro t a hget
      simp only [List.getElem?_append] at hget
      split at hget
      · exact Or.inl hget
      · have hp := List.mem_singleton.mp (List.mem_of_getElem? hget)
        have hend := hends t c.shared _ _ hstarts
        rw [← hp] at hend
        exact Or.inr hend
  | act t op hacts =>
    obtain ⟨k, r, hget, hexec, htasks⟩ := hacts
    obtain ⟨-, -, hend⟩ := h t op k hget c.shared (D.refl _) hinv r _ hexec
    constructor
    · intro u op' k' hu
      rw [htasks, List.getElem?_set] at hu
      split at hu
      · rename_i heq
        subst heq
        split at hu
        · rw [Option.some.inj hu] at hend
          exact hend
        · cases hu
      · exact fun s' hle' => h u op' k' hu s' (D.trans hle hle')
    · intro u a hu
      rw [htasks, List.getElem?_set] at hu
      split at hu
      · rename_i heq
        subst heq
        split at hu
        · rw [Option.some.inj hu] at hend
          exact Or.inr hend
        · cases hu
      · exact Or.inl hu
  | @resume a p t hdone hnext =>
    rw [hresumes a] at hnext
    cases hnext

/-- **A whole run**: a task that is done was done before, or was done at a moment
when `R` held. -/
theorem Sound.ended (hadmits : Admits M D Q)
    (hends : ∀ t s tasks p, M.starts tasks p → Ending M D t (R t) p s)
    (hresumes : ∀ a, M.resume a = none) {c c' : Config Op Res σ α} (hsound : Sound M D Q c)
    (h : Unfinished M D R c) (hrun : Run M c c') :
    Unfinished M D R c' ∧ ∀ t a, c'.tasks[t]? = some (.ret a) →
      c.tasks[t]? = some (.ret a) ∨ EndedSince R M c c' t a := by
  induction hrun with
  | refl => exact ⟨h, fun t a hget => Or.inl hget⟩
  | @tail mid c' hbefore hstep ih =>
    obtain ⟨hunfinished, hdone⟩ := ih
    have hmid := (hsound.run hadmits hbefore).1
    have hle := (hmid.step hadmits hstep).2
    obtain ⟨hnext, hnew⟩ := hunfinished.step hends hresumes hmid.inv hle hstep
    refine ⟨hnext, ?_⟩
    intro t a hget
    rcases hnew t a hget with hold | hnow
    · rcases hdone t a hold with hfirst | ⟨at_, hto, hfrom, hR⟩
      · exact Or.inl hfirst
      · exact Or.inr ⟨at_, hto, hfrom.tail hstep, hR⟩
    · exact Or.inr ⟨c', Run.tail hbefore hstep, Run.refl c', hnow⟩

end Ended

end Interleaving
