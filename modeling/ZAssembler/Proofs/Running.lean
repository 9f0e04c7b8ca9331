import Mathlib.Logic.Relation
import ZAssembler.Assembly.State

/-
  Running steps. `Does` says what a step does to the state if the pass goes on after it, `Leaves`
  what a computation does however it ends, and `Yields` what a step returns.
-/

namespace ZAssembler.Assembly

/-! ## Binds and loops -/

section Running

variable {ε α β : Type}

theorem bind_ok {m : EStateM ε State α} {f : α → EStateM ε State β} {s u : State} {b : β}
    (h : (m >>= f) s = .ok b u) : ∃ a t, m s = .ok a t ∧ f a t = .ok b u := by
  simp only [bind, EStateM.bind] at h
  split at h
  · next a t hm => exact ⟨a, t, hm, h⟩
  · cases h

theorem bind_of_ok {m : EStateM ε State α} {f : α → EStateM ε State β} {s t : State} {a : α}
    (h : m s = .ok a t) : (m >>= f) s = f a t := by
  simp only [bind, EStateM.bind, h]

theorem bind_of_error {m : EStateM ε State α} {f : α → EStateM ε State β} {s t : State} {e : ε}
    (h : m s = .error e t) : (m >>= f) s = .error e t := by
  simp only [bind, EStateM.bind, h]

theorem get_bind {f : State → EStateM ε State α} {s : State} : (get >>= f) s = f s s := rfl

theorem set_bind {t : State} {f : PUnit → EStateM ε State α} {s : State} :
    (set t >>= f) s = f ⟨⟩ t := rfl

theorem modify_bind {g : State → State} {f : PUnit → EStateM ε State α} {s : State} :
    (modify g >>= f) s = f ⟨⟩ (g s) := rfl

theorem skip_bind (p : Problem) (f : α → Step β) : (skip p >>= f) = skip p := rfl

theorem forM_cons_of_ok {f : α → EStateM ε State Unit} {x : α} {xs : List α} {s t : State}
    (h : f x s = .ok () t) : (x :: xs).forM f s = xs.forM f t :=
  bind_of_ok h

theorem forM_cons_ok {f : α → EStateM ε State Unit} {x : α} {xs : List α} {s u : State}
    (h : (x :: xs).forM f s = .ok () u) : ∃ t, f x s = .ok () t ∧ xs.forM f t = .ok () u := by
  obtain ⟨⟨⟩, t, hx, hxs⟩ := bind_ok h
  exact ⟨t, hx, hxs⟩

theorem forM_cons_error {f : α → EStateM ε State Unit} {x : α} {xs : List α} {s u : State} {e : ε}
    (h : (x :: xs).forM f s = .error e u) :
    f x s = .error e u ∨ ∃ t, f x s = .ok () t ∧ xs.forM f t = .error e u := by
  cases hx : f x s with
  | ok a t => exact .inr ⟨t, rfl, (forM_cons_of_ok hx).symm.trans h⟩
  | error i t => exact .inl ((bind_of_error hx).symm.trans h)

end Running

/-! ## Steps after which the pass goes on -/

section Does

variable {α β : Type} {R : State → State → Prop}

/-- The step takes `s` to a state in relation `R` to it, if the pass goes on after the step. -/
def Does (R : State → State → Prop) (m : Step α) (s : State) : Prop :=
  match m s with
  | .ok _ t => R s t
  | .error (.skip _) t => R s t
  | .error _ _ => True

theorem Does.of_ok {m : Step α} {s t : State} {a : α} (h : Does R m s) (hm : m s = .ok a t) :
    R s t := by
  simpa only [Does, hm] using h

theorem Does.of_skip {m : Step α} {s t : State} {p : Problem} (h : Does R m s)
    (hm : m s = .error (.skip p) t) : R s t := by
  simpa only [Does, hm] using h

theorem does_of_ok {m : Step α} {s t : State} {a : α} (hm : m s = .ok a t) (h : R s t) :
    Does R m s := by
  simpa only [Does, hm] using h

theorem does_of_error {m : Step α} {s : State} {i : Interrupt} (hm : m s = .error i s)
    (h : R s s) : Does R m s := by
  cases i with
  | skip problem => simpa only [Does, hm] using h
  | abort problem => simp only [Does, hm]
  | restart version => simp only [Does, hm]

theorem does_abort (p : Problem) (s : State) : Does R (abort p : Step α) s := trivial

/-- A step that begins by reading the state goes on from it. -/
theorem does_get {f : State → Step α} {s : State} (h : Does R (f s) s) : Does R (get >>= f) s := h

theorem does_pure [Std.Refl R] (a : α) (s : State) : Does R (pure a) s := refl_of R s

theorem does_skip [Std.Refl R] (p : Problem) (s : State) : Does R (skip p : Step α) s :=
  refl_of R s

theorem Does.bind [IsTrans State R] {m : Step α} {f : α → Step β} {s : State} (hm : Does R m s)
    (hf : ∀ a t, m s = .ok a t → Does R (f a) t) : Does R (m >>= f) s := by
  cases h : m s with
  | ok a t =>
    have hst := hm.of_ok h
    have hft := hf a t h
    unfold Does at hft ⊢
    rw [bind_of_ok h]
    cases hr : f a t with
    | ok b u => rw [hr] at hft; exact trans_of R hst hft
    | error i u =>
      rw [hr] at hft
      cases i with
      | skip p => exact trans_of R hst hft
      | abort p => trivial
      | restart v => trivial
  | error i t =>
    unfold Does at hm ⊢
    rw [bind_of_error h]
    rw [h] at hm
    cases i with
    | skip p => exact hm
    | abort p => trivial
    | restart v => trivial

variable [Std.Refl R] [IsTrans State R]

theorem does_forM (xs : List α) (f : α → Step Unit) (hf : ∀ x ∈ xs, ∀ s, Does R (f x) s)
    (s : State) : Does R (xs.forM f) s := by
  induction xs generalizing s with
  | nil => exact does_pure () s
  | cons x xs ih =>
    show Does R (f x >>= fun _ => xs.forM f) s
    refine (hf x (List.mem_cons_self ..) s).bind fun _ t _ => ?_
    exact ih (fun y hy => hf y (List.mem_cons_of_mem _ hy)) t

end Does

/-! ## Computations that end in any way -/

section Leaving

variable {ε α β : Type} {R : State → State → Prop}

/-- The state in which a computation ends, with a result or without. -/
def final (m : EStateM ε State α) (s : State) : State :=
  match m s with
  | .ok _ t => t
  | .error _ t => t

/-- The computation takes `s` to a state in relation `R` to it. -/
def Leaves (R : State → State → Prop) (m : EStateM ε State α) (s : State) : Prop := R s (final m s)

theorem final_of_ok {m : EStateM ε State α} {s t : State} {a : α} (hm : m s = .ok a t) :
    final m s = t := by
  unfold final
  rw [hm]

theorem final_of_error {m : EStateM ε State α} {s t : State} {e : ε} (hm : m s = .error e t) :
    final m s = t := by
  unfold final
  rw [hm]

theorem final_bind {m : EStateM ε State α} {f : α → EStateM ε State β} {s t : State} {a : α}
    (hm : m s = .ok a t) : final (m >>= f) s = final (f a) t := by
  unfold final
  rw [bind_of_ok hm]

theorem Leaves.of_ok {m : EStateM ε State α} {s t : State} {a : α} (h : Leaves R m s)
    (hm : m s = .ok a t) : R s t :=
  final_of_ok hm ▸ h

theorem Leaves.of_error {m : EStateM ε State α} {s t : State} {e : ε} (h : Leaves R m s)
    (hm : m s = .error e t) : R s t :=
  final_of_error hm ▸ h

/-- In particular if the pass goes on. -/
theorem Leaves.does {m : Step α} {s : State} (h : Leaves R m s) : Does R m s := by
  cases hm : m s with
  | ok x t => exact does_of_ok hm (h.of_ok hm)
  | error i t =>
    have ht := h.of_error hm
    unfold Does
    rw [hm]
    cases i with
    | skip problem => exact ht
    | abort problem => trivial
    | restart version => trivial

theorem leaves_of_ok {m : EStateM ε State α} {s t : State} {a : α} (hm : m s = .ok a t)
    (h : R s t) : Leaves R m s := by
  unfold Leaves
  rwa [final_of_ok hm]

theorem leaves_of_error {m : EStateM ε State α} {s t : State} {e : ε} (hm : m s = .error e t)
    (h : R s t) : Leaves R m s := by
  unfold Leaves
  rwa [final_of_error hm]

theorem Leaves.imp {R' : State → State → Prop} {m : EStateM ε State α} {s : State}
    (h : Leaves R m s) (hR : ∀ t, R s t → R' s t) : Leaves R' m s :=
  hR _ h

/-- A computation that begins by reading the state goes on from it. -/
theorem leaves_get {f : State → EStateM ε State α} {s : State} (h : Leaves R (f s) s) :
    Leaves R (get >>= f) s := h

theorem leaves_modify {f : State → State} {s : State} (h : R s (f s)) :
    Leaves R (modify f : EStateM ε State PUnit) s := h

theorem leaves_pure [Std.Refl R] (a : α) (s : State) :
    Leaves R (pure a : EStateM ε State α) s := refl_of R s

theorem leaves_skip [Std.Refl R] (p : Problem) (s : State) : Leaves R (skip p : Step α) s :=
  refl_of R s

theorem leaves_abort [Std.Refl R] (p : Problem) (s : State) : Leaves R (abort p : Step α) s :=
  refl_of R s

theorem Leaves.bind [IsTrans State R] {m : EStateM ε State α} {f : α → EStateM ε State β}
    {s : State} (hm : Leaves R m s) (hf : ∀ a t, m s = .ok a t → Leaves R (f a) t) :
    Leaves R (m >>= f) s := by
  cases h : m s with
  | ok a t =>
    show R s _
    rw [final_bind h]
    exact trans_of R (hm.of_ok h) (hf a t h)
  | error e t => exact leaves_of_error (bind_of_error h) (hm.of_error h)

variable [Std.Refl R] [IsTrans State R]

theorem leaves_forM (xs : List α) (f : α → EStateM ε State Unit)
    (hf : ∀ x ∈ xs, ∀ s, Leaves R (f x) s) (s : State) : Leaves R (xs.forM f) s := by
  induction xs generalizing s with
  | nil => exact leaves_pure () s
  | cons x xs ih =>
    show Leaves R (f x >>= fun _ => xs.forM f) s
    refine (hf x List.mem_cons_self s).bind fun _ t _ => ?_
    exact ih (fun y hy => hf y (List.mem_cons_of_mem _ hy)) t

end Leaving

/-! ## Results -/

section Yields

variable {α β : Type}

/-- What the step returns, if it returns, satisfies `P` with the state that it leaves. -/
def Yields {α : Type} (P : α → State → Prop) (m : Step α) (s : State) : Prop :=
  ∀ a t, m s = .ok a t → P a t

theorem yields_pure {P : α → State → Prop} {a : α} {s : State} (h : P a s) :
    Yields P (pure a) s := by
  intro b t hb
  cases hb
  exact h

theorem yields_skip {P : α → State → Prop} (p : Problem) (s : State) : Yields P (skip p) s := by
  intro b t hb
  cases hb

theorem yields_bind {P : β → State → Prop} {m : Step α} {f : α → Step β} {s : State}
    (h : ∀ a t, m s = .ok a t → Yields P (f a) t) : Yields P (m >>= f) s := by
  intro b u hb
  obtain ⟨a, t, hm, hf⟩ := bind_ok hb
  exact h a t hm b u hf

theorem yields_mapM {P : β → Prop} (xs : List α) (f : α → Step β)
    (hf : ∀ x s, Yields (fun y _ => P y) (f x) s) (s : State) :
    Yields (fun ys _ => ∀ y ∈ ys, P y) (xs.mapM f) s := by
  induction xs generalizing s with
  | nil => exact yields_pure (by simp)
  | cons x xs ih =>
    rw [List.mapM_cons]
    refine yields_bind fun y t hy => yields_bind fun ys u hys => yields_pure ?_
    intro z hz
    rcases List.mem_cons.mp hz with rfl | hz
    · exact hf x s _ t hy
    · exact ih t ys u hys z hz

end Yields

end ZAssembler.Assembly
