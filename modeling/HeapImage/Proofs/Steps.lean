import Mathlib.Algebra.Group.Nat.Defs

/-! # Runs of steps

Dumps, relocations and copies are written as steps that carry a state and may fail. A statement
about a step that succeeds is a statement about its runs, taken apart at every bind.

* `Runs f s a t`: the step `f`, taken in state `s`, gives `a` and leaves the state `t`.
* `runs_bind`, `runs_get`, `runs_modify`, …: the runs of the steps that steps are built of.
* `runs_get_bind`, `runs_guard`, …: what comes behind a step of which all is known.
* `runs_forM_induction`: what a loop over a list keeps.
* `Fails f s e t`, `fails_bind`, `fails_forM`, …: the same for steps that fail.
* `Except.bind_eq_ok`, `Except.bind_eq_error`, `Except.guard_eq_ok`: the same for decisions, which
  have no state. -/

namespace HeapImage

/-- The step `f` taken in state `s` succeeds with `a` and leaves state `t`. -/
def Runs {ε σ α : Type} (f : ExceptT ε (StateM σ) α) (s : σ) (a : α) (t : σ) : Prop :=
  f.run s = (.ok a, t)

section

variable {ε σ α β : Type} {s t u : σ} {a : α} {b : β}

/-! ## Single steps -/

/-- A value runs to itself. -/
@[simp] theorem runs_pure {a' : α} :
    Runs (pure a : ExceptT ε (StateM σ) α) s a' t ↔ a' = a ∧ t = s := by
  change ((Except.ok a, s) : Except ε α × σ) = (.ok a', t) ↔ _
  simp [eq_comm]

/-- The second of two steps goes on where the first one succeeds. -/
theorem run_bind {f : ExceptT ε (StateM σ) α} {k : α → ExceptT ε (StateM σ) β} :
    (f >>= k).run s =
      match f.run s with
      | (.ok a, u) => (k a).run u
      | (.error e, u) => (.error e, u) := by
  change (match f.run s with | (r, u) => (ExceptT.bindCont k r).run u) = _
  rcases f.run s with ⟨r | r, u⟩ <;> rfl

/-- A sequence of two steps runs through a state between them. -/
@[simp] theorem runs_bind {f : ExceptT ε (StateM σ) α} {k : α → ExceptT ε (StateM σ) β} :
    Runs (f >>= k) s b t ↔ ∃ a u, Runs f s a u ∧ Runs (k a) u b t := by
  rw [Runs, run_bind]
  rcases hf : f.run s with ⟨e | a, u⟩
  · constructor
    · intro h
      cases h
    · rintro ⟨a, v, h, -⟩
      rw [Runs, hf] at h
      cases h
  · constructor
    · intro h
      exact ⟨a, u, hf, h⟩
    · rintro ⟨a', v, h, hk⟩
      rw [Runs, hf] at h
      cases h
      exact hk

/-- Reading the state runs to the state. -/
@[simp] theorem runs_get {a : σ} :
    Runs (get : ExceptT ε (StateM σ) σ) s a t ↔ a = s ∧ t = s := by
  change ((Except.ok s, s) : Except ε σ × σ) = (.ok a, t) ↔ _
  simp [eq_comm]

/-- A change runs to the changed state. -/
@[simp] theorem runs_modify {f : σ → σ} {a : PUnit} :
    Runs (modify f : ExceptT ε (StateM σ) PUnit) s a t ↔ t = f s := by
  change ((Except.ok ⟨⟩, f s) : Except ε PUnit × σ) = (.ok a, t) ↔ _
  simp [eq_comm]

/-- A change with a result runs to both. -/
@[simp] theorem runs_modifyGet {f : σ → α × σ} :
    Runs (modifyGet f : ExceptT ε (StateM σ) α) s a t ↔ a = (f s).1 ∧ t = (f s).2 := by
  change ((Except.ok (f s).1, (f s).2) : Except ε α × σ) = (.ok a, t) ↔ _
  simp [eq_comm]

/-- An error does not run. -/
@[simp] theorem not_runs_throw {e : ε} : ¬ Runs (throw e : ExceptT ε (StateM σ) α) s a t := by
  change ¬ ((Except.error e, s) : Except ε α × σ) = (.ok a, t)
  simp

/-- A decision is a step that leaves the state alone. -/
@[simp] theorem runs_ofExcept {r : Except ε α} :
    Runs (MonadExcept.ofExcept r : ExceptT ε (StateM σ) α) s a t ↔ r = .ok a ∧ t = s := by
  cases r with
  | error e =>
    change ((Except.error e, s) : Except ε α × σ) = (.ok a, t) ↔ _
    simp
  | ok a' =>
    change ((Except.ok a', s) : Except ε α × σ) = (.ok a, t) ↔ _
    simp [eq_comm]

/-- A step whose result is discarded runs if it does with any result. -/
@[simp] theorem runs_discard {f : ExceptT ε (StateM σ) α} {a : PUnit} :
    Runs (discard f) s a t ↔ ∃ a', Runs f s a' t := by
  change Runs (f >>= fun _ => (pure ⟨⟩ : ExceptT ε (StateM σ) PUnit)) s a t ↔ _
  rw [runs_bind]
  constructor
  · rintro ⟨a', u, hf, hp⟩
    rw [runs_pure] at hp
    exact ⟨a', hp.2 ▸ hf⟩
  · rintro ⟨a', hf⟩
    exact ⟨a', t, hf, runs_pure.mpr ⟨rfl, rfl⟩⟩

/-- A decision runs as the branch that is taken does. -/
@[simp] theorem runs_ite {c : Prop} [Decidable c] {f g : ExceptT ε (StateM σ) α} :
    Runs (if c then f else g) s a t ↔ (c ∧ Runs f s a t) ∨ (¬ c ∧ Runs g s a t) := by
  by_cases hc : c <;> simp [hc]

/-! ## First steps of a sequence -/

/-- A step behind reading the state. -/
theorem runs_get_bind {k : σ → ExceptT ε (StateM σ) β} :
    Runs (get >>= k) s b t ↔ Runs (k s) s b t := by
  rw [runs_bind]
  constructor
  · rintro ⟨a, u, hget, hk⟩
    obtain ⟨rfl, rfl⟩ := runs_get.mp hget
    exact hk
  · intro hk
    exact ⟨s, s, runs_get.mpr ⟨rfl, rfl⟩, hk⟩

/-- A step behind a change. -/
theorem runs_modify_bind {f : σ → σ} {k : PUnit → ExceptT ε (StateM σ) β} :
    Runs (modify f >>= k) s b t ↔ Runs (k ⟨⟩) (f s) b t := by
  rw [runs_bind]
  constructor
  · rintro ⟨a, u, hmodify, hk⟩
    rw [runs_modify] at hmodify
    rwa [← hmodify]
  · intro hk
    exact ⟨⟨⟩, f s, runs_modify.mpr rfl, hk⟩

/-- A step behind a change of the state runs from the changed one. -/
theorem run_modifyGet_bind {f : σ → α × σ} {k : α → ExceptT ε (StateM σ) β} :
    (modifyGet f >>= k).run s = (k (f s).1).run (f s).2 := rfl

/-- A step behind a change with a result. -/
theorem runs_modifyGet_bind {f : σ → α × σ} {k : α → ExceptT ε (StateM σ) β} :
    Runs (modifyGet f >>= k) s b t ↔ Runs (k (f s).1) (f s).2 b t := by
  rw [Runs, run_modifyGet_bind]
  rfl

/-- A step behind a result from elsewhere. -/
theorem runs_ofExcept_bind {r : Except ε α} {k : α → ExceptT ε (StateM σ) β} :
    Runs (MonadExcept.ofExcept r >>= k) s b t ↔ ∃ a, r = .ok a ∧ Runs (k a) s b t := by
  rw [runs_bind]
  constructor
  · rintro ⟨a, u, hrun, hk⟩
    obtain ⟨hr, rfl⟩ := runs_ofExcept.mp hrun
    exact ⟨a, hr, hk⟩
  · rintro ⟨a, hr, hk⟩
    exact ⟨a, s, runs_ofExcept.mpr ⟨hr, rfl⟩, hk⟩

/-- A step that goes on behind a test has passed the test. -/
theorem runs_guard {c : Prop} [Decidable c] {e : ε} {k : α → ExceptT ε (StateM σ) β}
    {f : ExceptT ε (StateM σ) β} :
    Runs (if c then throw e >>= k else f) s b t ↔ ¬ c ∧ Runs f s b t := by
  rw [runs_ite, runs_bind]
  constructor
  · rintro (⟨-, a, u, hthrow, -⟩ | h)
    · exact absurd hthrow not_runs_throw
    · exact h
  · intro h
    exact .inr h

/-! ## Loops -/

/-- An empty loop keeps the state. -/
@[simp] theorem runs_forM_nil {f : α → ExceptT ε (StateM σ) PUnit} {a : PUnit} :
    Runs (([] : List α).forM f) s a t ↔ t = s := by
  change Runs (pure ⟨⟩ : ExceptT ε (StateM σ) PUnit) s a t ↔ _
  simp

/-- A loop runs its first step and then the others. -/
@[simp] theorem runs_forM_cons {f : α → ExceptT ε (StateM σ) PUnit} {x : α} {xs : List α}
    {a : PUnit} :
    Runs ((x :: xs).forM f) s a t ↔ ∃ u, Runs (f x) s ⟨⟩ u ∧ Runs (xs.forM f) u a t := by
  change Runs (f x >>= fun _ => xs.forM f) s a t ↔ _
  rw [runs_bind]
  exact ⟨fun ⟨_, u, h⟩ => ⟨u, h⟩, fun ⟨u, h⟩ => ⟨⟨⟩, u, h⟩⟩

/-- A loop over images of a list. -/
theorem forM_map {f : β → ExceptT ε (StateM σ) PUnit} {k : α → β} {xs : List α} :
    (xs.map k).forM f = xs.forM fun x => f (k x) := by
  induction xs with
  | nil => rfl
  | cons x xs ih =>
    change f (k x) >>= _ = f (k x) >>= _
    exact congrArg _ (funext fun _ => ih)

/-- A loop over images of a list runs as the one over the list. -/
theorem runs_forM_map {f : β → ExceptT ε (StateM σ) PUnit} {k : α → β} {xs : List α} {a : PUnit} :
    Runs ((xs.map k).forM f) s a t ↔ Runs (xs.forM fun x => f (k x)) s a t := by
  rw [forM_map]

/-- A loop over two lists runs over one after the other. -/
theorem runs_forM_append {f : α → ExceptT ε (StateM σ) PUnit} {xs ys : List α} {a : PUnit} :
    Runs ((xs ++ ys).forM f) s a t ↔ ∃ u, Runs (xs.forM f) s ⟨⟩ u ∧ Runs (ys.forM f) u a t := by
  induction xs generalizing s with
  | nil => simp only [List.nil_append, runs_forM_nil, exists_eq_left]
  | cons x xs ih =>
    simp only [List.cons_append, runs_forM_cons, ih]
    exact ⟨fun ⟨u, hx, v, hxs, hys⟩ => ⟨v, ⟨u, hx, hxs⟩, hys⟩,
      fun ⟨v, ⟨u, hx, hxs⟩, hys⟩ => ⟨u, hx, v, hxs, hys⟩⟩

/-- A loop in a loop is one loop. -/
theorem runs_forM_flatMap {f : β → ExceptT ε (StateM σ) PUnit} {k : α → List β} {xs : List α}
    {a : PUnit} :
    Runs ((xs.flatMap k).forM f) s a t ↔ Runs (xs.forM fun x => (k x).forM f) s a t := by
  induction xs generalizing s with
  | nil => exact Iff.rfl
  | cons x xs ih =>
    rw [List.flatMap_cons, runs_forM_append, runs_forM_cons]
    simp only [ih]

/-- **Induction over a loop.** A relation between the elements taken so far and the state holds at
the end if it holds at the start and every round carries it on. -/
theorem runs_forM_induction {f : α → ExceptT ε (StateM σ) PUnit} (I : List α → σ → Prop)
    {xs : List α} {a : PUnit} (h : Runs (xs.forM f) s a t) (hstart : I [] s)
    (hround : ∀ done x rest s t, xs = done ++ x :: rest → I done s → Runs (f x) s ⟨⟩ t →
      I (done ++ [x]) t) : I xs t := by
  suffices hgen : ∀ rest done s, xs = done ++ rest → I done s → Runs (rest.forM f) s a t →
      I xs t from hgen xs [] s rfl hstart h
  intro rest
  induction rest with
  | nil =>
    intro done s hxs hI hrun
    rw [runs_forM_nil] at hrun
    rw [hxs, List.append_nil, hrun]
    exact hI
  | cons x rest ih =>
    intro done s hxs hI hrun
    obtain ⟨u, hx, hrest⟩ := runs_forM_cons.mp hrun
    apply ih (done ++ [x]) u
    · rw [hxs, List.append_assoc]
      rfl
    · exact hround done x rest s u hxs hI hx
    · exact hrest

end

/-! ## Failures -/

/-- The step `f` taken in state `s` fails with `e` and leaves state `t`. -/
def Fails {ε σ α : Type} (f : ExceptT ε (StateM σ) α) (s : σ) (e : ε) (t : σ) : Prop :=
  f.run s = (.error e, t)

section

variable {ε σ α β : Type} {s t u : σ} {a : α} {e : ε}

/-- A value does not fail. -/
@[simp] theorem not_fails_pure : ¬ Fails (pure a : ExceptT ε (StateM σ) α) s e t := by
  change ¬ ((Except.ok a, s) : Except ε α × σ) = (.error e, t)
  simp

/-- An error fails at once. -/
@[simp] theorem fails_throw {e' : ε} :
    Fails (throw e' : ExceptT ε (StateM σ) α) s e t ↔ e = e' ∧ t = s := by
  change ((Except.error e', s) : Except ε α × σ) = (.error e, t) ↔ _
  simp [eq_comm]

/-- A change does not fail. -/
@[simp] theorem not_fails_modify {f : σ → σ} :
    ¬ Fails (modify f : ExceptT ε (StateM σ) PUnit) s e t := by
  change ¬ ((Except.ok ⟨⟩, f s) : Except ε PUnit × σ) = (.error e, t)
  simp

/-- A result from elsewhere fails if it is an error. -/
@[simp] theorem fails_ofExcept {r : Except ε α} :
    Fails (MonadExcept.ofExcept r : ExceptT ε (StateM σ) α) s e t ↔ r = .error e ∧ t = s := by
  cases r with
  | error e' =>
    change ((Except.error e', s) : Except ε α × σ) = (.error e, t) ↔ _
    simp [eq_comm]
  | ok a' =>
    change ((Except.ok a', s) : Except ε α × σ) = (.error e, t) ↔ _
    simp

/-- A sequence of two steps fails in the first or behind it. -/
theorem fails_bind {f : ExceptT ε (StateM σ) α} {k : α → ExceptT ε (StateM σ) β} :
    Fails (f >>= k) s e t ↔ Fails f s e t ∨ ∃ a u, Runs f s a u ∧ Fails (k a) u e t := by
  rw [Fails, Fails, run_bind]
  rcases hf : f.run s with ⟨e' | a, u⟩
  · constructor
    · intro h
      cases h
      exact .inl rfl
    · rintro (h | ⟨a, v, h, -⟩)
      · cases h
        rfl
      · rw [Runs, hf] at h
        cases h
  · constructor
    · intro h
      exact .inr ⟨a, u, hf, h⟩
    · rintro (h | ⟨a', v, h, hk⟩)
      · cases h
      · rw [Runs, hf] at h
        cases h
        exact hk

/-- A step behind reading the state fails on its own. -/
theorem fails_get_bind {k : σ → ExceptT ε (StateM σ) β} :
    Fails (get >>= k) s e t ↔ Fails (k s) s e t :=
  Iff.rfl

/-- A step behind a change fails on its own. -/
theorem fails_modify_bind {f : σ → σ} {k : PUnit → ExceptT ε (StateM σ) β} :
    Fails (modify f >>= k) s e t ↔ Fails (k ⟨⟩) (f s) e t :=
  Iff.rfl

/-- A step behind a change with a result fails on its own. -/
theorem fails_modifyGet_bind {f : σ → α × σ} {k : α → ExceptT ε (StateM σ) β} :
    Fails (modifyGet f >>= k) s e t ↔ Fails (k (f s).1) (f s).2 e t :=
  Iff.rfl

/-- A step behind a result from elsewhere fails by that or on its own. -/
theorem fails_ofExcept_bind {r : Except ε α} {k : α → ExceptT ε (StateM σ) β} :
    Fails (MonadExcept.ofExcept r >>= k) s e t ↔
      (r = .error e ∧ t = s) ∨ ∃ a, r = .ok a ∧ Fails (k a) s e t := by
  rw [fails_bind, fails_ofExcept]
  constructor
  · rintro (h | ⟨a, u, hrun, hk⟩)
    · exact .inl h
    · obtain ⟨hr, rfl⟩ := runs_ofExcept.mp hrun
      exact .inr ⟨a, hr, hk⟩
  · rintro (h | ⟨a, hr, hk⟩)
    · exact .inl h
    · exact .inr ⟨a, s, runs_ofExcept.mpr ⟨hr, rfl⟩, hk⟩

/-- A decision fails as the branch that is taken does. -/
theorem fails_ite {c : Prop} [Decidable c] {f g : ExceptT ε (StateM σ) α} :
    Fails (if c then f else g) s e t ↔ (c ∧ Fails f s e t) ∨ (¬ c ∧ Fails g s e t) := by
  by_cases hc : c <;> simp [hc]

/-- A step behind a test fails because of the test or behind it. -/
theorem fails_guard {c : Prop} [Decidable c] {e' : ε} {k : α → ExceptT ε (StateM σ) β}
    {f : ExceptT ε (StateM σ) β} :
    Fails (if c then throw e' >>= k else f) s e t ↔ (c ∧ e = e' ∧ t = s) ∨ ¬ c ∧ Fails f s e t := by
  rw [fails_ite, fails_bind, fails_throw]
  constructor
  · rintro (⟨hc, h | ⟨a, u, hthrow, -⟩⟩ | h)
    · exact .inl ⟨hc, h⟩
    · exact absurd hthrow not_runs_throw
    · exact .inr h
  · rintro (⟨hc, h⟩ | h)
    · exact .inl ⟨hc, .inl h⟩
    · exact .inr h

/-- A step whose result is discarded fails as it does. -/
@[simp] theorem fails_discard {f : ExceptT ε (StateM σ) α} :
    Fails (discard f) s e t ↔ Fails f s e t := by
  change Fails (f >>= fun _ => (pure ⟨⟩ : ExceptT ε (StateM σ) PUnit)) s e t ↔ _
  rw [fails_bind]
  constructor
  · rintro (h | ⟨a, u, -, h⟩)
    · exact h
    · exact absurd h not_fails_pure
  · exact .inl

/-- A loop fails in one of its rounds, behind those before it. -/
theorem fails_forM {f : α → ExceptT ε (StateM σ) PUnit} {xs : List α} :
    Fails (xs.forM f) s e t ↔ ∃ done x rest u, xs = done ++ x :: rest ∧
      Runs (done.forM f) s ⟨⟩ u ∧ Fails (f x) u e t := by
  induction xs generalizing s with
  | nil =>
    constructor
    · intro h
      exact absurd h not_fails_pure
    · rintro ⟨done, x, rest, u, hxs, -⟩
      exact absurd hxs.symm (List.append_ne_nil_of_right_ne_nil _ (List.cons_ne_nil _ _))
  | cons x xs ih =>
    change Fails (f x >>= fun _ => xs.forM f) s e t ↔ _
    rw [fails_bind]
    constructor
    · -- The first round fails, or it runs and a later one fails.
      rintro (h | ⟨_, u, hx, h⟩)
      · exact ⟨[], x, xs, s, rfl, runs_forM_nil.mpr rfl, h⟩
      · obtain ⟨done, y, rest, v, rfl, hdone, hfail⟩ := ih.mp h
        exact ⟨x :: done, y, rest, v, rfl, runs_forM_cons.mpr ⟨u, hx, hdone⟩, hfail⟩
    · rintro ⟨done, y, rest, v, hxs, hdone, hfail⟩
      cases done with
      | nil =>
        obtain ⟨rfl, rfl⟩ := List.cons.inj hxs
        rw [runs_forM_nil.mp hdone] at hfail
        exact .inl hfail
      | cons z done =>
        obtain ⟨rfl, rfl⟩ := List.cons.inj hxs
        obtain ⟨u, hx, hdone⟩ := runs_forM_cons.mp hdone
        exact .inr ⟨⟨⟩, u, hx, ih.mpr ⟨done, y, rest, v, rfl, hdone, hfail⟩⟩

/-- A loop gets to its end if every round can be made where those before it lead. -/
theorem exists_runs_forM (f : α → ExceptT ε (StateM σ) PUnit) (xs : List α)
    (I : List α → σ → Prop) (hstart : I [] s)
    (hround : ∀ done x rest s, xs = done ++ x :: rest → I done s →
      ∃ t, Runs (f x) s ⟨⟩ t ∧ I (done ++ [x]) t) : ∃ t, Runs (xs.forM f) s ⟨⟩ t ∧ I xs t := by
  suffices hgen : ∀ rest done s, xs = done ++ rest → I done s →
      ∃ t, Runs (rest.forM f) s ⟨⟩ t ∧ I xs t from hgen xs [] s rfl hstart
  intro rest
  induction rest with
  | nil =>
    intro done s hxs hI
    rw [List.append_nil] at hxs
    exact ⟨s, runs_forM_nil.mpr rfl, hxs ▸ hI⟩
  | cons x rest ih =>
    intro done s hxs hI
    obtain ⟨u, hx, hI'⟩ := hround done x rest s hxs hI
    obtain ⟨t, hrest, hend⟩ := ih (done ++ [x]) u (by rw [hxs, List.append_assoc]; rfl) hI'
    exact ⟨t, runs_forM_cons.mpr ⟨u, hx, hrest⟩, hend⟩

end

/-! ## Decisions -/

section

variable {ε α β : Type}

/-- Two computations one after the other have a result exactly if both do. -/
theorem Except.bind_eq_ok {r : Except ε α} {k : α → Except ε β} {b : β} :
    (r >>= k) = .ok b ↔ ∃ a, r = .ok a ∧ k a = .ok b := by
  cases r with
  | error e =>
    change (Except.error e : Except ε β) = .ok b ↔ _
    simp
  | ok a =>
    change k a = .ok b ↔ _
    simp

/-- Two computations fail by the first or by the second. -/
theorem Except.bind_eq_error {r : Except ε α} {k : α → Except ε β} {e : ε} :
    (r >>= k) = .error e ↔ r = .error e ∨ ∃ a, r = .ok a ∧ k a = .error e := by
  cases r with
  | error e' =>
    change (Except.error e' : Except ε β) = .error e ↔ _
    simp
  | ok a =>
    change k a = .error e ↔ _
    simp

/-- A value is its own result. -/
theorem Except.pure_eq_ok {a b : α} : (pure a : Except ε α) = .ok b ↔ a = b := by
  change (Except.ok a : Except ε α) = .ok b ↔ _
  simp

/-- A decision that is seen to give something that passes a test does so. -/
theorem Except.exists_of_any {r : Except ε α} {p : α → Bool} (h : r.toOption.any p = true) :
    ∃ a, r = .ok a ∧ p a = true := by
  cases r with
  | error e => cases h
  | ok a => exact ⟨a, rfl, h⟩

/-- A check that passes has one result only. -/
theorem Except.eq_ok_of_isOk {r : Except ε Unit} (h : r.isOk = true) : r = .ok () := by
  cases r with
  | error e => cases h
  | ok u => rfl

/-- The same for a decision that leaves a state. -/
theorem Except.exists_of_any_state {σ : Type} {r : Except ε α × σ} {p : α → σ → Bool}
    (h : (r.1.toOption.any fun a => p a r.2) = true) :
    ∃ a s, r = (.ok a, s) ∧ p a s = true := by
  obtain ⟨r, s⟩ := r
  obtain ⟨a, rfl, hp⟩ := Except.exists_of_any h
  exact ⟨a, s, rfl, hp⟩

/-- A decision that goes on behind a test has passed the test. -/
theorem Except.guard_eq_ok {c : Prop} [Decidable c] {e : ε} {k : α → Except ε β} {r : Except ε β}
    {b : β} : (if c then throw e >>= k else r) = .ok b ↔ ¬ c ∧ r = .ok b := by
  split
  · rename_i hc
    constructor
    · intro h
      cases h
    · intro h
      exact absurd hc h.1
  · rename_i hc
    exact ⟨fun h => ⟨hc, h⟩, fun h => h.2⟩

/-- A list of decisions succeeds with the results of its elements. -/
theorem Except.mapM_eq_ok {f : α → Except ε β} {xs : List α} {ys : List β}
    (h : xs.mapM f = .ok ys) :
    (∀ x ∈ xs, ∃ y ∈ ys, f x = .ok y) ∧ ∀ y ∈ ys, ∃ x ∈ xs, f x = .ok y := by
  induction xs generalizing ys with
  | nil =>
    cases h
    constructor
    · intro x hx
      cases hx
    · intro y hy
      cases hy
  | cons x xs ih =>
    rw [List.mapM_cons, Except.bind_eq_ok] at h
    obtain ⟨y, hy, h⟩ := h
    obtain ⟨zs, hzs, h⟩ := Except.bind_eq_ok.mp h
    cases h
    obtain ⟨hforth, hback⟩ := ih hzs
    constructor
    · intro x' hx'
      rcases List.mem_cons.mp hx' with rfl | hx'
      · exact ⟨y, List.mem_cons_self .., hy⟩
      · obtain ⟨z, hz, hf⟩ := hforth x' hx'
        exact ⟨z, List.mem_cons_of_mem _ hz, hf⟩
    · intro z hz
      rcases List.mem_cons.mp hz with rfl | hz
      · exact ⟨x, List.mem_cons_self .., hy⟩
      · obtain ⟨x', hx', hf⟩ := hback z hz
        exact ⟨x', List.mem_cons_of_mem _ hx', hf⟩

/-- A list of decisions succeeds if each of them does. -/
theorem Except.exists_mapM {f : α → Except ε β} {xs : List α} :
    (∃ ys, xs.mapM f = .ok ys) ↔ ∀ x ∈ xs, ∃ y, f x = .ok y := by
  constructor
  · rintro ⟨ys, hys⟩ x hx
    obtain ⟨y, -, hy⟩ := (mapM_eq_ok hys).1 x hx
    exact ⟨y, hy⟩
  · intro h
    induction xs with
    | nil => exact ⟨[], rfl⟩
    | cons x xs ih =>
      obtain ⟨⟨y, hy⟩, hxs⟩ := List.forall_mem_cons.mp h
      obtain ⟨ys, hys⟩ := ih hxs
      refine ⟨y :: ys, ?_⟩
      rw [List.mapM_cons]
      exact bind_eq_ok.mpr ⟨y, hy, bind_eq_ok.mpr ⟨ys, hys, rfl⟩⟩

/-- What one step keeps, a loop that succeeds keeps. -/
theorem Except.foldlM_induction {σ : Type} {f : σ → α → Except ε σ} (I : List α → σ → Prop)
    {xs : List α} {s t : σ} (h : xs.foldlM f s = .ok t) (hstart : I [] s)
    (hstep : ∀ done x w w', x ∈ xs → I done w → f w x = .ok w' → I (done ++ [x]) w') : I xs t := by
  suffices hrest : ∀ done rest s, rest.foldlM f s = .ok t → (∀ x ∈ rest, x ∈ xs) → I done s →
      I (done ++ rest) t from hrest [] xs s h (fun _ hx => hx) hstart
  intro done rest
  induction rest generalizing done with
  | nil =>
    intro s h _ hI
    rw [List.append_nil, ← Except.ok.inj h]
    exact hI
  | cons x rest ih =>
    intro s h hmem hI
    rw [List.foldlM_cons, Except.bind_eq_ok] at h
    obtain ⟨w, hw, h⟩ := h
    have hx := hstep done x s w (hmem x (List.mem_cons_self ..)) hI hw
    have hall := ih (done ++ [x]) w h (fun y hy => hmem y (List.mem_cons_of_mem _ hy)) hx
    rwa [List.append_assoc] at hall

/-- Renamed errors of two computations are those of each. -/
theorem Except.mapError_bind {ε' : Type} (e : ε → ε') (r : Except ε α) (k : α → Except ε β) :
    (r >>= k).mapError e = r.mapError e >>= fun a => (k a).mapError e := by
  cases r <;> rfl

/-- Renaming errors keeps results. -/
theorem Except.mapError_eq_ok {ε' : Type} {e : ε → ε'} {r : Except ε α} {a : α} :
    r.mapError e = .ok a ↔ r = .ok a := by
  cases r with
  | error f => constructor <;> (intro h; cases h)
  | ok b => constructor <;> (intro h; cases h; rfl)

/-- A loop whose steps fail in other words fails in other words. -/
theorem Except.foldlM_mapError {ε' σ : Type} {e : ε → ε'} {f : σ → α → Except ε σ}
    {g : σ → α → Except ε' σ} {xs : List α} (h : ∀ x ∈ xs, ∀ s, g s x = (f s x).mapError e)
    (s : σ) : xs.foldlM g s = (xs.foldlM f s).mapError e := by
  induction xs generalizing s with
  | nil => rfl
  | cons x xs ih =>
    obtain ⟨hx, hxs⟩ := List.forall_mem_cons.mp h
    rw [List.foldlM_cons, List.foldlM_cons, Except.mapError_bind, hx]
    exact congrArg _ (funext (ih hxs))

/-- A loop that succeeds does so with other steps as well, if these succeed wherever its own do. -/
theorem Except.foldlM_mono {ε' σ : Type} {f : σ → α → Except ε σ} {g : σ → α → Except ε' σ}
    {xs : List α} {s t : σ} (h : ∀ x ∈ xs, ∀ s t, f s x = .ok t → g s x = .ok t)
    (hloop : xs.foldlM f s = .ok t) : xs.foldlM g s = .ok t := by
  induction xs generalizing s with
  | nil => exact congrArg Except.ok (Except.ok.inj hloop)
  | cons x xs ih =>
    obtain ⟨hx, hxs⟩ := List.forall_mem_cons.mp h
    rw [List.foldlM_cons, bind_eq_ok] at hloop ⊢
    obtain ⟨w, hw, hrest⟩ := hloop
    exact ⟨w, hx s w hw, ih hxs hrest⟩

/-- A loop gets to its end if every step can be made where something holds, and keeps it. -/
theorem Except.exists_foldlM {σ : Type} (f : σ → α → Except ε σ) (xs : List α) (I : σ → Prop)
    {s : σ}
    (hstart : I s) (hstep : ∀ x ∈ xs, ∀ w, I w → ∃ w', f w x = .ok w' ∧ I w') :
    ∃ t, xs.foldlM f s = .ok t ∧ I t := by
  induction xs generalizing s with
  | nil => exact ⟨s, rfl, hstart⟩
  | cons x xs ih =>
    obtain ⟨w, hw, hI⟩ := hstep x (List.mem_cons_self ..) s hstart
    obtain ⟨t, ht, hIt⟩ := ih hI fun y hy => hstep y (List.mem_cons_of_mem _ hy)
    exact ⟨t, by rw [List.foldlM_cons, Except.bind_eq_ok]; exact ⟨w, hw, ht⟩, hIt⟩

/-- A loop whose steps never fail goes through what they do. -/
theorem Except.foldlM_eq_foldl {σ : Type} {f : σ → α → Except ε σ} {k : σ → α → σ} {xs : List α}
    (h : ∀ x ∈ xs, ∀ s, f s x = .ok (k s x)) (s : σ) : xs.foldlM f s = .ok (xs.foldl k s) := by
  induction xs generalizing s with
  | nil => rfl
  | cons x xs ih =>
    rw [List.foldlM_cons, List.foldl_cons, h x (List.mem_cons_self ..)]
    exact ih (fun y hy => h y (List.mem_cons_of_mem _ hy)) _

/-- **A loop of tests** succeeds exactly if every element passes its test, and goes through what
the steps do. -/
theorem Except.foldlM_eq_ok {σ : Type} {f : σ → α → Except ε σ} {P : α → Prop} {k : σ → α → σ}
    {xs : List α} {s t : σ} (h : ∀ x ∈ xs, ∀ s t, f s x = .ok t ↔ P x ∧ t = k s x) :
    xs.foldlM f s = .ok t ↔ (∀ x ∈ xs, P x) ∧ t = xs.foldl k s := by
  induction xs generalizing s with
  | nil =>
    change (Except.ok s : Except ε σ) = .ok t ↔ _
    simp [eq_comm]
  | cons x xs ih =>
    obtain ⟨hx, hxs⟩ := List.forall_mem_cons.mp h
    rw [List.foldlM_cons, Except.bind_eq_ok, List.forall_mem_cons, List.foldl_cons]
    constructor
    · rintro ⟨w, hw, hrest⟩
      obtain ⟨hP, rfl⟩ := (hx s w).mp hw
      obtain ⟨hall, rfl⟩ := (ih hxs).mp hrest
      exact ⟨⟨hP, hall⟩, rfl⟩
    · rintro ⟨⟨hP, hall⟩, rfl⟩
      exact ⟨_, (hx s _).mpr ⟨hP, rfl⟩, (ih hxs).mpr ⟨hall, rfl⟩⟩

/-- A loop of checks passes exactly if each of them does. -/
theorem Except.forM_eq_ok {f : α → Except ε Unit} {xs : List α} {u : Unit} :
    xs.forM f = .ok u ↔ ∀ x ∈ xs, f x = .ok ⟨⟩ := by
  induction xs with
  | nil =>
    change (Except.ok ⟨⟩ : Except ε Unit) = .ok u ↔ _
    simp
  | cons x xs ih =>
    change (f x >>= fun _ => xs.forM f) = .ok u ↔ _
    rw [Except.bind_eq_ok, List.forall_mem_cons, ih]
    exact ⟨fun ⟨_, hx, hxs⟩ => ⟨hx, hxs⟩, fun ⟨hx, hxs⟩ => ⟨⟨⟩, hx, hxs⟩⟩

/-- A list of decisions fails because of one of its elements. -/
theorem Except.exists_of_forM_error {f : α → Except ε Unit} {xs : List α} {e : ε}
    (h : xs.forM f = .error e) : ∃ x ∈ xs, f x = .error e := by
  induction xs with
  | nil => cases h
  | cons x xs ih =>
    change (f x >>= fun _ => xs.forM f) = .error e at h
    rcases Except.bind_eq_error.mp h with hx | ⟨_, -, hxs⟩
    · exact ⟨x, List.mem_cons_self .., hx⟩
    · obtain ⟨y, hy, hfail⟩ := ih hxs
      exact ⟨y, List.mem_cons_of_mem _ hy, hfail⟩

end

end HeapImage
