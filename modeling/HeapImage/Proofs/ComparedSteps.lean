import HeapImage.Proofs.Steps

/-! # Steps taken twice

A step can be taken in two states, or two steps that differ in what they are given. Here is what it
takes for them to end alike: with the same value, or with two failures of which one determines the
other.

* `Alike E R f f' s s'`: the step `f'` ends as `f` does, and where `f` fails with `e`, it fails with
  `E e`; the states behind them are related.
* `alike_bind`, `alike_ofExcept_bind`, `alike_forM`, …: one rule for each way to build steps.
* `Except.bind_eq_mapError`, `Except.mapM_mapError`, …: the same for decisions, which have no
  state. -/

namespace HeapImage

variable {ε σ α β : Type} {E : ε → ε} {R : σ → σ → Prop} {s s' : σ}

/-- The step `f'` in state `s'` ends as `f` does in state `s`. -/
structure Alike (E : ε → ε) (R : σ → σ → Prop) (f f' : ExceptT ε (StateM σ) α) (s s' : σ) :
    Prop where
  /-- Both give the same value, or both fail. -/
  result : (f'.run s').1 = (f.run s).1.mapError E
  /-- The states that they leave are related, whether they succeed or not. -/
  state : R (f.run s).2 (f'.run s').2

/-! ## Single steps -/

/-- Equal values from related states. -/
theorem alike_pure {a a' : α} (hR : R s s') (ha : a' = a) :
    Alike E R (pure a : ExceptT ε (StateM σ) α) (pure a') s s' :=
  ⟨congrArg Except.ok ha, hR⟩

/-- Errors that correspond, from related states. -/
theorem alike_throw {e e' : ε} (hR : R s s') (he : e' = E e) :
    Alike E R (throw e : ExceptT ε (StateM σ) α) (throw e') s s' :=
  ⟨congrArg Except.error he, hR⟩

/-- Changes that keep states related. -/
theorem alike_modify {u u' : σ → σ} (hR : R (u s) (u' s')) :
    Alike E R (modify u : ExceptT ε (StateM σ) PUnit) (modify u') s s' :=
  ⟨rfl, hR⟩

/-- Both branches of a decision are alike if each is where it is taken. -/
theorem alike_ite {c : Prop} [Decidable c] {f f' k k' : ExceptT ε (StateM σ) α}
    (htrue : c → Alike E R f f' s s') (hfalse : ¬ c → Alike E R k k' s s') :
    Alike E R (if c then f else k) (if c then f' else k') s s' := by
  split
  · rename_i hc
    exact htrue hc
  · rename_i hc
    exact hfalse hc

/-! ## Sequences -/

/-- **One step after another.** -/
theorem alike_bind {f f' : ExceptT ε (StateM σ) α} {k k' : α → ExceptT ε (StateM σ) β}
    (h : Alike E R f f' s s') (hk : ∀ a t t', R t t' → Alike E R (k a) (k' a) t t') :
    Alike E R (f >>= k) (f' >>= k') s s' := by
  obtain ⟨hresult, hstate⟩ := h
  rcases hf : f.run s with ⟨r, t⟩
  rcases hf' : f'.run s' with ⟨r', t'⟩
  rw [hf, hf'] at hresult hstate
  dsimp only at hresult hstate
  subst hresult
  -- The second steps are taken only where both first steps give a value, and then the same one.
  cases r with
  | error e =>
    constructor <;> rw [run_bind, run_bind, hf, hf']
    · rfl
    · exact hstate
  | ok a =>
    obtain ⟨hresult, hstate⟩ := hk a t t' hstate
    constructor <;> rw [run_bind, run_bind, hf, hf']
    · exact hresult
    · exact hstate

/-- A look at the state. -/
theorem alike_get_bind {k k' : σ → ExceptT ε (StateM σ) α} (h : Alike E R (k s) (k' s') s s') :
    Alike E R (get >>= k) (get >>= k') s s' :=
  ⟨h.result, h.state⟩

/-- Changes before steps that are alike. -/
theorem alike_modify_bind {u u' : σ → σ} {k k' : PUnit → ExceptT ε (StateM σ) α}
    (h : Alike E R (k ⟨⟩) (k' ⟨⟩) (u s) (u' s')) :
    Alike E R (modify u >>= k) (modify u' >>= k') s s' :=
  ⟨h.result, h.state⟩

/-- Changes with results before steps that are alike. -/
theorem alike_modifyGet_bind {u u' : σ → β × σ} {k k' : β → ExceptT ε (StateM σ) α}
    (h : Alike E R (k (u s).1) (k' (u' s').1) (u s).2 (u' s').2) :
    Alike E R (modifyGet u >>= k) (modifyGet u' >>= k') s s' :=
  ⟨h.result, h.state⟩

/-- A test in front of two steps, which they both pass or both fail. -/
theorem alike_guard {c : Prop} [Decidable c] {e e' : ε} {k k' : β → ExceptT ε (StateM σ) α}
    {f f' : ExceptT ε (StateM σ) α} (hR : R s s') (he : e' = E e)
    (h : ¬ c → Alike E R f f' s s') :
    Alike E R (if c then throw e >>= k else f) (if c then throw e' >>= k' else f') s s' :=
  alike_ite (fun _ => ⟨congrArg Except.error he, hR⟩) h

/-- A decision that comes out alike, and what is done with it. -/
theorem alike_ofExcept_bind {r r' : Except ε β} {k k' : β → ExceptT ε (StateM σ) α} (hR : R s s')
    (hr : r' = r.mapError E) (hk : ∀ a, r = .ok a → Alike E R (k a) (k' a) s s') :
    Alike E R (MonadExcept.ofExcept r >>= k) (MonadExcept.ofExcept r' >>= k') s s' := by
  subst hr
  cases r with
  | error e => exact ⟨rfl, hR⟩
  | ok a => exact ⟨(hk a rfl).result, (hk a rfl).state⟩

/-- Discarding results keeps steps alike. -/
theorem alike_discard {f f' : ExceptT ε (StateM σ) α} (h : Alike E R f f' s s') :
    Alike E R (discard f) (discard f') s s' := by
  change Alike E R (f >>= fun _ => (pure ⟨⟩ : ExceptT ε (StateM σ) PUnit)) _ s s'
  exact alike_bind h fun _ _ _ hR => alike_pure hR rfl

/-- **A loop** ends alike if each of its rounds does, from any two related states. -/
theorem alike_forM {xs : List β} {k k' : β → ExceptT ε (StateM σ) PUnit} (hR : R s s')
    (h : ∀ x ∈ xs, ∀ t t', R t t' → Alike E R (k x) (k' x) t t') :
    Alike E R (xs.forM k) (xs.forM k') s s' := by
  induction xs generalizing s s' with
  | nil => exact alike_pure hR rfl
  | cons x xs ih =>
    obtain ⟨hx, hxs⟩ := List.forall_mem_cons.mp h
    exact alike_bind (hx s s' hR) fun _ t t' ht => ih ht hxs

/-! ## Decisions -/

/-- A decision behind another one. -/
theorem Except.bind_eq_mapError {r r' : Except ε α} {k k' : α → Except ε β}
    (hr : r' = r.mapError E) (hk : ∀ a, k' a = (k a).mapError E) :
    (r' >>= k') = (r >>= k).mapError E := by
  subst hr
  cases r with
  | error e => rfl
  | ok a => exact hk a

/-- The same if the value of the second one is determined by that of the first. -/
theorem Except.bind_map_eq_mapError {γ : Type} {r : Except ε α} {r' : Except ε γ} {h : α → γ}
    {k : α → Except ε β} {k' : γ → Except ε β} (hr : r' = (r.map h).mapError E)
    (hk : ∀ a, k' (h a) = (k a).mapError E) : (r' >>= k') = (r >>= k).mapError E := by
  subst hr
  cases r with
  | error e => rfl
  | ok a => exact hk a

/-- A guard in front of two computations that differ by names in their errors. -/
theorem Except.guard_eq_mapError {c : Prop} [Decidable c] {e e' : ε} {k k' : β → Except ε α}
    {r r' : Except ε α} (he : e' = E e) (hr : r' = r.mapError E) :
    (if c then throw e' >>= k' else r') = (if c then throw e >>= k else r).mapError E := by
  split
  · exact congrArg Except.error he
  · exact hr

/-- Decisions that come out alike one by one come out alike as a list. -/
theorem Except.mapM_mapError {f f' : α → Except ε β} {xs : List α}
    (h : ∀ x ∈ xs, f' x = (f x).mapError E) : xs.mapM f' = (xs.mapM f).mapError E := by
  induction xs with
  | nil => rfl
  | cons x xs ih =>
    obtain ⟨hx, hxs⟩ := List.forall_mem_cons.mp h
    rw [List.mapM_cons, List.mapM_cons, Except.mapError_bind, hx, ih hxs]
    refine congrArg _ (funext fun y => ?_)
    rw [Except.mapError_bind]
    rfl

end HeapImage
