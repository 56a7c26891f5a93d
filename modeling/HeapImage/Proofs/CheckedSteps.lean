import HeapImage.Checked.Copy
import HeapImage.Proofs.Steps

/-! # Steps that go as the plain ones do

A checked step of a copy either comes to a fault or does what the plain step does. Which of the two
depends on facts about the state that earlier steps have established, and on the heap that the copy
ends with: an allocation beyond the last address shows in every later heap.

* `CheckedStep.Mirrors Fits P c f Q`: from states with `P`, the checked step `c` does what `f` does
  if the heap still `Fits` afterwards, and where `f` succeeds it leads to `Q`.
* `mirrors_bind`, `mirrors_check_bind`, `mirrors_forM`, …: one rule for each way to build steps. -/

namespace HeapImage

variable {μ α β : Type}

/-- The state that a step of a copy leaves, whether it succeeds or not. -/
def CopyStep.after (f : CopyStep μ α) (s : CopyState μ) : CopyState μ :=
  match f.run s with
  | (_, t) => t

namespace CopyStep

variable {f : CopyStep μ α} {s t : CopyState μ}

/-- The state after a step that succeeds. -/
theorem after_of_runs {x : α} (h : Runs f s x t) : after f s = t := by
  rw [after, show f.run s = _ from h]

/-- The state after two steps is that after the second, unless the first one fails. -/
theorem after_bind (g : α → CopyStep μ β) : after (f >>= g) s =
    match f.run s with
    | (.ok x, t) => after (g x) t
    | (.error _, t) => t := by
  rw [after, run_bind]
  rcases f.run s with ⟨e | x, t⟩ <;> rfl

end CopyStep

namespace CheckedStep

/-- The checked step `c` does what the plain step `f` does. -/
def Mirrors (Fits : μ → Prop) (P : CopyState μ → Prop) (c : CheckedStep μ α) (f : CopyStep μ α)
    (Q : α → CopyState μ → Prop) : Prop :=
  ∀ s, P s → (Fits (CopyStep.after f s).heap → Fits s.heap ∧ c.run s = .ok (f.run s)) ∧
    ∀ x t, Runs f s x t → Q x t

variable {Fits : μ → Prop} {P P' : CopyState μ → Prop} {Q Q' : α → CopyState μ → Prop}
variable {R : β → CopyState μ → Prop} {c : CheckedStep μ α} {f : CopyStep μ α}

/-- A step mirrors under a stronger condition before it and a weaker one after it. -/
theorem Mirrors.weaken (h : Mirrors Fits P' c f Q') (hpre : ∀ s, P s → P' s)
    (hpost : ∀ x t, Q' x t → Q x t) : Mirrors Fits P c f Q := by
  intro s hs
  obtain ⟨hrun, hresult⟩ := h s (hpre s hs)
  exact ⟨hrun, fun x t hx => hpost x t (hresult x t hx)⟩

/-- What holds from all states with `P` holds from one of them. -/
theorem Mirrors.startingAt (h : Mirrors Fits P c f Q) {s : CopyState μ} (hs : P s) :
    Mirrors Fits (· = s) c f Q :=
  h.weaken (fun _ ht => ht ▸ hs) fun _ _ => id

/-! ## Single steps -/

/-- A plain step mirrors itself if no heap fits after it that did not fit before. -/
theorem mirrors_plain (hback : ∀ s, P s → Fits (CopyStep.after f s).heap → Fits s.heap)
    (hpost : ∀ s x t, P s → Runs f s x t → Q x t) : Mirrors Fits P (plain f) f Q :=
  fun s hs => ⟨fun hfits => ⟨hback s hs hfits, rfl⟩, fun x t hx => hpost s x t hs hx⟩

/-- A value mirrors itself. -/
theorem mirrors_pure {x : α} (h : ∀ s, P s → Q x s) :
    Mirrors Fits P (pure x : CheckedStep μ α) (pure x) Q := by
  refine fun s hs => ⟨fun hfits => ⟨hfits, rfl⟩, ?_⟩
  rintro x t hx
  obtain ⟨rfl, rfl⟩ := runs_pure.mp hx
  exact h _ hs

/-- An error mirrors itself. -/
theorem mirrors_throw {e : ArchiveError} :
    Mirrors Fits P (throw e : CheckedStep μ α) (throw e) Q :=
  fun _ _ => ⟨fun hfits => ⟨hfits, rfl⟩, fun _ _ hx => absurd hx not_runs_throw⟩

/-- A change of a state that has been looked at leaves the heap alone. -/
theorem mirrors_set {g : CopyState μ → CopyState μ} {s : CopyState μ}
    {Q : PUnit → CopyState μ → Prop}
    (hheap : (g s).heap = s.heap) (h : Q ⟨⟩ (g s)) :
    Mirrors Fits (· = s) (plain (set (g s))) (modify g) Q := by
  rintro _ rfl
  refine ⟨fun hfits => ⟨?_, rfl⟩, ?_⟩
  · rw [← hheap]
    exact hfits
  · rintro _ _ ⟨⟩
    exact h

/-! ## Sequences -/

/-- **One step after another.** -/
theorem mirrors_bind {k : α → CheckedStep μ β} {g : α → CopyStep μ β} (h : Mirrors Fits P c f Q)
    (hk : ∀ x, Mirrors Fits (Q x) (k x) (g x) R) : Mirrors Fits P (c >>= k) (f >>= g) R := by
  intro s hs
  obtain ⟨hrun, hresult⟩ := h s hs
  constructor
  · intro hfits
    rw [CopyStep.after, run_bind] at hfits
    rw [run_bind]
    cases hf : f.run s with
    | mk r t =>
      rw [CopyStep.after, hf] at hrun
      rw [hf] at hfits
      cases r with
      | error e =>
        obtain ⟨hs, hc⟩ := hrun hfits
        refine ⟨hs, ?_⟩
        show (c.run s >>= fun r => _) = _
        rw [hc]
        rfl
      | ok x =>
        -- The heap still fits in between: the second step says so of its start.
        obtain ⟨ht, hnext⟩ := (hk x t (hresult x t hf)).1 hfits
        obtain ⟨hs, hc⟩ := hrun ht
        refine ⟨hs, ?_⟩
        show (c.run s >>= fun r => _) = _
        rw [hc]
        exact hnext
  · intro y u hy
    obtain ⟨x, t, hf, hg⟩ := runs_bind.mp hy
    exact (hk x t (hresult x t hf)).2 y u hg

/-- A check that passes wherever the heap fits, now and in the end, goes unseen. -/
theorem mirrors_check_bind {result : Checked β} (x : β) {k : β → CheckedStep μ α}
    (hcheck : ∀ s, P s → Fits s.heap → Fits (CopyStep.after f s).heap → result = .ok x)
    (h : Mirrors Fits P (k x) f Q) : Mirrors Fits P (check result >>= k) f Q := by
  intro s hs
  obtain ⟨hrun, hresult⟩ := h s hs
  refine ⟨fun hafter => ?_, hresult⟩
  obtain ⟨hfits, hk⟩ := hrun hafter
  rw [hcheck s hs hfits hafter]
  exact ⟨hfits, hk⟩

/-- A look at the state. -/
theorem mirrors_get_bind {k : CopyState μ → CheckedStep μ α} {g : CopyState μ → CopyStep μ α}
    (h : ∀ t, P t → Mirrors Fits (· = t) (k t) (g t) Q) :
    Mirrors Fits P (plain get >>= k) (get >>= g) Q :=
  fun s hs => h s hs s rfl

/-- A look at the state that only the checked step takes. -/
theorem mirrors_plain_get_bind {k : CopyState μ → CheckedStep μ α}
    (h : ∀ t, P t → Mirrors Fits (· = t) (k t) f Q) : Mirrors Fits P (plain get >>= k) f Q :=
  fun s hs => h s hs s rfl

/-- Both branches of a decision mirror if each does where it is taken. -/
theorem mirrors_ite {p : Prop} [Decidable p] {c' : CheckedStep μ α} {f' : CopyStep μ α}
    (htrue : p → Mirrors Fits P c f Q) (hfalse : ¬ p → Mirrors Fits P c' f' Q) :
    Mirrors Fits P (if p then c else c') (if p then f else f') Q := by
  split
  · rename_i hp
    exact htrue hp
  · rename_i hp
    exact hfalse hp

/-- **A loop** keeps what each of its steps keeps. -/
theorem mirrors_forM {xs : List β} {c : β → CheckedStep μ PUnit} {f : β → CopyStep μ PUnit}
    (h : ∀ x ∈ xs, Mirrors Fits P (c x) (f x) fun _ => P) :
    Mirrors Fits P (xs.forM c) (xs.forM f) fun _ => P := by
  induction xs with
  | nil => exact mirrors_pure fun s hs => hs
  | cons x xs ih =>
    obtain ⟨hx, hxs⟩ := List.forall_mem_cons.mp h
    exact mirrors_bind hx fun _ => ih hxs

end CheckedStep

end HeapImage
