import HeapImage.Snapshot
import Mathlib.Algebra.Group.Nat.Defs
import Mathlib.Data.List.Nodup
import Mathlib.Data.List.Perm.Subperm

/-! # Walks that find the same nodes

A walk numbers the keys that it finds. Two walks over the same objects under different keys find
them in the same order, so they give the same nodes, provided that no two objects share a key.

* `Numbering.Sound`: numbers are positions.
* `Numbering.Among`: a numbering of keys of some kind.
* `Numbering.Renames`: two numberings of the same objects.
* `Snapshot.explore_renames`: walks that read the same nodes give the same snapshot.
* `Snapshot.explore_congr`: walks that read the same, or fail in the same way.
* `Snapshot.explore_mono`: walks that read the same where one of them does not fail.
* `Snapshot.Explores`, `Snapshot.exists_explores`: the walk without a bound, and when it ends.
* `Snapshot.explore_induction`: what every step of a walk preserves holds at its end. -/

namespace HeapImage

namespace Numbering

/-- The number of a key is its position in the list of keys. -/
def Sound (n : Numbering) : Prop :=
  ∀ key i : Nat, n.numbers[key]? = some i ↔ n.keys.toList[i]? = some key

/-- What is found after an insertion. -/
theorem getElem?_insert (numbers : Std.TreeMap Nat Nat) (key value key' : Nat) :
    (numbers.insert key value)[key']? = if key = key' then some value else numbers[key']? := by
  rw [Std.TreeMap.getElem?_insert]
  simp only [Nat.compare_eq_eq]

/-- A numbering that starts is sound. -/
theorem sound_start (root : Nat) : (start root).Sound := by
  intro key i
  change ((∅ : Std.TreeMap Nat Nat).insert root 0)[key]? = some i ↔ [root][i]? = some key
  rw [getElem?_insert, Std.TreeMap.getElem?_emptyc]
  cases i with
  | zero => simp
  | succ i => simp

/-- Every key is found once. -/
theorem Sound.nodup {n : Numbering} (h : n.Sound) : n.keys.toList.Nodup := by
  rw [List.nodup_iff_getElem?_ne_getElem?]
  intro i j hij hj heq
  rw [List.getElem?_eq_getElem hj] at heq
  have hi' := (h _ i).mpr heq
  rw [(h _ j).mpr (List.getElem?_eq_getElem hj)] at hi'
  exact absurd (Option.some.inj hi') (Nat.ne_of_gt hij)

/-- A key that has been found has its number, any other one is found now. -/
theorem Sound.number {n : Numbering} (h : n.Sound) (key : Nat) :
    (n.number key).2.Sound ∧
      (n.number key).2.keys.toList =
        (if key ∈ n.keys.toList then n.keys.toList else n.keys.toList ++ [key]) ∧
      (n.number key).1 = n.keys.toList.idxOf key := by
  rw [Numbering.number]
  cases hnumber : n.numbers[key]? with
  | some i =>
    have hi := (h key i).mp hnumber
    have hmem := List.mem_of_getElem? hi
    obtain ⟨hlt, hget⟩ := List.getElem?_eq_some_iff.mp hi
    dsimp only
    rw [if_pos hmem, ← hget, h.nodup.idxOf_getElem]
    exact ⟨h, rfl, rfl⟩
  | none =>
    have hmem : key ∉ n.keys.toList := by
      intro hmem
      obtain ⟨i, hi⟩ := List.mem_iff_getElem?.mp hmem
      rw [(h key i).mpr hi] at hnumber
      cases hnumber
    dsimp only
    rw [if_neg hmem, Array.toList_push, List.idxOf_eq_length hmem, Array.length_toList]
    refine ⟨?_, rfl, rfl⟩
    intro key' i
    change (n.numbers.insert key n.keys.size)[key']? = some i ↔ _
    rw [getElem?_insert, Array.toList_push]
    -- Numbers below the new one belong to old keys, the new one to this key, others to none.
    rcases Nat.lt_trichotomy i n.keys.size with hi | rfl | hi
    · rw [List.getElem?_append_left hi, ← h key' i]
      split
      · rename_i heq
        rw [← heq, hnumber]
        simp [Nat.ne_of_gt hi]
      · rfl
    · rw [← Array.length_toList, List.getElem?_concat_length]
      split
      · rename_i heq
        simp [heq]
      · rename_i hne
        constructor
        · intro hold
          have hget := (h key' _).mp hold
          rw [List.getElem?_eq_none (Nat.le_refl _)] at hget
          cases hget
        · intro heq
          exact absurd (Option.some.inj heq) hne
    · have hlen : (n.keys.toList ++ [key]).length ≤ i := by
        rw [List.length_append, Array.length_toList, List.length_singleton]
        omega
      rw [List.getElem?_eq_none hlen]
      split
      · simp [Nat.ne_of_lt hi]
      · constructor
        · intro hold
          have hget := (h key' i).mp hold
          rw [List.getElem?_eq_none (by rw [Array.length_toList]; omega)] at hget
          cases hget
        · intro hnone
          cases hnone

section

variable {Live : Nat → Prop} {n : Numbering} {key : Nat}

/-- A numbering of some of the keys. -/
structure Among (n : Numbering) (Live : Nat → Prop) : Prop where
  sound : n.Sound
  live : ∀ key ∈ n.keys.toList, Live key

/-- A numbering that starts has its root only. -/
theorem among_start {root : Nat} (hroot : Live root) : (start root).Among Live where
  sound := sound_start root
  live key hkey := by
    rw [List.mem_singleton.mp hkey]
    exact hroot

/-- Numbering a live key keeps the keys live. -/
theorem Among.number (h : n.Among Live) (hkey : Live key) : (n.number key).2.Among Live := by
  obtain ⟨hsound, hkeys, -⟩ := h.sound.number key
  refine ⟨hsound, ?_⟩
  intro a ha
  rw [hkeys] at ha
  split at ha
  · exact h.live a ha
  · rcases List.mem_append.mp ha with ha | ha
    · exact h.live a ha
    · rwa [List.mem_singleton.mp ha]

end

/-- Two numberings of the same objects, which go by keys in one and by other keys in the other. -/
structure Renames (rename : Nat → Nat) (Live : Nat → Prop) (n n' : Numbering) : Prop where
  sound : n.Sound
  sound' : n'.Sound
  live : ∀ key ∈ n.keys.toList, Live key
  keys : n'.keys.toList = n.keys.toList.map rename

section

variable {rename : Nat → Nat} {Live : Nat → Prop} {n n' : Numbering}

/-- Numberings that start are renamed by their roots. -/
theorem renames_start {root : Nat} (hroot : Live root) :
    (start root).Renames rename Live (start (rename root)) where
  sound := sound_start root
  sound' := sound_start (rename root)
  live key hkey := by
    rw [List.mem_singleton.mp hkey]
    exact hroot
  keys := rfl

/-- Renaming keeps the place of a key, if the key is not confused with others. -/
theorem idxOf_map {keys : List Nat} {key : Nat}
    (hinj : ∀ a ∈ keys, rename a = rename key → a = key) :
    (keys.map rename).idxOf (rename key) = keys.idxOf key := by
  induction keys with
  | nil => rfl
  | cons a keys ih =>
    rw [List.map_cons, List.idxOf_cons, List.idxOf_cons,
      ih fun b hb => hinj b (List.mem_cons_of_mem _ hb)]
    by_cases ha : a = key
    · rw [ha, beq_self_eq_true, beq_self_eq_true]
    · have hne : rename a ≠ rename key := fun heq => ha (hinj a (List.mem_cons_self ..) heq)
      rw [beq_false_of_ne ha, beq_false_of_ne hne]

/-- **Numbering a key** in both numberings gives it the same number. -/
theorem Renames.number (h : n.Renames rename Live n')
    (hinj : ∀ a b, Live a → Live b → rename a = rename b → a = b) {key : Nat} (hkey : Live key) :
    (n'.number (rename key)).1 = (n.number key).1 ∧
      (n.number key).2.Renames rename Live (n'.number (rename key)).2 ∧
      n.keys.size ≤ (n.number key).2.keys.size := by
  obtain ⟨hsound, hkeys, hindex⟩ := h.sound.number key
  obtain ⟨hsound', hkeys', hindex'⟩ := h.sound'.number (rename key)
  -- Renaming has to be injective only where both numberings have been.
  have hsame : rename key ∈ n.keys.toList.map rename ↔ key ∈ n.keys.toList := by
    rw [List.mem_map]
    constructor
    · rintro ⟨a, ha, heq⟩
      rwa [← hinj a key (h.live a ha) hkey heq]
    · intro hmem
      exact ⟨key, hmem, rfl⟩
  refine ⟨?_, ⟨hsound, hsound', ?_, ?_⟩, ?_⟩
  · rw [hindex, hindex', h.keys]
    exact idxOf_map fun a ha heq => hinj a key (h.live a ha) hkey heq
  · exact (Among.number ⟨h.sound, h.live⟩ hkey).live
  · rw [hkeys, hkeys', h.keys]
    by_cases hmem : key ∈ n.keys.toList
    · rw [if_pos hmem, if_pos (hsame.mpr hmem)]
    · rw [if_neg hmem, if_neg (fun hin => hmem (hsame.mp hin)), List.map_append, List.map_singleton]
  · rw [← Array.length_toList, ← Array.length_toList, hkeys]
    split
    · exact Nat.le_refl _
    · rw [List.length_append]
      exact Nat.le_add_right ..

end

end Numbering

namespace Snapshot

/-- **Two walks** that read the same nodes under different keys give the same nodes, if they may
read more nodes than there are live keys. -/
theorem explore_renames {ε : Type}
    {read read' : Nat → Numbering → Except ε (SnapshotNode × Numbering)}
    (rename : Nat → Nat) (Live : Nat → Prop) {bound : Nat}
    (hbound : ∀ keys : List Nat, keys.Nodup → (∀ key ∈ keys, Live key) → keys.length ≤ bound)
    (hread : ∀ key n n', Live key → n.Renames rename Live n' → ∃ node m m',
      read key n = .ok (node, m) ∧ read' (rename key) n' = .ok (node, m') ∧
        m.Renames rename Live m' ∧ n.keys.size ≤ m.keys.size)
    {fuel fuel' : Nat} {n n' : Numbering} {nodes : Array SnapshotNode}
    (h : n.Renames rename Live n') (hnodes : nodes.size ≤ n.keys.size)
    (hfuel : bound < fuel + nodes.size) (hfuel' : bound < fuel' + nodes.size) :
    ∃ result, explore read fuel n nodes = .ok result ∧
      explore read' fuel' n' nodes = .ok result := by
  have hkeys : n.keys.size ≤ bound := by
    rw [← Array.length_toList]
    exact hbound _ h.sound.nodup h.live
  -- On the fuel of one walk. The other walk has its own, which runs out no earlier: there are at
  -- most `bound` keys to be read, and each step reads one.
  induction fuel generalizing fuel' n n' nodes with
  | zero => omega
  | succ fuel ih =>
    cases fuel' with
    | zero => omega
    | succ fuel' =>
      rw [explore, explore, ← Array.getElem?_toList, ← Array.getElem?_toList, h.keys,
        List.getElem?_map]
      cases hkey : n.keys.toList[nodes.size]? with
      | none => exact ⟨nodes, rfl, rfl⟩
      | some key =>
        have hlive := h.live key (List.mem_of_getElem? hkey)
        have hlt := (List.getElem?_eq_some_iff.mp hkey).1
        rw [Array.length_toList] at hlt
        obtain ⟨node, m, m', hok, hok', hm, hle⟩ := hread key n n' hlive h
        rw [Option.map_some]
        dsimp only
        rw [hok, hok']
        have hsize : (nodes.push node).size = nodes.size + 1 := Array.size_push ..
        apply ih hm
        · omega
        · omega
        · omega
        · rw [← Array.length_toList]
          exact hbound _ hm.sound.nodup hm.live

/-- **Two walks** that read the same wherever they can come give the same nodes, if they may read
more nodes than there are places. -/
theorem explore_congr {ε : Type}
    {read read' : Nat → Numbering → Except ε (SnapshotNode × Numbering)} (Live : Nat → Prop)
    {bound : Nat}
    (hbound : ∀ keys : List Nat, keys.Nodup → (∀ key ∈ keys, Live key) → keys.length ≤ bound)
    (hread : ∀ key n, Live key → read' key n = read key n)
    (hstep : ∀ key n node m, Live key → n.Among Live → read key n = .ok (node, m) → m.Among Live)
    {fuel fuel' : Nat} {n : Numbering} {nodes : Array SnapshotNode} (h : n.Among Live)
    (hnodes : nodes.size ≤ bound) (hfuel : bound < fuel + nodes.size)
    (hfuel' : bound < fuel' + nodes.size) :
    explore read' fuel' n nodes = explore read fuel n nodes := by
  induction fuel generalizing fuel' n nodes with
  | zero => omega
  | succ fuel ih =>
    cases fuel' with
    | zero => omega
    | succ fuel' =>
      rw [explore, explore, ← Array.getElem?_toList]
      cases hkey : n.keys.toList[nodes.size]? with
      | none => rfl
      | some key =>
        have hlive := h.live key (List.mem_of_getElem? hkey)
        have hlt := (List.getElem?_eq_some_iff.mp hkey).1
        -- There cannot be more keys than places, so neither walk runs out of steps first.
        have hle := hbound _ h.sound.nodup h.live
        dsimp only
        rw [hread key n hlive]
        cases hnode : read key n with
        | error e => rfl
        | ok p =>
          have hsize : (nodes.push p.1).size = nodes.size + 1 := Array.size_push ..
          exact ih (hstep key n p.1 p.2 hlive h hnode) (by omega) (by omega) (by omega)

/-- **A walk** that comes to its end does so with other steps as well, if these read the same
wherever it can come. -/
theorem explore_mono {ε ε' : Type} {read : Nat → Numbering → Except ε (SnapshotNode × Numbering)}
    {read' : Nat → Numbering → Except ε' (SnapshotNode × Numbering)} (Live : Nat → Prop)
    (hstep : ∀ key n node m, Live key → n.Among Live → read key n = .ok (node, m) →
      read' key n = .ok (node, m) ∧ m.Among Live)
    {fuel : Nat} {n : Numbering} {nodes result : Array SnapshotNode} (hn : n.Among Live)
    (h : explore read fuel n nodes = .ok result) :
    explore read' fuel n nodes = .ok result := by
  induction fuel generalizing n nodes with
  | zero => exact congrArg Except.ok (Except.ok.inj h)
  | succ fuel ih =>
    rw [explore] at h ⊢
    cases hkey : n.keys[nodes.size]? with
    | none =>
      rw [hkey] at h
      exact congrArg Except.ok (Except.ok.inj h)
    | some key =>
      have hlive : Live key := hn.live key (Array.mem_toList_iff.mpr (Array.mem_of_getElem? hkey))
      rw [hkey] at h
      dsimp only at h ⊢
      cases hread : read key n with
      | error fault =>
        rw [hread] at h
        cases h
      | ok p =>
        obtain ⟨hread', hm⟩ := hstep key n p.1 p.2 hlive hn hread
        rw [hread] at h
        rw [hread']
        exact ih hm h

/-! ## Walks without a bound -/

section

variable {ε : Type} {read : Nat → Numbering → Except ε (SnapshotNode × Numbering)}

/-- The walk without a bound on its steps: it goes on until all nodes that were found are read. -/
inductive Explores (read : Nat → Numbering → Except ε (SnapshotNode × Numbering)) :
    Numbering → Array SnapshotNode → Numbering → Array SnapshotNode → Prop
  | stop {n : Numbering} {nodes : Array SnapshotNode} : n.keys[nodes.size]? = none →
    Explores read n nodes n nodes
  | step {n m n' : Numbering} {nodes nodes' : Array SnapshotNode} {key : Nat}
    {node : SnapshotNode} : n.keys[nodes.size]? = some key → read key n = .ok (node, m) →
    Explores read m (nodes.push node) n' nodes' → Explores read n nodes n' nodes'

variable {n m : Numbering} {nodes result : Array SnapshotNode} {fuel : Nat}

/-- An exploration never loses a node. -/
theorem Explores.size_le (h : Explores read n nodes m result) : nodes.size ≤ result.size := by
  induction h with
  | stop => exact Nat.le_refl _
  | step _ _ _ ih =>
    rw [Array.size_push] at ih
    exact Nat.le_of_succ_le ih

/-- A walk that may read all nodes there are to be read does so. -/
theorem Explores.explore_eq (h : Explores read n nodes m result)
    (hfuel : result.size ≤ fuel + nodes.size) : explore read fuel n nodes = .ok result := by
  induction h generalizing fuel with
  | stop hkey =>
    cases fuel with
    | zero => rfl
    | succ fuel => rw [explore, hkey]
  | step hkey hread hrest ih =>
    have hle := hrest.size_le
    rw [Array.size_push] at hle ih
    cases fuel with
    | zero => omega
    | succ fuel =>
      rw [explore, hkey]
      dsimp only
      rw [hread]
      exact ih (by omega)

/-- **A walk** that can always go on comes to an end, if it can find no more than so many keys. It
reads everything that it finds, and what each step preserves holds at the end. -/
theorem exists_explores (Inv : Numbering → Array SnapshotNode → Prop) {bound : Nat}
    (hbound : ∀ n nodes, Inv n nodes → nodes.size ≤ n.keys.size ∧ n.keys.size ≤ bound)
    (hstep : ∀ n nodes key, Inv n nodes → n.keys.toList[nodes.size]? = some key →
      ∃ node m, read key n = .ok (node, m) ∧ Inv m (nodes.push node)) (h : Inv n nodes) :
    ∃ m result, Explores read n nodes m result ∧ Inv m result ∧ result.size = m.keys.size := by
  -- On the number of nodes that can still be found.
  obtain ⟨rest, hrest⟩ : ∃ rest, bound ≤ rest + nodes.size := ⟨bound, Nat.le_add_right ..⟩
  induction rest generalizing n nodes with
  | zero =>
    obtain ⟨hle, hkeys⟩ := hbound n nodes h
    refine ⟨n, nodes, .stop (Array.getElem?_eq_none (by omega)), h, by omega⟩
  | succ rest ih =>
    cases hkey : n.keys.toList[nodes.size]? with
    | none =>
      have hle := List.getElem?_eq_none_iff.mp hkey
      rw [Array.length_toList] at hle
      rw [Array.getElem?_toList] at hkey
      exact ⟨n, nodes, .stop hkey, h, Nat.le_antisymm (hbound n nodes h).1 hle⟩
    | some key =>
      obtain ⟨node, m, hread, hm⟩ := hstep n nodes key h hkey
      rw [Array.getElem?_toList] at hkey
      obtain ⟨m', result, hexplores, hend⟩ := ih hm (by rw [Array.size_push]; omega)
      exact ⟨m', result, .step hkey hread hexplores, hend⟩

/-- **A walk** that can always go on reads everything that it finds, if it may read more nodes than
it can find keys; what each step preserves holds at the end. -/
theorem explore_induction (Inv : Numbering → Array SnapshotNode → Prop) {bound : Nat}
    (hbound : ∀ n nodes, Inv n nodes → nodes.size ≤ n.keys.size ∧ n.keys.size ≤ bound)
    (hstep : ∀ n nodes key, Inv n nodes → n.keys.toList[nodes.size]? = some key →
      ∃ node m, read key n = .ok (node, m) ∧ Inv m (nodes.push node)) (h : Inv n nodes)
    (hfuel : bound < fuel + nodes.size) :
    ∃ m result, explore read fuel n nodes = .ok result ∧ Inv m result ∧
      result.size = m.keys.size := by
  obtain ⟨m, result, hexplores, hend, hsize⟩ := exists_explores Inv hbound hstep h
  have hle := (hbound m result hend).2
  exact ⟨m, result, hexplores.explore_eq (by omega), hend, hsize⟩

end

end Snapshot

end HeapImage
