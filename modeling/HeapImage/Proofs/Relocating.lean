import HeapImage.Proofs.Assembling
import HeapImage.Proofs.BitMapSearch

/-! # Relocation in a dump

Relocation goes through the reference slots of all copied members, replaces every identity by the
stored form of the requested address of its referent, and records where it has been.

* `DumpSession.Relocated`: the output after some slots have been met.
* `DumpSession.Relocated.slot`: one more slot.
* `DumpSession.relocated_of_runs`: all slots of all members.
* `DumpSession.exists_runs_relocateObject`: what it takes to come to the end. -/

namespace HeapImage.DumpSession

variable {s : DumpSession} {q : RequestedRegions} {b : ByteArray} {u u' : Relocation}
variable {g : ObjectGraph} {r : TypeRegistry} {roots : List ObjectId}

/-- What relocation makes of the number in a slot: null stays null, and an identity becomes the
stored address of its referent. -/
def IsRelocated (s : DumpSession) (q : RequestedRegions) (position old new : Nat) : Prop :=
  (old = 0 ∧ new = 0) ∨
    old ≠ 0 ∧ ∃ value, s.encodeIdentity q position old = .ok value ∧ new = value % 256 ^ s.slotSize

/-- The output `b` after the slots at some positions have been met. -/
structure Relocated (s : DumpSession) (q : RequestedRegions) (b : ByteArray) (positions : List Nat)
    (u : Relocation) : Prop where
  size : u.output.size = b.size
  rewrites : Rewrites s.slotSize (s.IsRelocated q) positions (Bytes.get b) (Bytes.get u.output)
  bits : u.recorded.size = b.size / s.slotSize
  recorded : ∀ i, u.recorded.contains i = true ↔ ∃ p ∈ positions, p / s.slotSize = i

/-- Nothing has been relocated yet. -/
theorem relocated_start (s : DumpSession) (q : RequestedRegions) (b : ByteArray) :
    s.Relocated q b [] ⟨b, BitMap.empty (b.size / s.slotSize)⟩ where
  size := rfl
  rewrites := .nil
  bits := rfl
  recorded i := by simp

/-- Recording a slot runs exactly if it has a bit, which is set. -/
theorem runs_recordSlot {slot offset : Nat} {v : Unit} :
    Runs (recordSlot slot offset) u v u' ↔
      offset / slot < u.recorded.size ∧
        u' = { u with recorded := u.recorded.insert (offset / slot) } := by
  rw [recordSlot, runs_get_bind, runs_guard, runs_modify, Nat.not_le]

/-- A slot that holds null is only recorded; an identity is replaced, too. -/
theorem of_runs_relocateSlot {offset : Nat} {v : Unit}
    (h : Runs (relocateSlot s q offset) u v u') :
    offset / s.slotSize < u.recorded.size ∧
      ∃ output, u' = ⟨output, u.recorded.insert (offset / s.slotSize)⟩ ∧
        ((Bytes.valueAt u.output offset s.slotSize = 0 ∧ output = u.output) ∨
          Bytes.valueAt u.output offset s.slotSize ≠ 0 ∧ ∃ value,
            s.encodeIdentity q offset (Bytes.valueAt u.output offset s.slotSize) = .ok value ∧
            output = Bytes.setValue u.output offset s.slotSize value) := by
  rw [relocateSlot, runs_bind] at h
  obtain ⟨v', u'', hrecord, h⟩ := h
  obtain ⟨hbit, rfl⟩ := runs_recordSlot.mp hrecord
  rw [runs_get_bind, runs_ite] at h
  refine ⟨hbit, ?_⟩
  rcases h with ⟨hne, h⟩ | ⟨hzero, h⟩
  · rw [runs_ofExcept_bind] at h
    obtain ⟨value, hvalue, h⟩ := h
    rw [runs_modify] at h
    exact ⟨_, h, .inr ⟨hne, value, hvalue, rfl⟩⟩
  · obtain ⟨-, rfl⟩ := runs_pure.mp h
    exact ⟨_, rfl, .inl ⟨not_not.mp hzero, rfl⟩⟩

/-- **One more slot**, which lies in the output and apart from those before. -/
theorem Relocated.slot {positions : List Nat} {offset : Nat} {v : Unit}
    (h : s.Relocated q b positions u)
    (hapart : ∀ p ∈ positions, Apart s.slotSize p offset) (hinside : offset + s.slotSize ≤ b.size)
    (hrun : Runs (relocateSlot s q offset) u v u') :
    s.Relocated q b (positions ++ [offset]) u' := by
  obtain ⟨hbit, output, rfl, hcases⟩ := of_runs_relocateSlot hrun
  have hsize : output.size = u.output.size := by
    rcases hcases with ⟨-, rfl⟩ | ⟨-, value, -, rfl⟩
    · rfl
    · exact Bytes.size_setValue ..
  refine ⟨hsize.trans h.size, h.rewrites.step hapart ?_ ?_, ?_, ?_⟩
  · intro j hj
    rcases hcases with ⟨-, rfl⟩ | ⟨-, value, -, rfl⟩
    · rfl
    · rw [Bytes.get_setValue, if_neg (by omega)]
  · rw [← Bytes.valueAt_eq_number, ← Bytes.valueAt_eq_number]
    -- Null stays null, and an identity is replaced.
    rcases hcases with ⟨hzero, rfl⟩ | ⟨hne, value, hvalue, rfl⟩
    · exact .inl ⟨hzero, hzero⟩
    · refine .inr ⟨hne, value, hvalue, ?_⟩
      exact Bytes.valueAt_setValue_self (by rw [h.size]; exact hinside) value
  · rw [BitMap.size_insert, h.bits]
  · intro i
    rw [BitMap.contains_insert hbit, Bool.or_eq_true, decide_eq_true_eq, h.recorded]
    constructor
    · rintro (rfl | ⟨p, hp, rfl⟩)
      · exact ⟨offset, by simp, rfl⟩
      · exact ⟨p, List.mem_append_left _ hp, rfl⟩
    · rintro ⟨p, hp, rfl⟩
      rcases List.mem_append.mp hp with hp | hp
      · exact .inr ⟨p, hp, rfl⟩
      · rw [List.mem_singleton.mp hp]
        exact .inl rfl

/-- A slot can be met if it has a bit and holds null or an identity that can be encoded. -/
theorem exists_runs_relocateSlot {offset : Nat} (hbit : offset / s.slotSize < u.recorded.size)
    (hencode : Bytes.valueAt u.output offset s.slotSize ≠ 0 → ∃ value,
      s.encodeIdentity q offset (Bytes.valueAt u.output offset s.slotSize) = .ok value) :
    ∃ u', Runs (relocateSlot s q offset) u () u' := by
  have hrecord := (runs_recordSlot (v := ())).mpr ⟨hbit, rfl⟩
  by_cases hzero : Bytes.valueAt u.output offset s.slotSize = 0
  · refine ⟨{ u with recorded := u.recorded.insert (offset / s.slotSize) }, ?_⟩
    rw [relocateSlot, runs_bind]
    refine ⟨(), _, hrecord, ?_⟩
    rw [runs_get_bind, runs_ite]
    exact .inr ⟨not_not.mpr hzero, runs_pure.mpr ⟨rfl, rfl⟩⟩
  · obtain ⟨value, hvalue⟩ := hencode hzero
    refine ⟨⟨Bytes.setValue u.output offset s.slotSize value,
      u.recorded.insert (offset / s.slotSize)⟩, ?_⟩
    rw [relocateSlot, runs_bind]
    refine ⟨(), _, hrecord, ?_⟩
    rw [runs_get_bind, runs_ite, runs_ofExcept_bind]
    exact .inl ⟨hzero, value, hvalue, runs_modify.mpr rfl⟩

/-! ## Whole members -/

section

variable {ref : ObjectId → Nat} {x : Placed} {xs : List Placed} {positions : List Nat}

/-- A slot of a member lies apart from those before it in the member and in front of the member. -/
theorem apart_of_referenceOffsets {slot k : Nat} {done rest : List Nat}
    (hx : x.member.Of g r roots) (hslot : IsSlotSize slot)
    (hbefore : ∀ p ∈ positions, p + slot ≤ x.offset)
    (hoffsets : x.member.referenceOffsets slot = done ++ k :: rest) :
    ∀ p ∈ positions ++ done.map (x.offset + ·), Apart slot p (x.offset + k) := by
  intro p hp
  rcases List.mem_append.mp hp with hp | hp
  · have := hbefore p hp
    exact .inl (by omega)
  · obtain ⟨k', hk', rfl⟩ := List.mem_map.mp hp
    have hpairwise := hx.referenceOffsets_pairwise hslot
    rw [hoffsets, List.pairwise_append] at hpairwise
    have := hpairwise.2.2 k' hk' k (List.mem_cons_self ..)
    exact .inl (by omega)

/-- The element at a split is one of the list. -/
theorem mem_of_eq_append {α : Type} {l done rest : List α} {k : α} (h : l = done ++ k :: rest) :
    k ∈ l := by
  rw [h]
  simp

/-- The slots of one member, which lies apart from all slots before. -/
theorem Relocated.slots {v : Unit} (h : s.Relocated q b positions u)
    (hx : x.member.Of g r roots) (hslot : IsSlotSize s.slotSize)
    (hbefore : ∀ p ∈ positions, p + s.slotSize ≤ x.offset)
    (hinside : x.stop s.slotSize ≤ b.size)
    (hrun : Runs ((x.member.referenceOffsets s.slotSize).forM fun field =>
      relocateSlot s q (x.offset + field)) u v u') :
    s.Relocated q b (positions ++ Placed.slots [x] s.slotSize) u' := by
  rw [Placed.slots_singleton]
  refine runs_forM_induction
    (fun done w => s.Relocated q b (positions ++ done.map (x.offset + ·)) w) hrun
    (by rwa [List.map_nil, List.append_nil]) ?_
  intro done k rest w w' hoffsets hdone hstep
  have hbounds := hx.bounds_of_referenceOffsets hslot (mem_of_eq_append hoffsets)
  rw [Placed.stop] at hinside
  have hnext := hdone.slot (apart_of_referenceOffsets hx hslot hbefore hoffsets) (by omega) hstep
  rwa [List.append_assoc, ← List.map_singleton, ← List.map_append] at hnext

/-- All slots of a member can be met if its identities can be encoded. -/
theorem Relocated.exists_runs_slots (h : s.Relocated q b positions u)
    (hx : x.member.Of g r roots) (hslot : IsSlotSize s.slotSize)
    (hbefore : ∀ p ∈ positions, p + s.slotSize ≤ x.offset)
    (hinside : x.stop s.slotSize ≤ b.size) (hheld : x.Held s.slotSize ref id (Bytes.get b))
    (hencode : ∀ c ∈ x.member.cells s.slotSize, ∀ i, c.value = .reference (some i) →
      ∀ position, ∃ value, s.encodeIdentity q position (ref i) = .ok value) :
    ∃ u', Runs ((x.member.referenceOffsets s.slotSize).forM fun field =>
      relocateSlot s q (x.offset + field)) u () u' := by
  rw [Placed.stop] at hinside
  obtain ⟨u', hrun, -⟩ := exists_runs_forM
    (fun field => relocateSlot s q (x.offset + field)) (x.member.referenceOffsets s.slotSize)
    (fun done w => s.Relocated q b (positions ++ done.map (x.offset + ·)) w) (s := u)
    (by rwa [List.map_nil, List.append_nil]) (by
      intro done k rest w hoffsets hdone
      have hk := mem_of_eq_append hoffsets
      have hbounds := hx.bounds_of_referenceOffsets hslot hk
      have hapart := apart_of_referenceOffsets hx hslot hbefore hoffsets
      have hbit : (x.offset + k) / s.slotSize < w.recorded.size := by
        rw [hdone.bits]
        exact BitMap.div_lt_div_of_add_le hslot.pos (by omega)
      -- The slot still holds what the member held at the start.
      obtain ⟨c, hc, rfl, target, hv⟩ := (hx.mem_referenceOffsets hslot).mp hk
      have hnumber : Bytes.valueAt w.output (x.offset + c.offset) s.slotSize =
          c.value.number ref id := by
        rw [Bytes.valueAt_eq_number, hdone.rewrites.number_eq fun p hp => (hapart p hp).symm,
          ← hheld.cells c hc, (hx.width_of_reference hslot hc hv).1]
      obtain ⟨w', hstep⟩ := exists_runs_relocateSlot hbit (by
        intro hne
        rw [hnumber] at hne ⊢
        rw [hv] at hne ⊢
        cases target with
        | none => exact absurd rfl hne
        | some i => exact hencode c hc i hv _)
      have hnext := hdone.slot hapart (by omega) hstep
      rw [List.append_assoc, ← List.map_singleton, ← List.map_append] at hnext
      exact ⟨w', hstep, hnext⟩)
  exact ⟨u', hrun⟩

/-- Relocating an object is relocating the slots of its references. -/
theorem runs_relocateObject {header : ObjectHeader} {type : TypeInfo} {p : Placement} {v : Unit}
    (hread : ObjectHeader.read? u.output p.offset = some header)
    (htype : s.registry.get? header.typeIndex = some type) :
    Runs (relocateObject s q p) u v u' ↔
      Runs ((type.kind.referenceOffsets header.length s.slotSize).forM fun field =>
        relocateSlot s q (p.offset + field)) u v u' := by
  rw [relocateObject, runs_get_bind, hread]
  dsimp only
  rw [runs_ofExcept_bind]
  constructor
  · rintro ⟨type', htype', h⟩
    have heq := TypeRegistry.require_eq_ok.mp htype'
    rw [htype] at heq
    rwa [Option.some.inj heq]
  · intro h
    exact ⟨type, TypeRegistry.require_eq_ok.mpr htype, h⟩

/-- The slots of the members in front of a member end where it starts at the latest. -/
theorem slots_before {slot : Nat} {done rest : List Placed} (hslot : IsSlotSize slot)
    (hof : ∀ y ∈ xs, y.member.Of g r roots) (hascending : Placed.Ascending slot xs)
    (hxs : xs = done ++ x :: rest) : ∀ p ∈ Placed.slots done slot, p + slot ≤ x.offset := by
  intro p hp
  obtain ⟨y, hy, k, hk, rfl⟩ := Placed.mem_slots.mp hp
  rw [hxs, Placed.Ascending, List.pairwise_append] at hascending
  have hyx := hascending.2.2 y hy x (List.mem_cons_self ..)
  have hy' : y ∈ xs := by
    rw [hxs]
    exact List.mem_append_left _ hy
  have hk' := (hof y hy').bounds_of_referenceOffsets hslot hk
  rw [Placed.stop] at hyx
  omega

/-- The header of a member that has not been met yet is still there. -/
theorem Relocated.read_header (h : s.Relocated q b positions u)
    (hbefore : ∀ p ∈ positions, p + s.slotSize ≤ x.offset)
    (hheld : x.Held s.slotSize ref id (Bytes.get b)) (hstop : x.stop s.slotSize ≤ b.size) :
    ObjectHeader.read? u.output x.offset = some x.member.object.header := by
  have hsize := x.member.headerSize_le_size s.slotSize
  have hheader : x.member.HeldAt s.slotSize ref id (Bytes.get u.output) x.offset := by
    apply hheld.rewrite h.rewrites
    · intro p hp
      exact .inl (hbefore p hp)
    · intro c hc
      refine .inr ⟨?_, rfl⟩
      intro p hp
      have := hbefore p hp
      omega
  apply hheader.read_header
  rw [Placed.stop] at hstop
  rw [h.size]
  omega

/-- **Relocation goes through the reference slots of all members**, and through nothing else. -/
theorem relocated_of_runs {v : Unit} (hslot : IsSlotSize s.slotSize)
    (hof : ∀ x ∈ xs, x.member.Of g s.registry roots)
    (hheld : ∀ x ∈ xs, x.Held s.slotSize ref id (Bytes.get b))
    (hascending : Placed.Ascending s.slotSize xs) (hinside : ∀ x ∈ xs, x.stop s.slotSize ≤ b.size)
    (h : Runs ((xs.map (Placed.placement s.slotSize)).forM (relocateObject s q))
      ⟨b, BitMap.empty (b.size / s.slotSize)⟩ v u) :
    s.Relocated q b (Placed.slots xs s.slotSize) u := by
  rw [runs_forM_map] at h
  refine runs_forM_induction (fun done w => s.Relocated q b (Placed.slots done s.slotSize) w) h
    (relocated_start s q b) ?_
  intro done x rest w w' hxs hdone hstep
  have hx := mem_of_eq_append hxs
  have hbefore := slots_before hslot hof hascending hxs
  have hread := hdone.read_header hbefore (hheld x hx) (hinside x hx)
  rw [runs_relocateObject (p := x.placement s.slotSize) hread (hof x hx).type] at hstep
  rw [Placed.slots_append]
  exact hdone.slots (hof x hx) hslot hbefore (hinside x hx) hstep

/-- **Relocation succeeds** if all identities in the members can be encoded. -/
theorem exists_runs_relocateObject (hslot : IsSlotSize s.slotSize)
    (hof : ∀ x ∈ xs, x.member.Of g s.registry roots)
    (hheld : ∀ x ∈ xs, x.Held s.slotSize ref id (Bytes.get b))
    (hascending : Placed.Ascending s.slotSize xs) (hinside : ∀ x ∈ xs, x.stop s.slotSize ≤ b.size)
    (hencode : ∀ x ∈ xs, ∀ c ∈ x.member.cells s.slotSize, ∀ i, c.value = .reference (some i) →
      ∀ position, ∃ value, s.encodeIdentity q position (ref i) = .ok value) :
    ∃ u, Runs ((xs.map (Placed.placement s.slotSize)).forM (relocateObject s q))
      ⟨b, BitMap.empty (b.size / s.slotSize)⟩ () u := by
  simp only [runs_forM_map]
  obtain ⟨u, hrun, -⟩ := exists_runs_forM
    (fun x : Placed => relocateObject s q (x.placement s.slotSize)) xs
    (fun done w => s.Relocated q b (Placed.slots done s.slotSize) w)
    (relocated_start s q b) (by
      -- The objects so far lie in front of this one, so its header and its slots are as they were.
      intro done x rest w hxs hdone
      have hx := mem_of_eq_append hxs
      have hbefore := slots_before hslot hof hascending hxs
      have hread := hdone.read_header hbefore (hheld x hx) (hinside x hx)
      obtain ⟨w', hslots⟩ := hdone.exists_runs_slots (hof x hx) hslot hbefore (hinside x hx)
        (hheld x hx) (hencode x hx)
      refine ⟨w', (runs_relocateObject (p := x.placement s.slotSize) hread (hof x hx).type).mpr
        hslots, ?_⟩
      rw [Placed.slots_append]
      exact hdone.slots (hof x hx) hslot hbefore (hinside x hx) hslots)
  exact ⟨u, hrun⟩

end

end HeapImage.DumpSession
