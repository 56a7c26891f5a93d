import HeapImage.Proofs.ArenaCalls

/-! # Owners of addresses

The chunks of an arena and the ranges that it sets aside share the address space. Chunks lie apart
from each other, and no range is set aside where there is a chunk. But nothing is compared with the
ranges set aside before: neither a new range nor a new chunk. So addresses have one owner each
exactly as long as no call asks for what is set aside already.

* `Arena.outstanding`: the ranges that have been granted and not given back.
* `Arena.OneOwner`: no two of an arena's chunks and ranges meet.
* `Arena.Clear`, `Arena.oneOwner_perform`: calls that do not ask for what is set aside.
* `Arena.Configured.owners`: the owners of addresses after any calls. -/

namespace HeapImage

namespace Arena

variable {h : Arena} {requested base len : Nat}

/-- No two of the chunks and the ranges set aside meet. -/
def OneOwner (h : Arena) : Prop :=
  (h.chunkRanges ++ h.reservations.toList).Pairwise Extent.Apart

/-- What a call is about to take has not been set aside: the range that it is granted, or the chunk
that it starts. -/
def Clear (h : Arena) : ArenaCall → Prop
  | .allocate request => ∀ e ∈ (h.allocate request).2.chunkRanges, e ∉ h.chunkRanges →
      ∀ r ∈ h.reservations.toList, e.Apart r
  | .reserve requested len => ∀ base ∈ (h.reserve requested len).1,
      ∀ r ∈ h.reservations.toList, r.Apart ⟨base, base + len⟩
  | _ => True

instance (h : Arena) : (call : ArenaCall) → Decidable (h.Clear call)
  | .allocate request => inferInstanceAs (Decidable (∀ e ∈ (h.allocate request).2.chunkRanges,
      e ∉ h.chunkRanges → ∀ r ∈ h.reservations.toList, e.Apart r))
  | .reserve requested len => inferInstanceAs (Decidable (∀ base ∈ (h.reserve requested len).1,
      ∀ r ∈ h.reservations.toList, r.Apart ⟨base, base + len⟩))
  | .write .. => inferInstanceAs (Decidable True)
  | .release .. => inferInstanceAs (Decidable True)

/-- A reservation is clear if what it is granted is apart from all that is reserved. -/
theorem clear_reserve_iff : h.Clear (.reserve requested len) ↔
    ∀ base ∈ (h.reserve requested len).1, ∀ r ∈ h.reservations.toList,
      r.Apart ⟨base, base + len⟩ := Iff.rfl

/-- No call asks for what is set aside by then. -/
def EachClear (h : Arena) : List ArenaCall → Prop
  | [] => True
  | call :: calls => h.Clear call ∧ (h.perform call).EachClear calls

instance decidableEachClear : (h : Arena) → (calls : List ArenaCall) → Decidable (h.EachClear calls)
  | _, [] => inferInstanceAs (Decidable True)
  | h, call :: calls =>
    have := decidableEachClear (h.perform call) calls
    inferInstanceAs (Decidable (h.Clear call ∧ (h.perform call).EachClear calls))

/-! ## Ranges and calls -/

/-- The ranges that are set aside after a call, where those in `rs` are before it. -/
def setAside (h : Arena) (rs : List Extent) : ArenaCall → List Extent
  | .reserve requested len =>
    rs ++ (h.reserve requested len).1.toList.map fun base => ⟨base, base + len⟩
  | .release base len => rs.erase ⟨base, base + len⟩
  | _ => rs

/-- The ranges that calls have been granted and not given back, besides those in `rs`. -/
def outstanding (h : Arena) (rs : List Extent) : List ArenaCall → List Extent
  | [] => rs
  | call :: calls => (h.perform call).outstanding (h.setAside rs call) calls

/-- Allocating keeps the reservations. -/
theorem reservations_allocate (h : Arena) (request : AllocationRequest) :
    (h.allocate request).2.reservations = h.reservations := by
  rcases hrun : h.allocate request with ⟨result, k⟩
  cases ends_of_allocate hrun <;> rfl

/-- After a call the arena has the reservations that the calls so far have set aside. -/
theorem reservations_perform {rs : List Extent} (hrs : h.reservations.toList.Perm rs)
    (call : ArenaCall) : (h.perform call).reservations.toList.Perm (h.setAside rs call) := by
  cases call with
  | allocate request =>
    rw [perform_allocate, reservations_allocate]
    exact hrs
  | write a bytes =>
    rw [perform_write]
    split
    · rw [write_eq]
      exact hrs
    · exact hrs
  | reserve requested len =>
    rw [perform_reserve]
    unfold setAside
    rcases h.reserve_cases requested len with hnone | ⟨base, -, -, hsome⟩
    · simpa [hnone] using hrs
    · simpa [hsome] using hrs.append_right [(⟨base, base + len⟩ : Extent)]
  | release base len => exact (h.reservations_release base len).trans (hrs.erase _)

/-- **An arena keeps in mind** exactly what is outstanding. -/
theorem reservations_performAll {rs : List Extent} (hrs : h.reservations.toList.Perm rs)
    (calls : List ArenaCall) :
    (h.performAll calls).reservations.toList.Perm (h.outstanding rs calls) := by
  induction calls generalizing h rs with
  | nil => exact hrs
  | cons call calls ih => exact ih (reservations_perform hrs call)

/-! ## Chunks -/

/-- Chunks lie apart. -/
theorem WellFormed.apart (hw : h.WellFormed) : h.chunkRanges.Pairwise Extent.Apart :=
  List.pairwise_map.mpr (hw.ordered.imp fun hle => Extent.apart_iff.mpr (.inr (.inr (.inl hle))))

/-- A range that is granted meets no chunk. -/
theorem apart_of_overlapsChunks (hfree : h.overlapsChunks base len = false) :
    ∀ e ∈ h.chunkRanges, e.Apart ⟨base, base + len⟩ := by
  refine List.forall_mem_map.mpr fun c hc => ?_
  unfold overlapsChunks at hfree
  rw [← Array.any_toList, List.any_eq_false] at hfree
  have hout : ¬ (base < c.stop ∧ c.base < base + len) := by simpa using hfree c hc
  rw [Extent.apart_iff]
  dsimp only
  omega

/-! ## One owner -/

/-- One owner for each address: chunks are apart, reservations are apart, and so are the two. -/
theorem oneOwner_iff : h.OneOwner ↔ h.chunkRanges.Pairwise Extent.Apart ∧
    h.reservations.toList.Pairwise Extent.Apart ∧
    ∀ e ∈ h.chunkRanges, ∀ r ∈ h.reservations.toList, e.Apart r := List.pairwise_append

/-- **A call** leaves each address with one owner exactly if it does not take what is set aside. -/
theorem oneOwner_perform (hw : h.WellFormed) (hone : h.OneOwner) (call : ArenaCall) :
    (h.perform call).OneOwner ↔ h.Clear call := by
  obtain ⟨hchunks, hranges, hcross⟩ := oneOwner_iff.mp hone
  cases call with
  | allocate request =>
    have hapart := (hw.allocate request).apart
    rw [perform_allocate, oneOwner_iff, reservations_allocate]
    constructor
    · rintro ⟨-, -, hclear⟩ e he -
      exact hclear e he
    · -- Chunks stay where they are as they fill up, so only a new one can get in the way.
      intro hclear
      refine ⟨hapart, hranges, fun e he => ?_⟩
      by_cases hold : e ∈ h.chunkRanges
      · exact hcross e hold
      · exact hclear e he hold
  | write a bytes =>
    refine iff_of_true ?_ trivial
    rw [perform_write]
    split
    · rw [oneOwner_iff, chunkRanges_write hw, h.write_eq a bytes]
      exact ⟨hchunks, hranges, hcross⟩
    · exact hone
  | reserve requested len =>
    rw [perform_reserve, clear_reserve_iff]
    rcases h.reserve_cases requested len with hnone | ⟨base, -, hfree, hsome⟩
    · rw [hnone]
      exact iff_of_true hone fun _ hbase => nomatch hbase
    · rw [hsome, oneOwner_iff]
      show h.chunkRanges.Pairwise Extent.Apart ∧ (h.reservations.push _).toList.Pairwise _ ∧
        (∀ e ∈ h.chunkRanges, ∀ r ∈ (h.reservations.push _).toList, e.Apart r) ↔ _
      -- A range is granted where no chunk is. Whether it meets another range is not looked at.
      rw [Array.toList_push, List.pairwise_append]
      constructor
      · rintro ⟨-, ⟨-, -, hclear⟩, -⟩ _ ⟨⟩ r hr
        exact hclear r hr _ (List.mem_singleton_self _)
      · intro hclear
        refine ⟨hchunks, ⟨hranges, List.pairwise_singleton .., fun r hr r' hr' => ?_⟩,
          fun e he => List.forall_mem_append.mpr
            ⟨hcross e he, List.forall_mem_singleton.mpr (apart_of_overlapsChunks hfree e he)⟩⟩
        rw [List.mem_singleton.mp hr']
        exact hclear base rfl r hr
  | release base len =>
    refine iff_of_true ?_ trivial
    -- Fewer ranges are set aside, in another order.
    have hperm := h.reservations_release base len
    have hsub : (h.reservations.toList.erase ⟨base, base + len⟩).Sublist h.reservations.toList :=
      List.erase_sublist
    obtain ⟨rs, hrs⟩ := h.release_eq base len
    have hsame : (h.release base len).chunkRanges = h.chunkRanges := by
      rw [hrs]
      rfl
    rw [perform_release, oneOwner_iff, hsame]
    refine ⟨hchunks, ?_, fun e he r hr => hcross e he r (hsub.subset (hperm.subset hr))⟩
    exact (hperm.pairwise_iff Extent.Apart.symm).mpr (hranges.sublist hsub)

/-- **Any calls** leave each address with one owner all along exactly if none takes what is set
aside by then. -/
theorem oneOwner_performAll (hw : h.WellFormed) (hone : h.OneOwner) (calls : List ArenaCall) :
    (∀ before, before <+: calls → (h.performAll before).OneOwner) ↔ h.EachClear calls := by
  induction calls generalizing h with
  | nil => exact iff_of_true (fun before hbefore => List.prefix_nil.mp hbefore ▸ hone) trivial
  | cons call calls ih =>
    have hstep := oneOwner_perform hw hone call
    constructor
    · intro hall
      have hnext : (h.perform call).OneOwner := hall [call] ⟨calls, rfl⟩
      refine ⟨hstep.mp hnext, (ih (hw.perform call) hnext).mp fun before hbefore => ?_⟩
      exact hall (call :: before) ((List.prefix_cons_inj call).mpr hbefore)
    · rintro ⟨hclear, hrest⟩ before hbefore
      rcases List.prefix_cons_iff.mp hbefore with rfl | ⟨rest, rfl, hprefix⟩
      · exact hone
      · exact (ih (hw.perform call) (hstep.mpr hclear)).mpr hrest rest hprefix

/-- **One address, one owner.** Whatever is asked of a fresh arena, its chunks never meet each
other, and a range that it grants meets none of its chunks. All chunks and all ranges that are
outstanding stay apart exactly if no call takes what is set aside by then, which the arena does not
look at. -/
theorem Configured.owners (hc : h.Configured) (calls : List ArenaCall) :
    (h.performAll calls).chunkRanges.Pairwise Extent.Apart ∧
    (∀ requested len base k, (h.performAll calls).reserve requested len = (some base, k) →
      ∀ e ∈ (h.performAll calls).chunkRanges, e.Apart ⟨base, base + len⟩) ∧
    ((∀ before, before <+: calls →
      ((h.performAll before).chunkRanges ++ h.outstanding [] before).Pairwise Extent.Apart) ↔
        h.EachClear calls) := by
  obtain ⟨hchunks, hreservations, -⟩ := hc.fresh
  have hw : h.WellFormed := wellFormed_of_isEmpty hchunks
  have hnone : h.reservations.toList = [] := by rw [hreservations]
  have hone : h.OneOwner := by
    unfold OneOwner chunkRanges
    rw [hchunks, hnone]
    exact .nil
  -- What is outstanding is what the arena has noted, in another order.
  have hiff : ∀ before, ((h.performAll before).chunkRanges ++
      h.outstanding [] before).Pairwise Extent.Apart ↔ (h.performAll before).OneOwner := by
    intro before
    have hperm : (h.performAll before).reservations.toList.Perm (h.outstanding [] before) :=
      reservations_performAll (.of_eq hnone) before
    exact ((hperm.append_left _).pairwise_iff Extent.Apart.symm).symm
  refine ⟨(hw.performAll calls).apart, fun requested len base k hgranted => ?_, ?_⟩
  · exact apart_of_overlapsChunks (of_reserve hgranted).2.1
  · rw [← oneOwner_performAll hw hone calls]
    exact forall_congr' fun before => imp_congr_right fun _ => hiff before

/-- Two ranges, one of which is given back and asked for again, and objects before and after. -/
def mappingCalls : List ArenaCall :=
  [.allocate ⟨.scalarArray, 1, 0, 16⟩, .reserve 0x700000000 4096, .reserve 0x600000000 4096,
    .release 0x700000000 4096, .reserve 0x700000000 8192, .allocate ⟨.scalarArray, 1, 2, 32⟩]

/-- Each of these calls is clear, and they leave every address with one owner. -/
theorem Configured.owners_mapping : Arena.standard.Configured ∧
    Arena.standard.EachClear mappingCalls ∧
    (Arena.standard.performAll mappingCalls).chunkRanges = [⟨0x400000000, 0x400100000⟩] ∧
    Arena.standard.outstanding [] mappingCalls =
      [⟨0x600000000, 0x600001000⟩, ⟨0x700000000, 0x700002000⟩] ∧
    ((Arena.standard.performAll mappingCalls).chunkRanges ++
      Arena.standard.outstanding [] mappingCalls).Pairwise Extent.Apart :=
  have hclear : Arena.standard.EachClear mappingCalls := by decide +kernel
  ⟨.standard, hclear, by decide +kernel, by decide +kernel,
    (Configured.owners .standard mappingCalls).2.2.mpr hclear mappingCalls (List.prefix_refl _)⟩

/-- The same range can be set aside twice. -/
def reservedTwice : List ArenaCall := [.reserve 0x700000000 4096, .reserve 0x700000000 4096]

/-- A chunk can be started in a range that is set aside. -/
def allocatedWhereReserved : List ArenaCall :=
  [.reserve 0x400000000 4096, .allocate ⟨.scalarArray, 1, 0, 16⟩]

/-- Without the condition, an address may have two owners: a range is reserved twice, or memory is
allocated where a range is still reserved. -/
theorem exists_two_owners : ∀ calls ∈ [reservedTwice, allocatedWhereReserved],
    ¬ ((standard.performAll calls).chunkRanges ++ standard.outstanding [] calls).Pairwise
      Extent.Apart := by
  decide +kernel

end Arena

end HeapImage
