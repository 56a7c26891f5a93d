import HeapImage.Proofs.CheckedMapping
import HeapImage.Proofs.CopiedReferences
import HeapImage.Proofs.CopyFrames

/-! # Copying without a fault

All places that the two passes of a copy go to follow from what it keeps: the mark word of a copied
object, the native pointers inside one copy and the reference slots inside one block.

* `CheckedStep.mirrors_copyObject`, `CheckedStep.mirrors_relocateBlock`: one object and one block.
* `CheckedStep.mirrors_load`: both passes.
* `Archive.Sound.copyImage_eq_ok`: copying the objects of an archive. -/

namespace HeapImage

namespace CheckedStep

open CopyStep (OnlyWrites run_allocate onlyWrites_counts onlyWrites_ofExcept onlyWrites_write
  onlyWrites_rebaseNative)

variable {μ : Type} [Destination μ] [HeapSums μ] {space : AddressSpace} {Valid Fits : μ → Prop}
variable {p : CopyPlan} {n : Nat} {s : CopyState μ}

/-! ## Memory -/

omit [Destination μ] [HeapSums μ] in
/-- A plain step that only writes keeps what writing does not touch. -/
theorem mirrors_onlyWrites {α : Type} {f : CopyStep μ α} {I : CopyState μ → Prop}
    (hf : OnlyWrites f Valid Fits) (hI : ∀ s t : CopyState μ, I s → s.Writes t Valid Fits → I t) :
    Mirrors Fits I (plain f) f fun _ => I := by
  refine mirrors_plain (fun s _ hfits => (hf s).fits hfits) fun s x t hs hrun => ?_
  have hwrites := hf s
  rw [CopyStep.after_of_runs hrun] at hwrites
  exact hI s t hs hwrites

/-- An allocation gives memory with an end, if the heap fits. -/
theorem mirrors_allocate (hsums : SumsFit space Valid Fits) (request : AllocationRequest) :
    Mirrors Fits (·.Framed space Valid Fits p n) (allocate space request)
      (CopyStep.allocate request) fun a s => s.Framed space Valid Fits p n ∧
        (Fits s.heap → space.Has (a + request.size)) := by
  have hheap : ∀ s : CopyState μ, (CopyStep.after (CopyStep.allocate request) s).heap =
      (Destination.allocate s.heap request).2 := by
    intro s
    rw [CopyStep.after, run_allocate]
    rcases Destination.allocate s.heap request with ⟨e | a, heap⟩ <;> rfl
  refine mirrors_plain_get_bind fun s hs => mirrors_check_bind () ?_ (mirrors_plain ?_ ?_)
  · -- The sum that is checked is one of those that fit as long as the heap does.
    rintro _ rfl - hafter
    rw [hheap] at hafter
    exact AddressSpace.check_eq_ok (hsums.sums request hs.valid hafter)
  · rintro _ rfl hafter
    rw [hheap] at hafter
    exact hsums.fits_allocate request hs.valid hafter
  · intro u a t hu hrun
    rw [show u = s from hu, Runs, run_allocate] at hrun
    cases hresult : Destination.allocate s.heap request with
    | mk result heap =>
      have hvalid := hsums.valid_allocate request hs.valid
      have hback := hsums.fits_allocate request hs.valid
      have hstop : ∀ a, Fits (Destination.allocate s.heap request).2 →
          (Destination.allocate s.heap request).1 = .ok a → space.Has (a + request.size) :=
        fun a hfits ha => hsums.stop hs.valid hfits ha
      rw [hresult] at hrun hvalid hback hstop
      cases result with
      | error e => cases hrun
      | ok a' =>
        cases hrun
        exact ⟨⟨hs.image, hs.starts, hs.blocks, hvalid, fun hfits => hs.tops (hback hfits)⟩,
          fun hfits => hstop _ hfits rfl⟩

/-! ## The first pass -/

/-- Between two objects, when one has got its memory up to `stop`. -/
def Granted (space : AddressSpace) (Valid Fits : μ → Prop) (p : CopyPlan) (n stop : Nat)
    (s : CopyState μ) : Prop :=
  s.Framed space Valid Fits p n ∧ (Fits s.heap → space.Has stop)

omit [Destination μ] [HeapSums μ] in
/-- Writing to memory that was granted keeps the grant. -/
theorem Granted.writes {stop : Nat} (s t : CopyState μ) (h : Granted space Valid Fits p n stop s)
    (hw : s.Writes t Valid Fits) : Granted space Valid Fits p n stop t :=
  ⟨h.1.writes hw, fun hfits => h.2 (hw.fits hfits)⟩

/-- The native pointers of an object lie in its copy. -/
theorem mirrors_rebaseNatives (hsums : SumsFit space Valid Fits) {region : Region} {o : ObjectSpan}
    {dest : Nat} (ho : o.InRegion p region n) :
    Mirrors Fits (Granted space Valid Fits p n (dest + o.size))
      (rebaseNatives space p region o dest) (CopyStep.rebaseNatives p region o dest)
      fun _ => Granted space Valid Fits p n (dest + o.size) := by
  refine mirrors_check_bind _ (fun _ _ _ _ => Checked.sub_eq_ok ho.bottom_le) ?_
  refine mirrors_check_bind _ (fun _ _ _ _ => Checked.ones_eq_ok) ?_
  refine mirrors_forM fun bit hbit => ?_
  obtain ⟨hlow, hin⟩ := ObjectSpan.word_le_of_mem_ones hbit
  refine mirrors_check_bind _ (fun _ _ _ _ => Checked.sub_eq_ok hlow) ?_
  refine mirrors_check_bind _ (fun _ _ _ _ => Checked.within_eq_ok hin) ?_
  refine mirrors_check_bind _ (fun s hs hfits _ => AddressSpace.add_eq_ok ?_) ?_
  · exact (hs.2 hfits).mono (by omega)
  · exact mirrors_onlyWrites (onlyWrites_rebaseNative hsums _ _) Granted.writes

omit [Destination μ] [HeapSums μ] in
/-- The mark word of an object lies in the image, and the object starts at one of its words. -/
theorem mirrors_recordObject {region : Region} {o : ObjectSpan} {dest : Nat}
    (ho : o.InRegion p region n) :
    Mirrors Fits (Granted space Valid Fits p n (dest + o.size)) (recordObject space region o dest)
      (modify fun s =>
        { s with
          blocks := CopyStep.extendBlocks s.blocks region o dest
          starts := s.starts.insert (o.offset / wordSize)
          image := Bytes.setWord s.image o.offset (UInt64.ofNat dest)
          objects := s.objects + 1 })
      fun _ s => s.Framed space Valid Fits p n := by
  have hheader := ho.headerSize_le
  have hword : headerSize = wordSize + wordSize := rfl
  -- The offset need not be a multiple of the word size. The word that it lies in is there, too.
  have hmark : o.offset + wordSize ≤ n := Nat.le_trans (by omega) ho.stop_le
  have hstart : o.offset / wordSize < n / wordSize := BitMap.div_lt_div_of_add_le (by decide) hmark
  refine mirrors_check_bind () (fun s hs hfits _ => AddressSpace.check_eq_ok ?_) ?_
  · simpa using hs.2 hfits
  refine mirrors_plain_get_bind fun s hs => ?_
  refine mirrors_check_bind _ (fun _ _ _ _ => Checked.insert_eq_ok (hs.1.starts ▸ hstart)) ?_
  refine mirrors_check_bind _ (fun _ _ _ _ => Checked.setWord_eq_ok (hs.1.image ▸ hmark) _) ?_
  refine mirrors_set rfl (hs.1.push ho hs.2 rfl ?_ ?_ rfl)
  · exact BitMap.size_insert ..
  · simp only [Bytes.size_setWord]

/-- **An object** is copied from bytes of the image, and its mark word is one of them. -/
theorem mirrors_copyObject (hsums : SumsFit space Valid Fits) {region : Region} {o : ObjectSpan}
    (ho : o.InRegion p region n) :
    Mirrors Fits (·.Framed space Valid Fits p n) (copyObject space p region o)
      (CopyStep.copyObject p region o) fun _ s => s.Framed space Valid Fits p n := by
  refine mirrors_bind (mirrors_allocate hsums _) fun dest => ?_
  refine mirrors_get_bind fun s hs => ?_
  refine mirrors_check_bind (s.image.extract o.offset o.stop) (fun _ _ _ _ => ?_) ?_
  · exact Checked.slice_eq_ok (hs.1.image ▸ ho.stop_le)
  have hgranted : Granted space Valid Fits p n (dest + o.size) s := hs
  refine mirrors_bind ((mirrors_onlyWrites (onlyWrites_write hsums dest _)
    Granted.writes).startingAt hgranted) fun done => ?_
  refine mirrors_ite (fun _ => mirrors_bind (Q := fun _ _ => False) mirrors_throw nofun) fun _ => ?_
  exact mirrors_ite
    (fun _ => mirrors_bind (mirrors_rebaseNatives hsums ho) fun _ => mirrors_recordObject ho)
    fun _ => mirrors_recordObject ho

/-- **A region** is copied from bytes of the image. -/
theorem mirrors_materializeRegion (hsums : SumsFit space Valid Fits) (hp : p.Inside n)
    (region : Region) : Mirrors Fits (·.Framed space Valid Fits p n)
      (materializeRegion space p region) (CopyStep.materializeRegion p region)
      fun _ s => s.Framed space Valid Fits p n := by
  obtain ⟨-, htop⟩ := hp.bounds region
  refine mirrors_get_bind fun s hs => ?_
  refine mirrors_check_bind _ (fun _ _ _ _ => Checked.scan_eq_ok (hs.image ▸ htop)) ?_
  have hobjects := hp.inRegion s.image region
  cases hscan : ObjectSpan.scan s.image p.types p.slotSize (p.header.range region).bottom
    (p.header.range region).top with
  | mk objects fault =>
    rw [hscan] at hobjects
    have hcopies := mirrors_forM fun o ho => mirrors_copyObject hsums (hobjects o ho)
    refine mirrors_bind (hcopies.startingAt hs) fun _ => ?_
    cases fault with
    | none => exact mirrors_pure fun _ => id
    | some fault => exact mirrors_throw

/-- **The first pass** goes to bytes that are there. -/
theorem mirrors_materialize (hsums : SumsFit space Valid Fits) (hp : p.Inside n) :
    Mirrors Fits (·.Framed space Valid Fits p n) (materialize space p) (CopyStep.materialize p)
      fun _ s => s.Framed space Valid Fits p n :=
  mirrors_forM fun region _ => mirrors_materializeRegion hsums hp region

/-! ## The second pass -/

omit [Destination μ] [HeapSums μ] in
/-- A reference is moved as by the plain function, if the decoded address is in the range. -/
theorem rebased_eq_ok {a value : Nat} (hvalue : space.Has (p.header.encoding.decode value))
    (hstarts : s.starts.size = s.image.size / wordSize) :
    rebased space p s a value = .ok (CopyStep.rebased p s a value) := by
  rw [rebased, CopyStep.rebased, Checked.decode_eq_ok hvalue, Checked.ok_bind]
  dsimp only
  split
  · rfl
  · rw [Checked.resolve?_eq_ok hstarts, Checked.ok_bind]
    cases resolve? s.image s.starts _ with
    | none => rfl
    | some dest =>
      dsimp only
      cases p.runtime.encode dest <;> rfl

/-- Between two slots of the second pass, which leaves the blocks as they are. -/
def Settled (space : AddressSpace) (Valid Fits : μ → Prop) (p : CopyPlan) (n : Nat)
    (blocks : Array Block) (s : CopyState μ) : Prop :=
  s.Framed space Valid Fits p n ∧ s.blocks = blocks

omit [Destination μ] [HeapSums μ] in
/-- Writing to memory keeps settled blocks settled. -/
theorem Settled.writes {blocks : Array Block} (s t : CopyState μ)
    (h : Settled space Valid Fits p n blocks s) (hw : s.Writes t Valid Fits) :
    Settled space Valid Fits p n blocks t :=
  ⟨h.1.writes hw, hw.blocks.trans h.2⟩

/-- The value in a slot stands for an address, and the new value is looked up in the image. -/
theorem mirrors_relocateSlot (hsums : SumsFit space Valid Fits) (hp : p.Inside n)
    (hcovers : space.Covers p.header.encoding) {blocks : Array Block} (a : Nat) :
    Mirrors Fits (Settled space Valid Fits p n blocks) (relocateSlot space p a)
      (CopyStep.relocateSlot p a) fun _ => Settled space Valid Fits p n blocks := by
  refine mirrors_get_bind fun s hs => ?_
  cases hread : Memory.readValue? s.heap a p.slotSize with
  | none => exact mirrors_throw
  | some value =>
    have hvalue : space.Has (p.header.encoding.decode value) :=
      hcovers value (hp.slotSize_eq ▸ Memory.lt_of_readValue? hread)
    refine mirrors_ite (fun _ => ?_) fun _ => ?_
    · exact (mirrors_onlyWrites (onlyWrites_counts fun c => { c with nulls := c.nulls + 1 })
        Settled.writes).startingAt hs
    · have hstarts : s.starts.size = s.image.size / wordSize := hs.1.image ▸ hs.1.starts
      refine mirrors_check_bind _ (fun _ _ _ _ => rebased_eq_ok hvalue hstarts) ?_
      refine mirrors_bind ((mirrors_onlyWrites (onlyWrites_ofExcept _) Settled.writes).startingAt
        hs) fun value => ?_
      refine mirrors_bind (mirrors_onlyWrites (onlyWrites_write hsums _ _) Settled.writes)
        fun done => ?_
      refine mirrors_ite (fun _ => ?_) fun _ => mirrors_throw
      exact mirrors_onlyWrites
        (onlyWrites_counts fun c => { c with references := c.references + 1 }) Settled.writes

/-- **The reference slots of a block** lie in its copy. -/
theorem mirrors_relocateBlock (hsums : SumsFit space Valid Fits) (hp : p.Inside n)
    (hcovers : space.Covers p.header.encoding) {blocks : Array Block} {b : Block}
    (hin : b.InRegion p) (hb : b ∈ blocks.toList) :
    Mirrors Fits (Settled space Valid Fits p n blocks) (relocateBlock space p b)
      (CopyStep.relocateBlock p b) fun _ => Settled space Valid Fits p n blocks := by
  have hbottom := hin.bottom_le
  have hle := hin.dest_le
  refine mirrors_check_bind _ (fun _ _ _ _ => Checked.sub_eq_ok hle) ?_
  refine mirrors_check_bind _ (fun _ _ _ _ => Checked.sub_eq_ok hbottom) ?_
  refine mirrors_check_bind _ (fun _ _ _ _ => Checked.sub_eq_ok (by omega)) ?_
  refine mirrors_check_bind _ (fun _ _ _ _ => Checked.ones_eq_ok) ?_
  refine mirrors_forM fun bit hbit => ?_
  obtain ⟨hfirst, hlast⟩ := hin.slot_le_of_mem_ones hbit
  have htop : b.streamTop = b.streamOffset + (b.dest.top - b.dest.bottom) := rfl
  refine mirrors_check_bind _ (fun _ _ _ _ => Checked.sub_eq_ok hfirst) ?_
  refine mirrors_check_bind _ (fun _ _ _ _ => Checked.within_eq_ok (by omega)) ?_
  refine mirrors_check_bind _ (fun s hs hfits _ => AddressSpace.add_eq_ok ?_) ?_
  · exact (hs.1.tops hfits b (hs.2 ▸ hb)).mono (by omega)
  · exact mirrors_relocateSlot hsums hp hcovers _

/-- **The second pass** goes to slots of copies. -/
theorem mirrors_relocate (hsums : SumsFit space Valid Fits) (hp : p.Inside n)
    (hcovers : space.Covers p.header.encoding) :
    Mirrors Fits (·.Framed space Valid Fits p n) (relocate space p) (CopyStep.relocate p)
      fun _ s => s.Framed space Valid Fits p n := by
  refine mirrors_get_bind fun s hs => ?_
  have hblocks := mirrors_forM fun b hb =>
    mirrors_relocateBlock hsums hp hcovers (hs.blocks b hb) hb
  refine hblocks.weaken ?_ fun _ _ ht => ht.1
  rintro _ rfl
  exact ⟨hs, rfl⟩

/-! ## Both passes -/

omit [HeapSums μ] in
/-- Handing blocks over makes no heap fit. -/
theorem fits_of_fits_completeLoaded
    (h : ∀ {heap : μ} e, Fits (Destination.completeLoaded heap e) → Fits heap)
    {blocks : List Block} {heap : μ}
    (hfits : Fits (blocks.foldl (fun heap b => Destination.completeLoaded heap b.dest) heap)) :
    Fits heap := by
  induction blocks generalizing heap with
  | nil => exact hfits
  | cons b blocks ih => exact h b.dest (ih hfits)

/-- Handing blocks over is the last that a copy does to its heap. -/
theorem mirrors_complete (hsums : SumsFit space Valid Fits) :
    Mirrors Fits (·.Framed space Valid Fits p n) (plain CopyStep.complete) CopyStep.complete
      fun _ s => s.starts.size = s.image.size / wordSize ∧
        (Fits s.heap → ∀ b ∈ s.blocks.toList, space.Has b.dest.top) := by
  have hback : ∀ s : CopyState μ, Fits (CopyStep.after CopyStep.complete s).heap → Fits s.heap := by
    intro s hfits
    have hheap : (CopyStep.after CopyStep.complete s).heap =
        s.blocks.foldl (fun heap b => Destination.completeLoaded heap b.dest) s.heap := rfl
    rw [hheap, ← Array.foldl_toList] at hfits
    exact fits_of_fits_completeLoaded hsums.fits_completeLoaded hfits
  refine mirrors_plain (fun s _ hfits => hback s hfits) fun s x t hs hrun => ?_
  have hafter := CopyStep.after_of_runs hrun
  cases hrun
  refine ⟨?_, fun hfits => hs.tops (hback s (hafter ▸ hfits))⟩
  show s.starts.size = s.image.size / wordSize
  rw [hs.image]
  exact hs.starts

/-- **A copy** comes to no fault that the heap does not show, and its blocks end at addresses. -/
theorem mirrors_load (hsums : SumsFit space Valid Fits) (hp : p.Inside n)
    (hcovers : space.Covers p.header.encoding) :
    Mirrors Fits (·.Framed space Valid Fits p n) (load space p) (CopyStep.load p)
      fun _ s => Fits s.heap → ∀ b ∈ s.blocks.toList, space.Has b.dest.top := by
  refine mirrors_bind (mirrors_materialize hsums hp) fun _ => ?_
  refine mirrors_bind (mirrors_relocate hsums hp hcovers) fun _ => ?_
  refine mirrors_bind (mirrors_complete hsums) fun _ => mirrors_get_bind fun s hs => ?_
  refine mirrors_check_bind _ (fun _ _ _ _ => Checked.resolve?_eq_ok hs.1) ?_
  dsimp only
  cases resolve? s.image s.starts p.header.rootOffset.toNat with
  | none => exact mirrors_throw
  | some root => exact mirrors_pure fun _ ht => ht ▸ hs.2

end CheckedStep

/-! ## Archives -/

namespace Archive.Sound

variable {μ : Type} [Destination μ] [HeapSums μ] {a : Archive} {space : AddressSpace}
variable {Valid Fits : μ → Prop} {heap heap' : μ} {runtime : ReferenceEncoding} {delta : UInt64}

variable (delta) in
/-- Both passes over an archive that was read, in an empty heap, come to no fault that the heap does
not show. -/
theorem load_spec (h : a.Sound) (hsums : SumsFit space Valid Fits) (hvalid : Valid heap)
    (hcovers : space.Covers a.encoding)
    (hcheck : checkEncodings a.encoding runtime = .ok ()) (s : CopyState μ)
    (hs : s = ⟨heap, a.image, BitMap.empty (a.image.size / wordSize), #[], 0, .zero⟩) :
    (Fits (CopyStep.after (CopyStep.load (a.plan runtime delta)) s).heap → Fits heap ∧
      (CheckedStep.load space (a.plan runtime delta)).run s =
        .ok ((CopyStep.load (a.plan runtime delta)).run s)) ∧
    ∀ root t, Runs (CopyStep.load (a.plan runtime delta)) s root t → Fits t.heap →
      ∀ b ∈ t.blocks.toList, space.Has b.dest.top := by
  subst hs
  have hinside : (a.plan runtime delta).Inside a.image.size :=
    ⟨(checkEncodings_eq_ok hcheck).1, h.bounds⟩
  refine CheckedStep.mirrors_load hsums hinside hcovers _ ⟨rfl, rfl, ?_, hvalid, ?_⟩
  · exact fun b hb => absurd hb List.not_mem_nil
  · exact fun _ b hb => absurd hb List.not_mem_nil

/-- **Copying** the objects of an archive that was read comes to no fault, if the heap still fits in
the end and references stand for addresses only. -/
theorem copyImage_eq_ok (h : a.Sound) (hsums : SumsFit space Valid Fits) (hvalid : Valid heap)
    (hfits : Fits (HeapImage.copyImage a heap runtime delta).2)
    (hcovers : space.Covers a.encoding) :
    Checked.copyImage space a heap runtime delta =
      .ok (HeapImage.copyImage a heap runtime delta) := by
  rw [Checked.copyImage]
  rw [HeapImage.copyImage] at hfits ⊢
  cases hcheck : checkEncodings a.encoding runtime with
  | error e => rfl
  | ok u =>
    rw [hcheck] at hfits
    obtain ⟨hrun, -⟩ := h.load_spec delta hsums hvalid hcovers hcheck _ rfl
    rw [CopyStep.after] at hrun
    dsimp only [Archive.plan] at hfits hrun ⊢
    cases hload : (CopyStep.load ⟨a.header, a.types, a.opened, a.closed, runtime, delta⟩).run
      ⟨heap, a.image, BitMap.empty (a.image.size / wordSize), #[], 0, .zero⟩ with
    | mk result t =>
      rw [hload] at hfits hrun
      have hheap : Fits t.heap := by
        cases result <;> exact hfits
      rw [(hrun hheap).2]
      cases result <;> rfl

/-- The blocks of a copy end at addresses, if the heap fits in the end. -/
theorem has_of_copyImage (h : a.Sound) (hsums : SumsFit space Valid Fits) (hvalid : Valid heap)
    (hcovers : space.Covers a.encoding) {o : CopiedObjects}
    (hcopy : HeapImage.copyImage a heap runtime delta = (.ok o, heap')) (hfits : Fits heap') :
    ∀ e ∈ o.extents, space.Has e.top := by
  obtain ⟨hcheck, -, -, t, rfl, hblocks, -, -, hrun⟩ := of_copyImage hcopy
  intro e he
  obtain ⟨b, hb, rfl⟩ := List.mem_map.mp he
  rw [← hblocks] at hb
  exact (h.load_spec delta hsums hvalid hcovers hcheck _ rfl).2 o.root t hrun hfits b hb

end Archive.Sound

end HeapImage
