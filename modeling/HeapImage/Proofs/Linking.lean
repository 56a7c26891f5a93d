import HeapImage.Proofs.Staging

/-! # Linking

Linking computes one link for each reference of each member and writes all of them. A link leads
from the cell with the reference to the identity of the referent, which has to be staged.

* `StagingBuffer.IsLink`: a link that a member calls for.
* `StagingBuffer.links_spec`: the computed links are those that the members call for.
* `StagingBuffer.exists_links_iff`: links can be computed if all referents are staged.
* `StagingBuffer.writeLinks_spec`: writing links that do not contradict each other.
* `StagingBuffer.Stocks.link`: what linking makes of staged members. -/

namespace HeapImage

namespace StagingBuffer

/-! ## References of a member -/

/-- The offsets of fields with the references of their values, cell by cell. -/
theorem zip_references (slot start : Nat) (vs : List FieldValue) :
    (RecordLayout.fieldOffsets slot start (vs.map FieldValue.kind)).zip (vs.map referenceOf) =
      (fieldCells slot start vs).map fun c => (c.offset, referenceOf c.value) := by
  induction vs generalizing start with
  | nil => rfl
  | cons v vs ih =>
    rw [List.map_cons, List.map_cons, RecordLayout.fieldOffsets, List.zip_cons_cons, fieldCells,
      List.map_cons, ih]
    rfl

/-- A value refers to an object exactly if it is a reference to it. -/
theorem referenceOf_eq_some {v : FieldValue} {id : ObjectId} :
    referenceOf v = some id ↔ v = .reference (some id) := by
  cases v <;> simp [referenceOf]

variable {s : StagingBuffer} {g : ObjectGraph} {r : TypeRegistry} {roots : List ObjectId}
variable {xs : List Placed} {x : Placed}

/-- The references listed for a member are its cells with references. -/
theorem mem_referencesOf {m : Member} {slot k : Nat} {id : ObjectId} (hm : m.Of g r roots)
    (hslot : IsSlotSize slot) :
    (k, some id) ∈ referencesOf m.object m.type slot ↔
      ∃ c ∈ m.cells slot, c.offset = k ∧ c.value = .reference (some id) := by
  have hcells : ∀ cs : List Cell, (k, some id) ∈ cs.map (fun c => (c.offset, referenceOf c.value)) ↔
      ∃ c ∈ cs, c.offset = k ∧ c.value = .reference (some id) := by
    intro cs
    simp only [List.mem_map, Prod.mk.injEq, referenceOf_eq_some]
  have hfits := hm.fits
  rw [referencesOf.eq_def, Member.cells, SourceObject.cells.eq_def]
  cases hkind : m.type.kind with
  | record kinds =>
    rw [hkind] at hfits
    obtain ⟨values, hpayload, hkinds⟩ := hfits
    rw [hpayload, ← hcells]
    simp only [TypeKind.layout?, RecordLayout.compute, hslot.slotWidth_eq, ← hkinds,
      zip_references, Payload.values]
  | scalarArray size =>
    rw [hkind] at hfits
    obtain ⟨values, hpayload, -⟩ := hfits
    rw [hpayload]
    constructor
    · intro h
      cases h
    · -- An array of scalars has no cell with a reference.
      rintro ⟨c, hc, -, hv⟩
      obtain ⟨y, -, hy⟩ := exists_of_mem_elementCells rfl hc
      rw [hv] at hy
      cases hy
  | referenceArray =>
    rw [hkind] at hfits
    obtain ⟨targets, hpayload⟩ := hfits
    rw [hpayload, ← hcells, Payload.values, elementCells_eq, List.zipIdx_map, List.map_map,
      List.map_map]
    rfl

/-! ## Computing links -/

/-- The link that leads from a cell of a member to the identity of a staged referent. -/
def IsLink (s : StagingBuffer) (x : Placed) (l : Link) : Prop :=
  ∃ c ∈ x.member.cells s.slotSize, ∃ id p, c.value = .reference (some id) ∧
    s.slotOf? id = some p ∧ l = ⟨x.offset + c.offset, identityOf p⟩

/-- Some links are those that a member calls for. -/
def LinksOf (s : StagingBuffer) (x : Placed) (ls : List Link) : Prop :=
  (∀ c ∈ x.member.cells s.slotSize, ∀ id, c.value = .reference (some id) →
    ∃ p, s.slotOf? id = some p ∧ ⟨x.offset + c.offset, identityOf p⟩ ∈ ls) ∧
  ∀ l ∈ ls, s.IsLink x l

/-- The links of a staged object are those of its member. -/
theorem linksOf_spec {ls : List Link} {staged : StagedObject} (hx : x.member.Of g r roots)
    (hslot : IsSlotSize s.slotSize) (hstaged : stagedOf s.slotSize x = some staged)
    (h : s.linksOf g r staged = .ok ls) : s.LinksOf x ls := by
  rw [stagedOf, Option.map_eq_some_iff] at hstaged
  obtain ⟨source, hsource, rfl⟩ := hstaged
  simp only [linksOf, Except.bind_eq_ok, Except.pure_eq_ok] at h
  obtain ⟨⟨o, type⟩, hresolve, links, hlinks, rfl⟩ := h
  obtain ⟨hget, htype⟩ := ObjectGraph.resolve_eq_ok.mp hresolve
  obtain rfl : x.member.object = o := Option.some.inj ((hx.object source hsource).symm.trans hget)
  obtain rfl : x.member.type = type := Option.some.inj (hx.type.symm.trans htype)
  obtain ⟨hforth, hback⟩ := Except.mapM_eq_ok hlinks
  constructor
  · intro c hc id hv
    -- Every reference is looked up, and the lookup has not failed.
    have hmem := (mem_referencesOf hx hslot).mpr ⟨c, hc, rfl, hv⟩
    obtain ⟨l, hl, hlink⟩ := hforth _ hmem
    dsimp only [linkTo] at hlink
    split at hlink
    · rename_i p hp
      cases hlink
      exact ⟨p, hp, List.mem_filterMap.mpr ⟨_, hl, rfl⟩⟩
    · cases hlink
  · intro l hl
    obtain ⟨l', hl', heq⟩ := List.mem_filterMap.mp hl
    obtain ⟨⟨k, target⟩, hmem, hlink⟩ := hback l' hl'
    cases heq
    -- Null makes no link, so what is listed comes from a reference.
    cases target with
    | none => cases hlink
    | some id =>
      obtain ⟨c, hc, hck, hv⟩ := (mem_referencesOf hx hslot).mp hmem
      dsimp only [linkTo] at hlink
      split at hlink
      · rename_i p hp
        cases hlink
        exact ⟨c, hc, id, p, hv, hp, by rw [hck]⟩
      · cases hlink

/-- The cells of the root array are its elements. -/
theorem mem_cells_root {m : Member} {slot : Nat} {c : Cell} (hm : m.Of g r roots)
    (hid : m.id = none) :
    c ∈ m.cells slot ↔ ∃ id i, (id, i) ∈ roots.zipIdx ∧
      c = ⟨headerSize + i * slot, slot, .reference (some id)⟩ := by
  obtain ⟨-, hobject⟩ := hm.root hid
  have htype : m.type = .rootArray := by
    have := hm.type
    rw [hobject] at this
    exact Option.some.inj (this.symm.trans r.first)
  rw [Member.cells, hobject, htype, rootObject, TypeInfo.rootArray, SourceObject.cells.eq_def]
  simp only [Payload.values, elementCells_eq, List.zipIdx_map, List.map_map, List.mem_map,
    Prod.exists]
  constructor
  · rintro ⟨id, i, hmem, rfl⟩
    exact ⟨id, i, hmem, rfl⟩
  · rintro ⟨id, i, hmem, rfl⟩
    exact ⟨id, i, hmem, rfl⟩

/-- The links of the root array are those of its member. -/
theorem rootLinks_spec {ls : List Link} {size : Nat} (hx : x.member.Of g r roots)
    (hid : x.member.id = none) (h : s.rootLinks ⟨x.offset, size, roots⟩ = .ok ls) :
    s.LinksOf x ls := by
  obtain ⟨hforth, hback⟩ := Except.mapM_eq_ok h
  constructor
  · intro c hc id hv
    obtain ⟨id', i, hmem, rfl⟩ := (mem_cells_root hx hid).mp hc
    cases hv
    obtain ⟨l, hl, hlink⟩ := hforth _ hmem
    dsimp only at hlink
    split at hlink
    · rename_i p hp
      cases hlink
      rw [← Nat.add_assoc]
      exact ⟨p, hp, hl⟩
    · cases hlink
  · intro l hl
    obtain ⟨⟨id, i⟩, hmem, hlink⟩ := hback l hl
    dsimp only at hlink
    split at hlink
    · rename_i p hp
      cases hlink
      refine ⟨_, (mem_cells_root hx hid).mpr ⟨id, i, hmem, rfl⟩, id, p, rfl, hp, ?_⟩
      rw [Nat.add_assoc]
    · cases hlink

/-- Links are computed for the objects and for the root array, if there is one. -/
theorem links_eq_ok {ls : List Link} : s.links g r = .ok ls ↔ ∃ objects rootLinks,
    s.objects.toList.mapM (s.linksOf g r) = .ok objects ∧
      (s.roots.elim (.ok []) s.rootLinks) = .ok rootLinks ∧ ls = objects.flatten ++ rootLinks := by
  have hpure : ∀ {objects : List (List Link)} {rootLinks : List Link},
      (pure (objects.flatten ++ rootLinks) : Except ArchiveError (List Link)) = .ok ls ↔
        ls = objects.flatten ++ rootLinks := by
    intro objects rootLinks
    rw [Except.pure_eq_ok, eq_comm]
  rw [links, Except.bind_eq_ok]
  refine exists_congr fun objects => ?_
  cases s.roots with
  | none =>
    refine (and_congr_right fun _ => ?_).trans exists_and_left.symm
    exact hpure.trans ⟨fun h => ⟨[], rfl, h⟩, fun ⟨_, hnone, h⟩ => by cases hnone; exact h⟩
  | some root =>
    refine (and_congr_right fun _ => ?_).trans exists_and_left.symm
    exact Except.bind_eq_ok.trans (exists_congr fun rootLinks => and_congr_right fun _ => hpure)

/-- **The computed links are those that the staged members call for.** -/
theorem links_spec {ref : ObjectId → Nat} {ls : List Link} (hs : s.Stocks g r roots ref xs)
    (hslot : IsSlotSize s.slotSize) (h : s.links g r = .ok ls) :
    (∀ y ∈ xs, ∃ ls' : List Link, s.LinksOf y ls' ∧ ∀ l ∈ ls', l ∈ ls) ∧
      ∀ l ∈ ls, ∃ y ∈ xs, s.IsLink y l := by
  obtain ⟨objects, rootLinks, hobjects, hrootLinks, rfl⟩ := links_eq_ok.mp h
  obtain ⟨hforth, hback⟩ := Except.mapM_eq_ok hobjects
  rw [hs.stages.objects] at hforth hback
  -- Either there is no root array, and no links for it, or it is one of the members.
  have hroot : (∀ y ∈ xs, y.member.id = none → s.LinksOf y rootLinks) ∧
      ∀ l ∈ rootLinks, ∃ y ∈ xs, s.IsLink y l := by
    cases hroots : s.roots with
    | none =>
      rw [hroots] at hrootLinks
      cases hrootLinks
      exact ⟨fun y hy hid => absurd hid (hs.rootless hroots y hy), nofun⟩
    | some root =>
      obtain ⟨x, hx, hid, rfl⟩ := hs.rooted root hroots
      rw [hroots] at hrootLinks
      have hlinks := rootLinks_spec (hs.stages.of x hx) hid hrootLinks
      refine ⟨fun y hy hyid => ?_, fun l hl => ⟨x, hx, hlinks.2 l hl⟩⟩
      have hyx : y.member.id = x.member.id := hyid.trans hid.symm
      obtain rfl : y = x := List.inj_on_of_nodup_map hs.stages.distinct hy hx hyx
      exact hlinks
  constructor
  · intro y hy
    cases hyid : y.member.id with
    | none => exact ⟨rootLinks, hroot.1 y hy hyid, fun l hl => List.mem_append_right _ hl⟩
    | some id =>
      have hstaged : stagedOf s.slotSize y =
          some ⟨id, y.member.region, y.offset, y.member.size s.slotSize⟩ := by
        rw [stagedOf, hyid, Option.map_some]
      obtain ⟨ls', hls', hlinks⟩ := hforth _ (List.mem_filterMap.mpr ⟨y, hy, hstaged⟩)
      refine ⟨ls', linksOf_spec (hs.stages.of y hy) hslot hstaged hlinks, ?_⟩
      intro l hl
      exact List.mem_append_left _ (List.mem_flatten.mpr ⟨ls', hls', hl⟩)
  · intro l hl
    rcases List.mem_append.mp hl with hl | hl
    · obtain ⟨ls', hls', hl⟩ := List.mem_flatten.mp hl
      obtain ⟨staged, hmem, hlinks⟩ := hback ls' hls'
      obtain ⟨y, hy, hstaged⟩ := List.mem_filterMap.mp hmem
      exact ⟨y, hy, (linksOf_spec (hs.stages.of y hy) hslot hstaged hlinks).2 l hl⟩
    · exact hroot.2 l hl

/-- An object whose referents are all staged can be linked. -/
theorem exists_linksOf {staged : StagedObject} (hx : x.member.Of g r roots)
    (hslot : IsSlotSize s.slotSize) (hstaged : stagedOf s.slotSize x = some staged)
    (h : ∀ c ∈ x.member.cells s.slotSize, ∀ id, c.value = .reference (some id) →
      ∃ p, s.slotOf? id = some p) : ∃ ls, s.linksOf g r staged = .ok ls := by
  rw [stagedOf, Option.map_eq_some_iff] at hstaged
  obtain ⟨source, hsource, rfl⟩ := hstaged
  obtain ⟨links, hlinks⟩ : ∃ links, (referencesOf x.member.object x.member.type s.slotSize).mapM
      (fun slot => s.linkTo source (x.offset + slot.1) slot.2) = .ok links := by
    refine Except.exists_mapM.mpr ?_
    rintro ⟨k, target⟩ hmem
    cases target with
    | none => exact ⟨none, rfl⟩
    | some id =>
      obtain ⟨c, hc, -, hv⟩ := (mem_referencesOf hx hslot).mp hmem
      obtain ⟨p, hp⟩ := h c hc id hv
      refine ⟨some ⟨x.offset + k, identityOf p⟩, ?_⟩
      dsimp only [linkTo]
      rw [hp]
  refine ⟨links.filterMap id, Except.bind_eq_ok.mpr ⟨(x.member.object, x.member.type), ?_, ?_⟩⟩
  · exact ObjectGraph.resolve_eq_ok.mpr ⟨hx.object source hsource, hx.type⟩
  · exact Except.bind_eq_ok.mpr ⟨links, hlinks, rfl⟩

/-- A root array whose elements are all staged can be linked. -/
theorem exists_rootLinks {size : Nat} (hx : x.member.Of g r roots) (hid : x.member.id = none)
    (h : ∀ c ∈ x.member.cells s.slotSize, ∀ id, c.value = .reference (some id) →
      ∃ p, s.slotOf? id = some p) : ∃ ls, s.rootLinks ⟨x.offset, size, roots⟩ = .ok ls := by
  refine Except.exists_mapM.mpr ?_
  rintro ⟨id, i⟩ hmem
  obtain ⟨p, hp⟩ := h _ ((mem_cells_root hx hid).mpr ⟨id, i, hmem, rfl⟩) id rfl
  refine ⟨⟨x.offset + headerSize + i * s.slotSize, identityOf p⟩, ?_⟩
  dsimp only
  rw [hp]

/-- **Links can be computed** exactly if all referents are staged. -/
theorem exists_links_iff {ref : ObjectId → Nat} (hs : s.Stocks g r roots ref xs)
    (hslot : IsSlotSize s.slotSize) : (∃ ls, s.links g r = .ok ls) ↔
      ∀ y ∈ xs, ∀ c ∈ y.member.cells s.slotSize, ∀ id, c.value = .reference (some id) →
        ∃ p, s.slotOf? id = some p := by
  constructor
  · rintro ⟨ls, hls⟩ y hy c hc id hv
    obtain ⟨ls', hlinks, -⟩ := (links_spec hs hslot hls).1 y hy
    obtain ⟨p, hp, -⟩ := hlinks.1 c hc id hv
    exact ⟨p, hp⟩
  · intro h
    obtain ⟨objects, hobjects⟩ : ∃ objects, s.objects.toList.mapM (s.linksOf g r) =
        .ok objects := by
      refine Except.exists_mapM.mpr ?_
      intro staged hmem
      rw [hs.stages.objects] at hmem
      obtain ⟨y, hy, hstaged⟩ := List.mem_filterMap.mp hmem
      exact exists_linksOf (hs.stages.of y hy) hslot hstaged (h y hy)
    -- A root array is a member like others, if there is one.
    obtain ⟨rootLinks, hrootLinks⟩ : ∃ rootLinks,
        s.roots.elim (.ok []) s.rootLinks = .ok rootLinks := by
      cases hroots : s.roots with
      | none => exact ⟨[], rfl⟩
      | some root =>
        obtain ⟨x, hx, hid, rfl⟩ := hs.rooted root hroots
        exact exists_rootLinks (hs.stages.of x hx) hid (h x hx)
    exact ⟨_, links_eq_ok.mpr ⟨objects, rootLinks, hobjects, hrootLinks, rfl⟩⟩

/-! ## Writing links -/

/-- Links that lie apart, or are one, can be written in any order and as often as they come. -/
theorem writeLinks_spec {slot : Nat} (hwidth : slotWidth slot = slot) {ls : List Link}
    {b b' : ByteArray} (h : writeLinks slot b ls = (.ok (), b'))
    (hconsistent : ∀ l ∈ ls, ∀ l' ∈ ls, l = l' ∨ Apart slot l.offset l'.offset)
    (hidentity : ∀ l ∈ ls, l.identity < 256 ^ slot) :
    b'.size = b.size ∧ Rewrites slot (fun i _ new => ⟨i, new⟩ ∈ ls) (ls.map Link.offset)
      (Bytes.get b) (Bytes.get b') := by
  induction ls generalizing b with
  | nil =>
    rw [writeLinks] at h
    cases h
    exact ⟨rfl, .nil⟩
  | cons l ls ih =>
    rw [writeLinks, hwidth] at h
    split at h
    · cases h
    · rename_i hcheck
      have hfits := BoundsFault.checkBytes_eq_ok_iff.mp hcheck
      obtain ⟨hsize, hrw⟩ := ih h
        (fun l₁ h₁ l₂ h₂ =>
          hconsistent l₁ (List.mem_cons_of_mem _ h₁) l₂ (List.mem_cons_of_mem _ h₂))
        (fun l₁ h₁ => hidentity l₁ (List.mem_cons_of_mem _ h₁))
      rw [Bytes.size_setValue] at hsize
      refine ⟨hsize, ?_, ?_⟩
      · intro i hi
        -- A place that is linked again later gets the same identity then, so the later one counts.
        by_cases hrest : i ∈ ls.map Link.offset
        · exact List.mem_cons_of_mem _ (hrw.inside i hrest)
        · rcases List.mem_cons.mp hi with rfl | hi
          · have hnumber : Bytes.number (Bytes.get b') l.offset slot = l.identity := by
              rw [hrw.number_eq, ← Bytes.valueAt_eq_number, Bytes.valueAt_setValue_self hfits,
                Nat.mod_eq_of_lt (hidentity l (List.mem_cons_self ..))]
              intro p hp
              obtain ⟨l', hl', rfl⟩ := List.mem_map.mp hp
              rcases hconsistent l (List.mem_cons_self ..) l' (List.mem_cons_of_mem _ hl') with
                rfl | hapart
              · exact absurd hp hrest
              · exact hapart
            rw [hnumber]
            exact List.mem_cons_self ..
          · exact absurd hi hrest
      · intro j hj
        have hl := hj l.offset (List.mem_cons_self ..)
        rw [hrw.outside j fun i hi => hj i (List.mem_cons_of_mem _ hi), Bytes.get_setValue,
          if_neg (by omega)]

/-- Links that lie in the bytes can be written. -/
theorem writeLinks_eq_ok {slot : Nat} (hwidth : slotWidth slot = slot) {ls : List Link}
    {b : ByteArray} (hinside : ∀ l ∈ ls, l.offset + slot ≤ b.size) :
    (writeLinks slot b ls).1 = .ok () := by
  induction ls generalizing b with
  | nil => rfl
  | cons l ls ih =>
    have hl := hinside l (List.mem_cons_self ..)
    rw [writeLinks, hwidth, BoundsFault.checkBytes_eq_ok_iff.mpr hl]
    apply ih
    intro l' hl'
    rw [Bytes.size_setValue]
    exact hinside l' (List.mem_cons_of_mem _ hl')

/-! ## What linking makes of staged members -/

/-- The identity of a staged object. -/
def identity (s : StagingBuffer) (id : ObjectId) : Nat := identityOf ((s.slotOf? id).getD 0)

/-- A reference slot holds the identity of any staged object, if it holds the number of any heap
word that the buffer may have. -/
theorem Stages.identity_lt {ref : ObjectId → Nat} (hs : s.Stages g r roots ref xs)
    (hcapacity : s.capacity / wordSize < 256 ^ s.slotSize) {id : ObjectId} {p : Nat}
    (h : s.slotOf? id = some p) : identityOf p < 256 ^ s.slotSize := by
  obtain ⟨x, hx, -, rfl⟩ := (hs.slotOf id p).mp h
  have hstop := (hs.row.bounds x hx).2
  have hfits := hs.fits
  have hheader := x.member.headerSize_le_size s.slotSize
  have hroom : x.offset + 2 * wordSize ≤ s.capacity := by
    rw [headerSize] at hheader
    omega
  have hnumber : identityOf x.offset ≤ s.capacity / wordSize := by
    rw [identityOf, Nat.le_div_iff_mul_le (by decide), Nat.succ_mul]
    have hfloor := Nat.div_mul_le_self x.offset wordSize
    omega
  exact Nat.lt_of_le_of_lt hnumber hcapacity

/-- Staged members lie apart. -/
theorem Stages.disjoint {ref : ObjectId → Nat} (hs : s.Stages g r roots ref xs) :
    Placed.Disjoint s.slotSize xs := hs.row.disjoint

/-- A link is in a cell of a member, or away from the member. -/
theorem Stages.place_of_isLink {ref : ObjectId → Nat} (hs : s.Stages g r roots ref xs)
    (hslot : IsSlotSize s.slotSize) {y : Placed} {l : Link} (hx : x ∈ xs) (hy : y ∈ xs)
    (hl : s.IsLink y l) :
    (∃ d ∈ x.member.cells s.slotSize, d.width = s.slotSize ∧ l.offset = x.offset + d.offset ∧
      ∃ id, d.value = .reference (some id)) ∨
      l.offset + s.slotSize ≤ x.offset ∨ x.stop s.slotSize ≤ l.offset := by
  obtain ⟨d, hd, id, p, hv, hp, rfl⟩ := hl
  have hbounds := (hs.of y hy).bounds hslot hd
  have hwidth := ((hs.of y hy).width_of_reference hslot hd hv).1
  rcases hs.disjoint x hx y hy with rfl | hxy | hyx
  · exact .inl ⟨d, hd, hwidth, rfl, id, hv⟩
  · exact .inr (.inr (by dsimp only; omega))
  · rw [Placed.stop] at hyx
    exact .inr (.inl (by dsimp only; omega))

/-- Links of the staged members are one or lie apart. -/
theorem Stages.eq_or_apart {ref : ObjectId → Nat} (hs : s.Stages g r roots ref xs)
    (hslot : IsSlotSize s.slotSize) {y : Placed} {l l' : Link} (hx : x ∈ xs) (hy : y ∈ xs)
    (hl : s.IsLink x l) (hl' : s.IsLink y l') : l = l' ∨ Apart s.slotSize l.offset l'.offset := by
  -- Links of different members are apart as the members are; those of one member are cells of it.
  obtain ⟨c, hc, id, p, hv, hp, rfl⟩ := hl
  obtain ⟨d, hd, id', p', hv', hp', rfl⟩ := hl'
  have hcb := (hs.of x hx).bounds hslot hc
  have hdb := (hs.of y hy).bounds hslot hd
  have hcw := ((hs.of x hx).width_of_reference hslot hc hv).1
  have hdw := ((hs.of y hy).width_of_reference hslot hd hv').1
  rw [Apart]
  rcases hs.disjoint x hx y hy with rfl | hxy | hyx
  · rcases ((hs.of x hx).row_cells hslot).eq_or_apart hc hd with rfl | hcd | hdc
    · rw [hv] at hv'
      cases hv'
      rw [hp] at hp'
      cases hp'
      exact .inl rfl
    · rw [Cell.stop] at hcd
      exact .inr (.inl (by dsimp only; omega))
    · rw [Cell.stop] at hdc
      exact .inr (.inr (by dsimp only; omega))
  · rw [Placed.stop] at hxy
    exact .inr (.inl (by dsimp only; omega))
  · rw [Placed.stop] at hyx
    exact .inr (.inr (by dsimp only; omega))

/-- The links of the staged members lie in the buffer. -/
theorem Stocks.applyLinks_eq_ok {ref : ObjectId → Nat} {ls : List Link}
    (hs : s.Stocks g r roots ref xs) (hslot : IsSlotSize s.slotSize)
    (hlinks : s.links g r = .ok ls) : (s.applyLinks ls).1 = .ok () := by
  change (writeLinks s.slotSize s.bytes ls).1.mapError ArchiveError.bounds = .ok ()
  rw [writeLinks_eq_ok hslot.slotWidth_eq]
  · rfl
  · intro l hl
    obtain ⟨y, hy, c, hc, id, p, hv, -, rfl⟩ := (links_spec hs hslot hlinks).2 l hl
    have hbounds := (hs.stages.of y hy).bounds hslot hc
    have hwidth := ((hs.stages.of y hy).width_of_reference hslot hc hv).1
    have hstop := (hs.stages.row.bounds y hy).2
    rw [size] at hstop
    dsimp only
    omega

/-- Links keep away from the headers of members. -/
theorem Stages.header_apart {ref : ObjectId → Nat} (hs : s.Stages g r roots ref xs)
    (hslot : IsSlotSize s.slotSize) {y : Placed} {l : Link} (hx : x ∈ xs) (hy : y ∈ xs)
    (hl : s.IsLink y l) :
    l.offset + s.slotSize ≤ x.offset ∨ x.offset + headerSize ≤ l.offset := by
  rcases hs.place_of_isLink hslot hx hy hl with ⟨d, hd, -, hoffset, -⟩ | hapart
  · have hbounds := ((hs.of x hx).bounds hslot hd).1
    omega
  · have hheader := x.member.headerSize_le_size s.slotSize
    rw [Placed.stop] at hapart
    omega

/-- Links keep away from the cells of members that refer to nothing. -/
theorem Stages.cell_apart {ref : ObjectId → Nat} (hs : s.Stages g r roots ref xs)
    (hslot : IsSlotSize s.slotSize) {y : Placed} {l : Link} {c : Cell} (hx : x ∈ xs) (hy : y ∈ xs)
    (hl : s.IsLink y l) (hc : c ∈ x.member.cells s.slotSize)
    (hv : ¬ ∃ id, c.value = .reference (some id)) :
    x.offset + c.offset + c.width ≤ l.offset ∨ l.offset + s.slotSize ≤ x.offset + c.offset := by
  have hbounds := (hs.of x hx).bounds hslot hc
  rcases hs.place_of_isLink hslot hx hy hl with ⟨d, hd, hwidth, hoffset, hdv⟩ | hapart
  · rcases ((hs.of x hx).row_cells hslot).eq_or_apart hc hd with rfl | hcd | hdc
    · exact absurd hdv hv
    · rw [Cell.stop] at hcd
      omega
    · rw [Cell.stop] at hdc
      omega
  · rw [Placed.stop] at hapart
    omega

section Links

variable {ls : List Link}

/-- Any two links are one or lie apart. -/
theorem Stocks.eq_or_apart_of_links {ref : ObjectId → Nat} (h : s.Stocks g r roots ref xs)
    (hslot : IsSlotSize s.slotSize) (hlinks : s.links g r = .ok ls) :
    ∀ l ∈ ls, ∀ l' ∈ ls, l = l' ∨ Apart s.slotSize l.offset l'.offset := by
  obtain ⟨-, hback⟩ := links_spec h hslot hlinks
  intro l hl l' hl'
  obtain ⟨y, hy, hlink⟩ := hback l hl
  obtain ⟨y', hy', hlink'⟩ := hback l' hl'
  exact h.stages.eq_or_apart hslot hy hy' hlink hlink'

/-- The identities that links store fit if those of staged objects do. -/
theorem Stocks.identity_lt_of_links {ref : ObjectId → Nat} (h : s.Stocks g r roots ref xs)
    (hslot : IsSlotSize s.slotSize)
    (hidentity : ∀ id p, s.slotOf? id = some p → identityOf p < 256 ^ s.slotSize)
    (hlinks : s.links g r = .ok ls) : ∀ l ∈ ls, l.identity < 256 ^ s.slotSize := by
  obtain ⟨-, hback⟩ := links_spec h hslot hlinks
  intro l hl
  obtain ⟨y, hy, c, hc, id, p, -, hp, rfl⟩ := hback l hl
  exact hidentity id p hp

/-- Every reference of a member leads to a staged object, and there is a link for it. -/
theorem Stocks.exists_link {ref : ObjectId → Nat} (h : s.Stocks g r roots ref xs)
    (hslot : IsSlotSize s.slotSize) (hlinks : s.links g r = .ok ls) {y : Placed} {c : Cell}
    {id : ObjectId} (hy : y ∈ xs) (hc : c ∈ y.member.cells s.slotSize)
    (hv : c.value = .reference (some id)) :
    ∃ p, s.slotOf? id = some p ∧ ⟨y.offset + c.offset, identityOf p⟩ ∈ ls := by
  obtain ⟨hforth, -⟩ := links_spec h hslot hlinks
  obtain ⟨ls', hls', hsub⟩ := hforth y hy
  obtain ⟨p, hp, hmem⟩ := hls'.1 c hc id hv
  exact ⟨p, hp, hsub _ hmem⟩

/-- **A member with its links written** refers by identities. -/
theorem Stocks.held_of_rewrites {ref : ObjectId → Nat} {w : Nat → UInt8}
    (h : s.Stocks g r roots ref xs) (hslot : IsSlotSize s.slotSize)
    (hlinks : s.links g r = .ok ls)
    (hrw : Rewrites s.slotSize (fun i _ new => ⟨i, new⟩ ∈ ls) (ls.map Link.offset)
      (Bytes.get s.bytes) w) {y : Placed} (hy : y ∈ xs) : y.Held s.slotSize s.identity id w := by
  have hs := h.stages
  obtain ⟨-, hback⟩ := links_spec h hslot hlinks
  apply (hs.held y hy).rewrite hrw
  · intro i hi
    obtain ⟨l, hl, rfl⟩ := List.mem_map.mp hi
    obtain ⟨z, hz, hlink⟩ := hback l hl
    exact hs.header_apart hslot hy hz hlink
  · intro c hc
    -- A link was written to every cell that refers to something, and to nothing else.
    by_cases hv : ∃ id, c.value = .reference (some id)
    · obtain ⟨id, hv⟩ := hv
      obtain ⟨p, hp, hmem⟩ := h.exists_link hslot hlinks hy hc hv
      refine .inl ⟨List.mem_map.mpr ⟨_, hmem, rfl⟩,
        ((hs.of y hy).width_of_reference hslot hc hv).1, ?_⟩
      intro new hnew
      have hpos := hslot.pos
      rcases h.eq_or_apart_of_links hslot hlinks _ hnew _ hmem with heq | hapart
      · rw [hv, (Link.mk.inj heq).2, FieldValue.number, identity, hp, Option.getD_some]
      · dsimp only [Apart] at hapart
        omega
    · refine .inr ⟨?_, FieldValue.number_of_not_referent hv⟩
      intro i hi
      obtain ⟨l, hl, rfl⟩ := List.mem_map.mp hi
      obtain ⟨z, hz, hlink⟩ := hback l hl
      exact hs.cell_apart hslot hy hz hlink hc hv

/-- Writing links changes the bytes of a buffer only. -/
theorem applyLinks_eq_ok_iff {t : StagingBuffer} : s.applyLinks ls = (.ok (), t) ↔
    ∃ b, writeLinks s.slotSize s.bytes ls = (.ok (), b) ∧ t = { s with bytes := b } := by
  rw [applyLinks]
  rcases writeLinks s.slotSize s.bytes ls with ⟨_ | ⟨⟩, b⟩
  · constructor
    · intro h
      cases h
    · rintro ⟨_, h, -⟩
      cases h
  · constructor
    · intro h
      cases h
      exact ⟨b, rfl, rfl⟩
    · rintro ⟨_, h, rfl⟩
      cases h
      rfl

/-- **Linking** puts identities in place of references, and refuses referents that are not
staged. All bytes outside of links stay. -/
theorem Stocks.link {t : StagingBuffer} (h : s.Stocks g r roots (fun _ => 0) xs)
    (hslot : IsSlotSize s.slotSize)
    (hidentity : ∀ id p, s.slotOf? id = some p → identityOf p < 256 ^ s.slotSize)
    (hlinks : s.links g r = .ok ls) (happly : s.applyLinks ls = (.ok (), t)) :
    t = { s with bytes := t.bytes } ∧ t.Stages g r roots s.identity xs ∧
      (∀ y ∈ xs, ∀ c ∈ y.member.cells s.slotSize, ∀ id, c.value = .reference (some id) →
        ∃ p, s.slotOf? id = some p) ∧
      ∀ j, (∀ y ∈ xs, ∀ l, s.IsLink y l → j < l.offset ∨ l.offset + s.slotSize ≤ j) →
        Bytes.get t.bytes j = Bytes.get s.bytes j := by
  have hs := h.stages
  obtain ⟨-, hback⟩ := links_spec h hslot hlinks
  obtain ⟨b, hwrite, rfl⟩ := applyLinks_eq_ok_iff.mp happly
  obtain ⟨hsize, hrw⟩ := writeLinks_spec hslot.slotWidth_eq hwrite
    (h.eq_or_apart_of_links hslot hlinks) (h.identity_lt_of_links hslot hidentity hlinks)
  refine ⟨rfl, ⟨?_, ?_, hs.of, fun y hy => h.held_of_rewrites hslot hlinks hrw hy, hs.size_le,
    hs.objects, hs.slotOf, hs.distinct⟩, ?_, ?_⟩
  · rw [size, hsize]
    exact hs.row
  · rw [size, hsize]
    exact hs.fits
  · intro y hy c hc id hv
    obtain ⟨p, hp, -⟩ := h.exists_link hslot hlinks hy hc hv
    exact ⟨p, hp⟩
  · intro j hj
    refine hrw.outside j ?_
    intro i hi
    obtain ⟨l, hl, rfl⟩ := List.mem_map.mp hi
    obtain ⟨y, hy, hlink⟩ := hback l hl
    exact hj y hy l hlink

end Links

end StagingBuffer

end HeapImage
