import HeapImage.Graph.File
import HeapImage.Proofs.CanonicalTables
import HeapImage.Proofs.FileRoundTrip
import HeapImage.Proofs.JsonSizes
import Mathlib.Data.List.Forall2

/-! # Graph files bound their dumps

Whatever a graph file says of its types, it says at length: a name and the kinds of fields are
written out in it. So a file of less than 4 GiB has types whose counts and lengths fit in a type
table, and the table is not much longer than the text.

* `Json.weight_le_of_record?`, `Json.sum_le_of_list?`: members and elements are part of a value.
* `GraphFile.fitsTable_of_parse?`: the types of a graph file fit in a table. -/

namespace HeapImage

/-! ## Lists -/

section

variable {α β : Type}

/-- A list of results has the results of its elements. -/
theorem forall₂_of_mapM {read : α → Option β} {xs : List α} {ys : List β}
    (h : xs.mapM read = some ys) : List.Forall₂ (fun x y => read x = some y) xs ys := by
  induction xs generalizing ys with
  | nil =>
    cases h
    exact .nil
  | cons x xs ih =>
    rw [List.mapM_cons] at h
    obtain ⟨y, hy, h⟩ := Option.bind_eq_some_iff.mp h
    obtain ⟨ys', hys, h⟩ := Option.bind_eq_some_iff.mp h
    cases h
    exact .cons hy (ih hys)

/-- Each element of the second list has a partner in the first. -/
theorem exists_of_forall₂ {R : α → β → Prop} {xs : List α} {ys : List β}
    (h : List.Forall₂ R xs ys) {y : β} (hy : y ∈ ys) : ∃ x ∈ xs, R x y := by
  induction h with
  | nil => cases hy
  | cons hx hxs ih =>
    rcases List.mem_cons.mp hy with rfl | hy
    · exact ⟨_, List.mem_cons_self .., hx⟩
    · obtain ⟨x, hmem, hR⟩ := ih hy
      exact ⟨x, List.mem_cons_of_mem _ hmem, hR⟩

end

/-! ## Parts of a value -/

namespace Json

variable {α : Type}

/-- Every value weighs something. -/
theorem weight_pos (v : Json) : 1 ≤ v.weight := by
  cases v <;> simp [weight]

/-- An element weighs no more than all of them. -/
theorem weight_le_of_mem {vs : List Json} {v : Json} (h : v ∈ vs) :
    v.weight ≤ weightOfElements vs := by
  induction vs with
  | nil => cases h
  | cons w vs ih =>
    rw [weightOfElements]
    rcases List.mem_cons.mp h with rfl | h
    · exact Nat.le_add_right ..
    · exact Nat.le_trans (ih h) (Nat.le_add_left ..)

/-- A member weighs no more than all of them. -/
theorem weight_le_of_member {ms : List (Option String × Json)} {m : Option String × Json}
    (h : m ∈ ms) : m.2.weight ≤ weightOfMembers ms := by
  induction ms with
  | nil => cases h
  | cons n ms ih =>
    rw [weightOfMembers]
    rcases List.mem_cons.mp h with rfl | h
    · exact Nat.le_add_right ..
    · exact Nat.le_trans (ih h) (Nat.le_add_left ..)

/-- A member that is found is one of those that there are. -/
theorem mem_of_unique? {ms : List (Option String × Json)} {name : String} {v : Json}
    (h : unique? ms name = some (some v)) : ∃ m ∈ ms, m.2 = v := by
  unfold unique? at h
  split at h
  · cases h
  · rename_i m hfilter
    cases h
    have hm : m ∈ ms.filter fun m => m.1 == some name := hfilter ▸ List.mem_singleton_self m
    exact ⟨m, List.mem_of_mem_filter hm, rfl⟩
  · cases h

/-- The value of a member is part of the object. -/
theorem weight_le_of_members? {names : List String} {value v : Json} {found : List (Option Json)}
    (h : value.members? names = some found) (hv : some v ∈ found) : v.weight ≤ value.weight := by
  unfold members? at h
  split at h
  · rename_i ms
    split at h
    · obtain ⟨name, -, hname⟩ := exists_of_forall₂ (forall₂_of_mapM h) hv
      obtain ⟨m, hm, rfl⟩ := mem_of_unique? hname
      rw [weight]
      exact Nat.le_trans (weight_le_of_member hm) (Nat.le_add_left ..)
    · cases h
  · cases h

/-- The value of a member is part of the record. -/
theorem weight_le_of_record? {names : List String} {value v : Json} {found : List (Option Json)}
    (h : value.record? names = some found) (hv : some v ∈ found) : v.weight ≤ value.weight := by
  unfold record? at h
  split at h
  · rename_i vs
    split at h
    · cases h
      rcases List.mem_append.mp hv with hv | hv
      · obtain ⟨w, hw, hwv⟩ := List.mem_map.mp hv
        cases hwv
        rw [weight]
        exact Nat.le_trans (weight_le_of_mem hw) (Nat.le_add_left ..)
      · cases List.eq_of_mem_replicate hv
    · cases h
  · exact weight_le_of_members? h hv

/-- The value of a choice is part of it. -/
theorem weight_le_of_variant? {value v : Json} {name : String}
    (h : value.variant? = some (name, some v)) : v.weight ≤ value.weight := by
  unfold variant? at h
  split at h
  · cases h
  · cases h
    simp only [weight, weightOfMembers]
    omega
  · cases h

/-- A text is no longer than the value weighs. -/
theorem size_le_of_text? {value : Json} {text : String} (h : value.text? = some text) :
    text.utf8ByteSize ≤ value.weight := by
  unfold text? at h
  split at h
  · rw [h, weight]
    exact Nat.le_add_left ..
  · cases h

/-- What is read from elements costs no more than they weigh, if that holds of each of them. -/
theorem sum_le_of_forall₂ {read : Json → Option α} {cost : α → Nat} {k : Nat} {vs : List Json}
    {xs : List α} (hread : ∀ v x, read v = some x → cost x ≤ k * v.weight)
    (h : List.Forall₂ (fun v x => read v = some x) vs xs) :
    (xs.map cost).sum ≤ k * weightOfElements vs := by
  induction h with
  | nil => exact Nat.zero_le _
  | cons hx _ ih =>
    rw [List.map_cons, List.sum_cons, weightOfElements, Nat.mul_add]
    exact Nat.add_le_add (hread _ _ hx) ih

/-- A list is read from an array, element by element. -/
theorem list?_eq_some {read : Json → Option α} {value : Json} {xs : List α}
    (h : value.list? read = some xs) :
    ∃ vs, value = array vs ∧ List.Forall₂ (fun v x => read v = some x) vs xs := by
  obtain ⟨vs, hvs, hxs⟩ := Option.bind_eq_some_iff.mp h
  unfold array? at hvs
  split at hvs
  · cases hvs
    exact ⟨vs, rfl, forall₂_of_mapM hxs⟩
  · cases hvs

/-- **Elements** that cost in proportion to their weight cost less together than the array. -/
theorem sum_le_of_list? {read : Json → Option α} {cost : α → Nat} {k : Nat} {value : Json}
    {xs : List α} (hread : ∀ v x, read v = some x → cost x ≤ k * v.weight)
    (h : value.list? read = some xs) : (xs.map cost).sum + k ≤ k * value.weight := by
  obtain ⟨vs, rfl, hxs⟩ := list?_eq_some h
  have hsum := sum_le_of_forall₂ hread hxs
  rw [weight, Nat.mul_add]
  omega

/-- A list is shorter than its value weighs. -/
theorem length_lt_of_list? {read : Json → Option α} {value : Json} {xs : List α}
    (h : value.list? read = some xs) : xs.length < value.weight := by
  have hone : ∀ v x, read v = some x → 1 ≤ 1 * v.weight := by
    intro v _ _
    rw [Nat.one_mul]
    exact v.weight_pos
  have hsum : (xs.map fun _ => 1).sum + 1 ≤ 1 * value.weight := sum_le_of_list? hone h
  rw [List.map_const', List.sum_replicate_nat, Nat.mul_one, Nat.one_mul] at hsum
  exact hsum

/-- What is read of an element is read of a part of the array. -/
theorem exists_of_list? {read : Json → Option α} {value : Json} {xs : List α}
    (h : value.list? read = some xs) {x : α} (hx : x ∈ xs) :
    ∃ v, v.weight ≤ value.weight ∧ read v = some x := by
  obtain ⟨vs, rfl, hxs⟩ := list?_eq_some h
  obtain ⟨v, hv, hread⟩ := exists_of_forall₂ hxs hx
  refine ⟨v, ?_, hread⟩
  rw [weight]
  exact Nat.le_trans (weight_le_of_mem hv) (Nat.le_add_left ..)

end Json

/-! ## Types of a graph file -/

namespace GraphFile

variable {form : KindForm} {value : Json}

/-- What is found in the form of a kind weighs no more than the value. -/
theorem KindForm.weight_le_of_record? {names : List String} {v : Json}
    {found : List (Option Json)} (h : form.record? names value = some found)
    (hv : some v ∈ found) : v.weight ≤ value.weight := by
  cases form with
  | named => exact Json.weight_le_of_members? h hv
  | namedOrOrdered => exact Json.weight_le_of_record? h hv

/-- A kind has fewer fields than its value weighs. -/
theorem fields_lt_of_recordKind? {kind : TypeKind} (h : recordKind? form value = some kind) :
    kind.fields.length < value.weight := by
  obtain ⟨found, hfound, h⟩ := Option.bind_eq_some_iff.mp h
  split at h
  · rename_i listed
    obtain ⟨fields, hfields, h⟩ := Option.bind_eq_some_iff.mp h
    cases h
    exact Nat.lt_of_lt_of_le (Json.length_lt_of_list? hfields)
      (KindForm.weight_le_of_record? hfound (List.mem_cons_self ..))
  · cases h

/-- Fields are written out. -/
theorem fields_lt_of_typeKind? {kind : TypeKind} (h : typeKind? form value = some kind) :
    kind.fields.length < value.weight := by
  obtain ⟨choice, hvariant, h⟩ := Option.bind_eq_some_iff.mp h
  split at h
  · exact Nat.lt_of_lt_of_le (fields_lt_of_recordKind? h) (Json.weight_le_of_variant? hvariant)
  · obtain ⟨found, -, h⟩ := Option.bind_eq_some_iff.mp h
    split at h
    · obtain ⟨size, -, h⟩ := Option.bind_eq_some_iff.mp h
      cases h
      exact value.weight_pos
    · cases h
  · split at h
    · cases h
      exact value.weight_pos
    · cases h
  · cases h

/-- **A type** has a name and fields that are written out. -/
theorem sizes_of_type? {t : TypeInfo} (h : type? form value = some t) :
    t.name.utf8ByteSize ≤ value.weight ∧ t.kind.fields.length ≤ value.weight := by
  obtain ⟨found, hfound, h⟩ := Option.bind_eq_some_iff.mp h
  split at h
  · rename_i named described
    obtain ⟨name, hname, h⟩ := Option.bind_eq_some_iff.mp h
    obtain ⟨kind, hkind, h⟩ := Option.bind_eq_some_iff.mp h
    cases h
    have hfields := fields_lt_of_typeKind? hkind
    have hnamed := Json.weight_le_of_record? (v := named) hfound (by simp)
    have hdescribed := Json.weight_le_of_record? (v := described) hfound (by simp)
    exact ⟨Nat.le_trans (Json.size_le_of_text? hname) hnamed, by dsimp only; omega⟩
  · cases h

/-- The types of a graph file are a list in its text. -/
theorem types_of_parse? {text : String} {f : GraphFile} (h : parse? text = some f) :
    ∃ v : Json, v.weight ≤ text.utf8ByteSize ∧ v.list? (type? .namedOrOrdered) = some f.types := by
  obtain ⟨value, hvalue, h⟩ := Option.bind_eq_some_iff.mp h
  obtain ⟨found, hfound, h⟩ := Option.bind_eq_some_iff.mp h
  split at h
  · rename_i types graph selection
    have hrest : ∀ selection : Option Selection,
        ((types.list? (type? .namedOrOrdered)).bind fun ts => (graph? graph).bind fun g =>
          some ⟨ts, g, selection⟩) = some f →
        types.list? (type? .namedOrOrdered) = some f.types := by
      intro selection h
      obtain ⟨ts, hts, h⟩ := Option.bind_eq_some_iff.mp h
      obtain ⟨g, -, h⟩ := Option.bind_eq_some_iff.mp h
      cases h
      exact hts
    have hpart := Json.weight_le_of_record? (v := types) hfound (by simp)
    refine ⟨types, Nat.le_trans hpart (Json.weight_of_parse? hvalue), ?_⟩
    cases selection with
    | none => exact hrest none h
    | some value =>
      obtain ⟨selection, -, h⟩ := Option.bind_eq_some_iff.mp h
      exact hrest selection h
  · cases h

end GraphFile

namespace TypeTable

/-- An encoded kind takes a byte for each field and no more than five others. -/
theorem kindLength_le (k : TypeKind) : kindLength k ≤ 5 + k.fields.length := by
  cases k with
  | record fields =>
    simp only [kindLength, numberSize, TypeKind.fields]
    omega
  | scalarArray n =>
    show 2 ≤ 5 + 0
    decide
  | referenceArray =>
    show 1 ≤ 5 + 0
    decide

/-- An encoded type takes up its name, its fields and no more than nine other bytes. -/
theorem infoLength_le (t : TypeInfo) :
    infoLength t ≤ 9 + t.name.utf8ByteSize + t.kind.fields.length := by
  have hkind := kindLength_le t.kind
  simp only [infoLength, numberSize]
  omega

end TypeTable

/-- A kind fits a type table if its number of fields does. -/
theorem TypeKind.fitsTable_of_lt {k : TypeKind} (h : FitsNumber k.fields.length) :
    k.FitsTable := by
  cases k with
  | record fields => exact h
  | scalarArray n => trivial
  | referenceArray => trivial

namespace GraphFile

/-- **The types of a graph file** of less than 4 GiB fit in a type table. -/
theorem fitsTable_of_parse? {text : String} {f : GraphFile} {r : TypeRegistry}
    (hsize : text.utf8ByteSize < 2 ^ 32) (h : parse? text = some f) (hr : f.registry = .ok r) :
    r.FitsTable ∧ (TypeTable.encode r).length ≤ 18 + 11 * text.utf8ByteSize := by
  obtain ⟨v, hweight, hlist⟩ := types_of_parse? h
  have htypes : r.types.toList = .rootArray :: f.types := TypeTable.types_of_foldlM hr
  have hlength := Json.length_lt_of_list? hlist
  -- A name or a list of fields is never larger than the text that it was read from.
  have hsizes : ∀ t ∈ f.types,
      t.name.utf8ByteSize ≤ v.weight ∧ t.kind.fields.length ≤ v.weight := by
    intro t ht
    obtain ⟨w, hw, hread⟩ := Json.exists_of_list? hlist ht
    obtain ⟨hname, hfields⟩ := sizes_of_type? hread
    exact ⟨Nat.le_trans hname hw, Nat.le_trans hfields hw⟩
  refine ⟨⟨?_, ?_, ?_⟩, ?_⟩
  · rw [TypeRegistry.size, ← Array.length_toList, htypes, List.length_cons]
    exact Nat.lt_of_le_of_lt hlength (Nat.lt_of_le_of_lt hweight hsize)
  · rw [htypes]
    intro t ht
    rcases List.mem_cons.mp ht with rfl | ht
    · decide
    · exact Nat.lt_of_le_of_lt (hsizes t ht).1 (Nat.lt_of_le_of_lt hweight hsize)
  · rw [htypes]
    intro t ht
    rcases List.mem_cons.mp ht with rfl | ht
    · trivial
    · exact TypeKind.fitsTable_of_lt
        (Nat.lt_of_le_of_lt (hsizes t ht).2 (Nat.lt_of_le_of_lt hweight hsize))
  · -- What an entry takes up in the table is bounded by what its text has paid.
    have hcost : ∀ w t, type? .namedOrOrdered w = some t →
        TypeTable.infoLength t ≤ 11 * w.weight := by
      intro w t hread
      obtain ⟨hname, hfields⟩ := sizes_of_type? hread
      have hinfo := TypeTable.infoLength_le t
      have hpos := w.weight_pos
      omega
    have hsum := Json.sum_le_of_list? hcost hlist
    have hroot : TypeTable.infoLength .rootArray = 14 := by decide
    have hentries : (f.types.flatMap TypeTable.encodeInfo).length =
        (f.types.map TypeTable.infoLength).sum := by
      simp [List.length_flatMap]
    rw [TypeTable.encode, htypes, List.flatMap_cons, List.length_append, List.length_append,
      Bytes.length_ofNat, TypeTable.length_encodeInfo, hentries, hroot, TypeTable.numberSize]
    omega

end GraphFile

end HeapImage
