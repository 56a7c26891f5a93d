import HeapImage.Json.Parser

/-! # Values are no larger than their texts

A parser that goes through a text once makes no more of it than there is: the texts of the strings
in a value and the values themselves, counted one by one, come to no more than the bytes of the text
that it was read from.

* `JsonParser.utf8Length`: bytes of characters.
* `Json.weight`: how many values are in a value, and bytes of the texts among them.
* `JsonParser.textSize_of_string`, `JsonParser.pays`: what reading a string or a value takes.
* `Json.weight_of_parse?`: what a text can stand for. -/

namespace HeapImage

/-! ## Bytes of characters -/

namespace JsonParser

/-- The bytes of some characters in UTF-8. -/
def utf8Length : List Char → Nat
  | [] => 0
  | c :: cs => c.utf8Size + utf8Length cs

@[simp] theorem utf8Length_nil : utf8Length [] = 0 := rfl

@[simp] theorem utf8Length_cons (c : Char) (cs : List Char) :
    utf8Length (c :: cs) = c.utf8Size + utf8Length cs := rfl

/-- The length of two texts one behind the other. -/
@[simp] theorem utf8Length_append (cs ds : List Char) :
    utf8Length (cs ++ ds) = utf8Length cs + utf8Length ds := by
  induction cs with
  | nil => simp
  | cons c cs ih => simp [ih, Nat.add_assoc]

/-- A text backwards is as long as the text. -/
@[simp] theorem utf8Length_reverse (cs : List Char) : utf8Length cs.reverse = utf8Length cs := by
  induction cs with
  | nil => rfl
  | cons c cs ih => simp [ih, Nat.add_comm]

/-- The size of a string is the length of its characters in UTF-8. -/
theorem utf8ByteSize_ofList (cs : List Char) :
    (String.ofList cs).utf8ByteSize = utf8Length cs := by
  rw [← String.size_toByteArray, String.toByteArray_ofList]
  induction cs with
  | nil => rfl
  | cons c cs ih =>
    rw [List.utf8Encode_cons, ByteArray.size_append, ih, utf8Length_cons,
      List.utf8Encode_singleton, List.size_toByteArray, String.length_utf8EncodeChar]

/-- The characters of a string are as long as the string. -/
theorem utf8Length_toList (text : String) : utf8Length text.toList = text.utf8ByteSize := by
  rw [← utf8ByteSize_ofList, String.ofList_toList]

/-- What is left of some characters has no more bytes. -/
theorem utf8Length_le_of_suffix {cs ds : List Char} (h : ds <:+ cs) :
    utf8Length ds ≤ utf8Length cs := by
  obtain ⟨front, rfl⟩ := h
  rw [utf8Length_append]
  exact Nat.le_add_left ..

/-! ## Strings -/

/-- The bytes of what has been read of a string. -/
def Text.size (t : Text) : Nat :=
  match t.reversed with
  | some cs => utf8Length cs
  | none => 0

theorem Text.size_empty : Text.empty.size = 0 := rfl

/-- A character adds its bytes, or the text is given up. -/
theorem Text.size_push_le (t : Text) (c : Char) : (t.push c).size ≤ t.size + c.utf8Size := by
  obtain ⟨reversed, pending⟩ := t
  cases pending with
  | some high => exact Nat.zero_le _
  | none =>
    cases reversed with
    | none => exact Nat.zero_le _
    | some cs => exact Nat.le_of_eq (Nat.add_comm ..)

/-- A unit of 16 bits is a character or half of one. -/
theorem Text.size_pushUnit_le (t : Text) (n : Nat) : (t.pushUnit n).size ≤ t.size + 4 := by
  have hpush : ∀ (t : Text) (c : Char), (t.push c).size ≤ t.size + 4 := fun t c =>
    Nat.le_trans (t.size_push_le c) (Nat.add_le_add_left c.utf8Size_le_four _)
  obtain ⟨reversed, pending⟩ := t
  unfold pushUnit
  cases pending with
  | some high =>
    dsimp only
    split
    · exact hpush ⟨reversed, none⟩ _
    · exact Nat.zero_le _
  | none =>
    dsimp only
    split
    · exact Nat.le_add_right ..
    · split
      · exact Nat.zero_le _
      · exact hpush ⟨reversed, none⟩ _

/-- The bytes of a text, if there is one. -/
def textSize : Option String → Nat
  | some text => text.utf8ByteSize
  | none => 0

/-- Finishing a text makes it no longer. -/
theorem Text.textSize_finish_le (t : Text) : textSize t.finish ≤ t.size := by
  obtain ⟨reversed, pending⟩ := t
  cases pending with
  | some high => exact Nat.zero_le _
  | none =>
    cases reversed with
    | none => exact Nat.zero_le _
    | some cs =>
      have htext := utf8ByteSize_ofList cs.reverse
      rw [utf8Length_reverse] at htext
      exact Nat.le_of_eq htext

/-- Every escape stands for an ASCII character. -/
theorem utf8Size_of_escape? {c d : Char} (h : escape? c = some d) : d.utf8Size = 1 := by
  unfold escape? at h
  split at h <;> cases h <;> rfl

/-- **A string** takes up at least the bytes of its text and its closing quote. -/
theorem textSize_of_string {cs rest : List Char} {t : Text} {text : Option String}
    (h : string cs t = some (text, rest)) :
    textSize text + utf8Length rest + 1 ≤ t.size + utf8Length cs := by
  fun_induction string cs t with
  | case1 => cases h
  | case2 cs t =>
    cases h
    have hfinish := t.textSize_finish_le
    have hquote : ('"' : Char).utf8Size = 1 := rfl
    rw [utf8Length_cons]
    omega
  -- A unit is escaped by four digits, which are at least as many bytes as it takes up.
  | case3 a b c d cs t n hunit ih =>
    have hpush := t.size_pushUnit_le n
    have hread := ih h
    have ha := a.utf8Size_pos
    have hb := b.utf8Size_pos
    have hc := c.utf8Size_pos
    have hd := d.utf8Size_pos
    simp only [utf8Length_cons]
    omega
  | case4 => cases h
  | case5 c cs t _ d hescape ih =>
    have hpush := t.size_push_le d
    have hread := ih h
    rw [utf8Size_of_escape? hescape] at hpush
    have hc := c.utf8Size_pos
    simp only [utf8Length_cons]
    omega
  | case6 => cases h
  | case7 => cases h
  | case8 c cs t _ _ _ _ ih =>
    have hpush := t.size_push_le c
    have hread := ih h
    rw [utf8Length_cons]
    omega

/-! ## Numbers and words -/

/-- A digit at least has been read. -/
theorem lt_of_digits? {cs front rest : List Char} (h : digits? cs = some (front, rest)) :
    utf8Length rest < utf8Length cs := by
  unfold digits? at h
  dsimp only at h
  split at h
  · cases h
  · rename_i hfront
    cases h
    cases cs with
    | nil => exact absurd rfl hfront
    | cons c cs =>
      by_cases hc : c.isDigit = true
      · have hle := utf8Length_le_of_suffix (List.dropWhile_suffix Char.isDigit (l := cs))
        have hpos := c.utf8Size_pos
        rw [List.dropWhile_cons_of_pos hc, utf8Length_cons]
        omega
      · rw [List.takeWhile_cons_of_neg hc] at hfront
        exact absurd rfl hfront

/-- The whole part of a number takes at least a character. -/
theorem lt_of_wholePart? {cs front rest : List Char} (h : wholePart? cs = some (front, rest)) :
    utf8Length rest < utf8Length cs := by
  unfold wholePart? at h
  split at h
  · cases h
    exact Nat.lt_add_of_pos_left (Char.utf8Size_pos _)
  · exact lt_of_digits? h

/-- A fraction leaves no more than there was. -/
theorem le_of_fraction? {cs front rest : List Char} (h : fraction? cs = some (front, rest)) :
    utf8Length rest ≤ utf8Length cs := by
  unfold fraction? at h
  split at h
  · obtain ⟨⟨digits, rest'⟩, hdigits, hrest⟩ := Option.map_eq_some_iff.mp h
    cases hrest
    have hlt := lt_of_digits? hdigits
    rw [utf8Length_cons]
    omega
  · cases h
    exact Nat.le_refl _

/-- A sign leaves no more than there was. -/
theorem le_of_sign (cs : List Char) : utf8Length (sign cs).2 ≤ utf8Length cs := by
  unfold sign
  split <;> simp

/-- An exponent leaves no more than there was. -/
theorem le_of_exponent? {cs front rest : List Char} (h : exponent? cs = some (front, rest)) :
    utf8Length rest ≤ utf8Length cs := by
  unfold exponent? at h
  split at h
  · rename_i c cs
    split at h
    · obtain ⟨⟨digits, rest'⟩, hdigits, hrest⟩ := Option.map_eq_some_iff.mp h
      cases hrest
      have hlt : utf8Length rest < utf8Length (sign cs).2 := lt_of_digits? hdigits
      have hsign := le_of_sign cs
      rw [utf8Length_cons]
      omega
    · cases h
      exact Nat.le_refl _
  · cases h
    exact Nat.le_refl _

/-- **A number** takes up a byte at least. -/
theorem lt_of_number {cs rest : List Char} {literal : String}
    (h : number cs = some (literal, rest)) : utf8Length rest < utf8Length cs := by
  unfold number at h
  split at h
  rename_i minus unsigned hminus
  have hsign : utf8Length unsigned ≤ utf8Length cs := by
    split at hminus
    · cases hminus
      exact Nat.le_add_left ..
    · cases hminus
      exact Nat.le_refl _
  obtain ⟨⟨whole, cs₁⟩, hwhole, h⟩ := Option.bind_eq_some_iff.mp h
  obtain ⟨⟨fraction, cs₂⟩, hfraction, h⟩ := Option.bind_eq_some_iff.mp h
  obtain ⟨⟨exponent, cs₃⟩, hexponent, h⟩ := Option.bind_eq_some_iff.mp h
  cases h
  have hlt := lt_of_wholePart? hwhole
  have hfront := le_of_fraction? hfraction
  have hback := le_of_exponent? hexponent
  omega

/-- A word leaves no more than there was. -/
theorem le_of_word? {word : String} {cs rest : List Char} (h : word? word cs = some rest) :
    utf8Length rest ≤ utf8Length cs := by
  unfold word? at h
  split at h
  · cases h
    exact utf8Length_le_of_suffix (List.drop_suffix ..)
  · cases h

/-- Blanks leave no more than there was. -/
theorem le_of_skipSpace {cs ds : List Char} (h : skipSpace cs = ds) :
    utf8Length ds ≤ utf8Length cs := by
  rw [← h]
  exact utf8Length_le_of_suffix (List.dropWhile_suffix ..)

end JsonParser

/-! ## Values -/

namespace Json

mutual

/-- Number of values in a value, itself included, and bytes of the texts among them. -/
def weight : Json → Nat
  | null | bool _ | number _ => 1
  | string text => 1 + JsonParser.textSize text
  | array elements => 1 + weightOfElements elements
  | object members => 1 + weightOfMembers members

/-- The weight of some values. -/
def weightOfElements : List Json → Nat
  | [] => 0
  | v :: vs => v.weight + weightOfElements vs

/-- The weight of the values of some members. -/
def weightOfMembers : List (Option String × Json) → Nat
  | [] => 0
  | (_, v) :: ms => v.weight + weightOfMembers ms

end

@[simp] theorem weightOfElements_append (vs ws : List Json) :
    weightOfElements (vs ++ ws) = weightOfElements vs + weightOfElements ws := by
  induction vs with
  | nil => simp [weightOfElements]
  | cons v vs ih => simp [weightOfElements, ih, Nat.add_assoc]

@[simp] theorem weightOfMembers_append (ms ns : List (Option String × Json)) :
    weightOfMembers (ms ++ ns) = weightOfMembers ms + weightOfMembers ns := by
  induction ms with
  | nil => simp [weightOfMembers]
  | cons m ms ih => simp [weightOfMembers, ih, Nat.add_assoc]

@[simp] theorem weightOfElements_reverse (vs : List Json) :
    weightOfElements vs.reverse = weightOfElements vs := by
  induction vs with
  | nil => rfl
  | cons v vs ih => simp [weightOfElements, ih, Nat.add_comm]

@[simp] theorem weightOfMembers_reverse (ms : List (Option String × Json)) :
    weightOfMembers ms.reverse = weightOfMembers ms := by
  induction ms with
  | nil => rfl
  | cons m ms ih => simp [weightOfMembers, ih, Nat.add_comm]

end Json

namespace JsonParser

/-- Reading with some fuel takes up at least the weight of what is read. What has been read of an
array or of an object before has been paid for. -/
structure Pays (fuel : Nat) : Prop where
  value : ∀ cs rest v, value fuel cs = some (v, rest) →
    v.weight + utf8Length rest ≤ utf8Length cs
  elements : ∀ before cs rest v, elements fuel before cs = some (v, rest) →
    v.weight + utf8Length rest ≤ 1 + Json.weightOfElements before + utf8Length cs
  members : ∀ before cs rest v, members fuel before cs = some (v, rest) →
    v.weight + utf8Length rest ≤ 1 + Json.weightOfMembers before + utf8Length cs

variable {fuel : Nat} {cs rest : List Char} {v : Json}

/-- A word is a value of weight one, and so is a number. -/
theorem Pays.word {word : String} {ds : List Char} {c : Char} {w : Json} (hw : w.weight = 1)
    (hskip : skipSpace cs = c :: ds)
    (h : (word? word ds).map (fun rest => (w, rest)) = some (v, rest)) :
    v.weight + utf8Length rest ≤ utf8Length cs := by
  obtain ⟨rest', hword, hrest⟩ := Option.map_eq_some_iff.mp h
  cases hrest
  have hle := le_of_skipSpace hskip
  have hle' := le_of_word? hword
  have hpos := c.utf8Size_pos
  rw [utf8Length_cons] at hle
  omega

/-- The first token says what kind of value there is. -/
theorem Pays.step_value (h : Pays fuel) (hread : JsonParser.value (fuel + 1) cs = some (v, rest)) :
    v.weight + utf8Length rest ≤ utf8Length cs := by
  rw [JsonParser.value] at hread
  split at hread
  · rename_i ds hskip
    have hle := le_of_skipSpace hskip
    -- An object pays with its braces; members have paid for themselves.
    have hbrace := ('{' : Char).utf8Size_pos
    rw [utf8Length_cons] at hle
    split at hread
    · rename_i hclose
      have hle' := le_of_skipSpace hclose
      cases hread
      simp only [utf8Length_cons, Json.weight, Json.weightOfMembers] at hle' ⊢
      omega
    · have hmembers := h.members _ _ _ _ hread
      have hle' := le_of_skipSpace (rfl : skipSpace ds = _)
      simp only [Json.weightOfMembers] at hmembers
      omega
  · rename_i ds hskip
    have hle := le_of_skipSpace hskip
    -- So does an array with its brackets.
    have hbracket := ('[' : Char).utf8Size_pos
    rw [utf8Length_cons] at hle
    split at hread
    · rename_i hclose
      have hle' := le_of_skipSpace hclose
      cases hread
      simp only [utf8Length_cons, Json.weight, Json.weightOfElements] at hle' ⊢
      omega
    · have helements := h.elements _ _ _ _ hread
      have hle' := le_of_skipSpace (rfl : skipSpace ds = _)
      simp only [Json.weightOfElements] at helements
      omega
  · rename_i ds hskip
    have hle := le_of_skipSpace hskip
    obtain ⟨⟨text, rest'⟩, hstring, hrest⟩ := Option.map_eq_some_iff.mp hread
    cases hrest
    have htext := textSize_of_string hstring
    have hquote := ('"' : Char).utf8Size_pos
    rw [Text.size_empty] at htext
    simp only [utf8Length_cons] at hle
    simp only [Json.weight]
    omega
  · rename_i hskip
    exact Pays.word rfl hskip hread
  · rename_i hskip
    exact Pays.word rfl hskip hread
  · rename_i hskip
    exact Pays.word rfl hskip hread
  · obtain ⟨⟨literal, rest'⟩, hnumber, hrest⟩ := Option.map_eq_some_iff.mp hread
    cases hrest
    -- Whatever is not introduced by a token is a number, which is never empty.
    have hlt := lt_of_number hnumber
    have hle := le_of_skipSpace (rfl : skipSpace cs = _)
    simp only [Json.weight]
    omega

/-- One more element, and a comma or the end. -/
theorem Pays.step_elements (h : Pays fuel) {before : List Json}
    (hread : JsonParser.elements (fuel + 1) before cs = some (v, rest)) :
    v.weight + utf8Length rest ≤ 1 + Json.weightOfElements before + utf8Length cs := by
  rw [JsonParser.elements] at hread
  split at hread
  · cases hread
  · rename_i w ds hvalue
    have hfirst := h.value _ _ _ hvalue
    split at hread
    · rename_i hskip
      have hle := le_of_skipSpace hskip
      have hrest := h.elements _ _ _ _ hread
      simp only [utf8Length_cons, Json.weightOfElements] at hle hrest
      omega
    · rename_i hskip
      have hle := le_of_skipSpace hskip
      cases hread
      simp only [utf8Length_cons] at hle
      simp only [Json.weight, Json.weightOfElements_reverse, Json.weightOfElements]
      omega
    · cases hread

/-- One more member, and a comma or the end. -/
theorem Pays.step_members (h : Pays fuel) {before : List (Option String × Json)}
    (hread : JsonParser.members (fuel + 1) before cs = some (v, rest)) :
    v.weight + utf8Length rest ≤ 1 + Json.weightOfMembers before + utf8Length cs := by
  rw [JsonParser.members] at hread
  split at hread
  · rename_i hquote
    have hle := le_of_skipSpace hquote
    split at hread
    · cases hread
    · rename_i name ds hname
      have htext := textSize_of_string hname
      split at hread
      · rename_i hcolon
        have hle' := le_of_skipSpace hcolon
        split at hread
        · cases hread
        · rename_i w ds' hvalue
          -- The name has paid for its text and the value for itself; the colon is to spare.
          have hfirst := h.value _ _ _ hvalue
          simp only [utf8Length_cons, Text.size_empty] at hle hle' htext
          split at hread
          · rename_i hskip
            have hle'' := le_of_skipSpace hskip
            have hrest := h.members _ _ _ _ hread
            simp only [utf8Length_cons, Json.weightOfMembers] at hle'' hrest
            omega
          · rename_i hskip
            have hle'' := le_of_skipSpace hskip
            cases hread
            simp only [utf8Length_cons] at hle''
            simp only [Json.weight, Json.weightOfMembers_reverse, Json.weightOfMembers]
            omega
          · cases hread
      · cases hread
  · cases hread

/-- **Reading** takes up at least the weight of what is read. -/
theorem pays (fuel : Nat) : Pays fuel := by
  induction fuel with
  | zero =>
    refine ⟨?_, ?_, ?_⟩
    · intro cs rest v h
      cases h
    · intro before cs rest v h
      cases h
    · intro before cs rest v h
      cases h
  | succ fuel ih =>
    exact ⟨fun _ _ _ => ih.step_value, fun _ _ _ _ => ih.step_elements,
      fun _ _ _ _ => ih.step_members⟩

end JsonParser

/-- **A text** has at least as many bytes as the value has weight that it stands for. -/
theorem Json.weight_of_parse? {text : String} {v : Json} (h : Json.parse? text = some v) :
    v.weight ≤ text.utf8ByteSize := by
  unfold Json.parse? at h
  dsimp only at h
  split at h
  · rename_i w rest hvalue
    split at h
    · cases h
      have hle := (JsonParser.pays _).value _ _ _ hvalue
      rw [JsonParser.utf8Length_toList] at hle
      exact Nat.le_trans (Nat.le_add_right ..) hle
    · cases h
  · cases h

end HeapImage
