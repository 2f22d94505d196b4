import Ber.Proofs.Numerals
import Ber.Value.CharacterString
import Mathlib.Data.List.Basic

/-!
# Ber.Proofs.WideText — text of two and of four octets

Two character sets have a coding of their own. For each of them this module says how text is written
(`Utf32.encode`, `Utf16.encode`) and that it is read back, and what any octets are read as:

1. In UTF-32, each group of four octets is read by itself, and so is an incomplete one at the end
   (`Utf32.decode_eq_map`).
2. In UTF-16, each unit is read by itself and the two units next to it: a high surrogate with a low
   one behind it is a pair, and every other surrogate is a defect (`Utf16.decodeUnits_eq_flatMap`).
   Hence there are as many defects as surrogates that are no part of a pair
   (`Utf16.count_decodeUnits`).

`CharacterString.wide_text` puts it together for strings.
-/

namespace Ber

/-- A character is that of its code point, and of no other. -/
theorem scalar?_eq_some_iff {codePoint : Nat} {c : Char} :
    scalar? codePoint = some c ↔ c.toNat = codePoint := by
  by_cases hvalid : codePoint.isValidChar
  · rw [scalar?, dif_pos hvalid, Option.some.injEq, ← Char.toNat_inj]
    exact eq_comm
  · rw [scalar?, dif_neg hvalid]
    constructor
    · intro h
      cases h
    · rintro rfl
      exact absurd c.valid hvalid

@[simp] theorem scalar?_toNat (c : Char) : scalar? c.toNat = some c := scalar?_eq_some_iff.2 rfl

/-- Surrogates and what is beyond the last code point are no characters. -/
theorem scalar?_eq_none_iff {codePoint : Nat} :
    scalar? codePoint = none ↔
      (0xD800 ≤ codePoint ∧ codePoint < 0xE000) ∨ 0x10FFFF < codePoint := by
  have hnone : scalar? codePoint = none ↔ ¬ codePoint.isValidChar := by
    rw [scalar?, dite_eq_right_iff]
    exact ⟨fun h hvalid => Option.some_ne_none _ (h hvalid), fun h hvalid => absurd hvalid h⟩
  rw [hnone, Nat.isValidChar]
  omega

namespace Text

theorem toList_lossy (text : Text) :
    text.lossy.toList = text.map (·.getD replacementCharacter) := String.toList_ofList

/-- Text without defects is what it was decoded to. -/
theorem lossy_map_some (s : String) : Text.lossy (s.toList.map some) = s := by
  rw [← String.toList_inj, toList_lossy, List.map_map]
  exact List.map_id _

/-! ## UTF-32 -/

namespace Utf32

/-- Characters as they are written, each as its code point in four octets. -/
def encode (characters : List Char) : Octets :=
  characters.flatMap fun c => Octets.writtenBigEndian 4 c.toNat

/-- A group of four octets is read by itself. -/
theorem decode_append {group : Octets} (hgroup : group.length = 4) (rest : Octets) :
    decode (group ++ rest) = scalar? group.bigEndian :: decode rest := by
  match group, hgroup with
  | [a, b, c, d], _ => rfl

/-- What is written is read back. -/
theorem decode_encode (characters : List Char) :
    decode (encode characters) = characters.map some := by
  induction characters with
  | nil => rfl
  | cons c characters ih =>
    have hsmall : c.toNat < 256 ^ 4 := by
      have hvalid : c.toNat.isValidChar := c.valid
      unfold Nat.isValidChar at hvalid
      omega
    have hcons : encode (c :: characters) =
        Octets.writtenBigEndian 4 c.toNat ++ encode characters := List.flatMap_cons
    rw [hcons, decode_append (Octets.length_writtenBigEndian 4 c.toNat),
      Octets.bigEndian_writtenBigEndian hsmall, scalar?_toNat, ih]
    rfl

/-- The octets of a group. The last group may be incomplete. -/
def group (octets : Octets) (index : Nat) : Octets := (octets.drop (4 * index)).take 4

/-- What a group is read as. -/
def character? (group : Octets) : Option Char :=
  if group.length = 4 then scalar? group.bigEndian else none

/-- Each group is read by itself. -/
theorem decode_eq_map (octets : Octets) :
    decode octets =
      (List.range ((octets.length + 3) / 4)).map fun index => character? (group octets index) := by
  match octets with
  | [] => rfl
  | [a] | [a, b] | [a, b, c] => simp [decode, group, character?]
  | a :: b :: c :: d :: rest =>
    have hcount : ((a :: b :: c :: d :: rest).length + 3) / 4 = (rest.length + 3) / 4 + 1 := by
      simp only [List.length_cons]
      omega
    rw [hcount, List.range_succ_eq_map, List.map_cons, List.map_map, decode, decode_eq_map rest]
    rfl

/-- What stands for a group in the text. -/
theorem lossy_decode_getElem? {octets : Octets} {index : Nat} (h : 4 * index < octets.length) :
    (decode octets).lossy.toList[index]? =
      some ((character? (group octets index)).getD replacementCharacter) := by
  have hindex : index < (octets.length + 3) / 4 := by omega
  simp [toList_lossy, decode_eq_map, hindex]

/-- Octets are read as this text, with a character that stands for every defect. -/
structure Reads (octets : Octets) (text : Text) : Prop where
  /-- There is a character for each group, also for an incomplete one. -/
  count : text.lossy.toList.length = (octets.length + 3) / 4
  /-- A complete group that is the code point of a character is read as that. -/
  character : ∀ index c, 4 * index + 4 ≤ octets.length → (group octets index).bigEndian = c.toNat →
    text.lossy.toList[index]? = some c
  /-- An incomplete group is a defect, and so are surrogates and what is beyond the last code point.
  -/
  defect : ∀ index, 4 * index < octets.length →
    (octets.length < 4 * index + 4 ∨ 0x10FFFF < (group octets index).bigEndian ∨
      (0xD800 ≤ (group octets index).bigEndian ∧ (group octets index).bigEndian < 0xE000)) →
    text.lossy.toList[index]? = some replacementCharacter

theorem reads_decode (octets : Octets) : Reads octets (decode octets) := by
  have hlength : ∀ index, (group octets index).length = min 4 (octets.length - 4 * index) := by
    intro index
    rw [group, List.length_take, List.length_drop]
  constructor
  · rw [toList_lossy, decode_eq_map]
    simp
  · intro index c hcomplete hc
    have hgroup : (group octets index).length = 4 := by
      rw [hlength]
      omega
    rw [lossy_decode_getElem? (by omega), character?, if_pos hgroup, hc, scalar?_toNat]
    rfl
  · intro index hindex hdefect
    have hnone : character? (group octets index) = none := by
      unfold character?
      split
      · rename_i hgroup
        rw [hlength] at hgroup
        rw [scalar?_eq_none_iff]
        omega
      · rfl
    rw [lossy_decode_getElem? hindex, hnone]
    rfl

end Utf32

/-! ## UTF-16 -/

namespace Utf16

variable {unit first second : Nat} {rest : List Nat}

/-- The units of a character: its code point, or a pair of surrogates. -/
def unitsOf (c : Char) : List Nat :=
  if c.toNat < 0x10000 then [c.toNat]
  else [0xD800 + (c.toNat - 0x10000) / 0x400, 0xDC00 + (c.toNat - 0x10000) % 0x400]

/-- Characters as they are written, each unit in two octets. -/
def encode (characters : List Char) : Octets :=
  (characters.flatMap unitsOf).flatMap (Octets.writtenBigEndian 2)

theorem isHigh_iff : isHigh unit = true ↔ 0xD800 ≤ unit ∧ unit < 0xDC00 := by
  simp [isHigh]

theorem isLow_iff : isLow unit = true ↔ 0xDC00 ≤ unit ∧ unit < 0xE000 := by
  simp [isLow]

/-- No unit is the first and the second one of a pair. -/
theorem isHigh_of_isLow (h : isLow unit = true) : isHigh unit = false := by
  rw [isLow_iff] at h
  rw [← Bool.not_eq_true, isHigh_iff]
  omega

/-- A pair of surrogates stands for a character. -/
theorem scalar?_combine (hfirst : isHigh first = true) (hsecond : isLow second = true) :
    scalar? (combine first second) ≠ none := by
  rw [isHigh_iff] at hfirst
  rw [isLow_iff] at hsecond
  have hbounds : 0x10000 ≤ combine first second ∧ combine first second ≤ 0x10FFFF := by
    unfold combine
    omega
  rw [ne_eq, scalar?_eq_none_iff]
  omega

/-- A unit is a character unless it is a surrogate. -/
theorem scalar?_unit (h : unit < 0x10000) :
    scalar? unit = none ↔ isHigh unit = true ∨ isLow unit = true := by
  rw [scalar?_eq_none_iff, isHigh_iff, isLow_iff]
  omega

/-- Units are two octets each. -/
theorem units_lt (octets : Octets) : ∀ unit ∈ units octets, unit < 0x10000 := by
  match octets with
  | [] | [a] =>
    intro unit hmem
    cases hmem
  | high :: low :: rest =>
    have hhigh := high.toNat_lt
    have hlow := low.toNat_lt
    intro unit hmem
    rcases List.mem_cons.1 hmem with rfl | hmem
    · omega
    · exact units_lt rest unit hmem

/-- A unit that is no surrogate is read by itself. -/
theorem decodeUnits_cons (h : isHigh unit = false) (rest : List Nat) :
    decodeUnits (unit :: rest) = scalar? unit :: decodeUnits rest := by
  cases rest with
  | nil => rfl
  | cons second rest => simp [decodeUnits, h]

/-- The units of a character are read as the character. -/
theorem decodeUnits_unitsOf (c : Char) (rest : List Nat) :
    decodeUnits (unitsOf c ++ rest) = some c :: decodeUnits rest := by
  have hvalid : c.toNat.isValidChar := c.valid
  unfold Nat.isValidChar at hvalid
  unfold unitsOf
  split
  · have hplain : isHigh c.toNat = false := by
      rw [← Bool.not_eq_true, isHigh_iff]
      omega
    rw [List.cons_append, List.nil_append, decodeUnits_cons hplain, scalar?_toNat]
  · have hhigh : isHigh (0xD800 + (c.toNat - 0x10000) / 0x400) = true := by
      rw [isHigh_iff]
      omega
    have hlow : isLow (0xDC00 + (c.toNat - 0x10000) % 0x400) = true := by
      rw [isLow_iff]
      omega
    have hcombine : combine (0xD800 + (c.toNat - 0x10000) / 0x400)
        (0xDC00 + (c.toNat - 0x10000) % 0x400) = c.toNat := by
      unfold combine
      omega
    simp only [List.cons_append, List.nil_append, decodeUnits, hhigh, hlow, Bool.and_true, if_true,
      hcombine, scalar?_toNat]

/-- The units of characters are read as these. -/
theorem decodeUnits_flatMap (characters : List Char) :
    decodeUnits (characters.flatMap unitsOf) = characters.map some := by
  induction characters with
  | nil => rfl
  | cons c characters ih =>
    rw [List.flatMap_cons, decodeUnits_unitsOf, ih]
    rfl

/-- Units are read as they are written. -/
theorem units_flatMap (written : List Nat) (h : ∀ unit ∈ written, unit < 0x10000) :
    units (written.flatMap (Octets.writtenBigEndian 2)) = written := by
  induction written with
  | nil => rfl
  | cons unit written ih =>
    obtain ⟨hunit, hwritten⟩ := List.forall_mem_cons.1 h
    have hvalue : Octets.bigEndian [UInt8.ofNat (unit / 256), UInt8.ofNat unit] = unit :=
      @Octets.bigEndian_writtenBigEndian 2 unit hunit
    have hcons : (unit :: written).flatMap (Octets.writtenBigEndian 2) =
        UInt8.ofNat (unit / 256) :: UInt8.ofNat unit ::
          written.flatMap (Octets.writtenBigEndian 2) := rfl
    rw [hcons, units, ih hwritten]
    refine congrArg (· :: written) ?_
    simpa [Octets.bigEndian] using hvalue

/-- What is written is read back. -/
theorem decode_encode (characters : List Char) :
    decode (encode characters) = characters.map some := by
  have hsmall : ∀ unit ∈ characters.flatMap unitsOf, unit < 0x10000 := by
    intro unit hmem
    obtain ⟨c, -, hunit⟩ := List.mem_flatMap.1 hmem
    have hvalid : c.toNat.isValidChar := c.valid
    unfold Nat.isValidChar at hvalid
    unfold unitsOf at hunit
    split at hunit
    · rw [List.mem_singleton.1 hunit]
      assumption
    · simp only [List.mem_cons, List.not_mem_nil, or_false] at hunit
      omega
  have heven : (encode characters).length % 2 = 0 := by
    unfold encode
    rw [List.length_flatMap]
    simp
  have hodd : ¬ (encode characters).length % 2 = 1 := by omega
  rw [decode, if_neg hodd, List.append_nil, encode, units_flatMap _ hsmall, decodeUnits_flatMap]

/-- Whether the units at a place and at the next one are a pair of surrogates. -/
def isPairAt (units : List Nat) (place : Nat) : Bool :=
  units[place]?.any isHigh && units[place + 1]?.any isLow

/-- What the unit at a place adds to the text: nothing if it is the second one of a pair, the
character of the pair if it is the first one, and else what it is read as by itself. -/
def addedAt (units : List Nat) (place : Nat) : Text :=
  if place ≠ 0 ∧ isPairAt units (place - 1) then []
  else if isPairAt units place then
    [scalar? (combine (units.getD place 0) (units.getD (place + 1) 0))]
  else [scalar? (units.getD place 0)]

theorem isPairAt_iff {units : List Nat} {place : Nat} :
    isPairAt units place = true ↔ ∃ first second, units[place]? = some first ∧
      units[place + 1]? = some second ∧ isHigh first = true ∧ isLow second = true := by
  unfold isPairAt
  cases units[place]? <;> cases units[place + 1]? <;> simp

theorem isPairAt_succ (unit : Nat) (rest : List Nat) (place : Nat) :
    isPairAt (unit :: rest) (place + 1) = isPairAt rest place := rfl

/-- Units add the same behind another one, unless they end a pair that begins there. -/
theorem addedAt_succ {place : Nat} (h : place ≠ 0 ∨ isPairAt (unit :: rest) 0 = false) :
    addedAt (unit :: rest) (place + 1) = addedAt rest place := by
  cases place with
  | zero =>
    have hpair : isPairAt (unit :: rest) 0 = false := h.resolve_left fun hzero => hzero rfl
    simp [addedAt, isPairAt_succ, hpair]
  | succ place => simp [addedAt, isPairAt_succ]

theorem flatMap_addedAt_cons (unit : Nat) (rest : List Nat) :
    (List.range (unit :: rest).length).flatMap (addedAt (unit :: rest)) =
      addedAt (unit :: rest) 0 ++
        (List.range rest.length).flatMap fun place => addedAt (unit :: rest) (place + 1) := by
  rw [List.length_cons, List.range_succ_eq_map, List.flatMap_cons, List.flatMap_map]

/-- Each unit is read by itself and its neighbours. -/
theorem decodeUnits_eq_flatMap (units : List Nat) :
    decodeUnits units = (List.range units.length).flatMap (addedAt units) := by
  fun_induction decodeUnits units with
  | case1 => rfl
  | case2 unit => simp [addedAt, isPairAt]
  | case3 first second rest hpair ih =>
    have hlow : isHigh second = false := by
      simp only [Bool.and_eq_true] at hpair
      exact isHigh_of_isLow hpair.2
    have hbegins : isPairAt (first :: second :: rest) 0 = true := hpair
    -- the second unit of a pair is no high surrogate, so no other pair begins with it
    have hapart : isPairAt (second :: rest) 0 = false := by simp [isPairAt, hlow]
    have hfirst : addedAt (first :: second :: rest) 0 = [scalar? (combine first second)] := by
      simp [addedAt, hbegins]
    have hsecond : addedAt (first :: second :: rest) 1 = [] := by simp [addedAt, hbegins]
    have hlater : ∀ place, addedAt (first :: second :: rest) (place + 1 + 1) =
        addedAt rest place := by
      intro place
      rw [addedAt_succ (.inl (Nat.succ_ne_zero place)), addedAt_succ (.inr hapart)]
    rw [flatMap_addedAt_cons, hfirst, List.length_cons, List.range_succ_eq_map, List.flatMap_cons,
      List.flatMap_map, hsecond, ih]
    simp only [hlater]
    rfl
  | case4 first second rest hpair ih =>
    have hapart : isPairAt (first :: second :: rest) 0 = false := eq_false_of_ne_true hpair
    have hlater : ∀ place, addedAt (first :: second :: rest) (place + 1) =
        addedAt (second :: rest) place := fun place => addedAt_succ (.inr hapart)
    have hfirst : addedAt (first :: second :: rest) 0 = [scalar? first] := by
      simp [addedAt, hapart]
    rw [flatMap_addedAt_cons, hfirst, ih]
    simp only [hlater]
    rfl

/-- The unit at a place is a surrogate that is no part of a pair: it is not a high one with a low
one behind it, and not a low one with a high one in front of it. -/
def IsUnpairedAt (units : List Nat) (place : Nat) : Prop :=
  ∃ unit, units[place]? = some unit ∧ 0xD800 ≤ unit ∧ unit < 0xE000 ∧
    (∀ next, units[place + 1]? = some next → unit < 0xDC00 → next < 0xDC00 ∨ 0xE000 ≤ next) ∧
    ∀ earlier before, place = earlier + 1 → units[earlier]? = some before → 0xDC00 ≤ unit →
      before < 0xD800 ∨ 0xDC00 ≤ before

/-- A surrogate is unpaired if no pair begins at its place or in front of it. -/
theorem isUnpairedAt_iff {units : List Nat} {place : Nat} :
    IsUnpairedAt units place ↔
      (∃ unit, units[place]? = some unit ∧ (isHigh unit = true ∨ isLow unit = true)) ∧
        ¬ isPairAt units place = true ∧ ¬ (place ≠ 0 ∧ isPairAt units (place - 1) = true) := by
  simp only [isPairAt_iff, isHigh_iff, isLow_iff]
  constructor
  · rintro ⟨unit, hunit, hlower, hupper, hnext, hbefore⟩
    refine ⟨⟨unit, hunit, by omega⟩, ?_, ?_⟩
    · rintro ⟨first, second, hfirst, hsecond, hhigh, hlow⟩
      cases hunit.symm.trans hfirst
      have hno := hnext second hsecond hhigh.2
      omega
    · rintro ⟨hne, first, second, hfirst, hsecond, hhigh, hlow⟩
      obtain ⟨earlier, rfl⟩ := Nat.exists_eq_succ_of_ne_zero hne
      cases hunit.symm.trans hsecond
      have hno := hbefore earlier first rfl hfirst hlow.1
      omega
  · rintro ⟨⟨unit, hunit, hsurrogate⟩, hpair, hends⟩
    refine ⟨unit, hunit, by omega, by omega, ?_, ?_⟩
    · intro next hnext hhigh
      by_contra hlow
      exact hpair ⟨unit, next, hunit, hnext, by omega, by omega⟩
    · rintro earlier before rfl hbefore hlow
      by_contra hhigh
      exact hends ⟨Nat.succ_ne_zero earlier, before, unit, hbefore, hunit, by omega, by omega⟩

instance (units : List Nat) : DecidablePred (IsUnpairedAt units) := fun _ =>
  decidable_of_iff' _ isUnpairedAt_iff

/-- The first unit of a pair adds the character of the pair. -/
theorem addedAt_first {units : List Nat} {place : Nat} (hfirst : units[place]? = some first)
    (hsecond : units[place + 1]? = some second) (hhigh : isHigh first = true)
    (hlow : isLow second = true) : addedAt units place = [scalar? (combine first second)] := by
  have hpair : isPairAt units place = true :=
    isPairAt_iff.2 ⟨first, second, hfirst, hsecond, hhigh, hlow⟩
  have hends : ¬ (place ≠ 0 ∧ isPairAt units (place - 1) = true) := by
    rintro ⟨hne, hbefore⟩
    obtain ⟨earlier, rfl⟩ := Nat.exists_eq_succ_of_ne_zero hne
    obtain ⟨-, unit, -, hunit, -, hlow'⟩ := isPairAt_iff.1 hbefore
    cases hfirst.symm.trans hunit
    rw [isHigh_of_isLow hlow'] at hhigh
    cases hhigh
  simp [addedAt, hends, hpair, hfirst, hsecond]

/-- The second unit of a pair adds nothing more. -/
theorem addedAt_second {units : List Nat} {place : Nat} (hpair : isPairAt units place = true) :
    addedAt units (place + 1) = [] := by
  simp [addedAt, hpair]

/-- A unit that is no part of a pair adds what it is read as by itself. -/
theorem addedAt_alone {units : List Nat} {place : Nat} (hunit : units[place]? = some unit)
    (hpair : ¬ isPairAt units place = true)
    (hends : ¬ (place ≠ 0 ∧ isPairAt units (place - 1) = true)) :
    addedAt units place = [scalar? unit] := by
  simp [addedAt, hends, hpair, hunit]

/-- A unit that is no surrogate is no part of a pair. -/
theorem addedAt_plain {units : List Nat} {place : Nat} (hunit : units[place]? = some unit)
    (hplain : unit < 0xD800 ∨ 0xE000 ≤ unit) : addedAt units place = [scalar? unit] := by
  apply addedAt_alone hunit
  · intro hpair
    obtain ⟨first, second, hfirst, hsecond, hhigh, hlow⟩ := isPairAt_iff.1 hpair
    cases hunit.symm.trans hfirst
    rw [isHigh_iff] at hhigh
    omega
  · rintro ⟨hne, hpair⟩
    obtain ⟨earlier, rfl⟩ := Nat.exists_eq_succ_of_ne_zero hne
    obtain ⟨first, second, hfirst, hsecond, hhigh, hlow⟩ := isPairAt_iff.1 hpair
    cases hunit.symm.trans hsecond
    rw [isLow_iff] at hlow
    omega

/-- A surrogate that is no part of a pair adds a defect. -/
theorem addedAt_unpaired {units : List Nat} {place : Nat} (h : ∀ unit ∈ units, unit < 0x10000)
    (hunpaired : IsUnpairedAt units place) : addedAt units place = [none] := by
  obtain ⟨⟨unit, hunit, hsurrogate⟩, hpair, hends⟩ := isUnpairedAt_iff.1 hunpaired
  have hsmall : unit < 0x10000 := h unit (List.mem_of_getElem? hunit)
  rw [addedAt_alone hunit hpair hends, (scalar?_unit hsmall).2 hsurrogate]

/-- A unit adds a defect exactly if it is a surrogate that is no part of a pair. -/
theorem count_addedAt {units : List Nat} {place : Nat} (hplace : place < units.length)
    (h : ∀ unit ∈ units, unit < 0x10000) :
    (addedAt units place).count none = if IsUnpairedAt units place then 1 else 0 := by
  have hunit : units[place]? = some units[place] := List.getElem?_eq_getElem hplace
  have hsmall : units[place] < 0x10000 := h _ (List.getElem_mem hplace)
  by_cases hends : place ≠ 0 ∧ isPairAt units (place - 1) = true
  · -- the second unit of a pair
    have hpaired : ¬ IsUnpairedAt units place := fun hunpaired =>
      (isUnpairedAt_iff.1 hunpaired).2.2 hends
    simp [addedAt, hends, hpaired]
  by_cases hpair : isPairAt units place = true
  · -- the first unit of a pair, which is always a character
    obtain ⟨first, second, hfirst, hsecond, hhigh, hlow⟩ := isPairAt_iff.1 hpair
    have hpaired : ¬ IsUnpairedAt units place := fun hunpaired =>
      (isUnpairedAt_iff.1 hunpaired).2.1 hpair
    rw [addedAt_first hfirst hsecond hhigh hlow, if_neg hpaired, List.count_eq_zero_of_not_mem]
    rw [List.mem_singleton]
    exact (scalar?_combine hhigh hlow).symm
  · have halone : IsUnpairedAt units place ↔ scalar? units[place] = none := by
      rw [isUnpairedAt_iff, scalar?_unit hsmall]
      simp [hpair, hends, hunit]
    simp only [addedAt_alone hunit hpair hends, List.count_singleton, beq_iff_eq, halone]

/-- There are as many defects as surrogates that are no part of a pair. -/
theorem count_decodeUnits {units : List Nat} (h : ∀ unit ∈ units, unit < 0x10000) :
    (decodeUnits units).count none =
      (List.range units.length).countP fun place => IsUnpairedAt units place := by
  have hcount : ∀ places : List Nat, (∀ place ∈ places, place < units.length) →
      (places.flatMap (addedAt units)).count none =
        places.countP fun place => IsUnpairedAt units place := by
    intro places hplaces
    induction places with
    | nil => rfl
    | cons place places ih =>
      obtain ⟨hplace, hrest⟩ := List.forall_mem_cons.1 hplaces
      rw [List.flatMap_cons, List.count_append, count_addedAt hplace h, ih hrest, List.countP_cons,
        Nat.add_comm]
      simp only [decide_eq_true_eq]
  rw [decodeUnits_eq_flatMap]
  exact hcount _ fun place hmem => List.mem_range.1 hmem

/-! ### Octets and units -/

/-- The octets of a unit. -/
def unitOctets (octets : Octets) (index : Nat) : Octets := (octets.drop (2 * index)).take 2

/-- There is a unit for each complete pair of octets. -/
theorem length_units (octets : Octets) : (units octets).length = octets.length / 2 := by
  match octets with
  | [] | [octet] => simp [units]
  | high :: low :: rest =>
    rw [units, List.length_cons, length_units rest]
    simp only [List.length_cons]
    omega

/-- A unit is the number that its octets write. -/
theorem units_getElem? {octets : Octets} {index : Nat} (h : 2 * index + 2 ≤ octets.length) :
    (units octets)[index]? = some (unitOctets octets index).bigEndian := by
  match octets, index with
  | [], _ | [octet], _ =>
    simp only [List.length_cons, List.length_nil] at h
    omega
  | high :: low :: rest, 0 => simp [units, unitOctets, Octets.bigEndian]
  | high :: low :: rest, index + 1 =>
    simp only [List.length_cons] at h
    have hrest : 2 * index + 2 ≤ rest.length := by omega
    rw [units, List.getElem?_cons_succ, units_getElem? hrest]
    rfl

/-- An octet behind complete units is no part of a unit. -/
theorem units_concat {octets : Octets} (heven : octets.length % 2 = 0) (octet : UInt8) :
    units (octets ++ [octet]) = units octets := by
  match octets with
  | [] => rfl
  | [first] => cases heven
  | high :: low :: rest =>
    have hrest : rest.length % 2 = 0 := by
      simp only [List.length_cons] at heven
      omega
    simp only [List.cons_append, units, units_concat hrest]

/-- So it is a defect, and changes nothing in front of it. -/
theorem decode_concat {octets : Octets} (heven : octets.length % 2 = 0) (octet : UInt8) :
    decode (octets ++ [octet]) = decode octets ++ [none] := by
  have hodd : (octets ++ [octet]).length % 2 = 1 := by
    rw [List.length_append, List.length_singleton]
    omega
  have hnot : ¬ octets.length % 2 = 1 := by omega
  rw [decode, decode, units_concat heven, if_pos hodd, if_neg hnot, List.append_nil]

/-- Octets are read as this text, with a character that stands for every defect. -/
structure Reads (octets : Octets) (text : Text) : Prop where
  /-- Each complete pair of octets is a unit. -/
  count : (units octets).length = octets.length / 2
  unit : ∀ index, 2 * index + 2 ≤ octets.length →
    (units octets)[index]? = some (unitOctets octets index).bigEndian
  /-- What each unit adds to the text is the text, with a defect behind it for an odd octet. -/
  whole : text.lossy.toList =
    ((List.range (units octets).length).flatMap (addedAt (units octets))).map
        (·.getD replacementCharacter) ++
      if octets.length % 2 = 1 then [replacementCharacter] else []
  /-- A high surrogate with a low one behind it adds one character, and the low one nothing more. -/
  pair : ∀ place first second, (units octets)[place]? = some first →
    (units octets)[place + 1]? = some second → 0xD800 ≤ first ∧ first < 0xDC00 →
    0xDC00 ≤ second ∧ second < 0xE000 →
    (∃ c : Char, c.toNat = 0x10000 + (first - 0xD800) * 0x400 + (second - 0xDC00) ∧
      addedAt (units octets) place = [some c]) ∧ addedAt (units octets) (place + 1) = []
  /-- A unit that is no surrogate adds the character that it is. -/
  plain : ∀ place unit, (units octets)[place]? = some unit → unit < 0xD800 ∨ 0xE000 ≤ unit →
    ∃ c : Char, c.toNat = unit ∧ addedAt (units octets) place = [some c]
  /-- A surrogate that is no part of a pair adds a defect. -/
  unpaired : ∀ place, IsUnpairedAt (units octets) place → addedAt (units octets) place = [none]
  /-- There is a defect for each of these and for an odd octet, and no other one. -/
  defects : text.count none =
    (List.range (units octets).length).countP (fun place => IsUnpairedAt (units octets) place) +
      octets.length % 2
  /-- One more octet behind complete units adds a defect and changes nothing. -/
  odd : octets.length % 2 = 0 → ∀ octet,
    (decode (octets ++ [octet])).lossy = text.lossy.push replacementCharacter

theorem reads_decode (octets : Octets) : Reads octets (decode octets) := by
  constructor
  · exact length_units octets
  · intro index hindex
    exact units_getElem? hindex
  · rw [toList_lossy, decode, List.map_append, decodeUnits_eq_flatMap]
    congr 1
    split <;> rfl
  · intro place first second hfirst hsecond hhigh hlow
    have hhigh := isHigh_iff.2 hhigh
    have hlow := isLow_iff.2 hlow
    obtain ⟨c, hc⟩ := Option.ne_none_iff_exists'.1 (scalar?_combine hhigh hlow)
    refine ⟨⟨c, scalar?_eq_some_iff.1 hc, ?_⟩, ?_⟩
    · rw [addedAt_first hfirst hsecond hhigh hlow, hc]
    · exact addedAt_second (isPairAt_iff.2 ⟨first, second, hfirst, hsecond, hhigh, hlow⟩)
  · intro place unit hunit hplain
    have hsmall : unit < 0x10000 := units_lt octets unit (List.mem_of_getElem? hunit)
    have hchar : scalar? unit ≠ none := by
      rw [ne_eq, scalar?_eq_none_iff]
      omega
    obtain ⟨c, hc⟩ := Option.ne_none_iff_exists'.1 hchar
    refine ⟨c, scalar?_eq_some_iff.1 hc, ?_⟩
    rw [addedAt_plain hunit hplain, hc]
  · intro place hunpaired
    exact addedAt_unpaired (units_lt octets) hunpaired
  · rw [decode, List.count_append, count_decodeUnits (units_lt octets)]
    congr 1
    split
    · rename_i hodd
      rw [hodd]
      rfl
    · rename_i heven
      show 0 = _
      omega
  · intro heven octet
    rw [← String.toList_inj, String.toList_push, decode_concat heven]
    simp [toList_lossy]

end Utf16
end Text

/-! ## Strings -/

namespace CharacterString

/-- Strings of the two character sets that have a coding of their own give back the text that is
written in it. Whatever else their content is, it is read group by group or unit by unit, and every
defect is marked. -/
theorem wide_text :
    (∀ s : String,
      (CharacterString.mk .bmp (Text.Utf16.encode s.toList)).decoded.lossy = s ∧
        (CharacterString.mk .universal (Text.Utf32.encode s.toList)).decoded.lossy = s) ∧
    (∀ content, Text.Utf32.Reads content (CharacterString.mk .universal content).decoded) ∧
    ∀ content, Text.Utf16.Reads content (CharacterString.mk .bmp content).decoded := by
  refine ⟨fun s => ⟨?_, ?_⟩, Text.Utf32.reads_decode, Text.Utf16.reads_decode⟩
  · show (Text.Utf16.decode (Text.Utf16.encode s.toList)).lossy = s
    rw [Text.Utf16.decode_encode, Text.lossy_map_some]
  · show (Text.Utf32.decode (Text.Utf32.encode s.toList)).lossy = s
    rw [Text.Utf32.decode_encode, Text.lossy_map_some]

/-- A high surrogate without a low one behind it takes only itself away. -/
example : (CharacterString.mk .bmp [0xD8, 0x3D, 0x00, 0x41, 0xD8]).decoded =
    [none, some 'A', none] := by decide

end CharacterString
end Ber
