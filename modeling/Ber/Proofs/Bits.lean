import Ber.Value.BitString
import Mathlib.Data.Nat.Bitwise

/-!
# Ber.Proofs.Bits — the bits of a bit string

A bit string has its bits in octets, the first one in the highest bit of an octet. This module says
which bit of which octet answers for an index (`BitString.bit_eq_true_iff`), and what of the octets
can be told by asking for bits: all but the unused ones (`BitString.bit_eq_iff`).

Bits are found with words of 64 bits. `BitString.bit?` and `BitString.length?` do this step by step
and have no result where a step would leave its range. None does (`BitString.bit?_eq`,
`BitString.length?_eq`).
-/

namespace Ber
namespace BitString

variable {unused : UInt8} {octets : Octets} {bits other : BitString} {index : Nat}

/-! ## Bits and octets -/

/-- A bit string is made of its unused bits and octets. -/
theorem ofParts?_eq_some (h : ofParts? unused octets = some bits) :
    bits.unused = unused.toNat ∧ bits.octets = octets := by
  unfold ofParts? at h
  split at h
  · cases h
    exact ⟨rfl, rfl⟩
  · cases h

/-- Content is read as its first octet and the others. -/
theorem ofParts?_of_ofContent (h : ofContent (unused :: octets) = .ok bits) :
    ofParts? unused octets = some bits := by
  unfold ofContent at h
  dsimp only at h
  split at h
  · rename_i hparts
    cases h
    exact hparts
  · cases h

/-- Only bits that there are can be unused. -/
theorem unused_le (bits : BitString) : bits.unused ≤ bits.octets.length * 8 := by
  have hlt := bits.unused_lt
  cases hoctets : bits.octets with
  | nil =>
    rw [bits.unused_eq_zero hoctets]
    exact Nat.zero_le _
  | cons octet octets =>
    rw [List.length_cons]
    omega

theorem length_add_unused (bits : BitString) :
    bits.length + bits.unused = bits.octets.length * 8 :=
  Nat.sub_add_cancel bits.unused_le

/-- The bit at an index is set if there is one and it is set in the octet that holds it. -/
theorem bit_eq_true_iff :
    bits.bit index = true ↔ index < bits.length ∧
      ∃ octet, bits.octets[index / 8]? = some octet ∧
        octet.toNat.testBit (7 - index % 8) = true := by
  have hlength := bits.length_add_unused
  have hunused := bits.unused_lt
  unfold bit
  cases hoctet : bits.octets[index / 8]? with
  | none => simp
  | some octet =>
    obtain ⟨hplace, -⟩ := List.getElem?_eq_some_iff.1 hoctet
    -- within the last octet, the index is compared by its weight
    have hinside : index < bits.length ↔
        ¬ (index / 8 + 1 = bits.octets.length ∧ 7 - index % 8 < bits.unused) := by omega
    simp only [Option.some.injEq, exists_eq_left', hinside]
    split
    · rename_i hlast
      simp [hlast]
    · rename_i hlast
      simp [hlast]

/-- A bit that there is has a weight in one of the octets. -/
theorem bit_of_lt (h : index < bits.length) :
    ∃ octet, bits.octets[index / 8]? = some octet ∧
      bits.bit index = octet.toNat.testBit (7 - index % 8) := by
  have hlength := bits.length_add_unused
  have hplace : index / 8 < bits.octets.length := by omega
  refine ⟨bits.octets[index / 8], List.getElem?_eq_getElem hplace, ?_⟩
  rw [Bool.eq_iff_iff, bit_eq_true_iff]
  simp [h, hplace]

theorem bit_of_le (h : bits.length ≤ index) : bits.bit index = false := by
  rw [← Bool.not_eq_true, bit_eq_true_iff]
  exact fun hbit => Nat.not_lt.2 h hbit.1

/-! ## What the bits tell of the octets -/

/-- Octets that are the same but for so many of the lowest bits of the last one. -/
def SameButLowest (count : Nat) (c e : Octets) : Prop :=
  c.dropLast = e.dropLast ∧
    c.getLast?.map (·.toNat / 2 ^ count) = e.getLast?.map (·.toNat / 2 ^ count)

instance (count : Nat) (c e : Octets) : Decidable (SameButLowest count c e) :=
  inferInstanceAs (Decidable (_ ∧ _))

/-- Octets without so many of their lowest bits are determined by the others. -/
theorem toNat_div_eq_iff {count : Nat} {a b : UInt8} :
    a.toNat / 2 ^ count = b.toNat / 2 ^ count ↔
      ∀ weight, count ≤ weight → weight < 8 → a.toNat.testBit weight = b.toNat.testBit weight := by
  constructor
  · intro h weight hcount _
    have hbit := congrArg (·.testBit (weight - count)) h
    simpa [Nat.testBit_div_two_pow, Nat.sub_add_cancel hcount] using hbit
  · intro h
    apply Nat.eq_of_testBit_eq
    intro above
    rw [Nat.testBit_div_two_pow, Nat.testBit_div_two_pow]
    by_cases hweight : above + count < 8
    · exact h _ (Nat.le_add_left _ _) hweight
    · -- there are no higher bits in an octet
      have hhigh : 2 ^ 8 ≤ 2 ^ (above + count) :=
        Nat.pow_le_pow_right (by decide) (Nat.le_of_not_lt hweight)
      rw [Nat.testBit_lt_two_pow (Nat.lt_of_lt_of_le a.toNat_lt hhigh),
        Nat.testBit_lt_two_pow (Nat.lt_of_lt_of_le b.toNat_lt hhigh)]

/-- Octets are the same if all of their bits are. -/
theorem eq_iff_testBit {a b : UInt8} :
    a = b ↔ ∀ weight, weight < 8 → a.toNat.testBit weight = b.toNat.testBit weight := by
  rw [← UInt8.toNat_inj]
  simpa using @toNat_div_eq_iff 0 a b

theorem sameButLowest_cons_cons {count : Nat} {a a' b b' : UInt8} {c e : Octets} :
    SameButLowest count (a :: a' :: c) (b :: b' :: e) ↔
      a = b ∧ SameButLowest count (a' :: c) (b' :: e) := by
  simp [SameButLowest, and_assoc]

/-- Only in the last octet, the lowest bits are left out. -/
theorem sameButLowest_iff_testBit {count : Nat} {octets octets' : Octets}
    (hlength : octets'.length = octets.length) :
    SameButLowest count octets' octets ↔
      ∀ place a b, octets'[place]? = some a → octets[place]? = some b →
        ∀ weight, weight < 8 → (place + 1 = octets.length → count ≤ weight) →
          a.toNat.testBit weight = b.toNat.testBit weight := by
  match octets', octets, hlength with
  | [], [], _ => simp [SameButLowest]
  | [a], [b], _ =>
    have hlast : SameButLowest count [a] [b] ↔ a.toNat / 2 ^ count = b.toNat / 2 ^ count := by
      simp [SameButLowest]
    rw [hlast, toNat_div_eq_iff]
    constructor
    · intro h place a' b' ha hb weight hweight hused
      obtain ⟨hplace, rfl⟩ := List.getElem?_eq_some_iff.1 ha
      obtain rfl : place = 0 := Nat.lt_one_iff.1 hplace
      cases hb
      exact h weight (hused rfl) hweight
    · intro h weight hused hweight
      exact h 0 a b rfl rfl weight hweight fun _ => hused
  | a :: a' :: c, b :: b' :: e, hlength =>
    rw [sameButLowest_cons_cons, sameButLowest_iff_testBit (Nat.succ.inj hlength), eq_iff_testBit]
    constructor
    · rintro ⟨hfirst, hrest⟩ place x y hx hy weight hweight hused
      cases place with
      | zero =>
        cases hx
        cases hy
        exact hfirst weight hweight
      | succ place =>
        exact hrest place x y hx hy weight hweight fun hend => hused (congrArg (· + 1) hend)
    · intro h
      constructor
      · -- the first octet is not the last one
        exact fun weight hweight => h 0 a b rfl rfl weight hweight fun hend => by cases hend
      · intro place x y hx hy weight hweight hused
        exact h (place + 1) x y hx hy weight hweight fun hend => hused (Nat.succ.inj hend)

/-- Bit strings with the same numbers of octets and unused bits have the same bits exactly if octets
at the same place have the same bits, as far as these are used. -/
theorem bit_eq_iff_testBit (hunused : other.unused = bits.unused)
    (hcount : other.octets.length = bits.octets.length) :
    (∀ index, other.bit index = bits.bit index) ↔
      ∀ place a b, other.octets[place]? = some a → bits.octets[place]? = some b →
        ∀ weight, weight < 8 → place * 8 + (7 - weight) < bits.length →
          a.toNat.testBit weight = b.toNat.testBit weight := by
  have hlength : other.length = bits.length := by
    unfold length
    rw [hunused, hcount]
  constructor
  · intro h place a b ha hb weight hweight hinside
    have hplace : (place * 8 + (7 - weight)) / 8 = place := by omega
    have hback : 7 - (place * 8 + (7 - weight)) % 8 = weight := by omega
    obtain ⟨a', ha', hbit'⟩ := bit_of_lt (hlength ▸ hinside)
    obtain ⟨b', hb', hbit⟩ := bit_of_lt hinside
    rw [hplace, ha] at ha'
    rw [hplace, hb] at hb'
    cases ha'
    cases hb'
    have hsame := h (place * 8 + (7 - weight))
    rwa [hbit', hbit, hback] at hsame
  · intro h index
    by_cases hinside : index < bits.length
    · obtain ⟨a, ha, hbit'⟩ := bit_of_lt (hlength ▸ hinside)
      obtain ⟨b, hb, hbit⟩ := bit_of_lt hinside
      rw [hbit', hbit]
      exact h (index / 8) a b ha hb (7 - index % 8) (by omega) (by omega)
    · have hbeyond : bits.length ≤ index := Nat.le_of_not_lt hinside
      rw [bit_of_le hbeyond, bit_of_le (hlength ▸ hbeyond)]

/-- So they have if the octets are the same but for the unused bits. -/
theorem bit_eq_iff (hunused : other.unused = bits.unused)
    (hcount : other.octets.length = bits.octets.length) :
    (∀ index, other.bit index = bits.bit index) ↔
      SameButLowest bits.unused other.octets bits.octets := by
  have hlength := bits.length_add_unused
  have hlt := bits.unused_lt
  rw [bit_eq_iff_testBit hunused hcount, sameButLowest_iff_testBit hcount]
  constructor
  · intro h place a b ha hb weight hweight hused
    obtain ⟨hplace, -⟩ := List.getElem?_eq_some_iff.1 hb
    exact h place a b ha hb weight hweight (by omega)
  · intro h place a b ha hb weight hweight hinside
    exact h place a b ha hb weight hweight (by omega)

/-! ## Words -/

/-- The number of bits, computed with words of 64 bits. There is no result if there are too many
octets for a word, if a bit is shifted out, or if more is taken away than there is. -/
def length? (bits : BitString) : Option UInt64 := do
  guard (bits.octets.length < UInt64.size)
  let count := UInt64.ofNat bits.octets.length
  guard (count.toNat * 2 ^ 3 < UInt64.size)
  let all := count <<< 3
  let unused := UInt64.ofNat bits.unused
  guard (unused ≤ all)
  return all - unused

/-- The bit at an index, found with words of 64 bits and octets. The weight of the bit is found with
the lowest octet of the index. There is no result if there are too many octets for a word, if a sum
overflows, if more is taken away than there is, if there is no octet at a place, or if an octet is
shifted by more than it has bits. -/
def bit? (bits : BitString) (index : UInt64) : Option Bool := do
  guard (bits.octets.length < UInt64.size)
  let count := UInt64.ofNat bits.octets.length
  let place := index >>> 3
  if count ≤ place then return false
  let offset := index.toUInt8 &&& 7
  guard (offset ≤ 7)
  let weight := 7 - offset
  guard (place.toNat + 1 < UInt64.size)
  if count = place + 1 ∧ weight < UInt8.ofNat bits.unused then return false
  let octet ← bits.octets[place.toNat]?
  guard (weight < 8)
  return octet &&& (1 <<< weight) != 0

/-- A bit of an octet is singled out by shifting a one to its place. -/
theorem and_shiftLeft_ne_zero (octet : UInt8) {weight : UInt8} (hweight : weight < 8) :
    (octet &&& (1 <<< weight) != 0) = octet.toNat.testBit weight.toNat := by
  have h : weight.toNat < 8 := UInt8.lt_iff_toNat_lt.1 hweight
  have hmask : ((1 : UInt8) <<< weight).toNat = 2 ^ weight.toNat := by
    have hless : 2 ^ weight.toNat < 2 ^ 8 := Nat.pow_lt_pow_right (by decide) h
    rw [UInt8.toNat_shiftLeft, Nat.mod_eq_of_lt h, UInt8.toNat_one, Nat.one_shiftLeft,
      Nat.mod_eq_of_lt hless]
  have hzero : octet &&& (1 <<< weight) = 0 ↔ octet.toNat.testBit weight.toNat = false := by
    rw [← UInt8.toNat_inj, UInt8.toNat_and, hmask, Nat.and_two_pow]
    cases octet.toNat.testBit weight.toNat <;> simp
  cases hbit : octet.toNat.testBit weight.toNat <;> simp [hzero, hbit, bne]

/-- The place of an index is found by leaving its three lowest bits away. -/
theorem toNat_place (index : UInt64) : (index >>> 3).toNat = index.toNat / 8 := by
  rw [UInt64.toNat_shiftRight]
  exact Nat.shiftRight_eq_div_pow index.toNat 3

/-- The lowest octet of an index is enough to find the offset in an octet. -/
theorem toNat_offset (index : UInt64) : (index.toUInt8 &&& 7).toNat = index.toNat % 8 := by
  have hlow : index.toNat % 2 ^ 8 &&& 2 ^ 3 - 1 = index.toNat % 2 ^ 8 % 2 ^ 3 :=
    Nat.and_two_pow_sub_one_eq_mod _ 3
  rw [Nat.mod_mod_of_dvd _ (by decide)] at hlow
  rw [UInt8.toNat_and, UInt64.toNat_toUInt8]
  exact hlow

section
variable (h : bits.octets.length < 2 ^ 60)
include h

/-- So many octets can be counted with a word. -/
theorem toNat_count : (UInt64.ofNat bits.octets.length).toNat = bits.octets.length := by
  have hsize : UInt64.size = 2 ^ 64 := rfl
  exact UInt64.toNat_ofNat_of_lt' (by omega)

/-- No step on the way to the number of bits leaves its range. -/
theorem length?_eq : bits.length? = some (UInt64.ofNat bits.length) := by
  have hsize : UInt64.size = 2 ^ 64 := rfl
  have hunused := bits.unused_le
  have hcount := toNat_count h
  have hall : UInt64.ofNat bits.octets.length <<< 3 = UInt64.ofNat (bits.octets.length * 8) := by
    rw [← UInt64.toNat_inj, UInt64.toNat_shiftLeft, hcount, UInt64.toNat_ofNat_of_lt' (by omega)]
    show bits.octets.length <<< 3 % 2 ^ 64 = _
    rw [Nat.shiftLeft_eq]
    omega
  have hle : UInt64.ofNat bits.unused ≤ UInt64.ofNat (bits.octets.length * 8) := by
    rw [UInt64.le_iff_toNat_le, UInt64.toNat_ofNat_of_lt' (by omega),
      UInt64.toNat_ofNat_of_lt' (by omega)]
    exact hunused
  have hfits : bits.octets.length < UInt64.size := by omega
  have hshift : (UInt64.ofNat bits.octets.length).toNat * 2 ^ 3 < UInt64.size := by
    rw [hcount]
    omega
  simp only [length?, guard, if_pos hfits, if_pos hshift, hall, if_pos hle]
  rw [length, UInt64.ofNat_sub hunused]
  rfl

/-- No step on the way to a bit leaves its range, whatever the index is. -/
theorem bit?_eq (index : UInt64) : bits.bit? index = some (bits.bit index.toNat) := by
  have hsize : UInt64.size = 2 ^ 64 := rfl
  have hindex := index.toNat_lt
  have hplace := toNat_place index
  have hoffset := toNat_offset index
  have hfits : bits.octets.length < UInt64.size := by omega
  have hle : index.toUInt8 &&& 7 ≤ 7 := by
    rw [UInt8.le_iff_toNat_le, hoffset]
    exact Nat.le_of_lt_succ (Nat.mod_lt _ (by decide))
  have hweight : (7 - (index.toUInt8 &&& 7)).toNat = 7 - index.toNat % 8 := by
    rw [UInt8.toNat_sub_of_le _ _ hle, hoffset]
    rfl
  have hnext : index.toNat / 8 + 1 < UInt64.size := by omega
  have hsmall : 7 - (index.toUInt8 &&& 7) < 8 := by
    rw [UInt8.lt_iff_toNat_lt, hweight]
    exact Nat.lt_succ_of_le (Nat.sub_le _ _)
  have hbeyond : UInt64.ofNat bits.octets.length ≤ index >>> 3 ↔
      bits.octets.length ≤ index.toNat / 8 := by
    rw [UInt64.le_iff_toNat_le, toNat_count h, hplace]
  have hlast : (UInt64.ofNat bits.octets.length = index >>> 3 + 1 ∧
      7 - (index.toUInt8 &&& 7) < UInt8.ofNat bits.unused) ↔
        index.toNat / 8 + 1 = bits.octets.length ∧ 7 - index.toNat % 8 < bits.unused := by
    have hunused : (UInt8.ofNat bits.unused).toNat = bits.unused :=
      UInt8.toNat_ofNat_of_lt' (Nat.lt_trans bits.unused_lt (by decide))
    rw [← UInt64.toNat_inj, toNat_count h, UInt64.toNat_add, UInt64.toNat_one, hplace,
      Nat.mod_eq_of_lt hnext, UInt8.lt_iff_toNat_lt, hweight, hunused, eq_comm]
  simp only [bit?, guard, if_pos hfits, if_pos hle, if_pos hsmall, pure_bind, hbeyond, hlast,
    hplace, if_pos hnext, and_shiftLeft_ne_zero _ hsmall, hweight, bit]
  by_cases hend : bits.octets.length ≤ index.toNat / 8
  · rw [if_pos hend, List.getElem?_eq_none hend]
    rfl
  · rw [if_neg hend, List.getElem?_eq_getElem (Nat.lt_of_not_le hend)]
    dsimp only
    split <;> rfl

end

/-! ## Bit strings as they are made -/

/-- A bit string is made of unused bits and octets, or read from content that holds these. -/
def IsMadeOf (unused : UInt8) (octets : Octets) (bits : BitString) : Prop :=
  ofParts? unused octets = some bits ∨ ofContent (unused :: octets) = .ok bits

theorem IsMadeOf.parts (h : IsMadeOf unused octets bits) :
    bits.unused = unused.toNat ∧ bits.octets = octets := by
  rcases h with h | h
  · exact ofParts?_eq_some h
  · exact ofParts?_eq_some (ofParts?_of_ofContent h)

/-- What holds of a bit string that is made of these unused bits and octets. -/
structure Bitwise (unused : UInt8) (octets : Octets) (bits : BitString) : Prop where
  parts : bits.unused = unused.toNat ∧ bits.octets = octets
  /-- It has eight bits for each octet, but for those that are unused. -/
  length : bits.length + unused.toNat = 8 * octets.length
  /-- A bit stands in the octet that eight bits each leave for it, the first one of these in the
  highest place. -/
  inside : ∀ index < bits.length, ∃ octet, octets[index / 8]? = some octet ∧
    (bits.bit index = true ↔ octet.toNat / 2 ^ (7 - index % 8) % 2 = 1)
  /-- Behind the last bit, there are none. -/
  beyond : ∀ index, bits.length ≤ index → bits.bit index = false
  /-- With words, all bits are found and no step leaves its range. -/
  words : octets.length < 2 ^ 60 →
    bits.length? = some (UInt64.ofNat bits.length) ∧ bits.length < UInt64.size ∧
      ∀ index, bits.bit? index = some (bits.bit index.toNat)
  /-- Octets that are as many and leave as many bits unused have the same bits exactly if they are
  the same but for the unused bits. -/
  alike : ∀ other octets', IsMadeOf unused octets' other → octets'.length = octets.length →
    ((∀ index, other.bit index = bits.bit index) ↔ SameButLowest unused.toNat octets' octets)

/-- Any bit string, whether it is made of its parts or read from its content, has its bits in its
octets. -/
theorem bits_of_octets (unused : UInt8) (octets : Octets) (bits : BitString)
    (h : IsMadeOf unused octets bits) : Bitwise unused octets bits := by
  obtain ⟨hunused, rfl⟩ := h.parts
  constructor
  · exact ⟨hunused, rfl⟩
  · rw [← hunused, Nat.mul_comm]
    exact bits.length_add_unused
  · intro index hinside
    obtain ⟨octet, hoctet, hbit⟩ := bit_of_lt hinside
    refine ⟨octet, hoctet, ?_⟩
    rw [hbit, Nat.testBit_eq_decide_div_mod_eq, decide_eq_true_iff]
  · intro index hbeyond
    exact bit_of_le hbeyond
  · intro hfew
    have hlength := bits.length_add_unused
    have hsize : UInt64.size = 2 ^ 64 := rfl
    exact ⟨length?_eq hfew, by omega, bit?_eq hfew⟩
  · intro other octets' hother hcount
    obtain ⟨hunused', rfl⟩ := hother.parts
    rw [← hunused]
    exact bit_eq_iff (hunused'.trans hunused.symm) hcount

/-- Twelve bits in two octets: they are told by the octets, and the four that are unused make no
difference. -/
theorem bits_of_octets_twelve :
    let bits : BitString := ⟨4, [0x81, 0xF0], by decide, by decide⟩
    let other : BitString := ⟨4, [0x81, 0xFF], by decide, by decide⟩
    ofContent [0x04, 0x81, 0xF0] = .ok bits ∧ Bitwise 4 [0x81, 0xF0] bits ∧
      bits.bit 11 = true ∧ bits.bit 12 = false ∧ other.octets ≠ bits.octets ∧
      ∀ index, other.bit index = bits.bit index := by
  intro bits other
  have hread : ofContent [0x04, 0x81, 0xF0] = .ok bits := rfl
  have hbits : Bitwise 4 [0x81, 0xF0] bits := bits_of_octets 4 [0x81, 0xF0] bits (.inr hread)
  refine ⟨hread, hbits, by decide, by decide, by decide, ?_⟩
  exact (hbits.alike other [0x81, 0xFF] (.inl rfl) rfl).2 (by decide)

end BitString
end Ber
