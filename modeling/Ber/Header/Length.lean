import Ber.Source

/-!
# Ber.Header.Length — how far the content reaches

A first octet below 128 is the length itself. The octet 128 says that the length is indefinite: a
marker ends the content. Any larger octet announces how many octets follow that write the length in
base 256. At most four may be announced, the length has at most 31 bits, and it must stay below a
limit. These rules are applied in this order, so the limit comes last.

The octets are shifted into a word of 32 bits. Four octets are no more than it holds, so it is the
number that they write (`Length.long_eq`).
-/

namespace Ber

/-- The length of a value's content. -/
inductive Length where
  | definite (octets : Nat)
  | indefinite
deriving DecidableEq, Repr

namespace Length

/-- The number of content octets, if it is given. -/
def definite? : Length → Option Nat
  | .definite octets => some octets
  | .indefinite => none

/-- The region of content of a length. -/
def region : Length → Region
  | .definite octets => .definite octets
  | .indefinite => .marked {}

/-- The text of a length when it is shown as a term. -/
def termText : Length → String
  | .definite octets => "Definite(" ++ toString octets ++ ")"
  | .indefinite => "Indefinite"

/-- The most octets that may follow the first length octet. -/
def maxOctets : Nat := 4

/-- Accepts a definite length below the limit. -/
def below (limit : Nat) (octets : Nat) : Taking Length :=
  if octets < limit then return .definite octets else Source.fail .outOfBounds

/-- Shifts an octet into a word from the right. -/
def shiftIn (word : UInt32) (octet : UInt8) : UInt32 := word <<< 8 ||| octet.toUInt32

/-- Takes so many octets and shifts them into a word, one after the other. -/
def shiftedInto (word : UInt32) : Nat → Taking UInt32
  | 0 => return word
  | count + 1 => do
    let octet ← Source.octet
    shiftedInto (shiftIn word octet) count

/-- Takes the octets that write a definite length, as many as announced. -/
def long (count : Nat) (limit : Nat) : Taking Length :=
  if maxOctets < count then Source.fail .malformedLength
  else do
    let length ← shiftedInto 0 count
    if length ≤ 0x7fffffff then below limit length.toNat else Source.fail .malformedLength

/-- Takes the length octets of a value. A definite length has to be below the limit. -/
def take (limit : Nat) : Taking Length := do
  let first ← Source.octet
  if first < 0x80 then below limit first.toNat
  else if first = 0x80 then return .indefinite
  else long (first.toNat - 0x80) limit

/-! ## Four octets in a word -/

/-- No bit is lost by shifting an octet into a word that has room for it. -/
theorem toNat_shiftIn {word : UInt32} (hroom : (word.toNat + 1) <<< 8 ≤ UInt32.size)
    (octet : UInt8) : (shiftIn word octet).toNat = word.toNat * 256 + octet.toNat := by
  have hsize : UInt32.size = 2 ^ 32 := rfl
  have hoctet : octet.toNat < 2 ^ 8 := octet.toNat_lt
  rw [Nat.shiftLeft_eq] at hroom
  have hshift : (word <<< 8).toNat = word.toNat <<< 8 := by
    have hword : word.toNat <<< 8 < 2 ^ 32 := by
      rw [Nat.shiftLeft_eq]
      omega
    rw [UInt32.toNat_shiftLeft]
    exact Nat.mod_eq_of_lt hword
  rw [shiftIn, UInt32.toNat_or, hshift, UInt8.toNat_toUInt32,
    ← Nat.shiftLeft_add_eq_or_of_lt hoctet, Nat.shiftLeft_eq]

/-- So none is lost of any octets that a word has room for, and they are shifted in as digits. -/
theorem toNat_foldl_shiftIn {octets : Octets} {word : UInt32}
    (hroom : (word.toNat + 1) <<< (8 * octets.length) ≤ UInt32.size) :
    (octets.foldl shiftIn word).toNat =
      octets.foldl (fun number octet => number * 256 + octet.toNat) word.toNat := by
  induction octets generalizing word with
  | nil => rfl
  | cons octet octets ih =>
    have hbits : 8 * (octet :: octets).length = 8 + 8 * octets.length := by
      rw [List.length_cons]
      omega
    rw [hbits, Nat.shiftLeft_add] at hroom
    have hle : (word.toNat + 1) <<< 8 ≤ UInt32.size :=
      Nat.le_trans Nat.le_shiftLeft hroom
    have hnext := toNat_shiftIn hle octet
    rw [List.foldl_cons, List.foldl_cons, ← hnext]
    refine ih (Nat.le_trans ?_ hroom)
    -- the octet takes no more than the room that it was shifted into
    have hoctet : octet.toNat + 1 ≤ 256 := octet.toNat_lt
    have hgrown : (shiftIn word octet).toNat + 1 ≤ (word.toNat + 1) <<< 8 := by
      rw [hnext, Nat.shiftLeft_eq]
      omega
    rw [Nat.shiftLeft_eq _ (8 * octets.length), Nat.shiftLeft_eq _ (8 * octets.length)]
    exact Nat.mul_le_mul_right _ hgrown

/-- Shifting octets in as they are taken is taking them and shifting them in. -/
theorem shiftedInto_eq (taken : Octets) (count : Nat) :
    shiftedInto (taken.reverse.foldl shiftIn 0) count =
      (do
        let octets ← Source.octetsAfter taken count
        return octets.foldl shiftIn 0) := by
  induction count generalizing taken with
  | zero => rfl
  | succ count ih =>
    have hstep : ∀ octet, shiftedInto (shiftIn (taken.reverse.foldl shiftIn 0) octet) count =
        (do
          let octets ← Source.octetsAfter (octet :: taken) count
          return octets.foldl shiftIn 0) := by
      intro octet
      rw [← ih, List.reverse_cons, List.foldl_append]
      rfl
    simp only [shiftedInto, Source.octetsAfter, hstep, bind_assoc]

/-- The octets that are taken are as many as wanted. -/
theorem length_of_octetsAfter {taken octets : Octets} {count : Nat} {s t : Source}
    (h : Source.octetsAfter taken count s = .ok octets t) :
    octets.length = taken.length + count := by
  induction count generalizing taken s with
  | zero =>
    cases h
    exact List.length_reverse
  | succ count ih =>
    obtain ⟨octet, m, -, hrest⟩ := Action.bind_eq_ok.1 h
    rw [ih hrest, List.length_cons]
    omega

/-- A length is the number that its octets write in base 256. -/
theorem long_eq (count limit : Nat) :
    long count limit =
      if maxOctets < count then Source.fail .malformedLength
      else (do
        let length := (← Source.octets count).bigEndian
        if length < 0x80000000 then below limit length else Source.fail .malformedLength) := by
  unfold long
  by_cases hmany : maxOctets < count
  · rw [if_pos hmany, if_pos hmany]
  have hcount : count ≤ 4 := Nat.le_of_not_lt hmany
  have hshifted : shiftedInto 0 count = (do
      let octets ← Source.octets count
      return octets.foldl shiftIn 0) := shiftedInto_eq [] count
  rw [if_neg hmany, if_neg hmany, hshifted, bind_assoc]
  funext s
  refine Action.bind_congr fun octets m hoctets => ?_
  have hlength : octets.length = count := by
    rw [length_of_octetsAfter hoctets]
    exact Nat.zero_add count
  have hword : (octets.foldl shiftIn 0).toNat = octets.bigEndian := by
    apply toNat_foldl_shiftIn
    -- at most four octets
    have hle : 2 ^ (8 * octets.length) ≤ 2 ^ 32 := Nat.pow_le_pow_right (by decide) (by omega)
    rwa [UInt32.toNat_zero, Nat.zero_add, Nat.one_shiftLeft]
  have hsmall : octets.foldl shiftIn 0 ≤ 0x7fffffff ↔ octets.bigEndian < 0x80000000 := by
    rw [UInt32.le_iff_toNat_le, hword]
    exact Nat.lt_succ_iff.symm
  simp only [pure_bind, hword, hsmall]

end Length
end Ber
