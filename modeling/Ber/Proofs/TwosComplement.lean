import Ber.Proofs.Numerals
import Ber.Value.Integer
import Mathlib.Data.Int.Order.Basic
import Mathlib.Tactic.Linarith
import Mathlib.Tactic.Positivity

/-!
# Ber.Proofs.TwosComplement — the number that an integer stands for

Octets in two's complement write a number of any size (`Octets.twosComplement`): the number that
they write in base 256, less the next power if the sign bit is set. The conversions of an integer
are exact with respect to it (`Integer.Exact`):

1. Leading octets that only repeat the sign do not change the number
   (`twosComplement_dropSignOctets`), and where none is left, the number of octets tells how large
   the number is (`Octets.Minimal.length_le_iff`).
2. Shifting octets into a word computes the number modulo the size of the word
   (`foldl_shiftSigned`, `foldl_shiftUnsigned`), so a number that fits comes out as it is.
-/

namespace Ber

/-! ## Numbers in two's complement -/

namespace Octets

/-- The number that octets write in two's complement: if the sign bit is set, the power of 256
behind the first digit is taken away from what they write without a sign. -/
def twosComplement : Octets → Int
  | [] => 0
  | first :: rest =>
    (bigEndian (first :: rest) : Int) - if first < 0x80 then 0 else 256 ^ (rest.length + 1)

/-- The first octet as a digit with a sign. -/
def signedDigit (first : UInt8) : Int := if first < 0x80 then first.toNat else first.toNat - 256

/-- No leading octet only repeats the sign bit of the octet after it. -/
def Minimal : Octets → Prop
  | first :: second :: _ => ¬ ((first = 0x00 ∧ second < 0x80) ∨ (first = 0xFF ∧ 0x80 ≤ second))
  | _ => True

variable {octets rest : Octets} {first second : UInt8}

/-- The sign bit says whether the first digit is negative. -/
theorem signedDigit_cases (first : UInt8) :
    (first < 0x80 ∧ first.toNat < 128 ∧ signedDigit first = first.toNat) ∨
      (0x80 ≤ first ∧ 128 ≤ first.toNat ∧ first.toNat < 256 ∧
        signedDigit first = first.toNat - 256) := by
  by_cases hfirst : first < 0x80
  · have hlow : first.toNat < 128 := UInt8.lt_iff_toNat_lt.1 hfirst
    exact .inl ⟨hfirst, hlow, if_pos hfirst⟩
  · have hhigh : 128 ≤ first.toNat := UInt8.le_iff_toNat_le.1 (UInt8.not_lt.1 hfirst)
    exact .inr ⟨UInt8.not_lt.1 hfirst, hhigh, first.toNat_lt, if_neg hfirst⟩

/-- Only the first digit has a sign. -/
theorem twosComplement_cons (first : UInt8) (rest : Octets) :
    twosComplement (first :: rest) = signedDigit first * 256 ^ rest.length + rest.bigEndian := by
  simp only [twosComplement, signedDigit, bigEndian_cons]
  push_cast
  split <;> ring

/-- What stands behind the first digits is less than one step of the last of them. -/
theorem twosComplement_bounds (digits : Int) (rest : Octets) :
    digits * 256 ^ rest.length ≤ digits * 256 ^ rest.length + rest.bigEndian ∧
      digits * 256 ^ rest.length + rest.bigEndian < (digits + 1) * 256 ^ rest.length := by
  have hrest : (rest.bigEndian : Int) < 256 ^ rest.length := by exact_mod_cast bigEndian_lt rest
  have hpos : (0 : Int) ≤ rest.bigEndian := Int.natCast_nonneg _
  constructor <;> linarith

/-- A number is negative if its sign bit is set. -/
theorem twosComplement_neg_iff (first : UInt8) (rest : Octets) :
    twosComplement (first :: rest) < 0 ↔ 0x80 ≤ first := by
  obtain ⟨hlower, hupper⟩ := twosComplement_bounds (signedDigit first) rest
  have hpower : (0 : Int) < 256 ^ rest.length := by positivity
  rw [← twosComplement_cons] at hlower hupper
  rcases signedDigit_cases first with ⟨hfirst, -, hdigit⟩ | ⟨hfirst, -, hlt, hdigit⟩
  · have hnonneg : 0 ≤ signedDigit first * 256 ^ rest.length := by
      rw [hdigit]
      positivity
    constructor
    · intro hneg
      omega
    · intro hhigh
      exact absurd hfirst (UInt8.not_lt.2 hhigh)
  · have hneg : (signedDigit first + 1) * 256 ^ rest.length ≤ 0 :=
      Int.mul_nonpos_of_nonpos_of_nonneg (by omega) hpower.le
    constructor
    · intro _
      exact hfirst
    · intro _
      omega

/-- Without the sign, a negative number is larger by the next power. -/
theorem twosComplement_eq (octets : Octets) :
    octets.twosComplement =
      (if octets.twosComplement < 0 then -1 else 0) * 256 ^ octets.length + octets.bigEndian := by
  cases octets with
  | nil => rfl
  | cons first rest =>
    by_cases hfirst : first < 0x80
    · have hnonneg : ¬ twosComplement (first :: rest) < 0 := by
        rw [twosComplement_neg_iff]
        exact UInt8.not_le.2 hfirst
      rw [if_neg hnonneg, twosComplement, if_pos hfirst]
      ring
    · have hneg : twosComplement (first :: rest) < 0 := by
        rw [twosComplement_neg_iff]
        exact UInt8.not_lt.1 hfirst
      rw [if_pos hneg, twosComplement, if_neg hfirst, List.length_cons]
      ring

/-! ## Octets that only repeat the sign -/

/-- An octet that only repeats the sign bit of the one after it changes nothing. -/
theorem twosComplement_signOctet
    (h : (first = 0x00 ∧ second < 0x80) ∨ (first = 0xFF ∧ 0x80 ≤ second)) :
    twosComplement (first :: second :: rest) = twosComplement (second :: rest) := by
  -- the two digits together make the second one, with its sign
  have hdigits : signedDigit first * 256 + second.toNat = signedDigit second := by
    rcases h with ⟨rfl, hsecond⟩ | ⟨rfl, hsecond⟩
    · have hzero : signedDigit 0x00 = 0 := by decide
      rw [hzero, signedDigit, if_pos hsecond]
      ring
    · have hones : signedDigit 0xFF = -1 := by decide
      rw [hones, signedDigit, if_neg (UInt8.not_lt.2 hsecond)]
      ring
  rw [twosComplement_cons, twosComplement_cons, bigEndian_cons, ← hdigits, List.length_cons]
  push_cast
  ring

/-- So do any number of them. -/
theorem twosComplement_replicate {repeated : UInt8}
    (h : (repeated = 0x00 ∧ first < 0x80) ∨ (repeated = 0xFF ∧ 0x80 ≤ first)) (count : Nat) :
    twosComplement (List.replicate count repeated ++ first :: rest) =
      twosComplement (first :: rest) := by
  -- the innermost of them comes first: in front of it stand the others, which repeat it
  induction count generalizing first rest with
  | zero => rfl
  | succ count ih =>
    have hrepeats : (repeated = 0x00 ∧ repeated < 0x80) ∨ (repeated = 0xFF ∧ 0x80 ≤ repeated) := by
      rcases h with ⟨rfl, -⟩ | ⟨rfl, -⟩
      · exact .inl ⟨rfl, by decide⟩
      · exact .inr ⟨rfl, by decide⟩
    rw [List.replicate_succ', List.append_assoc, List.singleton_append, ih hrepeats,
      twosComplement_signOctet h]

/-- Without such octets, a number of two octets or more needs the first of them. -/
theorem Minimal.large (h : Minimal (first :: second :: rest)) :
    twosComplement (first :: second :: rest) < -128 * 256 ^ rest.length ∨
      128 * 256 ^ rest.length ≤ twosComplement (first :: second :: rest) := by
  have hdigits : signedDigit first * 256 + second.toNat + 1 ≤ -128 ∨
      128 ≤ signedDigit first * 256 + second.toNat := by
    have hsecond : second.toNat < 256 := second.toNat_lt
    by_contra hsmall
    apply h
    rcases signedDigit_cases first with ⟨-, -, hdigit⟩ | ⟨-, hhigh, hlt, hdigit⟩
    · left
      constructor
      · apply UInt8.toNat_inj.1
        show first.toNat = 0
        omega
      · apply UInt8.lt_iff_toNat_lt.2
        show second.toNat < 128
        omega
    · right
      constructor
      · apply UInt8.toNat_inj.1
        show first.toNat = 255
        omega
      · apply UInt8.le_iff_toNat_le.2
        show 128 ≤ second.toNat
        omega
  obtain ⟨hlower, hupper⟩ :=
    twosComplement_bounds (signedDigit first * 256 + second.toNat) rest
  have hpower : (0 : Int) ≤ 256 ^ rest.length := by positivity
  have hvalue : twosComplement (first :: second :: rest) =
      (signedDigit first * 256 + second.toNat) * 256 ^ rest.length + rest.bigEndian := by
    rw [twosComplement_cons, bigEndian_cons, List.length_cons]
    push_cast
    ring
  rw [hvalue]
  rcases hdigits with hneg | hpos
  · left
    have hstep := Int.mul_le_mul_of_nonneg_right hneg hpower
    omega
  · right
    have hstep := Int.mul_le_mul_of_nonneg_right hpos hpower
    omega

/-- So many octets write the numbers that fit their bits. -/
theorem twosComplement_fits (first : UInt8) (rest : Octets) :
    -128 * 256 ^ rest.length ≤ twosComplement (first :: rest) ∧
      twosComplement (first :: rest) < 128 * 256 ^ rest.length := by
  obtain ⟨hlower, hupper⟩ := twosComplement_bounds (signedDigit first) rest
  have hpower : (0 : Int) ≤ 256 ^ rest.length := by positivity
  have hdigit : -128 ≤ signedDigit first ∧ signedDigit first + 1 ≤ 128 := by
    rcases signedDigit_cases first with ⟨-, hlt, hdigit⟩ | ⟨-, hhigh, hlt, hdigit⟩ <;> omega
  rw [← twosComplement_cons] at hlower hupper
  have hleast := Int.mul_le_mul_of_nonneg_right hdigit.1 hpower
  have hmost := Int.mul_le_mul_of_nonneg_right hdigit.2 hpower
  constructor <;> omega

/-- Without octets that only repeat the sign, there are as many as the number needs. -/
theorem Minimal.length_le_iff (h : octets.Minimal) (count : Nat) :
    octets.length ≤ count + 1 ↔
      -128 * 256 ^ count ≤ octets.twosComplement ∧ octets.twosComplement < 128 * 256 ^ count := by
  have hpower : ∀ {m n : Nat}, m ≤ n → (256 : Int) ^ m ≤ 256 ^ n := by
    intro m n hle
    exact_mod_cast Nat.pow_le_pow_right (by decide : 0 < 256) hle
  constructor
  · intro hlength
    cases octets with
    | nil =>
      have hpos := hpower (Nat.zero_le count)
      simp only [twosComplement]
      constructor <;> omega
    | cons first rest =>
      have hfits := twosComplement_fits first rest
      have hle := hpower (Nat.le_of_succ_le_succ hlength)
      constructor <;> omega
  · intro hbounds
    by_contra hlength
    match octets with
    | [] => exact hlength (Nat.zero_le _)
    | [first] => exact hlength (Nat.le_add_left 1 count)
    | first :: second :: rest =>
      have hlarge := h.large
      have hle : (256 : Int) ^ count ≤ 256 ^ rest.length := by
        apply hpower
        simp only [List.length_cons] at hlength
        omega
      omega

/-- Behind a zero octet that does not only repeat the sign, the high bit is set. -/
theorem Minimal.high_of_zero (h : Minimal (0 :: second :: rest)) : 0x80 ≤ second := by
  rw [← UInt8.not_lt]
  intro hsecond
  exact h (.inl ⟨rfl, hsecond⟩)

end Octets

/-! ## Integers -/

namespace Integer

open Octets

variable {octets rest : Octets} {integer : Integer}

/-- The number that an integer stands for. -/
def value (integer : Integer) : Int := integer.content.twosComplement

/-- The sign bit says whether the number is negative. -/
theorem isNegative_iff (integer : Integer) : integer.isNegative ↔ integer.value < 0 := by
  rcases integer with ⟨_ | ⟨first, rest⟩⟩
  · simp [isNegative, value, twosComplement]
  · simp only [isNegative, value, twosComplement_neg_iff, decide_eq_true_eq]

/-! ### Leading octets -/

/-- Dropping octets that only repeat the sign goes on until none is left. -/
theorem dropSignOctets_induction {motive : Octets → Octets → Prop}
    (dropped : ∀ first second rest,
      (first = 0x00 ∧ second < 0x80) ∨ (first = 0xFF ∧ 0x80 ≤ second) →
      motive (second :: rest) (dropSignOctets (second :: rest)) →
      motive (first :: second :: rest) (dropSignOctets (second :: rest)))
    (kept : ∀ octets : Octets, octets.Minimal → motive octets octets) (octets : Octets) :
    motive octets (dropSignOctets octets) := by
  induction octets with
  | nil => exact kept [] trivial
  | cons first octets ih =>
    cases octets with
    | nil => exact kept [first] trivial
    | cons second rest =>
      rw [dropSignOctets]
      split
      · rename_i hrepeats
        exact dropped first second rest hrepeats ih
      · rename_i hminimal
        exact kept (first :: second :: rest) hminimal

theorem dropSignOctets_eq_nil_iff : dropSignOctets octets = [] ↔ octets = [] := by
  induction octets using dropSignOctets_induction with
  | dropped first second rest hrepeats ih => simpa using ih
  | kept octets hminimal => rfl

/-- Dropping octets that only repeat the sign does not change the number. -/
theorem twosComplement_dropSignOctets (octets : Octets) :
    (dropSignOctets octets).twosComplement = octets.twosComplement := by
  induction octets using dropSignOctets_induction with
  | dropped first second rest hrepeats ih => rw [ih, twosComplement_signOctet hrepeats]
  | kept octets hminimal => rfl

/-- None is left then. -/
theorem minimal_dropSignOctets (octets : Octets) : (dropSignOctets octets).Minimal := by
  induction octets using dropSignOctets_induction with
  | dropped first second rest hrepeats ih => exact ih
  | kept octets hminimal => exact hminimal

theorem dropZeroOctet_eq_nil_iff : dropZeroOctet octets = [] ↔ octets = [] := by
  unfold dropZeroOctet
  split <;> simp

/-- A zero octet in front does not count. -/
theorem bigEndian_dropZeroOctet (octets : Octets) :
    (dropZeroOctet octets).bigEndian = octets.bigEndian := by
  unfold dropZeroOctet
  split
  · rename_i second rest
    rw [bigEndian_cons 0]
    simp
  · rfl

/-- Without a sign, no more octets are left than the number needs. -/
theorem length_dropZeroOctet_le_iff (h : octets.Minimal) (count : Nat) :
    (dropZeroOctet octets).length ≤ count + 1 ↔ octets.bigEndian < 256 ^ (count + 1) := by
  have hpower : ∀ {m n : Nat}, m ≤ n → 256 ^ m ≤ 256 ^ n := by
    intro m n hle
    exact Nat.pow_le_pow_right (by decide) hle
  rw [← bigEndian_dropZeroOctet]
  constructor
  · intro hlength
    have hlt := bigEndian_lt (dropZeroOctet octets)
    have hle := hpower hlength
    omega
  · intro hlt
    by_contra hlength
    -- the first of two octets or more is not zero
    have hfirst : ∃ first rest, dropZeroOctet octets = first :: rest ∧ first ≠ 0 := by
      match octets, h with
      | [], _ => exact absurd (Nat.zero_le _) hlength
      | [first], _ =>
        have hone : dropZeroOctet [first] = [first] := by
          unfold dropZeroOctet
          split
          · rename_i heq
            cases (List.cons.inj heq).2
          · rfl
        rw [hone] at hlength
        exact absurd (Nat.le_add_left 1 count) hlength
      | first :: second :: rest, h =>
        by_cases hzero : first = 0
        · subst hzero
          refine ⟨second, rest, rfl, ?_⟩
          rintro rfl
          exact absurd h.high_of_zero (by decide)
        · refine ⟨first, second :: rest, ?_, hzero⟩
          unfold dropZeroOctet
          split
          · rename_i heq
            exact absurd (List.cons.inj heq).1 hzero
          · rfl
    obtain ⟨first, rest, hoctets, hne⟩ := hfirst
    have hleast := le_bigEndian_cons rest hne
    rw [hoctets] at hlength hlt
    rw [List.length_cons] at hlength
    have hle : 256 ^ (count + 1) ≤ 256 ^ rest.length := hpower (by omega)
    omega

/-! ### Words -/

/-- Shifting an octet into a word appends it as the lowest digit. -/
theorem shift_or_eq (word : BitVec 64) (octet : BitVec 8) :
    word <<< 8 ||| octet.setWidth 64 = word * 256#64 + octet.setWidth 64 := by
  apply BitVec.eq_of_toNat_eq
  have hoctet : octet.toNat < 2 ^ 8 := octet.isLt
  have hsmall : octet.toNat % 2 ^ 64 = octet.toNat := Nat.mod_eq_of_lt (by omega)
  have hshift : word.toNat <<< 8 % 2 ^ 64 = (word.toNat % 2 ^ 56) <<< 8 := by
    simp only [Nat.shiftLeft_eq]
    omega
  rw [BitVec.toNat_or, BitVec.toNat_shiftLeft, BitVec.toNat_setWidth, hsmall, hshift,
    ← Nat.shiftLeft_add_eq_or_of_lt hoctet, Nat.shiftLeft_eq, BitVec.toNat_add, BitVec.toNat_mul,
    BitVec.toNat_setWidth, hsmall]
  simp only [BitVec.toNat_ofNat]
  omega

/-- Octets shifted into a signed word are computed with as digits. -/
theorem foldl_shiftSigned (octets : Octets) (number : Int) :
    octets.foldl (fun (word : Int64) octet => word <<< 8 ||| octet.toUInt64.toInt64)
        (Int64.ofInt number) =
      Int64.ofInt (number * 256 ^ octets.length + octets.bigEndian) := by
  have hstep : ∀ (word : Int64) (octet : UInt8),
      word <<< 8 ||| octet.toUInt64.toInt64 = word * 256 + octet.toUInt64.toInt64 := by
    intro word octet
    apply Int64.toBitVec.inj
    exact shift_or_eq word.toBitVec octet.toBitVec
  have hoctet : ∀ octet : UInt8, octet.toUInt64.toInt64 = Int64.ofInt octet.toNat := by
    intro octet
    rw [← UInt64.ofNat_uInt8ToNat, UInt64.toInt64_ofNat', Int64.ofInt_eq_ofNat]
  induction octets generalizing number with
  | nil => simp [bigEndian]
  | cons octet octets ih =>
    have hword : Int64.ofInt number <<< 8 ||| octet.toUInt64.toInt64 =
        Int64.ofInt (number * 256 + octet.toNat) := by
      rw [hstep, hoctet, Int64.ofInt_add, Int64.ofInt_mul]
      rfl
    rw [List.foldl_cons, hword, ih, bigEndian_cons, List.length_cons]
    congr 1
    push_cast
    ring

/-- Octets shifted into an unsigned word are computed with as digits. -/
theorem foldl_shiftUnsigned (octets : Octets) (number : Nat) :
    octets.foldl (fun (word : UInt64) octet => word <<< 8 ||| octet.toUInt64)
        (UInt64.ofNat number) =
      UInt64.ofNat (number * 256 ^ octets.length + octets.bigEndian) := by
  have hstep : ∀ (word : UInt64) (octet : UInt8),
      word <<< 8 ||| octet.toUInt64 = word * 256 + octet.toUInt64 := by
    intro word octet
    apply UInt64.eq_of_toBitVec_eq
    exact shift_or_eq word.toBitVec octet.toBitVec
  induction octets generalizing number with
  | nil => simp [bigEndian]
  | cons octet octets ih =>
    have hword : UInt64.ofNat number <<< 8 ||| octet.toUInt64 =
        UInt64.ofNat (number * 256 + octet.toNat) := by
      rw [hstep, ← UInt64.ofNat_uInt8ToNat, UInt64.ofNat_add, UInt64.ofNat_mul]
      rfl
    rw [List.foldl_cons, hword, ih, bigEndian_cons, List.length_cons]
    congr 1
    ring

/-! ### Conversions -/

/-- A signed word results exactly if there are octets and the number fits, and is that number. -/
theorem map_toInt64? (integer : Integer) :
    integer.toInt64?.map Int64.toInt =
      if integer.content ≠ [] ∧ -2 ^ 63 ≤ integer.value ∧ integer.value < 2 ^ 63 then
        some integer.value
      else none := by
  have hlength := (minimal_dropSignOctets integer.content).length_le_iff 7
  have hvalue : (dropSignOctets integer.content).twosComplement = integer.value :=
    twosComplement_dropSignOctets integer.content
  have hfits : (dropSignOctets integer.content).length ≤ 8 ↔
      -2 ^ 63 ≤ integer.value ∧ integer.value < 2 ^ 63 := by
    rw [hlength, hvalue]
    norm_num
  have hword : (dropSignOctets integer.content).foldl
      (fun (word : Int64) octet => word <<< 8 ||| octet.toUInt64.toInt64)
      (if integer.isNegative then -1 else 0) = Int64.ofInt integer.value := by
    have hsign : (if integer.isNegative then -1 else 0 : Int64) =
        Int64.ofInt (if integer.value < 0 then -1 else 0) := by
      simp only [isNegative_iff]
      split <;> rfl
    have hnumber := twosComplement_eq (dropSignOctets integer.content)
    rw [hvalue] at hnumber
    rw [hsign, foldl_shiftSigned, ← hnumber]
  simp only [toInt64?, dropSignOctets_eq_nil_iff, hword]
  by_cases hright : integer.content ≠ [] ∧ -2 ^ 63 ≤ integer.value ∧ integer.value < 2 ^ 63
  · have hnot : ¬ (integer.content = [] ∨ 8 < (dropSignOctets integer.content).length) := by
      rintro (hnil | hlong)
      · exact hright.1 hnil
      · exact absurd (hfits.2 hright.2) (by omega)
    rw [if_neg hnot, if_pos hright, Option.map_some,
      Int64.toInt_ofInt_of_le hright.2.1 hright.2.2]
  · have hnone : integer.content = [] ∨ 8 < (dropSignOctets integer.content).length := by
      by_contra hnot
      rw [not_or] at hnot
      exact hright ⟨hnot.1, hfits.1 (by omega)⟩
    rw [if_pos hnone, if_neg hright]
    rfl

/-- An unsigned word results exactly if there are octets and the number fits, and it is the number
then. -/
theorem map_toUInt64? (integer : Integer) :
    integer.toUInt64?.map (fun word => (word.toNat : Int)) =
      if integer.content ≠ [] ∧ 0 ≤ integer.value ∧ integer.value < 2 ^ 64 then
        some integer.value
      else none := by
  have hlength := length_dropZeroOctet_le_iff (minimal_dropSignOctets integer.content) 7
  have hvalue := twosComplement_eq (dropSignOctets integer.content)
  rw [twosComplement_dropSignOctets, show integer.content.twosComplement = integer.value from rfl]
    at hvalue
  by_cases hneg : integer.value < 0
  · have hright : ¬ (integer.content ≠ [] ∧ 0 ≤ integer.value ∧ integer.value < 2 ^ 64) := by
      rintro ⟨-, hnonneg, -⟩
      omega
    rw [if_neg hright, toUInt64?, if_pos (.inl ((isNegative_iff integer).2 hneg))]
    rfl
  have hnonneg : 0 ≤ integer.value := Int.not_lt.1 hneg
  have hplain : integer.value = ((dropSignOctets integer.content).bigEndian : Int) := by
    rw [if_neg hneg] at hvalue
    simpa using hvalue
  have hword : (dropZeroOctet (dropSignOctets integer.content)).foldl
      (fun (word : UInt64) octet => word <<< 8 ||| octet.toUInt64) 0 =
        UInt64.ofNat (dropSignOctets integer.content).bigEndian := by
    have hfold := foldl_shiftUnsigned (dropZeroOctet (dropSignOctets integer.content)) 0
    rwa [Nat.zero_mul, Nat.zero_add, bigEndian_dropZeroOctet] at hfold
  have hfits : (dropZeroOctet (dropSignOctets integer.content)).length ≤ 8 ↔
      integer.value < 2 ^ 64 := by
    rw [hlength, hplain]
    norm_num
  simp only [toUInt64?, isNegative_iff, dropZeroOctet_eq_nil_iff, dropSignOctets_eq_nil_iff, hword]
  by_cases hright : integer.content ≠ [] ∧ 0 ≤ integer.value ∧ integer.value < 2 ^ 64
  · have hnot : ¬ (integer.value < 0 ∨ integer.content = [] ∨
        8 < (dropZeroOctet (dropSignOctets integer.content)).length) := by
      rintro (hless | hnil | hlong)
      · exact hneg hless
      · exact hright.1 hnil
      · exact absurd (hfits.2 hright.2.2) (by omega)
    have hsmall : (dropSignOctets integer.content).bigEndian % 2 ^ 64 =
        (dropSignOctets integer.content).bigEndian := by
      have hlt := hright.2.2
      apply Nat.mod_eq_of_lt
      omega
    rw [if_neg hnot, if_pos hright, Option.map_some, UInt64.toNat_ofNat', hsmall, ← hplain]
  · have hnone : integer.value < 0 ∨ integer.content = [] ∨
        8 < (dropZeroOctet (dropSignOctets integer.content)).length := by
      by_contra hnot
      rw [not_or, not_or] at hnot
      exact hright ⟨hnot.2.1, hnonneg, hfits.1 (by omega)⟩
    rw [if_pos hnone, if_neg hright]
    rfl

/-! ### Exactness -/

/-- An integer with so many more octets in front that only repeat its sign. -/
def padded (count : Nat) (integer : Integer) : Integer :=
  ⟨List.replicate count (if integer.isNegative then 0xFF else 0x00) ++ integer.content⟩

/-- Such octets do not change the number. -/
theorem value_padded (h : integer.content ≠ []) (count : Nat) :
    (integer.padded count).value = integer.value := by
  rcases integer with ⟨_ | ⟨first, rest⟩⟩
  · exact absurd rfl h
  · apply twosComplement_replicate
    by_cases hfirst : first < 0x80
    · left
      simp [isNegative, hfirst]
    · right
      simp [isNegative, UInt8.not_lt.1 hfirst]

/-- The conversions of an integer are exact. -/
structure Exact (integer : Integer) : Prop where
  /-- A signed word results if there are octets and the number fits it, and it is the number. -/
  signed : integer.toInt64?.map Int64.toInt =
    if integer.content ≠ [] ∧ -2 ^ 63 ≤ integer.value ∧ integer.value < 2 ^ 63 then
      some integer.value
    else none
  /-- So does an unsigned word. -/
  unsigned : integer.toUInt64?.map (fun word => (word.toNat : Int)) =
    if integer.content ≠ [] ∧ 0 ≤ integer.value ∧ integer.value < 2 ^ 64 then
      some integer.value
    else none
  negative : integer.isNegative ↔ integer.content ≠ [] ∧ integer.value < 0
  /-- Any number of octets in front that only repeat the sign leave every result as it is. -/
  padding : integer.content ≠ [] → ∀ count,
    (integer.padded count).toInt64? = integer.toInt64? ∧
      (integer.padded count).toUInt64? = integer.toUInt64? ∧
      (integer.padded count).isNegative = integer.isNegative
  /-- Where both words result, they are the same number. -/
  agree : ∀ word word', integer.toInt64? = some word → integer.toUInt64? = some word' →
    word.toInt = word'.toNat

/-- Integers of any number of octets are converted exactly. -/
theorem conversions_exact (integer : Integer) : integer.Exact := by
  constructor
  · exact map_toInt64? integer
  · exact map_toUInt64? integer
  · rw [isNegative_iff]
    constructor
    · intro hneg
      refine ⟨?_, hneg⟩
      intro hnil
      rw [value, hnil] at hneg
      exact absurd hneg (by decide)
    · intro hneg
      exact hneg.2
  · intro hcontent count
    have hvalue := value_padded hcontent count
    have hpadded : (integer.padded count).content ≠ [] := by
      intro hnil
      exact hcontent (List.append_eq_nil_iff.1 hnil).2
    refine ⟨?_, ?_, ?_⟩
    · apply Option.map_injective (fun _ _ h => Int64.toInt_inj.1 h)
      rw [map_toInt64?, map_toInt64?, hvalue]
      simp only [ne_eq, hcontent, hpadded, not_false_eq_true]
    · apply Option.map_injective
        (fun (_ _ : UInt64) h => UInt64.toNat_inj.1 (Int.ofNat_inj.1 h))
      rw [map_toUInt64?, map_toUInt64?, hvalue]
      simp only [ne_eq, hcontent, hpadded, not_false_eq_true]
    · rw [Bool.eq_iff_iff, isNegative_iff, isNegative_iff, hvalue]
  · intro word word' hword hword'
    have hsigned := map_toInt64? integer
    have hunsigned := map_toUInt64? integer
    rw [hword, Option.map_some] at hsigned
    rw [hword', Option.map_some] at hunsigned
    split at hsigned
    · split at hunsigned
      · rw [Option.some.inj hsigned, Option.some.inj hunsigned]
      · cases hunsigned
    · cases hsigned

/-- Eleven octets of which the first three only make room for the sign bit. -/
example : (Integer.mk [0, 0, 0, 0x80, 0, 0, 0, 0, 0, 0, 1]).toInt64? = none ∧
    (Integer.mk [0, 0, 0, 0x80, 0, 0, 0, 0, 0, 0, 1]).toUInt64? = some 0x8000000000000001 := by
  decide

end Integer
end Ber
