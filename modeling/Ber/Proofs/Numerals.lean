import Ber.Octets
import Mathlib.Algebra.Order.Ring.Nat
import Mathlib.Tactic.Ring

/-!
# Ber.Proofs.Numerals — numbers in base 256

What octets in a row write (`Octets.bigEndian`), digit by digit from either end. So many octets
write the numbers below a power of 256, and each of these in one way (`Octets.writtenBigEndian`),
with zero octets in front where the number needs fewer.
-/

namespace Ber.Octets

/-- Octets appended to a number shift it by as many digits. -/
theorem foldl_bigEndian (octets : Octets) (number : Nat) :
    octets.foldl (fun number octet => number * 256 + octet.toNat) number =
      number * 256 ^ octets.length + octets.bigEndian := by
  induction octets generalizing number with
  | nil => simp [bigEndian]
  | cons octet octets ih =>
    have hfront : bigEndian (octet :: octets) =
        octets.foldl (fun number octet => number * 256 + octet.toNat) octet.toNat := by
      simp only [bigEndian, List.foldl_cons, Nat.zero_mul, Nat.zero_add]
    rw [List.foldl_cons, hfront, ih, ih octet.toNat, List.length_cons, Nat.pow_succ]
    ring

/-- The first octet is the highest digit. -/
theorem bigEndian_cons (octet : UInt8) (octets : Octets) :
    bigEndian (octet :: octets) = octet.toNat * 256 ^ octets.length + octets.bigEndian := by
  have hfront := foldl_bigEndian octets octet.toNat
  simpa [bigEndian] using hfront

/-- The last octet is the lowest digit. -/
theorem bigEndian_concat (octets : Octets) (last : UInt8) :
    bigEndian (octets ++ [last]) = bigEndian octets * 256 + last.toNat := by
  simp only [bigEndian, List.foldl_append, List.foldl_cons, List.foldl_nil]

/-- So many digits write less than the next power. -/
theorem bigEndian_lt (octets : Octets) : octets.bigEndian < 256 ^ octets.length := by
  induction octets with
  | nil => decide
  | cons octet octets ih =>
    have hoctet : octet.toNat + 1 ≤ 256 := octet.toNat_lt
    have hdigit : (octet.toNat + 1) * 256 ^ octets.length ≤ 256 * 256 ^ octets.length :=
      Nat.mul_le_mul_right _ hoctet
    rw [Nat.add_mul, Nat.one_mul] at hdigit
    rw [bigEndian_cons, List.length_cons, Nat.pow_succ']
    omega

/-- A number whose first digit is not zero is not below the power of that digit. -/
theorem le_bigEndian_cons {octet : UInt8} (octets : Octets) (h : octet ≠ 0) :
    256 ^ octets.length ≤ bigEndian (octet :: octets) := by
  have hpos : 1 ≤ octet.toNat := by
    have hne : octet.toNat ≠ 0 := fun hzero => h (UInt8.toNat_inj.1 hzero)
    omega
  have hdigit : 1 * 256 ^ octets.length ≤ octet.toNat * 256 ^ octets.length :=
    Nat.mul_le_mul_right _ hpos
  rw [bigEndian_cons]
  omega

/-- A number as it is written in so many octets, with zero octets in front where it needs fewer. -/
def writtenBigEndian : (count : Nat) → (number : Nat) → Octets
  | 0, _ => []
  | count + 1, number => writtenBigEndian count (number / 256) ++ [UInt8.ofNat number]

@[simp] theorem length_writtenBigEndian (count number : Nat) :
    (writtenBigEndian count number).length = count := by
  induction count generalizing number with
  | zero => rfl
  | succ count ih => simp [writtenBigEndian, ih]

/-- The octets write the number, if there are enough of them. -/
theorem bigEndian_writtenBigEndian {count number : Nat} (h : number < 256 ^ count) :
    bigEndian (writtenBigEndian count number) = number := by
  induction count generalizing number with
  | zero =>
    have hzero : number = 0 := by simpa using h
    rw [hzero]
    rfl
  | succ count ih =>
    have hless : number / 256 < 256 ^ count := by
      rw [Nat.pow_succ] at h
      exact Nat.div_lt_of_lt_mul (by omega)
    have hlast : (UInt8.ofNat number).toNat = number % 256 := UInt8.toNat_ofNat'
    rw [writtenBigEndian, bigEndian_concat, ih hless, hlast]
    omega

end Ber.Octets
