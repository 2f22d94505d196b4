import Mathlib.Data.Nat.Bitwise
import Ber.Proofs.Exchange
import Ber.Proofs.Header

/-!
# Ber.Proofs.Naming — which octets name a value

A source is a stream of octets (`Source.Streams`) if it hands them out one after the other and then has
no more, whatever regions are open on it. Behind a first octet, an identifier is read from such a stream
in one way only:

1. `Octets.number?` are the octets of a tag number at the front of a stream: up to the first one whose
   high bit is clear.
2. A long tag number is read, or runs out of octets, or is too large, and the stream tells which
   (`Identifier.longNumber_of_streams`).
3. `Identifier.exact_of_streams` puts it together: what is read, what is kept, and how many octets are
   taken, also where reading fails.
-/

namespace Ber

/-! ## Numbers in base 128 -/

namespace Octets

/-- The octets of a number at the front of a stream: up to and including the first one whose high bit is
clear, if there is one. -/
def number? : Octets → Option Octets
  | [] => none
  | octet :: octets => if octet < 0x80 then some [octet] else (number? octets).map (octet :: ·)

/-- The groups of seven bits of a number but the last, so many of them, each with the high bit set. -/
def leadingGroups : (count : Nat) → (number : Nat) → Octets
  | 0, _ => []
  | count + 1, number =>
    leadingGroups count (number / 128) ++ [UInt8.ofNat (0x80 + number % 128)]

/-- A number as it is written in base 128, in one octet behind so many others. Where these are more than
the number needs, it is padded in front. -/
def writtenNumber (count number : Nat) : Octets :=
  leadingGroups count (number / 128) ++ [UInt8.ofNat (number % 128)]

variable {octets n : Octets}

theorem base128_append (octets : Octets) (last : UInt8) :
    base128 (octets ++ [last]) = base128 octets * 128 + last.toNat % 128 := by
  simp only [base128, List.foldl_append, List.foldl_cons, List.foldl_nil]

@[simp] theorem length_leadingGroups (count number : Nat) :
    (leadingGroups count number).length = count := by
  induction count generalizing number with
  | zero => rfl
  | succ count ih => simp [leadingGroups, ih]

/-- Each group but the last has its high bit set. -/
theorem high_of_mem_leadingGroups {count number : Nat} {octet : UInt8}
    (h : octet ∈ leadingGroups count number) : ¬ octet < 0x80 := by
  induction count generalizing number with
  | zero => cases h
  | succ count ih =>
    rcases List.mem_append.1 h with h | h
    · exact ih h
    · have hoctet : octet = UInt8.ofNat (0x80 + number % 128) := List.mem_singleton.1 h
      have hnat : octet.toNat = 0x80 + number % 128 := by
        rw [hoctet, UInt8.toNat_ofNat']
        omega
      rw [UInt8.lt_iff_toNat_lt, hnat]
      simp only [UInt8.reduceToNat]
      omega

/-- The groups write the number, if there are enough of them. -/
theorem base128_leadingGroups {count number : Nat} (h : number < 128 ^ count) :
    base128 (leadingGroups count number) = number := by
  induction count generalizing number with
  | zero =>
    have hzero : number = 0 := by simpa using h
    rw [hzero]
    rfl
  | succ count ih =>
    have hless : number / 128 < 128 ^ count := by
      rw [Nat.pow_succ] at h
      exact Nat.div_lt_of_lt_mul (by omega)
    have hlast : (UInt8.ofNat (0x80 + number % 128)).toNat % 128 = number % 128 := by
      rw [UInt8.toNat_ofNat']
      omega
    rw [leadingGroups, base128_append, ih hless, hlast]
    omega

theorem base128_writtenNumber {count number : Nat} (h : number < 128 ^ (count + 1)) :
    base128 (writtenNumber count number) = number := by
  have hless : number / 128 < 128 ^ count := by
    rw [Nat.pow_succ] at h
    exact Nat.div_lt_of_lt_mul (by omega)
  have hlast : (UInt8.ofNat (number % 128)).toNat % 128 = number % 128 := by
    rw [UInt8.toNat_ofNat']
    omega
  rw [writtenNumber, base128_append, base128_leadingGroups hless, hlast]
  omega

/-- What a number is made up of is found again, whatever follows. -/
theorem number?_append {leading rest : Octets} {last : UInt8}
    (hleading : ∀ octet ∈ leading, ¬ octet < 0x80) (hlast : last < 0x80) :
    number? (leading ++ [last] ++ rest) = some (leading ++ [last]) := by
  induction leading with
  | nil => simp [number?, hlast]
  | cons octet leading ih =>
    obtain ⟨hoctet, hrest⟩ := List.forall_mem_cons.1 hleading
    simp only [List.append_assoc, List.cons_append, number?, hoctet, if_false] at ih ⊢
    rw [ih hrest]
    rfl

theorem number?_writtenNumber (count number : Nat) (rest : Octets) :
    number? (writtenNumber count number ++ rest) = some (writtenNumber count number) := by
  have hlast : UInt8.ofNat (number % 128) < 0x80 := by
    rw [UInt8.lt_iff_toNat_lt, UInt8.toNat_ofNat']
    simp only [UInt8.reduceToNat]
    omega
  exact number?_append (fun octet => high_of_mem_leadingGroups) hlast

/-- The octets of a number are its last one behind others whose high bit is set. -/
theorem eq_of_number? (h : octets.number? = some n) :
    ∃ leading last rest, n = leading ++ [last] ∧ octets = n ++ rest ∧
      (∀ octet ∈ leading, 0x80 ≤ octet) ∧ last < 0x80 := by
  induction octets generalizing n with
  | nil => cases h
  | cons octet octets ih =>
    unfold number? at h
    split at h
    · rename_i hlast
      cases h
      exact ⟨[], octet, octets, rfl, rfl, fun o ho => absurd ho List.not_mem_nil, hlast⟩
    · rename_i hhigh
      obtain ⟨n', hn', rfl⟩ := Option.map_eq_some_iff.1 h
      obtain ⟨leading, last, rest, rfl, hoctets, hleading, hlast⟩ := ih hn'
      refine ⟨octet :: leading, last, rest, rfl, ?_, ?_, hlast⟩
      · rw [hoctets]
        rfl
      · exact List.forall_mem_cons.2 ⟨UInt8.not_lt.1 hhigh, hleading⟩

end Octets

/-! ## Streams -/

namespace Source

/-- A source hands out octets one after the other, and then no more: reading the next one that has to be
there is cut off, at a last source. -/
def Streams (octets : Octets) (s last : Source) : Prop :=
  ∃ behind failure, supply.Yields octets s behind ∧ octet behind = .error failure last ∧
    failure.cause = .truncated

end Source

/-! ## Long tag numbers -/

namespace Identifier

open Octets Source

variable {s t last : Source} {failure : Failure} {stream n : Octets}

/-- What may become of the octets of a long tag number, of which so many are allowed, behind the number
that those before them write. -/
inductive LongNumber (room number : Nat) (stream : Octets) (s last : Source) : Prop where
  /-- The number ends, and fits. -/
  | read {n : Octets} {t : Source} (hnumber : stream.number? = some n) (hroom : n.length ≤ room)
    (hfits : n.foldl (fun number octet => number * 128 + octet.toNat % 128) number < 0x100000000)
    (hyields : supply.Yields n s t)
    (hread : longNumber room number s =
      .ok (n, n.foldl (fun number octet => number * 128 + octet.toNat % 128) number) t)
  /-- There are no more octets before it ends. -/
  | cutOff {failure : Failure} (hnumber : stream.number? = none) (hroom : stream.length < room)
    (hcause : failure.cause = .truncated) (hread : longNumber room number s = .error failure last)
  /-- It has too many octets, or too many bits. -/
  | refused {t : Source} (hroom : room ≤ stream.length)
    (hnumber : ∀ n, stream.number? = some n → room < n.length ∨
      0x100000000 ≤ n.foldl (fun number octet => number * 128 + octet.toNat % 128) number)
    (hyields : supply.Yields (stream.take room) s t)
    (hread : longNumber room number s = .error ⟨.malformedTag, t.position⟩ t)

/-- An octet behind which a number goes on comes before those that follow. -/
theorem LongNumber.cons {room number : Nat} {octet : UInt8} {m : Source}
    (hnumber : sevenBits? number octet = some (number * 128 + octet.toNat % 128))
    (hhigh : ¬ octet < 0x80) (hoctet : Source.octet s = .ok octet m)
    (h : LongNumber room (number * 128 + octet.toNat % 128) stream m last) :
    LongNumber (room + 1) number (octet :: stream) s last := by
  have htake : supply.take s = .ok (some octet) m := octet_eq_ok.1 hoctet
  -- the number so far is handed on, and what is read then stands behind the octet
  have hstep : longNumber (room + 1) number s =
      (longNumber room (number * 128 + octet.toNat % 128) >>= fun read =>
        pure (octet :: read.1, read.2) : Taking (Octets × Nat)) m := by
    rw [longNumber]
    simp only [Bind.bind, EStateM.bind, hoctet, hnumber, if_neg hhigh]
  cases h with
  | @read n t hn hroom hfits hyields hread =>
    refine .read (n := octet :: n) ?_ (Nat.succ_le_succ hroom) hfits ⟨m, htake, hyields⟩ ?_
    · rw [number?, if_neg hhigh, hn]
      rfl
    · rw [hstep]
      simp only [Bind.bind, EStateM.bind, hread]
      rfl
  | cutOff hn hroom hcause hread =>
    refine .cutOff ?_ (Nat.succ_lt_succ hroom) hcause ?_
    · rw [number?, if_neg hhigh, hn]
      rfl
    · rw [hstep]
      simp only [Bind.bind, EStateM.bind, hread]
  | refused hroom hn hyields hread =>
    refine .refused (Nat.succ_le_succ hroom) ?_ ⟨m, htake, hyields⟩ ?_
    · intro n hsome
      rw [number?, if_neg hhigh] at hsome
      obtain ⟨n', hn', rfl⟩ := Option.map_eq_some_iff.1 hsome
      rcases hn n' hn' with hlong | hlarge
      · exact .inl (Nat.succ_lt_succ hlong)
      · exact .inr hlarge
    · rw [hstep]
      simp only [Bind.bind, EStateM.bind, hread]

/-- A long tag number is read, cut off or refused. Of five octets, only the last can make it too large. -/
theorem longNumber_of_streams {room number : Nat} (h : Streams stream s last) (hroom : room ≤ 5)
    (hnumber : number < 128 ^ (5 - room)) : LongNumber room number stream s last := by
  -- along the octets that are allowed; with each of them the number gets seven bits longer
  induction room generalizing number s stream with
  | zero =>
    refine .refused (Nat.zero_le _) ?_ rfl rfl
    intro n hn
    obtain ⟨leading, octet, rest, rfl, -⟩ := eq_of_number? hn
    exact .inl (by simp)
  | succ room ih =>
    obtain ⟨behind, failure, hyields, hend, hcause⟩ := h
    cases stream with
    | nil =>
      cases hyields
      refine .cutOff rfl (Nat.succ_pos room) hcause ?_
      rw [longNumber]
      simp only [Bind.bind, EStateM.bind, hend]
    | cons octet stream =>
      obtain ⟨m, htake, hrest⟩ := hyields
      have hoctet : Source.octet s = .ok octet m := octet_eq_ok.2 htake
      by_cases hbits : number * 128 < 0x100000000
      · have hseven : sevenBits? number octet = some (number * 128 + octet.toNat % 128) :=
          if_pos hbits
        have hfits : number * 128 + octet.toNat % 128 < 0x100000000 :=
          (sevenBits?_eq_some_iff.1 hseven).2
        by_cases hlast : octet < 0x80
        · refine .read (n := [octet]) ?_ (Nat.succ_pos room) hfits ⟨m, htake, rfl⟩ ?_
          · rw [number?, if_pos hlast]
          · rw [longNumber]
            simp only [Bind.bind, EStateM.bind, hoctet, hseven, if_pos hlast]
            rfl
        · have hnext : number * 128 + octet.toNat % 128 < 128 ^ (5 - room) := by
            have hpower : 128 ^ (5 - room) = 128 ^ (5 - (room + 1)) * 128 := by
              rw [show 5 - room = 5 - (room + 1) + 1 by omega, Nat.pow_succ]
            omega
          exact .cons hseven hlast hoctet
            (ih ⟨behind, failure, hrest, hend, hcause⟩ (by omega) hnext)
      · -- the number has more than 25 bits, so this is the fifth octet
        have hzero : room = 0 := by
          by_cases hzero : room = 0
          · exact hzero
          · have hpower : 128 ^ (5 - (room + 1)) ≤ 128 ^ 3 :=
              Nat.pow_le_pow_right (by decide) (by omega)
            omega
        subst hzero
        have hseven : sevenBits? number octet = none := if_neg hbits
        refine .refused (Nat.succ_le_succ (Nat.zero_le _)) ?_ ⟨m, htake, rfl⟩ ?_
        · intro n hn
          obtain ⟨leading, final, rest, rfl, hsame, -⟩ := eq_of_number? hn
          right
          -- the first octet of the number already makes it too large
          cases leading with
          | nil =>
            obtain ⟨rfl, -⟩ := List.cons.inj hsame
            simp only [List.nil_append, List.foldl_cons, List.foldl_nil]
            omega
          | cons head leading =>
            have hgrows := le_foldl_base128 (leading ++ [final]) (number * 128 + head.toNat % 128)
            simp only [List.cons_append, List.foldl_cons]
            omega
        · rw [longNumber]
          simp only [Bind.bind, EStateM.bind, hoctet, hseven]
          rfl

/-! ## Identifiers -/

/-- What may become of an identifier whose tag number does not stand in its first octet. -/
inductive LongForm (first : UInt8) (stream : Octets) (s last : Source) : Prop where
  /-- The number ends within five octets, and fits. -/
  | read {n : Octets} {t : Source} (hnumber : stream.number? = some n) (hroom : n.length ≤ 5)
    (hfits : n.base128 < 0x100000000) (hyields : supply.Yields n s t)
    (hread : after first s = .ok ⟨first, n, UInt32.ofNat n.base128⟩ t)
  /-- There are no more octets before it ends. -/
  | cutOff {failure : Failure} (hnumber : stream.number? = none) (hroom : stream.length < 5)
    (hcause : failure.cause = .truncated) (hread : after first s = .error failure last)
  /-- It has too many octets, or too many bits. -/
  | refused {t : Source} (hroom : 5 ≤ stream.length)
    (hnumber : ∀ n, stream.number? = some n → 5 < n.length ∨ 0x100000000 ≤ n.base128)
    (hyields : supply.Yields (stream.take 5) s t)
    (hread : after first s = .error ⟨.malformedTag, t.position⟩ t)

/-- An identifier is read, cut off or refused as its long tag number is. -/
theorem longForm_of_streams {first : UInt8} (hhigh : ¬ first &&& 0x1f < 0x1f)
    (h : Streams stream s last) : LongForm first stream s last := by
  have hafter : after first s =
      (longNumber 5 0 >>= fun read =>
        pure ⟨first, read.1, UInt32.ofNat read.2⟩ : Taking Identifier) s := by
    rw [after, if_neg hhigh]
    rfl
  have hcases : LongNumber 5 0 stream s last :=
    longNumber_of_streams h (Nat.le_refl 5) (by decide)
  cases hcases with
  | read hnumber hroom hfits hyields hread =>
    refine .read hnumber hroom hfits hyields ?_
    rw [hafter]
    simp only [Bind.bind, EStateM.bind, hread]
    rfl
  | cutOff hnumber hroom hcause hread =>
    refine .cutOff hnumber hroom hcause ?_
    rw [hafter]
    simp only [Bind.bind, EStateM.bind, hread]
  | refused hroom hnumber hyields hread =>
    refine .refused hroom hnumber hyields ?_
    rw [hafter]
    simp only [Bind.bind, EStateM.bind, hread]

/-- A tag number that stands in the first octet is read from it. -/
theorem after_of_low {first : UInt8} (hlow : first &&& 0x1f < 0x1f) (s : Source) :
    after first s = .ok ⟨first, [], (first &&& 0x1f).toUInt32⟩ s := by
  rw [after, if_pos hlow]
  rfl

/-- An identifier that is read keeps the octets that it is read from, and these write it. -/
theorem written_of_read {first : UInt8} {identifier : Identifier} (h : Streams stream s last)
    (hread : after first s = .ok identifier t) :
    identifier.Written ∧ identifier.first = first ∧ supply.Yields identifier.following s t := by
  by_cases hlow : first &&& 0x1f < 0x1f
  · cases hread.symm.trans (after_of_low hlow s)
    exact ⟨.short hlow, rfl, rfl⟩
  · cases longForm_of_streams hlow h with
    | read hnumber hroom hfits hyields hok =>
      obtain ⟨leading, octet, rest, rfl, -, hleading, hoctet⟩ := eq_of_number? hnumber
      cases hread.symm.trans hok
      have hcount : leading.length < 5 := by
        rw [List.length_append] at hroom
        exact hroom
      exact ⟨.long hlow hleading hoctet hcount hfits, rfl, hyields⟩
    | cutOff hnumber hroom hcause herror => cases hread.symm.trans herror
    | refused hroom hnumber hyields herror => cases hread.symm.trans herror

/-- Identifiers are the same if the octets are that write them. -/
theorem Written.eq_of_octets {identifier other : Identifier} (h : identifier.Written)
    (hother : other.Written) (hoctets : identifier.octets = other.octets) : identifier = other := by
  obtain ⟨hfirst, hfollowing⟩ := List.cons.inj hoctets
  cases h with
  | short hlow =>
    cases hother with
    | short hlow' =>
      cases hfirst
      rfl
    | long hlow' =>
      cases hfirst
      exact absurd hlow hlow'
  | long hlow hleading hlast hcount hnumber =>
    cases hother with
    | short hlow' =>
      cases hfirst
      exact absurd hlow' hlow
    | long hlow' hleading' hlast' hcount' hnumber' =>
      simp only at hfirst hfollowing
      simp only [hfirst, hfollowing]

/-- An identifier is read again from the octets that write it, whatever follows. -/
theorem Written.take?_octets {identifier : Identifier} (h : identifier.Written) (rest : Octets)
    (position : Nat) :
    take? ⟨[], ⟨(identifier.octets ++ rest).map .octet, position⟩⟩ =
      .ok (some identifier) ⟨[], ⟨rest.map .octet, position + identifier.octets.length⟩⟩ := by
  have hpassing : ∀ {reader : Reader}, Source.Passing ⟨[], reader⟩ :=
    fun region hmem => absurd hmem List.not_mem_nil
  have hfirst : octet? ⟨[], ⟨(identifier.octets ++ rest).map .octet, position⟩⟩ =
      .ok (some identifier.first)
        ⟨[], ⟨(identifier.following ++ rest).map .octet, position + 1⟩⟩ := rfl
  have hdelivers := Reader.delivers_ofData identifier.following rest (position + 1)
  have hafter := (after_eq_ok_iff hpassing).2 ⟨h, rfl,
    (⟨hdelivers, rfl, fun region hmem => absurd hmem List.not_mem_nil⟩ :
      Source.Delivers identifier.following
        ⟨[], ⟨(identifier.following ++ rest).map .octet, position + 1⟩⟩
        ⟨[], ⟨rest.map .octet, position + 1 + identifier.following.length⟩⟩)⟩
  have hcount : position + identifier.octets.length =
      position + 1 + identifier.following.length := by
    simp only [octets, List.length_cons]
    omega
  rw [take?, hcount]
  simp only [Bind.bind, EStateM.bind, hfirst, hafter]
  rfl

end Identifier

/-- The top two bits of a first identifier octet that write a class, as a number. -/
def TagClass.bits : TagClass → Nat
  | universal => 0
  | application => 1
  | context => 2
  | privateUse => 3

theorem TagClass.bits_ofFirst (first : UInt8) : (ofFirst first).bits = first.toNat / 64 := by
  have hlt := first.toNat_lt
  -- two bits, so four cases
  have hcases : first.toNat / 64 = 0 ∨ first.toNat / 64 = 1 ∨ first.toNat / 64 = 2 ∨
      first.toNat / 64 = 3 := by omega
  unfold ofFirst
  rcases hcases with hbits | hbits | hbits | hbits <;> rw [hbits] <;> rfl

theorem Identifier.isConstructed_iff (identifier : Identifier) :
    identifier.isConstructed ↔ identifier.first.toNat.testBit 5 := by
  have hbit : (identifier.first &&& 0x20).toNat = (identifier.first.toNat.testBit 5).toNat * 32 := by
    rw [UInt8.toNat_and]
    exact Nat.and_two_pow identifier.first.toNat 5
  unfold isConstructed
  rw [bne_iff_ne, ne_eq, ← UInt8.toNat_inj, hbit]
  cases identifier.first.toNat.testBit 5 <;> simp

namespace Identifier

open Octets Source

/-- What is kept in an identifier that was read behind a first octet. -/
structure Keeps (first : UInt8) (s : Source) (identifier : Identifier) (t : Source) : Prop where
  /-- The class is written in the top two bits of the first octet. -/
  tagClass : identifier.tagClass.bits = first.toNat / 64
  /-- The constructed bit is the one above the low five. -/
  constructed : identifier.isConstructed ↔ first.toNat.testBit 5
  /-- The octets are the first one and those that were taken. -/
  octets : ∃ taken, supply.Yields taken s t ∧ identifier.octets = first :: taken
  /-- They are read as the same identifier again, whatever follows. -/
  again : ∀ rest position, take? ⟨[], ⟨(identifier.octets ++ rest).map .octet, position⟩⟩ =
    .ok (some identifier) ⟨[], ⟨rest.map .octet, position + identifier.octets.length⟩⟩
  /-- No other identifier that may be read anywhere has these octets. -/
  unique : ∀ {first' : UInt8} {stream : Octets} {s' last t' : Source} {other : Identifier},
    Streams stream s' last → after first' s' = .ok other t' →
    (identifier = other ↔ identifier.octets = other.octets)

/-- Behind a first octet, an identifier is read exactly from a stream. -/
structure Exact (first : UInt8) (stream : Octets) (s : Source) : Prop where
  /-- A number below 31 stands in the low five bits of the first octet, and nothing more is taken. -/
  low : first &&& 0x1f < 0x1f →
    after first s = .ok ⟨first, [], (first &&& 0x1f).toUInt32⟩ s
  /-- Any other is read if it ends within five octets and has at most 32 bits, and no more octets are
  taken than that. -/
  long : ¬ first &&& 0x1f < 0x1f → ∀ identifier t,
    after first s = .ok identifier t ↔
      ∃ n, stream.number? = some n ∧ n.length ≤ 5 ∧ n.base128 < 0x100000000 ∧
        identifier = ⟨first, n, UInt32.ofNat n.base128⟩ ∧ supply.Yields n s t
  /-- It is cut off if there are fewer than five octets and none of them ends it. -/
  cutOff : ¬ first &&& 0x1f < 0x1f →
    ((∃ failure t, after first s = .error failure t ∧ failure.cause = .truncated) ↔
      stream.length < 5 ∧ stream.number? = none)
  /-- In all other cases it is refused behind five octets. -/
  refused : ¬ first &&& 0x1f < 0x1f → (∀ identifier t, after first s ≠ .ok identifier t) →
    (∀ failure t, after first s = .error failure t → failure.cause ≠ .truncated) →
    ∃ t, 5 ≤ stream.length ∧ supply.Yields (stream.take 5) s t ∧
      after first s = .error ⟨.malformedTag, t.position⟩ t
  /-- Every number of 32 bits is read as it was written, in as many of the five octets as may be. -/
  written : ¬ first &&& 0x1f < 0x1f → ∀ (number : UInt32) (count : Nat) (rest : Octets), count < 5 →
    number.toNat < 128 ^ (count + 1) → stream = writtenNumber count number.toNat ++ rest →
    ∃ t, supply.Yields (writtenNumber count number.toNat) s t ∧
      after first s = .ok ⟨first, writtenNumber count number.toNat, number⟩ t
  kept : ∀ identifier t, after first s = .ok identifier t → Keeps first s identifier t

/-- An identifier that is read keeps what it should. -/
theorem keeps_of_read {first : UInt8} {stream : Octets} {s t last : Source} {identifier : Identifier}
    (h : Streams stream s last) (hread : after first s = .ok identifier t) :
    Keeps first s identifier t := by
  obtain ⟨hwritten, rfl, hyields⟩ := written_of_read h hread
  constructor
  · exact TagClass.bits_ofFirst identifier.first
  · exact identifier.isConstructed_iff
  · exact ⟨identifier.following, hyields, rfl⟩
  · intro rest position
    exact hwritten.take?_octets rest position
  · intro first' stream' s' last' t' other hstream' hother
    constructor
    · intro hsame
      rw [hsame]
    · intro hoctets
      exact hwritten.eq_of_octets (written_of_read hstream' hother).1 hoctets

/-- A long number that fits is read. -/
theorem read_of_number? {first : UInt8} {stream n : Octets} {s last : Source}
    (hhigh : ¬ first &&& 0x1f < 0x1f) (h : Streams stream s last) (hn : stream.number? = some n)
    (hroom : n.length ≤ 5) (hfits : n.base128 < 0x100000000) :
    ∃ t, supply.Yields n s t ∧ after first s = .ok ⟨first, n, UInt32.ofNat n.base128⟩ t := by
  cases longForm_of_streams hhigh h with
  | @read n' t hn' _ _ hyields hread =>
    cases hn.symm.trans hn'
    exact ⟨t, hyields, hread⟩
  | cutOff hnone => cases hn.symm.trans hnone
  | refused _ hnumber =>
    rcases hnumber n hn with hlonger | hlarger
    · omega
    · omega

/-- From every stream, whatever regions are open on it, identifiers are read exactly. -/
theorem exact_of_streams {first : UInt8} {stream : Octets} {s last : Source}
    (h : Streams stream s last) : Exact first stream s := by
  constructor
  · intro hlow
    exact after_of_low hlow s
  · intro hhigh identifier t
    constructor
    · intro hok
      cases longForm_of_streams hhigh h with
      | read hn hroom hfits hyields hread =>
        cases hok.symm.trans hread
        exact ⟨_, hn, hroom, hfits, rfl, hyields⟩
      | cutOff _ _ _ hread => cases hok.symm.trans hread
      | refused _ _ _ hread => cases hok.symm.trans hread
    · intro hnumber
      obtain ⟨n, hn, hroom, hfits, rfl, hyields⟩ := hnumber
      obtain ⟨t', hyields', hread⟩ := read_of_number? hhigh h hn hroom hfits
      rw [hyields.unique hyields']
      exact hread
  · intro hhigh
    constructor
    · intro hcut
      obtain ⟨failure, t, herror, hcause⟩ := hcut
      cases longForm_of_streams hhigh h with
      | read _ _ _ _ hread => cases herror.symm.trans hread
      | cutOff hn hroom => exact ⟨hroom, hn⟩
      | refused _ _ _ hread =>
        cases herror.symm.trans hread
        cases hcause
    · intro hshort
      obtain ⟨hroom, hnone⟩ := hshort
      cases longForm_of_streams hhigh h with
      | read hn => cases hn.symm.trans hnone
      | cutOff _ _ hcause hread => exact ⟨_, last, hread, hcause⟩
      | refused hlength => omega
  · intro hhigh hnotRead hnotCut
    cases longForm_of_streams hhigh h with
    | read _ _ _ _ hread => exact absurd hread (hnotRead _ _)
    | cutOff _ _ hcause hread => exact absurd hcause (hnotCut _ _ hread)
    | refused hroom _ hyields hread => exact ⟨_, hroom, hyields, hread⟩
  · intro hhigh number count rest hcount hnumber hstream
    have hn : stream.number? = some (writtenNumber count number.toNat) := by
      rw [hstream, number?_writtenNumber]
    have hvalue : (writtenNumber count number.toNat).base128 = number.toNat :=
      base128_writtenNumber hnumber
    have hlength : (writtenNumber count number.toNat).length ≤ 5 := by
      simp only [writtenNumber, List.length_append, length_leadingGroups, List.length_singleton]
      omega
    have hlt := number.toNat_lt
    obtain ⟨t, hyields, hread⟩ := read_of_number? hhigh h hn hlength (by omega)
    rw [hvalue, UInt32.ofNat_toNat] at hread
    exact ⟨t, hyields, hread⟩
  · intro identifier t hread
    exact keeps_of_read h hread

/-- Five octets of a definite region behind a first one, of which three write the number. -/
theorem exact_of_streams_padded :
    Streams [0x80, 0x81, 0x05, 0x02, 0x01]
        ⟨[.definite 5], ⟨[0x80, 0x81, 0x05, 0x02, 0x01, 0x07].map .octet, 0⟩⟩
        ⟨[.definite 0], ⟨[0x07].map .octet, 5⟩⟩ ∧
      Exact 0xbf [0x80, 0x81, 0x05, 0x02, 0x01]
        ⟨[.definite 5], ⟨[0x80, 0x81, 0x05, 0x02, 0x01, 0x07].map .octet, 0⟩⟩ := by
  have hstreams : Streams [0x80, 0x81, 0x05, 0x02, 0x01]
      ⟨[.definite 5], ⟨[0x80, 0x81, 0x05, 0x02, 0x01, 0x07].map .octet, 0⟩⟩
      ⟨[.definite 0], ⟨[0x07].map .octet, 5⟩⟩ :=
    ⟨_, _, ⟨_, rfl, _, rfl, _, rfl, _, rfl, _, rfl, rfl⟩, rfl, rfl⟩
  exact ⟨hstreams, exact_of_streams hstreams⟩

end Identifier
end Ber
