import Ber.Proofs.Naming
import Ber.Proofs.Numerals

/-!
# Ber.Proofs.Measuring — which octets give a length

From a stream of octets, whatever regions are open on it and whatever the limit is, a length is read
in one way only:

1. Octets that a stream begins with are taken, and the rest is a stream again
   (`Source.Streams.behind`); of octets that are not there, none is lost (`Source.octets_cutOff`).
2. A definite length whose octets have been taken is judged by its size alone (`Length.outcome`).
3. `Length.take_short`, `Length.take_indefinite`, `Length.take_tooMany`, `Length.take_long` and
   `Length.take_cutOff` are the five things that a first octet may announce.
4. `Length.measured_of_streams` puts them together, and adds that every length of 31 bits is read
   alike however it is written (`Length.Spelling`).
-/

namespace Ber

/-! ## So many octets of a stream -/

namespace Source

variable {c e stream : Octets} {s t last : Source} {first : UInt8} {count : Nat}

/-- An octet that is yielded is there. -/
theorem octet_of_yields (h : supply.Yields [first] s t) : octet s = .ok first t := by
  obtain ⟨m, htake, rfl⟩ := h
  exact octet_eq_ok.2 htake

/-- Behind octets that a stream begins with, the rest is a stream. -/
theorem Streams.behind (h : Streams (c ++ e) s last) :
    ∃ t, supply.Yields c s t ∧ Streams e t last := by
  obtain ⟨behind, failure, hyields, hend, hcause⟩ := h
  obtain ⟨t, hc, he⟩ := Supply.yields_append.1 hyields
  exact ⟨t, hc, behind, failure, he, hend, hcause⟩

/-- Octets that are yielded are taken together. -/
theorem octets_of_yields (h : supply.Yields c s t) : octets c.length s = .ok c t := by
  have hafter : ∀ taken, octetsAfter taken c.length s = .ok (taken.reverse ++ c) t := by
    induction c generalizing s with
    | nil =>
      intro taken
      cases h
      rw [List.append_nil]
      rfl
    | cons octet c ih =>
      intro taken
      obtain ⟨m, htake, hrest⟩ := h
      have hoctet : Source.octet s = .ok octet m := octet_eq_ok.2 htake
      have hmore := ih hrest (octet :: taken)
      rw [List.reverse_cons, List.append_assoc] at hmore
      rw [List.length_cons, octetsAfter]
      simp only [Bind.bind, EStateM.bind, hoctet]
      exact hmore
  exact hafter []

/-- Where a stream has fewer octets, all of them are taken and then the next one is missing. -/
theorem octets_cutOff (h : Streams stream s last) (hcount : stream.length < count) :
    ∃ failure, octets count s = .error failure last ∧ failure.cause = .truncated := by
  have hafter : ∀ taken, ∃ failure, octetsAfter taken count s = .error failure last ∧
      failure.cause = .truncated := by
    obtain ⟨behind, failure, hyields, hend, hcause⟩ := h
    induction stream generalizing s count with
    | nil =>
      intro taken
      cases hyields
      obtain ⟨room, rfl⟩ := Nat.exists_eq_succ_of_ne_zero (Nat.ne_of_gt hcount)
      refine ⟨failure, ?_, hcause⟩
      rw [octetsAfter]
      simp only [Bind.bind, EStateM.bind, hend]
    | cons octet stream ih =>
      intro taken
      obtain ⟨m, htake, hrest⟩ := hyields
      have hoctet : Source.octet s = .ok octet m := octet_eq_ok.2 htake
      obtain ⟨room, rfl⟩ := Nat.exists_eq_succ_of_ne_zero (Nat.ne_zero_of_lt hcount)
      rw [octetsAfter]
      simp only [Bind.bind, EStateM.bind, hoctet]
      exact ih (Nat.lt_of_succ_lt_succ hcount) hrest (octet :: taken)
  exact hafter []

end Source

/-! ## Lengths -/

namespace Length

open Octets Source

variable {limit number : Nat} {c n stream : Octets} {s t last : Source} {first : UInt8}

/-- What becomes of a definite length behind the octets that write it. -/
def outcome (limit number : Nat) (behind : Source) : EStateM.Result Failure Source Length :=
  if 0x80000000 ≤ number then .error ⟨.malformedLength, behind.position⟩ behind
  else if number < limit then .ok (.definite number) behind
  else .error ⟨.outOfBounds, behind.position⟩ behind

/-- Of a length that fits 31 bits, only the limit decides. -/
theorem outcome_of_fits (hfits : number < 0x80000000) :
    outcome limit number t =
      if number < limit then .ok (.definite number) t else .error ⟨.outOfBounds, t.position⟩ t :=
  if_neg (Nat.not_le_of_lt hfits)

theorem below_eq_outcome (hfits : number < 0x80000000) :
    below limit number t = outcome limit number t := by
  rw [outcome_of_fits hfits]
  unfold below
  split <;> rfl

/-- Octets that are announced and follow are taken, and the number that they write is judged. -/
theorem long_of_yields (hcount : n.length ≤ 4) (h : supply.Yields n s t) :
    long n.length limit s = outcome limit n.bigEndian t := by
  have hroom : ¬ maxOctets < n.length := Nat.not_lt_of_le hcount
  have hoctets := octets_of_yields h
  rw [long_eq, if_neg hroom]
  simp only [Bind.bind, EStateM.bind, hoctets]
  by_cases hfits : n.bigEndian < 0x80000000
  · rw [if_pos hfits]
    exact below_eq_outcome hfits
  · rw [if_neg hfits]
    exact (if_pos (Nat.le_of_not_lt hfits)).symm

/-! ### What a first octet may announce -/

/-- A first octet below 128 is the length. -/
theorem take_short (hfirst : first < 0x80) (h : supply.Yields [first] s t) :
    take limit s = outcome limit first.toNat t := by
  have hfits : first.toNat < 0x80000000 := Nat.lt_trans first.toNat_lt (by decide)
  rw [take]
  simp only [Bind.bind, EStateM.bind, octet_of_yields h, if_pos hfirst]
  exact below_eq_outcome hfits

/-- The octet 128 stands for an indefinite length, below every limit. -/
theorem take_indefinite (h : supply.Yields [0x80] s t) : take limit s = .ok .indefinite t := by
  rw [take]
  simp only [Bind.bind, EStateM.bind, octet_of_yields h]
  rfl

/-- Any other first octet counts those that follow. -/
theorem take_high (hfirst : 0x80 < first) (h : supply.Yields [first] s t) :
    take limit s = long (first.toNat - 0x80) limit t := by
  have hshort : ¬ first < 0x80 := UInt8.not_lt.2 (UInt8.le_of_lt hfirst)
  have hmarked : first ≠ 0x80 := (UInt8.ne_of_lt hfirst).symm
  rw [take]
  simp only [Bind.bind, EStateM.bind, octet_of_yields h, if_neg hshort, if_neg hmarked]

/-- More than four octets are refused, and none of them is taken. -/
theorem take_tooMany (hfirst : 0x84 < first) (h : supply.Yields [first] s t) :
    take limit s = .error ⟨.malformedLength, t.position⟩ t := by
  have hmany : maxOctets < first.toNat - 0x80 := by
    have hnat := UInt8.lt_iff_toNat_lt.1 hfirst
    simp only [UInt8.reduceToNat] at hnat
    simp only [maxOctets]
    omega
  rw [take_high (UInt8.lt_trans (by decide) hfirst) h, long_eq, if_pos hmany]
  rfl

/-- One to four octets write a length, if they follow. -/
theorem take_long (hcount : first.toNat = 0x80 + n.length) (hne : n ≠ []) (hroom : n.length ≤ 4)
    (h : supply.Yields (first :: n) s t) : take limit s = outcome limit n.bigEndian t := by
  have hpos : 0 < n.length := List.length_pos_iff.2 hne
  have hfirst : 0x80 < first := by
    rw [UInt8.lt_iff_toNat_lt]
    simp only [UInt8.reduceToNat]
    omega
  obtain ⟨m, htake, hrest⟩ := h
  have hannounced : first.toNat - 0x80 = n.length := by omega
  rw [take_high hfirst ⟨m, htake, rfl⟩, hannounced]
  exact long_of_yields hroom hrest

/-- If fewer of them follow, the length is cut off. -/
theorem take_cutOff (hfirst : first ≤ 0x84) (h : Streams (first :: stream) s last)
    (hcount : stream.length < first.toNat - 0x80) :
    ∃ failure, take limit s = .error failure last ∧ failure.cause = .truncated := by
  have hhigh : 0x80 < first := by
    rw [UInt8.lt_iff_toNat_lt]
    simp only [UInt8.reduceToNat]
    omega
  have hroom : ¬ maxOctets < first.toNat - 0x80 := by
    have hnat := UInt8.le_iff_toNat_le.1 hfirst
    simp only [UInt8.reduceToNat] at hnat
    simp only [maxOctets]
    omega
  obtain ⟨t, hyields, hstream⟩ := Streams.behind (c := [first]) h
  obtain ⟨failure, herror, hcause⟩ := octets_cutOff hstream hcount
  refine ⟨failure, ?_, hcause⟩
  rw [take_high hhigh hyields, long_eq, if_neg hroom]
  simp only [Bind.bind, EStateM.bind, herror]

/-! ### How a length may be written -/

/-- The octets that write a number as a length: itself, or up to four digits in base 256 behind an
octet that counts them, with zero octets in front where it needs fewer. -/
inductive Spelling (number : Nat) : Octets → Prop where
  | short (hnumber : number < 0x80) : Spelling number [UInt8.ofNat number]
  | long {count : Nat} (hpos : 0 < count) (hroom : count ≤ 4) (hdigits : number < 256 ^ count) :
    Spelling number (UInt8.ofNat (0x80 + count) :: writtenBigEndian count number)

/-- A length is read as the number it was written for. -/
theorem Spelling.take_eq (hspelling : Spelling number c) (h : supply.Yields c s t) :
    take limit s = outcome limit number t := by
  cases hspelling with
  | short hnumber =>
    have hnat : (UInt8.ofNat number).toNat = number := by
      rw [UInt8.toNat_ofNat']
      omega
    have hfirst : UInt8.ofNat number < 0x80 := by
      rw [UInt8.lt_iff_toNat_lt, hnat]
      exact hnumber
    rw [take_short hfirst h, hnat]
  | @long count hpos hroom hdigits =>
    have hnat : (UInt8.ofNat (0x80 + count)).toNat = 0x80 + count := by
      rw [UInt8.toNat_ofNat']
      omega
    have hlength : (writtenBigEndian count number).length = count := length_writtenBigEndian ..
    have hne : writtenBigEndian count number ≠ [] := by
      rw [← List.length_pos_iff, hlength]
      exact hpos
    rw [take_long (by rw [hnat, hlength]) hne (by rw [hlength]; exact hroom) h,
      bigEndian_writtenBigEndian hdigits]

/-! ### Streams -/

/-- A length is read exactly from a stream that ends at a last source. -/
structure Measured (limit : Nat) (stream : Octets) (s last : Source) : Prop where
  /-- Without any octet, the length is cut off. -/
  empty : stream = [] →
    ∃ failure, take limit s = .error failure last ∧ failure.cause = .truncated
  /-- A first octet below 128 is the length itself. -/
  short : ∀ first rest, stream = first :: rest → first < 0x80 →
    ∃ t, supply.Yields [first] s t ∧ take limit s = outcome limit first.toNat t
  /-- The octet 128 stands for an indefinite length, whatever the limit is. -/
  indefinite : ∀ rest, stream = 0x80 :: rest →
    ∃ t, supply.Yields [0x80] s t ∧ take limit s = .ok .indefinite t
  /-- More than four octets are refused, and none of them is taken. -/
  tooMany : ∀ first rest, stream = first :: rest → 0x85 ≤ first →
    ∃ t, supply.Yields [first] s t ∧ take limit s = .error ⟨.malformedLength, t.position⟩ t
  /-- The length is cut off exactly if fewer of the octets follow than are announced. -/
  cutOff : ∀ first rest, stream = first :: rest → 0x81 ≤ first → first ≤ 0x84 →
    ((∃ failure t, take limit s = .error failure t ∧ failure.cause = .truncated) ↔
      rest.length < first.toNat - 0x80)
  /-- Otherwise these are taken, no others, and the number that they write is judged. -/
  long : ∀ (first : UInt8) (n rest : Octets), stream = first :: (n ++ rest) → 0x81 ≤ first →
    first ≤ 0x84 → n.length = first.toNat - 0x80 →
    ∃ t, supply.Yields (first :: n) s t ∧ take limit s = outcome limit n.bigEndian t
  /-- Every length of 31 bits is read alike, in whatever octets it is written. -/
  spelled : ∀ number c rest, number < 0x80000000 → Spelling number c → stream = c ++ rest →
    ∃ t, supply.Yields c s t ∧ take limit s =
      if number < limit then .ok (.definite number) t else .error ⟨.outOfBounds, t.position⟩ t

/-- What is judged is never cut off. -/
theorem outcome_ne_truncated {failure : Failure} {number : Nat}
    (h : outcome limit number s = .error failure t) : failure.cause ≠ .truncated := by
  unfold outcome at h
  split at h
  · cases h
    exact Cause.noConfusion
  split at h
  · cases h
  · cases h
    exact Cause.noConfusion

/-- From every stream, whatever regions are open on it, and below every limit, lengths are read
exactly. -/
theorem measured_of_streams (h : Streams stream s last) (limit : Nat) :
    Measured limit stream s last := by
  -- what the octets announce, as numbers
  have hannounces : ∀ {first : UInt8}, 0x81 ≤ first → first ≤ 0x84 →
      0x81 ≤ first.toNat ∧ first.toNat ≤ 0x84 := by
    intro first hge hle
    exact ⟨UInt8.le_iff_toNat_le.1 hge, UInt8.le_iff_toNat_le.1 hle⟩
  have hlong : ∀ (first : UInt8) (n rest : Octets), stream = first :: (n ++ rest) →
      0x81 ≤ first → first ≤ 0x84 → n.length = first.toNat - 0x80 →
      ∃ t, supply.Yields (first :: n) s t ∧ take limit s = outcome limit n.bigEndian t := by
    intro first n rest hstream hge hle hlength
    subst hstream
    obtain ⟨hlow, hhigh⟩ := hannounces hge hle
    obtain ⟨t, hyields, -⟩ := Streams.behind (c := first :: n) h
    have hne : n ≠ [] := by
      rintro rfl
      rw [List.length_nil] at hlength
      omega
    exact ⟨t, hyields, take_long (by omega) hne (by omega) hyields⟩
  constructor
  · intro hempty
    subst hempty
    obtain ⟨behind, failure, hyields, hend, hcause⟩ := h
    cases hyields
    refine ⟨failure, ?_, hcause⟩
    rw [take]
    simp only [Bind.bind, EStateM.bind, hend]
  · intro first rest hstream hfirst
    subst hstream
    obtain ⟨t, hyields, -⟩ := Streams.behind (c := [first]) h
    exact ⟨t, hyields, take_short hfirst hyields⟩
  · intro rest hstream
    subst hstream
    obtain ⟨t, hyields, -⟩ := Streams.behind (c := [0x80]) h
    exact ⟨t, hyields, take_indefinite hyields⟩
  · intro first rest hstream hfirst
    subst hstream
    obtain ⟨t, hyields, -⟩ := Streams.behind (c := [first]) h
    have hmany : 0x84 < first := UInt8.lt_of_lt_of_le (by decide) hfirst
    exact ⟨t, hyields, take_tooMany hmany hyields⟩
  · intro first rest hstream hge hle
    constructor
    · intro hcut
      obtain ⟨failure, t, herror, hcause⟩ := hcut
      by_cases hfewer : rest.length < first.toNat - 0x80
      · exact hfewer
      · -- all that are announced follow, so the number that they write is judged
        have hlength : (rest.take (first.toNat - 0x80)).length = first.toNat - 0x80 :=
          List.length_take_of_le (Nat.le_of_not_lt hfewer)
        have hsplit : stream = first :: (rest.take (first.toNat - 0x80) ++
            rest.drop (first.toNat - 0x80)) := by
          rw [List.take_append_drop]
          exact hstream
        obtain ⟨m, -, htake⟩ := hlong first _ _ hsplit hge hle hlength
        exact absurd hcause (outcome_ne_truncated (htake.symm.trans herror))
    · intro hfewer
      subst hstream
      obtain ⟨failure, herror, hcause⟩ := take_cutOff hle h hfewer
      exact ⟨failure, last, herror, hcause⟩
  · exact hlong
  · intro number c rest hfits hspelling hstream
    subst hstream
    obtain ⟨t, hyields, -⟩ := Streams.behind h
    refine ⟨t, hyields, ?_⟩
    rw [hspelling.take_eq hyields, outcome_of_fits hfits]

/-- Three octets of a definite region inside a marked one that is not watching, of which two write
the length and the last is not read. -/
theorem measured_of_streams_padded :
    Streams [0x82, 0x00, 0x05, 0x01]
        ⟨[.definite 4, .marked { watching := false }],
          ⟨[0x82, 0x00, 0x05, 0x01, 0x00, 0x00].map .octet, 0⟩⟩
        ⟨[.definite 0, .marked { watching := false }], ⟨[0x00, 0x00].map .octet, 4⟩⟩ ∧
      Measured 6 [0x82, 0x00, 0x05, 0x01]
        ⟨[.definite 4, .marked { watching := false }],
          ⟨[0x82, 0x00, 0x05, 0x01, 0x00, 0x00].map .octet, 0⟩⟩
        ⟨[.definite 0, .marked { watching := false }], ⟨[0x00, 0x00].map .octet, 4⟩⟩ := by
  have hstreams : Streams [0x82, 0x00, 0x05, 0x01]
      ⟨[.definite 4, .marked { watching := false }],
        ⟨[0x82, 0x00, 0x05, 0x01, 0x00, 0x00].map .octet, 0⟩⟩
      ⟨[.definite 0, .marked { watching := false }], ⟨[0x00, 0x00].map .octet, 4⟩⟩ :=
    ⟨_, _, ⟨_, rfl, _, rfl, _, rfl, _, rfl, rfl⟩, rfl, rfl⟩
  exact ⟨hstreams, measured_of_streams hstreams 6⟩

end Length
end Ber
