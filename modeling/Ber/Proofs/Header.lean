import Ber.Header.Identifier
import Ber.Header.Length
import Ber.Proofs.Marker
import Ber.Proofs.Silence

/-!
# Ber.Proofs.Header — what identifier and length octets write

`Identifier.Written` and `Length.Written` say which octets write an identifier and a length, without
reading them. Reading accepts exactly what is written so:

* `Identifier.after_eq_ok_iff` and `Length.take_eq_ok_iff` for each of them;
* `Source.next_eq_some_iff` for the header of a value in front of a region that may end there. A
  marked region never sees a header that begins with its marker.
-/

namespace Ber

/-- The number written in base 128 by the low seven bits of each octet, the most significant octet
first. -/
def Octets.base128 (octets : Octets) : Nat :=
  octets.foldl (fun number octet => number * 128 + octet.toNat % 128) 0

/-- Identifiers whose octets write their tag number: in the first octet if it is below 31, and else
in one to five octets of which all but the last have the high bit set. -/
inductive Identifier.Written : Identifier → Prop where
  | short {first : UInt8} (hlow : first &&& 0x1f < 0x1f) :
    Written ⟨first, [], (first &&& 0x1f).toUInt32⟩
  | long {first last : UInt8} {leading : Octets} (hlow : ¬ first &&& 0x1f < 0x1f)
    (hleading : ∀ octet ∈ leading, 0x80 ≤ octet) (hlast : last < 0x80)
    (hcount : leading.length < 5) (hnumber : Octets.base128 (leading ++ [last]) < 0x100000000) :
    Written ⟨first, leading ++ [last], UInt32.ofNat (Octets.base128 (leading ++ [last]))⟩

/-- The octets that write a length. A definite one has up to 31 bits and is written in one octet
below 128, or in one to four octets behind one that counts them. -/
inductive Length.Written : Octets → Length → Prop where
  | short {first : UInt8} (hfirst : first < 0x80) : Written [first] (.definite first.toNat)
  | long {first : UInt8} {octets : Octets} (hfirst : first.toNat = 0x80 + octets.length)
    (hne : octets ≠ []) (hcount : octets.length ≤ 4) (hlength : octets.bigEndian < 0x80000000) :
    Written (first :: octets) (.definite octets.bigEndian)
  | indefinite : Written [0x80] .indefinite

/-- A definite length is below a limit. -/
def Length.Below (limit : Nat) : Length → Prop
  | .definite octets => octets < limit
  | .indefinite => True

/-! ## Identifiers -/

namespace Identifier

open Source

variable {s t : Source}

/-- Appending seven bits never makes a number smaller. -/
theorem le_foldl_base128 (octets : Octets) (number : Nat) :
    number ≤ octets.foldl (fun number octet => number * 128 + octet.toNat % 128) number := by
  induction octets generalizing number with
  | nil => exact Nat.le_refl _
  | cons octet octets ih =>
    have h := ih (number * 128 + octet.toNat % 128)
    simp only [List.foldl_cons]
    omega

/-- Seven bits can be appended to a number if the result has at most 32 bits. -/
theorem sevenBits?_eq_some_iff {number result : Nat} {octet : UInt8} :
    sevenBits? number octet = some result ↔
      result = number * 128 + octet.toNat % 128 ∧ result < 0x100000000 := by
  unfold sevenBits?
  split
  · simp only [Option.some.injEq]
    omega
  · simp only [reduceCtorEq, false_iff]
    omega

/-- A long tag number ends with the first octet whose high bit is clear. -/
theorem longNumber_eq_ok_iff {room number result : Nat} {following : Octets} (hs : s.Passing) :
    longNumber room number s = .ok (following, result) t ↔
      ∃ leading last, following = leading ++ [last] ∧ (∀ octet ∈ leading, 0x80 ≤ octet) ∧
        last < 0x80 ∧ leading.length < room ∧
        result = following.foldl (fun number octet => number * 128 + octet.toNat % 128) number ∧
        result < 0x100000000 ∧ Delivers following s t := by
  -- along the octets that are allowed; the number so far is carried to the next one
  induction room generalizing number following s with
  | zero => simp [longNumber, fail]
  | succ room ih =>
    simp only [longNumber, Action.bind_eq_ok, octet_eq_ok_iff hs]
    constructor
    · intro h
      rcases h with ⟨octet, m, hoctet, h⟩
      cases hbits : sevenBits? number octet with
      | none => simp [hbits, fail] at h
      | some next =>
        rcases sevenBits?_eq_some_iff.1 hbits with ⟨hnext, hlt⟩
        simp only [hbits] at h
        split at h
        · rename_i hlast
          simp only [Action.pure_eq_ok, Prod.mk.injEq] at h
          rcases h with ⟨⟨rfl, rfl⟩, rfl⟩
          exact ⟨[], octet, rfl, by simp, hlast, by simp, by simp [hnext], hlt, hoctet⟩
        · rename_i hmore
          rcases Action.bind_eq_ok.1 h with ⟨⟨rest, result'⟩, m', hrest, h⟩
          simp only [Action.pure_eq_ok, Prod.mk.injEq] at h
          rcases h with ⟨⟨rfl, rfl⟩, rfl⟩
          obtain ⟨leading, last, rfl, hleading, hlast, hroom, hresult, hlt, hdelivers⟩ :=
            (ih (hoctet.passing hs)).1 hrest
          refine ⟨octet :: leading, last, rfl, ?_, hlast, by simpa using hroom, ?_, hlt,
            hoctet.append hdelivers⟩
          · simpa [UInt8.not_lt.1 hmore] using hleading
          · simpa [hnext] using hresult
    · intro h
      rcases h with ⟨leading, last, rfl, hleading, hlast, hroom, hresult, hlt, hdelivers⟩
      match leading with
      | [] =>
        have hbits : sevenBits? number last = some result :=
          sevenBits?_eq_some_iff.2 ⟨by simpa using hresult, hlt⟩
        exact ⟨last, t, hdelivers, by simp [hbits, hlast]⟩
      | octet :: leading =>
        obtain ⟨m, hoctet, hrest⟩ := delivers_append.1
          (show Delivers ([octet] ++ (leading ++ [last])) s t from hdelivers)
        simp only [List.cons_append, List.foldl_cons] at hresult
        -- the number only grows from here, and in the end it has 32 bits
        have hbits : sevenBits? number octet = some (number * 128 + octet.toNat % 128) := by
          refine sevenBits?_eq_some_iff.2 ⟨rfl, ?_⟩
          have h := le_foldl_base128 (leading ++ [last]) (number * 128 + octet.toNat % 128)
          omega
        have hhigh : ¬ octet < 0x80 := UInt8.not_lt.2 (hleading octet (by simp))
        refine ⟨octet, m, hoctet, ?_⟩
        simp only [hbits, if_neg hhigh]
        refine Action.bind_eq_ok.2 ⟨(leading ++ [last], result), t, ?_, by simp⟩
        exact (ih (hoctet.passing hs)).2 ⟨leading, last, rfl,
          fun o ho => hleading o (List.mem_cons_of_mem _ ho), hlast, by simpa using hroom,
          hresult, hlt, hrest⟩

/-- Behind a first octet, exactly the octets are taken that write an identifier with it. -/
theorem after_eq_ok_iff {first : UInt8} {identifier : Identifier} (hs : s.Passing) :
    after first s = .ok identifier t ↔
      identifier.Written ∧ identifier.first = first ∧ Delivers identifier.following s t := by
  unfold after
  split
  · rename_i hlow
    rw [Action.pure_eq_ok]
    constructor
    · intro h
      rcases h with ⟨rfl, rfl⟩
      exact ⟨.short hlow, rfl, delivers_nil.2 rfl⟩
    · intro h
      rcases h with ⟨hwritten, rfl, hdelivers⟩
      cases hwritten with
      | short _ => exact ⟨rfl, delivers_nil.1 hdelivers⟩
      | long hlong => exact absurd hlow hlong
  · rename_i hlow
    rw [Action.bind_eq_ok]
    constructor
    · intro h
      rcases h with ⟨⟨following, number⟩, m, hrun, h⟩
      rcases Action.pure_eq_ok.1 h with ⟨rfl, rfl⟩
      obtain ⟨leading, last, rfl, hleading, hlast, hroom, rfl, hlt, hdelivers⟩ :=
        (longNumber_eq_ok_iff hs).1 hrun
      exact ⟨.long hlow hleading hlast hroom hlt, rfl, hdelivers⟩
    · intro h
      rcases h with ⟨hwritten, rfl, hdelivers⟩
      cases hwritten with
      | short hshort => exact absurd hshort hlow
      | @long first last leading _ hleading hlast hcount hnumber =>
        refine ⟨(leading ++ [last], Octets.base128 (leading ++ [last])), t, ?_, by simp⟩
        exact (longNumber_eq_ok_iff hs).2
          ⟨leading, last, rfl, hleading, hlast, hcount, rfl, hnumber, hdelivers⟩

/-- An identifier that begins with zero has no further octets. -/
theorem Written.following_of_first {identifier : Identifier} (h : identifier.Written)
    (hfirst : identifier.first = 0) : identifier.following = [] := by
  cases h with
  | short _ => rfl
  | long hlow =>
    subst hfirst
    exact absurd (by decide) hlow

end Identifier

/-! ## Lengths -/

namespace Length

open Source

variable {s t : Source}

theorem below_eq_ok_iff {limit octets : Nat} {length : Length} :
    below limit octets s = .ok length t ↔
      length = .definite octets ∧ length.Below limit ∧ s = t := by
  unfold below
  split
  · rename_i hlt
    simp only [Action.pure_eq_ok]
    constructor
    · intro h
      rcases h with ⟨rfl, rfl⟩
      exact ⟨rfl, hlt, rfl⟩
    · intro h
      rcases h with ⟨rfl, -, rfl⟩
      exact ⟨rfl, rfl⟩
  · rename_i hlt
    simp only [fail, reduceCtorEq, false_iff]
    intro h
    rcases h with ⟨rfl, hbelow, -⟩
    exact hlt hbelow

/-- Behind a first octet that counts them, exactly the octets are taken that write a length. -/
theorem long_eq_ok_iff {count limit : Nat} {length : Length} (hs : s.Passing) :
    long count limit s = .ok length t ↔
      count ≤ 4 ∧ ∃ octets : Octets, octets.length = count ∧ octets.bigEndian < 0x80000000 ∧
        length = .definite octets.bigEndian ∧ length.Below limit ∧ Delivers octets s t := by
  rw [long_eq]
  split
  · rename_i hcount
    simp only [maxOctets] at hcount
    simp only [fail, reduceCtorEq, false_iff]
    intro h
    exact absurd h.1 (Nat.not_le_of_lt hcount)
  · rename_i hcount
    rw [Action.bind_eq_ok]
    constructor
    · intro h
      rcases h with ⟨octets, m, hoctets, h⟩
      rcases (octets_eq_ok_iff hs).1 hoctets with ⟨hlength, hdelivers⟩
      split at h
      · rename_i hlt
        rcases below_eq_ok_iff.1 h with ⟨hdefinite, hbelow, rfl⟩
        exact ⟨Nat.le_of_not_lt hcount, octets, hlength, hlt, hdefinite, hbelow, hdelivers⟩
      · simp [fail] at h
    · intro h
      rcases h with ⟨-, octets, hlength, hlt, hdefinite, hbelow, hdelivers⟩
      refine ⟨octets, t, (octets_eq_ok_iff hs).2 ⟨hlength, hdelivers⟩, ?_⟩
      rw [if_pos hlt]
      exact below_eq_ok_iff.2 ⟨hdefinite, hbelow, rfl⟩

/-- Exactly the octets are taken that write a length below the limit. -/
theorem take_eq_ok_iff {limit : Nat} {length : Length} (hs : s.Passing) :
    take limit s = .ok length t ↔
      length.Below limit ∧ ∃ c, Written c length ∧ Delivers c s t := by
  simp only [take, Action.bind_eq_ok, octet_eq_ok_iff hs]
  constructor
  · intro h
    rcases h with ⟨first, m, hfirst, h⟩
    split at h
    · rename_i hshort
      rcases below_eq_ok_iff.1 h with ⟨rfl, hbelow, rfl⟩
      exact ⟨hbelow, [first], .short hshort, hfirst⟩
    split at h
    · rename_i hmarked
      subst hmarked
      rcases Action.pure_eq_ok.1 h with ⟨rfl, rfl⟩
      exact ⟨trivial, [0x80], .indefinite, hfirst⟩
    · rename_i hshort hmarked
      rcases (long_eq_ok_iff (hfirst.passing hs)).1 h with
        ⟨hcount, octets, hlength, hlt, rfl, hbelow, hdelivers⟩
      -- the other two forms are excluded, so the first octet counts those behind it
      have hhigh : 0x80 < first.toNat := by
        have hge : (0x80 : UInt8).toNat ≤ first.toNat := UInt8.le_iff_toNat_le.1
          (UInt8.not_lt.1 hshort)
        have hne : first.toNat ≠ (0x80 : UInt8).toNat := fun h => hmarked (UInt8.toNat_inj.1 h)
        simp only [UInt8.reduceToNat] at hge hne
        omega
      refine ⟨hbelow, first :: octets, .long (by omega) ?_ (by omega) hlt,
        hfirst.append hdelivers⟩
      rintro rfl
      simp only [List.length_nil] at hlength
      omega
  · intro h
    rcases h with ⟨hbelow, c, hwritten, hdelivers⟩
    cases hwritten with
    | @short first hfirst =>
      exact ⟨first, t, hdelivers, by
        rw [if_pos hfirst]
        exact below_eq_ok_iff.2 ⟨rfl, hbelow, rfl⟩⟩
    | indefinite => exact ⟨0x80, t, hdelivers, by simp⟩
    | @long first octets hfirst hne hcount hlength =>
      obtain ⟨m, hm, hoctets⟩ := delivers_append.1
        (show Delivers ([first] ++ octets) s t from hdelivers)
      have hpos : octets.length ≠ 0 := fun h => hne (List.length_eq_zero_iff.1 h)
      have hshort : ¬ first < 0x80 := by
        rw [UInt8.lt_iff_toNat_lt]
        simp only [UInt8.reduceToNat]
        omega
      have hmarked : first ≠ 0x80 := by
        rintro rfl
        simp only [UInt8.reduceToNat] at hfirst
        omega
      refine ⟨first, m, hm, ?_⟩
      rw [if_neg hshort, if_neg hmarked]
      exact (long_eq_ok_iff (hm.passing hs)).2
        ⟨by omega, octets, by omega, hlength, rfl, hbelow, hoctets⟩

/-- Only the first octet taken tells sources apart. -/
theorem take_congr {limit : Nat} (h : octet s = octet t) : take limit s = take limit t := by
  simp only [take, bind, EStateM.bind, h]

/-- A length that is written has at most 31 bits. -/
theorem Written.below {c : Octets} {length : Length} (h : Written c length) :
    length.Below 0x80000000 := by
  cases h with
  | @short first hfirst =>
    have hlt := first.toNat_lt
    simp only [Length.Below]
    omega
  | long _ _ _ hlt => exact hlt
  | indefinite => trivial

/-- A length is written in at least one octet. -/
theorem Written.ne_nil {c : Octets} {length : Length} (h : Written c length) : c ≠ [] := by
  cases h <;> simp

/-- Only a length of zero is written with a zero octet in front. -/
theorem Written.eq_zero {c : Octets} {length : Length} (h : Written (0 :: c) length) :
    c = [] := by
  generalize hoctets : (0 :: c : Octets) = octets at h
  cases h with
  | short _ => simp_all
  | indefinite => simp at hoctets
  | @long first octets hfirst =>
    rcases List.cons.inj hoctets with ⟨rfl, rfl⟩
    simp at hfirst
    omega

end Length

/-! ## Headers -/

namespace Source

section
variable {s t u : Source}

/-- Delivery does not change what kind of region is the innermost one. -/
theorem Delivers.isMarked {c : Octets} (h : Delivers c s t) : t.isMarked = s.isMarked := by
  simp only [Source.isMarked, h.regions]
  rcases s.regions with _ | ⟨_ | _, _⟩ <;> rfl

/-- The octet read ahead is handed out next. -/
theorem octet_keepAhead {c : UInt8} (hu : u.Passing) (hmarked : u.isMarked) :
    octet (u.keepAhead c) = .ok c u := by
  rcases u with ⟨regions, reader⟩
  match regions with
  | [] => simp [isMarked] at hmarked
  | .definite remaining :: below => simp [isMarked, Region.isMarked] at hmarked
  | .marked state :: below =>
    have hstate : state = { watching := false } := hu (.marked state) (by simp)
    subst hstate
    have hahead : (⟨.marked { watching := false } :: below, reader⟩ : Source).keepAhead c =
        enter (.marked { watching := false, ahead := some c }) ⟨below, reader⟩ := rfl
    rw [octet_eq_ok, hahead, octet?_enter]
    simp [Region.take, Region.peeked, pure, EStateM.pure, enter]

/-- Whether an octet is read ahead or not, it is the next one. -/
theorem octet_eq_of_keepAhead {c : UInt8} (hs : s.Passing) (hmarked : s.isMarked)
    (h : Delivers [c] s u) : octet (u.keepAhead c) = octet s := by
  rw [octet_keepAhead (h.passing hs) (by rw [h.isMarked, hmarked]), (octet_eq_ok_iff hs).2 h]

theorem isMarked_watch (enabled : Bool) (s : Source) : (s.watch enabled).isMarked = s.isMarked := by
  obtain ⟨_ | ⟨_ | _, _⟩, _⟩ := s <;> rfl

/-- The lookout for a marker does not change how many octets are available. -/
theorem available_watch (enabled : Bool) (s : Source) :
    (s.watch enabled).available = s.available := by
  obtain ⟨_ | ⟨_ | _, _⟩, _⟩ := s <;> rfl

theorem watch_watch (first second : Bool) (s : Source) :
    (s.watch first).watch second = s.watch second := by
  obtain ⟨_ | ⟨_ | _, _⟩, _⟩ := s <;> rfl

/-- A source has at least the octets available that it delivers. -/
theorem Delivers.le_available {c : Octets} {available : Nat} (h : Delivers c s t)
    (hs : s.Passing) (havailable : s.available = some available) : c.length ≤ available := by
  rcases s with ⟨regions, reader⟩
  induction regions generalizing t with
  | nil => simp [Source.available] at havailable
  | cons region below ih =>
    obtain ⟨hroom, u, hu, -⟩ := delivers_enter.1
      (show Delivers c (enter region ⟨below, reader⟩) t from h)
    cases region with
    | definite remaining =>
      simp only [Source.available, List.foldr_cons, Region.available, Option.some.injEq]
        at havailable
      exact havailable ▸ hroom
    | marked state =>
      have hstate : state = { watching := false } := hs (.marked state) (by simp)
      subst hstate
      refine ih hu (fun r hr => hs r (List.mem_cons_of_mem _ hr)) ?_
      simpa [Source.available, Region.available] using havailable

/-- A region without a next value is at its end. -/
theorem next_eq_none_iff {scope : Scope} :
    next scope s = .ok none t ↔ firstOctet? s = .ok none t := by
  simp only [next, Action.bind_eq_ok]
  constructor
  · intro h
    rcases h with ⟨found, m, hfirst, h⟩
    cases found with
    | none =>
      rcases Action.pure_eq_ok.1 h with ⟨-, rfl⟩
      exact hfirst
    | some first =>
      simp only [Action.bind_eq_ok, Action.pure_eq_ok, reduceCtorEq, false_and, and_false,
        exists_false] at h
  · intro h
    exact ⟨none, t, h, Action.pure_eq_ok.2 ⟨rfl, rfl⟩⟩

/-- Behind its first octet, a header is read as it is written. -/
theorem header_eq_ok_iff {limit : Nat} {first : UInt8} {identifier : Identifier} {length : Length}
    (hs : s.Passing) :
    (∃ m, Identifier.after first s = .ok identifier m ∧ Length.take limit m = .ok length t) ↔
      ∃ lengthOctets, identifier.Written ∧ Length.Written lengthOctets length ∧
        length.Below limit ∧ identifier.first = first ∧
        Delivers (identifier.following ++ lengthOctets) s t := by
  constructor
  · intro h
    rcases h with ⟨m, hidentifier, hlength⟩
    rcases (Identifier.after_eq_ok_iff hs).1 hidentifier with ⟨hwritten, hfirst, hm⟩
    rcases (Length.take_eq_ok_iff (hm.passing hs)).1 hlength with ⟨hbelow, c, hc, ht⟩
    exact ⟨c, hwritten, hc, hbelow, hfirst, hm.append ht⟩
  · intro h
    rcases h with ⟨c, hwritten, hc, hbelow, hfirst, h⟩
    rcases delivers_append.1 h with ⟨m, hm, ht⟩
    exact ⟨m, (Identifier.after_eq_ok_iff hs).2 ⟨hwritten, hfirst, hm⟩,
      (Length.take_eq_ok_iff (hm.passing hs)).2 ⟨hbelow, c, hc, ht⟩⟩

/-- What it takes to read a value: an identifier and a length that may stand here, delivered in
front of the content. A marked region takes two zero octets for its marker instead. -/
structure Headed (limit : Nat) (identifier : Identifier) (lengthOctets : Octets) (length : Length)
    (before after : Source) : Prop where
  identifierWritten : identifier.Written
  lengthWritten : Length.Written lengthOctets length
  below : length.Below limit
  noMarker : before.isMarked → identifier.octets ++ lengthOctets ≠ [0, 0]
  delivers : Delivers (identifier.octets ++ lengthOctets) (before.watch false) after

variable {limit : Nat} {identifier : Identifier} {length : Length}

/-- A header in front of a region that may end there is read as it is written. -/
theorem firstOctet?_header_iff (hs : s.Ready) :
    (∃ first v v', firstOctet? s = .ok (some first) v ∧
      Identifier.after first v = .ok identifier v' ∧ Length.take limit v' = .ok length t) ↔
      ∃ lengthOctets, Headed limit identifier lengthOctets length s t := by
  constructor
  · intro h
    rcases h with ⟨first, v, v', hfirst, hafter, hlength⟩
    rcases (firstOctet?_eq_some_iff hs).1 hfirst with ⟨hzero, hv⟩ |
      ⟨hmarked, rfl, c, u, hc, hu, rfl⟩
    · obtain ⟨lengthOctets, hwritten, hlengthWritten, hbelow, rfl, ht⟩ :=
        (header_eq_ok_iff (hv.passing hs)).1 ⟨v', hafter, hlength⟩
      refine ⟨lengthOctets, hwritten, hlengthWritten, hbelow, ?_, hv.append ht⟩
      intro hmarked heq
      exact hzero hmarked (List.cons.inj heq).1
    · -- a zero octet, with the first length octet read ahead
      obtain ⟨w, hw, hcu⟩ := delivers_append.1
        (show Delivers ([0] ++ [c]) (s.watch false) u from hu)
      have hwpassing := hw.passing hs
      have hshort : ∀ x, Identifier.after 0 x = .ok ⟨0, [], 0⟩ x := fun _ => rfl
      cases (hshort (u.keepAhead c)).symm.trans hafter
      have hwmarked : w.isMarked := by rw [hw.isMarked, isMarked_watch, hmarked]
      rw [Length.take_congr (octet_eq_of_keepAhead hwpassing hwmarked hcu)] at hlength
      obtain ⟨lengthOctets, hwritten, hlengthWritten, hbelow, -, ht⟩ :=
        (header_eq_ok_iff hwpassing).1 ⟨w, hshort w, hlength⟩
      refine ⟨lengthOctets, hwritten, hlengthWritten, hbelow, ?_, hw.append ht⟩
      rintro - heq
      obtain rfl : lengthOctets = [0] := (List.cons.inj heq).2
      cases ((octet_eq_ok_iff hwpassing).2 hcu).symm.trans ((octet_eq_ok_iff hwpassing).2 ht)
      exact hc rfl
  · intro h
    rcases h with ⟨lengthOctets, hwritten, hlengthWritten, hbelow, hmarker, h⟩
    obtain ⟨v, hv, ht⟩ := delivers_append.1 (show Delivers
      ([identifier.first] ++ (identifier.following ++ lengthOctets)) (s.watch false) t from h)
    have hvpassing := hv.passing hs
    obtain ⟨v', hafter, hlength⟩ :=
      (header_eq_ok_iff hvpassing).2 ⟨lengthOctets, hwritten, hlengthWritten, hbelow, rfl, ht⟩
    by_cases hzero : s.isMarked → identifier.first ≠ 0
    · exact ⟨identifier.first, v, v', (firstOctet?_eq_some_iff hs).2 (.inl ⟨hzero, hv⟩), hafter,
        hlength⟩
    · -- the identifier is the zero octet alone, and the length octets do not begin with zero
      rcases Classical.not_imp.1 hzero with ⟨hmarked, hfirst⟩
      have hfirst : identifier.first = 0 := Classical.not_not.1 hfirst
      have hfollowing := hwritten.following_of_first hfirst
      match lengthOctets with
      | [] => exact absurd rfl hlengthWritten.ne_nil
      | c :: lengthOctets =>
        have hc : c ≠ 0 := by
          rintro rfl
          apply hmarker hmarked
          rw [Identifier.octets, hfirst, hfollowing, hlengthWritten.eq_zero]
          rfl
        rw [hfollowing, List.nil_append] at ht
        obtain ⟨u, hu, -⟩ := delivers_append.1
          (show Delivers ([c] ++ lengthOctets) v t from ht)
        have hvmarked : v.isMarked := by rw [hv.isMarked, isMarked_watch, hmarked]
        have hidentifier : identifier = ⟨0, [], 0⟩ := by
          cases hwritten with
          | short hlow =>
            subst hfirst
            rfl
          | long => simp at hfollowing
        subst hidentifier
        cases (by rfl : Identifier.after 0 v = .ok ⟨0, [], 0⟩ v).symm.trans hafter
        refine ⟨0, u.keepAhead c, u.keepAhead c, (firstOctet?_eq_some_iff hs).2
          (.inr ⟨hmarked, rfl, c, u, hc, hv.append hu, rfl⟩), rfl, ?_⟩
        rw [Length.take_congr (octet_eq_of_keepAhead hvpassing hvmarked hu), hlength]

/-- The next value is a header as it is written, and what becomes of the content behind it. -/
theorem next_eq_some_iff {scope : Scope} {item : Item} (hs : s.Ready) :
    next scope s = .ok (some item) t ↔
      ∃ identifier lengthOctets length m,
        Headed (scope.lower s.available).limit identifier lengthOctets length s m ∧
        Source.item (scope.lower s.available) identifier (.of identifier length) m =
          .ok item t := by
  simp only [next, Action.bind_eq_ok]
  constructor
  · intro h
    rcases h with ⟨found, v, hfirst, h⟩
    cases found with
    | none => simp only [Action.pure_eq_ok, reduceCtorEq, false_and] at h
    | some first =>
      simp only [Action.bind_eq_ok, Action.pure_eq_ok, Option.some.injEq] at h
      rcases h with ⟨identifier, v', hafter, length, m, hlength, item', t', hitem, rfl, rfl⟩
      obtain ⟨lengthOctets, hm⟩ :=
        (firstOctet?_header_iff hs).1 ⟨first, v, v', hfirst, hafter, hlength⟩
      exact ⟨identifier, lengthOctets, length, m, hm, hitem⟩
  · intro h
    rcases h with ⟨identifier, lengthOctets, length, m, hm, hitem⟩
    obtain ⟨first, v, v', hfirst, hafter, hlength⟩ :=
      (firstOctet?_header_iff hs).2 ⟨lengthOctets, hm⟩
    refine ⟨some first, v, hfirst, ?_⟩
    simp only [Action.bind_eq_ok, Action.pure_eq_ok, Option.some.injEq]
    exact ⟨identifier, v', hafter, length, m, hlength, item, t, hitem, rfl, rfl⟩

end
end Source
end Ber
