import Ber.Proofs.Advance
import Ber.Proofs.Unambiguous

/-!
# Ber.Proofs.Place — where a container stands in the data

An `Opening` remembers of a container where its value begins and where its content starts, as
numbers of octets delivered. Octets can be read in one way only, so whatever values the data hold at
these places, reading goes along them:

1. A place in the content of a marked region is *between* two of its values, *in front of* a value,
   or *behind* all of them and the marker.
2. Passing exactly one value leads from one place between values to the next (`between_of_passed`),
   and reading the values that are left, with the marker, leads behind them (`behind_of_read`).
3. Once a container has been read to its end, exactly its value has been read (`exact_of_spent`).
-/

namespace Ber

/-! ## Values in a row -/

namespace Encoding

variable {done pending : List Encoding}

theorem octetsAll_append : octetsAll (done ++ pending) = octetsAll done ++ octetsAll pending := by
  induction done with
  | nil => rfl
  | cons value done ih => rw [List.cons_append, octetsAll, octetsAll, ih, List.append_assoc]

theorem validAll_append : ValidAll (done ++ pending) ↔ ValidAll done ∧ ValidAll pending := by
  induction done with
  | nil => simp [ValidAll]
  | cons value done ih => simp only [List.cons_append, ValidAll, ih, and_assoc]

/-- Values can be read at a place of the data, with the end-of-contents marker behind them. -/
structure ReadAt (data : Octets) (place : Nat) (values : List Encoding) : Prop where
  valid : ValidAll values
  unmarked : Unmarked values
  written : ∃ rest, data.drop place = octetsAll values ++ ([0, 0] ++ rest)

/-- Behind some of the values, the others can be read. -/
theorem ReadAt.behind {data : Octets} {place : Nat} (h : ReadAt data place (done ++ pending)) :
    ReadAt data (place + (octetsAll done).length) pending := by
  rcases h with ⟨hvalid, hunmarked, rest, hwritten⟩
  refine ⟨(validAll_append.1 hvalid).2, fun value hmem => ?_, rest, ?_⟩
  · exact hunmarked value (List.mem_append_right _ hmem)
  · rw [← List.drop_drop, hwritten, octetsAll_append, List.append_assoc, List.drop_left]

end Encoding

/-! ## Openings -/

/-- A container that was opened. -/
structure Opening where
  /-- How many octets had been delivered in front of its value. -/
  begins : Nat
  /-- How many octets had been delivered in front of its content. -/
  start : Nat
  /-- The region of its content as it was opened. -/
  region : Region
  /-- Whether every container that was given up inside it had been read to its end by then. -/
  whole : Bool := true
deriving DecidableEq, Repr

namespace Opening

open Encoding

variable {data : Octets} {opening : Opening} {now : Region} {place next : Nat}

/-- Whether the end of a container's region is the end of its value. A definite region ends there
in any case. A marked one may take the marker of a container given up inside it for its own. -/
def clean (opening : Opening) : Bool := opening.whole || !opening.region.isMarked

/-- Whether a container has been read to its end where its region is in this state. -/
def intact (opening : Opening) (now : Region) : Bool := now.isSpent && opening.clean

/-- The region of a container in the state that it must have at a place. -/
def Tallies (place : Nat) (opening : Opening) (now : Region) : Prop :=
  ∃ count, place = opening.start + count ∧ opening.region.HasRoom count ∧
    now = opening.region.spend count

/-- Whatever value may be read where a container begins, it has this header and this region. -/
def Fits (data : Octets) (opening : Opening) : Prop :=
  ∀ value rest, value.Valid → data.drop opening.begins = value.octets ++ rest →
    opening.start = opening.begins + value.header.length ∧
    (∀ length, opening.region = .definite length →
      value.octets.length = value.header.length + length) ∧
    (opening.region.isMarked →
      ∃ form identifier values, value = container form identifier .marked values)

/-- A place between two values, whatever values a container holds. -/
def Between (data : Octets) (opening : Opening) (place : Nat) : Prop :=
  opening.region.isMarked → opening.whole → ∀ values, ReadAt data opening.start values →
    ∃ done pending, values = done ++ pending ∧ place = opening.start + (octetsAll done).length

/-- A place in front of one of the values, whatever values a container holds. -/
def InFront (data : Octets) (opening : Opening) (place : Nat) : Prop :=
  opening.region.isMarked → opening.whole → ∀ values, ReadAt data opening.start values →
    ∃ done value pending, values = done ++ value :: pending ∧
      place = opening.start + (octetsAll done).length

/-- The place behind the marker, whatever values a container holds. -/
def Behind (data : Octets) (opening : Opening) (place : Nat) : Prop :=
  opening.region.isMarked → opening.whole → ∀ values, ReadAt data opening.start values →
    place = opening.start + (octetsAll values).length + 2

/-- The content starts between values. -/
theorem between_start : opening.Between data opening.start :=
  fun _ _ values _ => ⟨[], values, rfl, rfl⟩

/-- Where the marker does not stand between values, there is another value. -/
theorem inFront_of_between (h : opening.Between data place)
    (hmarker : opening.region.isMarked → ∀ rest, data.drop place ≠ [0, 0] ++ rest) :
    opening.InFront data place := by
  intro hmarked hwhole values hvalues
  rcases h hmarked hwhole values hvalues with ⟨done, pending, rfl, rfl⟩
  match pending with
  | [] =>
    rcases hvalues.behind with ⟨-, -, rest, hrest⟩
    exact absurd hrest (hmarker hmarked rest)
  | value :: pending => exact ⟨done, value, pending, rfl, rfl⟩

/-- Behind the value in front of which it was, a place is between values again. -/
theorem between_of_passed (h : opening.InFront data place)
    (hpassed : ∀ (value : Encoding) (rest : Octets), value.Valid →
      data.drop place = value.octets ++ rest → next = place + value.octets.length) :
    opening.Between data next := by
  intro hmarked hwhole values hvalues
  rcases h hmarked hwhole values hvalues with ⟨done, value, pending, rfl, rfl⟩
  rcases hvalues.behind with ⟨⟨hvalid, -⟩, -, rest, hrest⟩
  -- whichever value stands there, it is passed
  refine ⟨done ++ [value], pending, by simp, ?_⟩
  rw [hpassed value (octetsAll pending ++ ([0, 0] ++ rest)) hvalid
    (by rw [hrest, octetsAll, List.append_assoc])]
  simp only [octetsAll_append, octetsAll, List.append_nil, List.length_append]
  omega

/-- Behind all values that could be read between values, with the marker, is behind the marker. -/
theorem behind_of_read {values : List Encoding} (h : opening.Between data place)
    (hread : ReadAt data place values) :
    opening.Behind data (place + (octetsAll values ++ [0, 0]).length) := by
  intro hmarked hwhole others hothers
  rcases h hmarked hwhole others hothers with ⟨done, pending, rfl, rfl⟩
  rcases hothers.behind with ⟨hvalid, hunmarked, rest, hrest⟩
  rcases hread with ⟨hvalid', hunmarked', rest', hrest'⟩
  -- the values read and those pending stand at one place, in front of a marker each
  have hsame : octetsAll pending = octetsAll values :=
    octetsAll_unique hvalid hvalid' hunmarked hunmarked' (hrest.symm.trans hrest')
  simp only [octetsAll_append, hsame, List.length_append, List.length_cons, List.length_nil]
  omega

/-- Once a container has been read to its end, exactly its value has been read. -/
theorem exact_of_spent (hfits : opening.Fits data) (htallies : opening.Tallies place now.outline)
    (hintact : opening.intact now) (hbehind : opening.Behind data place) {value : Encoding}
    {rest : Octets} (hvalid : value.Valid)
    (hdata : data.drop opening.begins = value.octets ++ rest) :
    place = opening.begins + value.octets.length := by
  rcases hfits value rest hvalid hdata with ⟨hstart, hdefinite, hcontainer⟩
  rcases Bool.and_eq_true_iff.1 hintact with ⟨hspent, hclean⟩
  rcases htallies with ⟨count, hplace, hroom, hnow⟩
  cases hregion : opening.region with
  | definite length =>
    -- the region has counted down to zero
    rw [hregion] at hroom hnow
    cases now with
    | marked state => cases hnow
    | definite remaining =>
      have hzero : remaining = 0 := by simpa [Region.isSpent] using hspent
      have hremaining : remaining = length - count := Region.definite.inj hnow
      have hle : count ≤ length := hroom
      have hlength := hdefinite length hregion
      omega
  | marked state =>
    have hmarked : opening.region.isMarked := by rw [hregion]; rfl
    -- the value is a container of indefinite length, and reading is behind its values
    rcases hcontainer hmarked with ⟨form, identifier, values, rfl⟩
    have hown : opening.whole := by simpa [clean, hmarked] using hclean
    rcases hvalid with ⟨-, -, -, -, -, hvalues, hunmarked⟩
    have hread : ReadAt data opening.start values := by
      refine ⟨hvalues, hunmarked rfl, rest, ?_⟩
      rw [hstart, ← List.drop_drop, hdata, octets, header]
      simp only [List.append_assoc, Extent.closing]
      rw [← List.append_assoc identifier.octets, List.drop_left]
    rw [hbehind hmarked hown values hread, hstart]
    simp only [octets, header, Extent.closing, List.length_append, List.length_cons,
      List.length_nil]
    omega

/-- A container that is opened has the header that was read. -/
theorem fits_of_header {identifier : Identifier} {extent : Extent} {count : Nat} {form : Form}
    {tail : Octets} (hidentifier : identifier.Written)
    (hlength : Length.Written extent.opening (extent.length count))
    (hnamed : form.NamedBy identifier extent.isMarked)
    (hdata : data.drop place = identifier.octets ++ extent.opening ++ tail) :
    Fits data ⟨place, place + (identifier.octets ++ extent.opening).length, extent.region count,
      true⟩ := by
  intro value rest hvalid hvalue
  -- two headers stand at one place, so they are one
  rcases hvalid.parts with ⟨other, lengthOctets, length, body, parts⟩
  rw [parts.octets, List.append_assoc _ body rest, hdata] at hvalue
  obtain ⟨rfl, rfl, rfl⟩ :=
    header_unique hidentifier hlength parts.identifierWritten parts.lengthWritten hvalue
  refine ⟨by rw [parts.header], fun length hregion => ?_, fun hmarked => ?_⟩
  · cases extent with
    | marked => cases hregion
    | definite lengthOctets =>
      cases hregion
      rw [parts.octets, parts.header, List.length_append, parts.definite _ rfl]
  · cases extent with
    | definite lengthOctets => cases hmarked
    | marked =>
      rcases parts.indefinite rfl with hnull | hcontainer
      · -- NULL is no container
        have hother : ∀ {type : UniversalType}, identifier.tag = .universal type → type ≠ .null →
            False := fun htag hne => hne (Tag.universal_inj.1 (htag.symm.trans hnull))
        cases form with
        | sequence => exact (hother hnamed (by decide)).elim
        | set => exact (hother hnamed (by decide)).elim
        | octetString => exact (hother hnamed.1 (by decide)).elim
        | tagged named =>
          have hclass : identifier.tagClass = .universal := congrArg Tag.tagClass hnull
          rcases hnamed.2 with hcontext | ⟨-, hprivate⟩
          · cases hclass.symm.trans hcontext
          · cases hclass.symm.trans hprivate
      · rcases hcontainer with ⟨form, values, rfl⟩
        exact ⟨form, identifier, values, rfl⟩

end Opening
end Ber
