import Mathlib.Data.List.Forall2
import Ber.Proofs.Place
import Ber.Proofs.Steps

/-!
# Ber.Proofs.Ledger — no octet is lost

Beside a session runs a ledger of its open containers, the innermost first: where each of them
stands in the data, and whether the containers given up inside it had been read to their end. The
ledger is only watched; no operation reads it.

1. `Ledger.Kept` relates a source and the ledger to the data. Each thing that a move of a session
   does keeps it: taking a value, opening a container, reading to the end, and giving up.
2. Where a container is read to its end, exactly its value has been read (`Ledger.Kept.exact`).
-/

namespace Ber

open Encoding Source

/-- The containers that are open, the innermost first. -/
abbrev Ledger := List Opening

namespace Ledger

variable {data c : Octets} {s t u : Source} {ledger : Ledger} {opening : Opening}

/-- Notes in the innermost container whether one that was given up inside it is read to its end. -/
def note (intact : Bool) : Ledger → Ledger
  | [] => []
  | opening :: ledger => { opening with whole := opening.whole && intact } :: ledger

/-- Each container around a place begins in front of a value of the next one. -/
def Nested (data : Octets) : Nat → Ledger → Prop
  | _, [] => True
  | place, opening :: ledger => opening.InFront data place ∧ Nested data opening.begins ledger

/-- The innermost container is read up to a place between its values, or behind all of them once it
is at its end. -/
def Placed (data : Octets) (source : Source) : Ledger → Prop
  | [] => True
  | opening :: ledger =>
    (source.AtEnd → opening.Behind data source.position) ∧
      (¬ source.AtEnd → opening.Between data source.position) ∧ Nested data opening.begins ledger

/-- A source and the ledger agree with the data. -/
structure Kept (data : Octets) (source : Source) (ledger : Ledger) : Prop where
  settled : source.Settled
  rest : source.rest = data.drop source.position
  tallies : List.Forall₂ (Opening.Tallies source.position) ledger
    (source.regions.map Region.outline)
  fits : ∀ opening ∈ ledger, opening.Fits data
  placed : Placed data source ledger

/-! ## What is kept -/

/-- A region that octets are taken through tallies with the place behind them. -/
theorem tallies_spend {place count : Nat} {region : Region}
    (h : opening.Tallies place region.outline) (hroom : region.HasRoom count) :
    opening.Tallies (place + count) (region.outline.spend count) := by
  rcases h with ⟨taken, rfl, hfirst, hnow⟩
  rw [hnow, ← Region.spend_add]
  refine ⟨taken + count, Nat.add_assoc .., Region.hasRoom_add.2 ⟨hfirst, ?_⟩, rfl⟩
  rw [← hnow]
  exact Region.hasRoom_outline.2 hroom

/-- All open regions tally with the place behind octets that are taken through them. -/
theorem tallies_advance {place count : Nat} {before after : List Region}
    (h : List.Forall₂ (Opening.Tallies place) ledger (before.map Region.outline))
    (houtlines : after.map Region.outline = before.map (·.outline.spend count))
    (hroom : ∀ region ∈ before, region.HasRoom count) :
    List.Forall₂ (Opening.Tallies (place + count)) ledger (after.map Region.outline) := by
  rw [List.forall₂_map_right_iff] at h
  rw [houtlines, List.forall₂_map_right_iff]
  induction h generalizing after with
  | nil => exact .nil
  | @cons opening region ledger before hfirst _ ih =>
    rcases List.forall_mem_cons.1 hroom with ⟨hhead, hbelow⟩
    exact .cons (tallies_spend hfirst hhead)
      (@ih (before.map (·.spend count)) (by simp) hbelow)

namespace Kept

/-- The octets behind the position are those still to come. -/
theorem data_eq (h : Kept data s ledger) (hadvances : Advances c s t) :
    data.drop s.position = c ++ t.rest := by
  rw [← h.rest, hadvances.rest]

/-- Advancing keeps everything but the place in the innermost container. -/
theorem advance (h : Kept data s ledger) (hadvances : Advances c s t)
    (hplaced : Placed data t ledger) : Kept data t ledger := by
  refine ⟨hadvances.settled, ?_, ?_, h.fits, hplaced⟩
  · rw [hadvances.position, ← List.drop_drop, h.data_eq hadvances, List.drop_left]
  · rw [hadvances.position]
    exact tallies_advance h.tallies hadvances.outlines hadvances.room

/-- The innermost container has the innermost region. -/
theorem innermost (h : Kept data s (opening :: ledger)) :
    ∃ now below, s.regions = now :: below ∧ opening.Tallies s.position now.outline ∧
      List.Forall₂ (Opening.Tallies s.position) ledger (below.map Region.outline) := by
  rcases List.forall₂_cons_left_iff.1 h.tallies with ⟨_, _, hfirst, hbelow, hregions⟩
  rcases List.map_eq_cons_iff.1 hregions with ⟨now, below, hsame, rfl, rfl⟩
  exact ⟨now, below, hsame, hfirst, hbelow⟩

/-- The end of the innermost region is given by a marker if it is in the ledger. -/
theorem isMarked_eq (h : Kept data s (opening :: ledger)) :
    s.isMarked = opening.region.isMarked := by
  rcases h.innermost with ⟨now, below, hregions, ⟨count, -, -, hnow⟩, -⟩
  rw [isMarked, hregions, List.head?_cons, Option.any_some, ← Region.isMarked_outline, hnow,
    Region.isMarked_spend]

/-- A source that is ready stands in front of a value, unless the marker stands there. -/
theorem inFront (h : Kept data s (opening :: ledger)) (hs : s.Ready)
    (hmarker : s.isMarked → ∀ rest, s.rest ≠ [0, 0] ++ rest) :
    opening.InFront data s.position := by
  intro hmarked
  have hsource : s.isMarked := by rw [h.isMarked_eq, hmarked]
  -- only a marked region can end here, and its marker does not stand here
  refine Opening.inFront_of_between (h.placed.2.1 (hs.not_atEnd hsource)) (fun _ rest => ?_) hmarked
  rw [← h.rest]
  exact hmarker hsource rest

/-! ## What the moves of a session do -/

/-- Taking a value as a whole keeps the ledger. -/
theorem value {value : Encoding} (h : Kept data s ledger) (hs : s.Ready) (ht : t.Ready)
    (hvalid : value.Valid) (hheader : s.isMarked → value.header ≠ [0, 0])
    (hadvances : Advances value.octets s t) : Kept data t ledger := by
  refine h.advance hadvances ?_
  cases ledger with
  | nil => trivial
  | cons opening ledger =>
    -- in front of the value before, behind it afterwards
    have hinFront : opening.InFront data s.position := by
      refine h.inFront hs fun hmarked rest => ?_
      rw [hadvances.rest]
      exact hvalid.not_marker (hheader hmarked)
    refine ⟨fun hend hmarked => ?_, fun _ => Opening.between_of_passed hinFront ?_, h.placed.2.2⟩
    · refine absurd hend (ht.not_atEnd ?_)
      rw [hadvances.isMarked_eq, h.isMarked_eq, hmarked]
    · intro other rest hother hdata
      rw [h.data_eq hadvances] at hdata
      rw [hadvances.position, octets_unique hvalid hother hdata]

/-- Opening a container enters it in the ledger. -/
theorem opens {identifier : Identifier} {extent : Extent} {count limit : Nat} {form : Form}
    (h : Kept data s ledger) (hs : s.Ready) (hu : u.Passing)
    (hheaded : Headed limit identifier extent.opening (extent.length count) s u)
    (hnamed : form.NamedBy identifier extent.isMarked) :
    Kept data (u.enter (extent.region count))
      (⟨s.position, u.position, extent.region count, true⟩ :: ledger) := by
  have hadvances := hheaded.delivers.advances hs
  have hdata := h.data_eq hadvances
  -- the header is not the marker, so the container is one of the values around it
  have hmarker : s.isMarked → ∀ rest, s.rest ≠ [0, 0] ++ rest := by
    intro hmarked rest heq
    rw [hadvances.rest] at heq
    exact hheaded.noMarker hmarked
      (header_eq_marker hheaded.identifierWritten hheaded.lengthWritten heq)
  refine ⟨.inl (hu.ready_enter (by cases extent <;> trivial)), ?_, ?_, ?_, ?_⟩
  · rw [show (u.enter (extent.region count)).position = u.position from rfl, hadvances.position,
      ← List.drop_drop, hdata, List.drop_left]
    rfl
  · refine .cons ⟨0, rfl, ?_, ?_⟩ ?_
    · cases extent <;> simp [Extent.region, Region.HasRoom]
    · cases extent <;> rfl
    · rw [show (u.enter (extent.region count)).position = u.position from rfl, hadvances.position]
      exact tallies_advance h.tallies hadvances.outlines hadvances.room
  · refine List.forall_mem_cons.2 ⟨?_, h.fits⟩
    rw [hadvances.position]
    exact Opening.fits_of_header hheaded.identifierWritten hheaded.lengthWritten hnamed hdata
  · refine ⟨fun hend hmarked => ?_, fun _ => Opening.between_start, ?_⟩
    · -- a marked region is not closed when it is entered
      cases extent with
      | definite lengthOctets => cases hmarked
      | marked => cases hend _ rfl
    · cases ledger with
      | nil => trivial
      | cons outer ledger => exact ⟨h.inFront hs hmarker, h.placed.2.2⟩

/-- Reading a region to its end keeps the ledger. -/
theorem finishes (h : Kept data s ledger) (hfinishes : Finishes s t) : Kept data t ledger := by
  rcases hfinishes with ⟨c, hadvances, hend, hmarked⟩
  refine h.advance hadvances ?_
  cases ledger with
  | nil => trivial
  | cons opening ledger =>
    refine ⟨fun _ hkind => ?_, fun hopen => absurd hend hopen, h.placed.2.2⟩
    have hsource : s.isMarked := by rw [h.isMarked_eq, hkind]
    -- either nothing was left to read, or the values that were left and the marker
    rcases hmarked hsource with ⟨rfl, hended⟩ | ⟨hs, values, hvalid, hunmarked, rfl⟩
    · rw [hadvances.position]
      exact h.placed.1 hended hkind
    · rw [hadvances.position]
      refine Opening.behind_of_read (h.placed.2.1 (hs.not_atEnd hsource)) ?_ hkind
      exact ⟨hvalid, hunmarked, t.rest, by rw [h.data_eq hadvances, List.append_assoc]⟩

/-- Where a container is read to its end, exactly its value has been read. -/
theorem exact {now : Region} (h : Kept data s (opening :: ledger))
    (hnow : s.regions.head? = some now) (hintact : opening.intact now) {value : Encoding}
    {rest : Octets} (hvalid : value.Valid)
    (hdata : data.drop opening.begins = value.octets ++ rest) :
    s.position = opening.begins + value.octets.length := by
  rcases h.innermost with ⟨now', below, hregions, htallies, -⟩
  have hsame : now' = now := by simpa [hregions] using hnow
  subst hsame
  have hbehind : opening.Behind data s.position := by
    refine h.placed.1 fun region hhead => ?_
    cases hnow.symm.trans hhead
    exact (Bool.and_eq_true_iff.1 hintact).1
  exact Opening.exact_of_spent (h.fits opening List.mem_cons_self) htallies hintact hbehind hvalid
    hdata

/-- Giving up a container notes in the one around it whether it was read to its end. -/
theorem leaves {now : Region} (h : Kept data s (opening :: ledger))
    (hnow : s.regions.head? = some now) :
    Kept data s.leave (ledger.note (opening.intact now)) := by
  have hready := h.settled.leave.ready
  rcases h.innermost with ⟨now', below, hregions, -, hbelow⟩
  have hleave : s.leave.regions = below := by simp [leave, hregions]
  have hposition : s.leave.position = s.position := rfl
  refine ⟨.inl hready, h.rest, ?_, ?_, ?_⟩
  · rw [hleave, hposition]
    cases ledger with
    | nil => exact hbelow
    | cons outer ledger =>
      rcases List.forall₂_cons_left_iff.1 hbelow with ⟨region, regions, hfirst, hrest, hsame⟩
      rw [hsame]
      exact .cons hfirst hrest
  · cases ledger with
    | nil => exact fun _ hmem => absurd hmem List.not_mem_nil
    | cons outer ledger =>
      rcases by simpa only [List.forall_mem_cons] using h.fits with ⟨-, houter, hledger⟩
      exact List.forall_mem_cons.2 ⟨houter, hledger⟩
  · cases ledger with
    | nil => trivial
    | cons outer ledger =>
      rcases h.placed with ⟨-, -, hinFront, hnested⟩
      refine ⟨fun hend hkind => ?_, fun _ hkind hwhole => ?_, hnested⟩
      · refine absurd hend (hready.not_atEnd ?_)
        obtain ⟨region, regions, ⟨count, -, -, hfirst⟩, -, hsame⟩ :=
          List.forall₂_cons_left_iff.1 hbelow
        rcases List.map_eq_cons_iff.1 hsame with ⟨head, tail, rfl, rfl, -⟩
        rw [isMarked, hleave, List.head?_cons, Option.any_some, ← Region.isMarked_outline, hfirst,
          Region.isMarked_spend]
        exact hkind
      · rcases Bool.and_eq_true_iff.1 hwhole with ⟨hown, hintact⟩
        have hbetween : outer.Between data s.position :=
          Opening.between_of_passed hinFront fun value rest hvalid hdata =>
            h.exact hnow hintact hvalid hdata
        exact hbetween hkind hown

end Kept
end Ledger
end Ber
