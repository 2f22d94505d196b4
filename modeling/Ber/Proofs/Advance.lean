import Ber.Proofs.Grammar

/-!
# Ber.Proofs.Advance — how far a source gets

Between operations a source is *settled*: nothing is read ahead in any region, and only the
innermost region may be closed. `Source.Advances octets before after` says that from one settled
source to the next the octets were read, and that every open region counts them.

1. A value that is taken as a whole is read from its first octet to its last (`element_advances`).
2. Opening a container reads its header (`next_container`).
3. Whatever reads a region to its end (`Source.Finishes`) reads the values in it and the marker
   behind them: draining (`elementsFrom_finishes`), taking the content (`remainder_finishes`), and
   reading a container as one element (`contents_finishes`).
-/

namespace Ber

namespace Region

/-- Whether a region has been read to its end. -/
def isSpent : Region → Bool
  | .definite remaining => remaining == 0
  | .marked state => state.closed

/-- A region without the state of the search for its marker. -/
def outline : Region → Region
  | .definite remaining => .definite remaining
  | .marked _ => .marked {}

@[simp] theorem outline_watch (enabled : Bool) (region : Region) :
    (region.watch enabled).outline = region.outline := by
  cases region <;> rfl

@[simp] theorem outline_spend (count : Nat) (region : Region) :
    (region.spend count).outline = region.outline.spend count := by
  cases region <;> rfl

@[simp] theorem isMarked_outline (region : Region) : region.outline.isMarked = region.isMarked := by
  cases region <;> rfl

@[simp] theorem isMarked_spend (count : Nat) (region : Region) :
    (region.spend count).isMarked = region.isMarked := by
  cases region <;> rfl

theorem hasRoom_watch {count : Nat} {enabled : Bool} {region : Region} :
    (region.watch enabled).HasRoom count ↔ region.HasRoom count := by
  cases region <;> exact Iff.rfl

theorem hasRoom_outline {count : Nat} {region : Region} :
    region.outline.HasRoom count ↔ region.HasRoom count := by
  cases region <;> exact Iff.rfl

/-- A region that lets octets pass has read nothing ahead. -/
theorem Passing.ahead {region : Region} (h : region.Passing) : region.ahead = 0 := by
  cases region with
  | definite remaining => rfl
  | marked state =>
    have hstate : state = { watching := false } := h
    rw [hstate]
    rfl

theorem ahead_watch (enabled : Bool) (region : Region) :
    (region.watch enabled).ahead = region.ahead := by
  cases region <;> rfl

end Region

namespace Source

variable {c : Octets} {s t u : Source} {scope : Scope}

/-! ## Settled sources -/

/-- Nothing is read ahead, and only the innermost region may be closed. -/
def Settled (source : Source) : Prop :=
  source.Ready ∨ ∃ below : Source, below.Passing ∧
    source = below.enter (.marked { watching := false, closed := true })

/-- The innermost region, if any is open, has been read to its end. -/
def AtEnd (source : Source) : Prop :=
  ∀ region, source.regions.head? = some region → region.isSpent

/-- The regions below the innermost one let octets pass. -/
theorem Settled.leave (hs : s.Settled) : s.leave.Passing := by
  rcases hs with hready | ⟨below, hbelow, rfl⟩
  · intro region hmem
    rcases s with ⟨regions, reader⟩
    cases regions with
    | nil => exact absurd hmem List.not_mem_nil
    | cons head below => exact hready region (List.mem_cons_of_mem _ hmem)
  · exact hbelow

/-- No region of a settled source holds an octet read ahead. -/
theorem Settled.ahead (hs : s.Settled) {region : Region} (hmem : region ∈ s.regions) :
    region.ahead = 0 := by
  rcases hs with hready | ⟨below, hbelow, rfl⟩
  · rcases s with ⟨regions, reader⟩
    cases regions with
    | nil => exact absurd hmem List.not_mem_nil
    | cons head below =>
      rcases List.mem_cons.1 hmem with rfl | hmem
      · rw [← Region.ahead_watch false]
        exact (hready (region.watch false) List.mem_cons_self).ahead
      · exact (hready region (List.mem_cons_of_mem _ hmem)).ahead
  · rcases List.mem_cons.1 hmem with rfl | hmem
    · rfl
    · exact (hbelow region hmem).ahead

/-- A marked region that is ready for a value is not at its end. -/
theorem Ready.not_atEnd (hs : s.Ready) (hmarked : s.isMarked) : ¬ s.AtEnd := by
  intro hend
  rcases s with ⟨regions, reader⟩
  match regions with
  | [] => cases hmarked
  | .definite remaining :: below => cases hmarked
  | .marked state :: below =>
    have hstate : ({ state with watching := false } : Marked) = { watching := false } :=
      hs (.marked { state with watching := false }) List.mem_cons_self
    have hopen : state.closed = false := congrArg Marked.closed hstate
    have hclosed : state.closed = true := hend (.marked state) rfl
    rw [hopen] at hclosed
    cases hclosed

/-- A closed region has no further value. -/
theorem firstOctet?_closed (below : Source) :
    firstOctet? (below.enter (.marked { watching := false, closed := true })) =
      .ok none (below.enter (.marked { watching := false, closed := true })) := by
  refine firstOctet?_eq_ok.2 ⟨below.enter (.marked { closed := true }), ?_, rfl⟩
  rw [show (below.enter (.marked { watching := false, closed := true })).watch true =
    below.enter (.marked { closed := true }) from rfl, octet?_enter]
  rfl

/-- Where there is a next value, the innermost region is not closed. -/
theorem Settled.ready_of_next {item : Item} (hs : s.Settled)
    (h : next scope s = .ok (some item) t) : s.Ready := by
  rcases hs with hready | ⟨below, -, rfl⟩
  · exact hready
  · cases h.symm.trans (next_eq_none_iff.2 (firstOctet?_closed below))

/-! ## Advancing -/

/-- Octets were read, and every open region counts them. -/
structure Advances (octets : Octets) (before after : Source) : Prop where
  settled : after.Settled
  position : after.position = before.position + octets.length
  rest : before.rest = octets ++ after.rest
  outlines : after.regions.map (·.outline) = before.regions.map (·.outline.spend octets.length)
  room : ∀ region ∈ before.regions, region.HasRoom octets.length

/-- Where nothing is read, nothing changes. -/
theorem Settled.advances_nil (hs : s.Settled) : Advances [] s s := by
  refine ⟨hs, rfl, rfl, by simp, fun region _ => ?_⟩
  cases region <;> simp [Region.HasRoom]

/-- Advancing does not change what kind of region is the innermost one. -/
theorem Advances.isMarked_eq (h : Advances c s t) : t.isMarked = s.isMarked := by
  have houtlines := h.outlines
  rcases s with ⟨regions, reader⟩
  rcases t with ⟨regions', reader'⟩
  cases regions with
  | nil =>
    cases regions' with
    | nil => rfl
    | cons region' below' => cases houtlines
  | cons region below =>
    cases regions' with
    | nil => cases houtlines
    | cons region' below' =>
      have hhead : region'.outline = region.outline.spend c.length := (List.cons.inj houtlines).1
      rw [isMarked, isMarked, List.head?_cons, List.head?_cons, Option.any_some, Option.any_some,
        ← Region.isMarked_outline, hhead, Region.isMarked_spend, Region.isMarked_outline]

/-- Octets that a source delivers are counted by every region. -/
theorem Delivers.advances (hs : s.Ready) (h : Delivers c (s.watch false) t) : Advances c s t := by
  refine ⟨.inl (h.passing hs).ready, h.position, h.rest, ?_, ?_⟩
  · rw [h.regions]
    obtain ⟨_ | ⟨region, below⟩, reader⟩ := s <;> simp [Source.watch]
  · intro region hmem
    have hroom := h.room
    rcases s with ⟨regions, reader⟩
    cases regions with
    | nil => exact absurd hmem List.not_mem_nil
    | cons head below =>
      rcases List.mem_cons.1 hmem with rfl | hmem
      · exact Region.hasRoom_watch.1 (hroom (region.watch false) List.mem_cons_self)
      · exact hroom region (List.mem_cons_of_mem _ hmem)

/-- Closing a region counts nothing. -/
theorem Delivers.advances_close (hs : s.Ready) (hmarked : s.isMarked)
    (h : Delivers c (s.watch false) u) : Advances c s u.close ∧ u.close.AtEnd := by
  rcases h.advances hs with ⟨-, hposition, hrest, houtlines, hroom⟩
  -- the octets came through the marked region, so those below it passed them on
  rcases hs.cases with ⟨hfalse, -⟩ | ⟨-, below, hbelow, -, hwatch⟩
  · rw [hmarked] at hfalse
    cases hfalse
  · rw [hwatch] at h
    rcases delivers_enter.1 h with ⟨-, v, hv, rfl⟩
    refine ⟨⟨.inr ⟨v, hv.passing hbelow, rfl⟩, hposition, hrest, ?_, hroom⟩, fun region hhead => ?_⟩
    · rw [← houtlines]
      rfl
    · cases hhead
      rfl

/-- Reading a region to its end reads its content, and its marker if it has one. -/
theorem EndsAfter.advances (hs : s.Ready) (h : EndsAfter c s t) :
    (s.isMarked = false → Advances c s t) ∧ (s.isMarked → Advances (c ++ [0, 0]) s t) ∧
      t.AtEnd := by
  rcases h with ⟨u, hu, hend⟩
  have hmarkedEq : u.isMarked = s.isMarked := by rw [hu.isMarked, isMarked_watch]
  rcases (firstOctet?_eq_none_iff (hu.passing hs).ready).1 hend with ⟨hmarked, hnone⟩ |
    ⟨hmarked, w, hw, rfl⟩
  · rw [hmarkedEq] at hmarked
    have hadvances := hu.advances hs
    rcases (octet?_eq_none_iff (hu.passing hs)).1 hnone with ⟨hregions, hregions', hnext⟩ |
      ⟨hhead, rfl⟩
    · -- outside of all regions the reader is at its end
      obtain ⟨hleft, hreader⟩ := Reader.nextFrom_eq_none
        (show Reader.nextFrom u.reader.position u.reader.arrivals = .ok none t.reader from hnext)
      refine ⟨fun _ => ⟨.inl fun region hmem => ?_, ?_, ?_, ?_, hadvances.room⟩, fun h => ?_,
        fun region hhead => ?_⟩
      · simp [watch, hregions'] at hmem
      · rw [← hadvances.position, Source.position, hreader]
        rfl
      · have hrest := hadvances.rest
        rw [show u.rest = [] from hleft] at hrest
        rw [show t.rest = [] by rw [Source.rest, hreader]; rfl]
        exact hrest
      · rw [← hadvances.outlines, hregions, hregions']
      · rw [hmarked] at h
        cases h
      · rw [hregions'] at hhead
        cases hhead
    · refine ⟨fun _ => hadvances, fun h => ?_, fun region hregion => ?_⟩
      · rw [hmarked] at h
        cases h
      · cases hhead.symm.trans hregion
        rfl
  · rw [hu.watch_eq (watch_watch ..)] at hw
    rw [hmarkedEq] at hmarked
    rcases (hu.append hw).advances_close hs hmarked with ⟨hadvances, hatEnd⟩
    refine ⟨fun h => ?_, fun _ => hadvances, hatEnd⟩
    rw [hmarked] at h
    cases h

/-! ## The next value -/

/-- A value that is taken as a whole is read from its first octet to its last. -/
theorem element_advances {item : Item} {element : Element} {m : Source} (hs : s.Settled)
    (hdepth : scope.depth ≤ scope.maxDepth) (hnext : next scope s = .ok (some item) m)
    (h : Source.element item m = .ok element t) :
    ∃ value : Encoding, s.Ready ∧ t.Ready ∧ value.Valid ∧
      (s.isMarked → value.header ≠ [0, 0]) ∧ Advances value.octets s t := by
  have hready := hs.ready_of_next hnext
  obtain ⟨value, ⟨hvalid, hunmarked, -, hdelivers⟩, -⟩ := element_sound hready hdepth
    (fun hm hinside hdrained => elementsFrom_sound hm hinside hdrained) hnext h
  exact ⟨value, hready, (hdelivers.passing hready).ready, hvalid, hunmarked,
    hdelivers.advances hready⟩

/-- Opening a container reads its header and opens the region of its content. -/
theorem next_container {container : Container} (hs : s.Settled)
    (h : next scope s = .ok (some (.container container)) t) :
    ∃ (identifier : Identifier) (extent : Extent) (count limit : Nat) (u : Source), s.Ready ∧
      Headed limit identifier extent.opening (extent.length count) s u ∧
      container.form.NamedBy identifier extent.isMarked ∧ u.Passing ∧
      t = u.enter (extent.region count) ∧ container.scope.depth ≤ container.scope.maxDepth := by
  have hready := hs.ready_of_next h
  rcases (next_eq_some_iff hready).1 h with ⟨identifier, lengthOctets, length, u, hheaded, hitem⟩
  have hu : u.Passing := hheaded.delivers.passing hready
  have hallowed := Content.allowed_of identifier length
  generalize Content.of identifier length = content at hallowed hitem
  match content with
  | .kept count =>
    rcases (item_kept_eq_ok_iff hu).1 hitem with ⟨c, -, -, hfound⟩
    cases hfound
  | .decoded count =>
    rcases (item_decoded_eq_ok_iff hu).1 hitem with ⟨c, value, -, -, -, hfound⟩
    cases hfound
  | .skipped =>
    rcases (item_skipped_eq_ok_iff hu).1 hitem with ⟨c, -, -, hfound⟩
    cases hfound
  | .entered form region =>
    obtain ⟨extent, count, rfl, rfl, rfl, hnamed⟩ :=
      Extent.of_allowed hallowed hheaded.lengthWritten
    rcases item_entered_eq_ok_iff.1 hitem with ⟨hdeeper, rfl, hfound⟩
    cases hfound
    refine ⟨identifier, extent, count, _, u, hready, hheaded, hnamed, hu, rfl, ?_⟩
    simp only [Scope.inside_depth, Scope.inside_maxDepth]
    exact hdeeper
  | .refused => cases hitem

/-! ## Reading to the end -/

/-- The innermost region is read to its end. A marked one that is not closed yet holds values that
do not look like its marker, and the marker behind them. -/
def Finishes (before after : Source) : Prop :=
  ∃ octets, Advances octets before after ∧ after.AtEnd ∧
    (before.isMarked → (octets = [] ∧ before.AtEnd) ∨
      before.Ready ∧ ∃ values, Encoding.ValidAll values ∧ Encoding.Unmarked values ∧
        octets = Encoding.octetsAll values ++ [0, 0])

theorem Finishes.atEnd (h : Finishes s t) : t.AtEnd := by
  rcases h with ⟨c, -, hatEnd, -⟩
  exact hatEnd

/-- What is closed already is at its end. -/
theorem finishes_closed {below : Source} (hbelow : below.Passing) :
    Finishes (below.enter (.marked { watching := false, closed := true }))
      (below.enter (.marked { watching := false, closed := true })) := by
  have hatEnd : (below.enter (.marked { watching := false, closed := true })).AtEnd := by
    intro region hhead
    cases hhead
    rfl
  exact ⟨[], Settled.advances_nil (.inr ⟨below, hbelow, rfl⟩), hatEnd, fun _ => .inl ⟨rfl, hatEnd⟩⟩

/-- Draining reads a region to its end. -/
theorem elementsFrom_finishes {elements : List Element} (hs : s.Settled)
    (hdepth : scope.depth ≤ scope.maxDepth) (h : elementsFrom scope [] s = .ok elements t) :
    Finishes s t := by
  rcases hs with hready | ⟨below, hbelow, rfl⟩
  · rcases elementsFrom_sound hready hdepth h with ⟨values, ⟨hvalid, hunmarked, -, hends⟩, -⟩
    rcases hends.advances hready with ⟨hdefinite, hmarked, hatEnd⟩
    by_cases hkind : s.isMarked = true
    · exact ⟨_, hmarked hkind, hatEnd, fun _ => .inr ⟨hready, values, hvalid, hunmarked hkind, rfl⟩⟩
    · exact ⟨_, hdefinite (Bool.eq_false_iff.2 hkind), hatEnd, fun h => absurd h hkind⟩
  -- closed: there is no next value, and the source stays as it is
  · rcases elementsFrom_eq_ok_iff.1 h with ⟨-, hnext⟩ | ⟨item, m, first, m', rest, -, hnext, -⟩
    · cases (next_eq_none_iff.2 (firstOctet?_closed below)).symm.trans hnext
      exact finishes_closed hbelow
    · cases (next_eq_none_iff.2 (firstOctet?_closed below)).symm.trans hnext

/-- A region that has no next value has been read to its end. -/
theorem next_finishes (hs : s.Settled) (hdepth : scope.depth ≤ scope.maxDepth)
    (h : next scope s = .ok none t) : Finishes s t :=
  elementsFrom_finishes hs hdepth (elementsFrom_eq_ok_iff.2 (.inl ⟨rfl, h⟩))

/-- Joining segments reads a region to its end. -/
theorem joinedFrom_finishes {octets : Octets} (hs : s.Settled)
    (hdepth : scope.depth ≤ scope.maxDepth) (h : joinedFrom scope [] s = .ok octets t) :
    Finishes s t := by
  rcases joinedFrom_eq_ok_iff_elements.1 h with ⟨elements, helements, -⟩
  exact elementsFrom_finishes hs hdepth helements

/-- Taking the content of a definite region reads it to its end. -/
theorem remainder_finishes (hs : s.Settled) (h : remainder s = .ok c t) : Finishes s t := by
  rcases s with ⟨regions, reader⟩
  match regions with
  | [] => cases h
  | .marked state :: below => cases h
  | .definite remaining :: below =>
    have hready : (⟨.definite remaining :: below, reader⟩ : Source).Ready := by
      rcases hs with hready | ⟨below', -, hsame⟩
      · exact hready
      · cases hsame
    obtain ⟨rfl, hc⟩ := (octets_eq_ok_iff
      (show (⟨.definite remaining :: below, reader⟩ : Source).Passing from hready)).1 h
    refine ⟨c, Delivers.advances hready hc, fun region hhead => ?_, fun hmarked => nomatch hmarked⟩
    rw [hc.regions] at hhead
    cases hhead
    simp [Region.spend, Region.isSpent]

/-- Reading a container as one element reads its region to its end. -/
theorem contents_finishes {container : Container} {element : Element} (hs : s.Settled)
    (hdepth : container.scope.depth ≤ container.scope.maxDepth)
    (h : contents container s = .ok element t) : Finishes s t := by
  rcases contents_eq_ok_iff.1 h with ⟨named, c, -, -, hc, -⟩ | ⟨-, elements, helements, -⟩
  · exact remainder_finishes hs hc
  · exact elementsFrom_finishes hs hdepth helements

end Source
end Ber
