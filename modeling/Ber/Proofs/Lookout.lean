import Ber.Proofs.Reading

/-!
# Ber.Proofs.Lookout — when regions look for their markers

A region finds its marker only while it looks for it. A source is `Source.Quiet` if none of its
regions does, and `Source.Guarded` if none below the innermost one does.

* In a quiet source, whatever is read octet by octet leaves the search of every region as it is
  (`Source.Octetwise.searches`).
* After the first octet of a value has been asked for, a guarded source is quiet, whether there was
  one or not, and also if asking failed (`Source.firstOctet?_quiet`).
-/

namespace Ber

namespace Region

/-- Whether a region looks for its marker. -/
def isWatching : Region → Bool
  | .definite _ => false
  | .marked state => state.watching

/-- Whether a marked region has read its marker. -/
def closed? : Region → Option Bool
  | .definite _ => none
  | .marked state => some state.closed

/-- How far the search of a region for its marker is. -/
def search (region : Region) : Bool × Option Bool := (region.isWatching, region.closed?)

theorem Passing.not_watching {region : Region} (h : region.Passing) :
    region.isWatching = false := by
  cases region with
  | definite remaining => rfl
  | marked state =>
    have hstate : state = { watching := false } := h
    rw [hstate]
    rfl

/-- A region that does not look for its marker does not find it. -/
theorem search_take {σ : Type} {supply : Supply σ} {region : Region} {below : σ}
    (h : region.isWatching = false) :
    (Action.final (take supply (region, below))).1.search = region.search := by
  match region with
  | .definite 0 => rfl
  | .definite (remaining + 1) =>
    simp only [take]
    cases supply.require below <;> rfl
  | .marked state =>
    have hwatching : state.watching = false := h
    simp only [take, hwatching, Bool.false_and, Bool.false_eq_true, if_false]
    by_cases hclosed : state.closed = true
    · simp only [hclosed, if_true]
      rfl
    · simp only [if_neg hclosed]
      cases peeked supply state.ahead below <;>
        simp [Action.final, search, isWatching, closed?, hwatching]

end Region

namespace Source

variable {s t : Source} {α : Type}

/-- No region looks for its marker. -/
def Quiet (source : Source) : Prop := ∀ region ∈ source.regions, region.isWatching = false

/-- No region below the innermost one looks for its marker. -/
def Guarded (source : Source) : Prop := source.leave.Quiet

/-- How far the search for its marker is in every region, the innermost first. -/
def searches (source : Source) : List (Bool × Option Bool) := source.regions.map Region.search

theorem Passing.quiet (hs : s.Passing) : s.Quiet :=
  fun region hmem => (hs region hmem).not_watching

theorem Quiet.guarded (hs : s.Quiet) : s.Guarded :=
  fun region hmem => hs region (List.mem_of_mem_tail hmem)

theorem Settled.guarded (hs : s.Settled) : s.Guarded := hs.leave.quiet

/-- Sources whose searches are equally far are quiet alike. -/
theorem Quiet.of_searches (hs : s.Quiet) (h : t.searches = s.searches) : t.Quiet := by
  intro region hmem
  have hsearch : region.search ∈ s.searches := by
    rw [← h]
    exact List.mem_map_of_mem hmem
  obtain ⟨origin, horigin, heq⟩ := List.mem_map.1 hsearch
  have hwatching : origin.isWatching = region.isWatching := congrArg Prod.fst heq
  rw [← hwatching]
  exact hs origin horigin

/-- Taking an octet where no region looks for its marker changes no search. -/
theorem octet?_keeps_searches {searches : List (Bool × Option Bool)}
    (hquiet : ∀ search ∈ searches, search.1 = false) :
    Action.Keeps (fun s : Source => s.searches = searches) octet? := by
  induction searches with
  | nil =>
    intro s hs
    have hregions : s.regions = [] := List.map_eq_nil_iff.1 hs
    rcases s with ⟨regions, reader⟩
    cases hregions
    rw [octet?_nil]
    cases reader.next <;> rfl
  | cons search below ih =>
    rintro ⟨regions, reader⟩ hs
    cases regions with
    | nil => cases hs
    | cons region regions =>
      obtain ⟨hhead, hbelow⟩ := List.cons.inj hs
      have hwatching : region.isWatching = false := by
        have h := hquiet search List.mem_cons_self
        rwa [← hhead] at h
      have hkeep := ih fun search hmem => hquiet search (List.mem_cons_of_mem _ hmem)
      have htaken := @Region.search_take _ ⟨octet?, position⟩ region ⟨regions, reader⟩ hwatching
      have hkept := @Region.take_keeps _ _ ⟨octet?, position⟩ hkeep (region, ⟨regions, reader⟩)
        hbelow
      rw [show (⟨region :: regions, reader⟩ : Source) = enter region ⟨regions, reader⟩ from rfl,
        octet?_enter]
      have hcons : ∀ after : Region × Source, after.1.search = region.search →
          after.2.searches = below → (after.2.enter after.1).searches = search :: below := by
        intro after hfirst hrest
        show after.1.search :: after.2.searches = _
        rw [hfirst, hrest]
        exact congrArg (· :: below) hhead
      cases hrun : Region.take ⟨octet?, position⟩ (region, ⟨regions, reader⟩) with
      | ok found after =>
        rw [hrun] at htaken hkept
        exact hcons after htaken hkept
      | error failure after =>
        rw [hrun] at htaken hkept
        exact hcons after htaken hkept

/-- So does any action that only takes octets. -/
theorem Octetwise.searches {action : Taking α} (haction : Octetwise action) (hs : s.Quiet) :
    (Action.final (action s)).searches = s.searches := by
  refine haction (fun t => t.searches = s.searches) (octet?_keeps_searches ?_) s rfl
  intro search hmem
  obtain ⟨region, hregion, rfl⟩ := List.mem_map.1 hmem
  exact hs region hregion

theorem Octetwise.quiet {action : Taking α} (haction : Octetwise action) (hs : s.Quiet) :
    (Action.final (action s)).Quiet := hs.of_searches (haction.searches hs)

theorem Octetwise.quiet_of_ok {action : Taking α} {a : α} (haction : Octetwise action)
    (hs : s.Quiet) (h : action s = .ok a t) : t.Quiet := by
  have hquiet := haction.quiet hs
  rwa [h] at hquiet

/-- In an opened region, the searches below it do not go on. -/
theorem Octetwise.searches_below {action : Taking α} (haction : Octetwise action) (hs : s.Quiet)
    (region : Region) :
    ∃ region' u, Action.final (action (s.enter region)) = enter region' u ∧
      u.searches = s.searches := by
  have hoctet? : Octetwise octet? := fun _ hkeep => hkeep
  have hkeep : Action.Keeps (fun t : Source => t.searches = s.searches) octet? := by
    refine octet?_keeps_searches fun search hmem => ?_
    obtain ⟨region, hregion, rfl⟩ := List.mem_map.1 hmem
    exact hs region hregion
  exact haction _ (octet?_keeps_below hkeep) (s.enter region) ⟨region, s, rfl, rfl⟩

/-- Only while the first octet of a value is taken does a region look for its marker. -/
theorem firstOctet?_quiet (hs : s.Guarded) : (Action.final (firstOctet? s)).Quiet := by
  have hoctet? : Octetwise octet? := fun _ hkeep => hkeep
  rw [final_firstOctet?]
  rcases s with ⟨regions, reader⟩
  cases regions with
  | nil =>
    have hquiet : (⟨[], reader⟩ : Source).Quiet := fun _ hmem => absurd hmem List.not_mem_nil
    have hkept := hoctet?.searches hquiet
    have hregions : (Action.final (octet? ⟨[], reader⟩)).regions = [] :=
      List.map_eq_nil_iff.1 hkept
    intro region hmem
    have hempty : ((Action.final (octet? ⟨[], reader⟩)).watch false).regions = [] := by
      show List.modifyHead _ (Action.final (octet? ⟨[], reader⟩)).regions = []
      rw [hregions]
      rfl
    rw [show (⟨[], reader⟩ : Source).watch true = ⟨[], reader⟩ from rfl, hempty] at hmem
    exact absurd hmem List.not_mem_nil
  | cons region below =>
    have hbelow : (⟨below, reader⟩ : Source).Quiet := hs
    obtain ⟨region', u, hu, hsearches⟩ :=
      hoctet?.searches_below hbelow (region.watch true)
    have hsame : (⟨region :: below, reader⟩ : Source).watch true =
        enter (region.watch true) ⟨below, reader⟩ := rfl
    rw [hsame, hu]
    intro r hmem
    rcases List.mem_cons.1 (show r ∈ region'.watch false :: u.regions from hmem) with rfl | hmem
    · cases region' <;> rfl
    · exact hbelow.of_searches hsearches r hmem

end Source

end Ber
