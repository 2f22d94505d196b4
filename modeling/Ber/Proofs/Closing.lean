import Ber.Proofs.Tasks

/-!
# Ber.Proofs.Closing — what closes a marked region

A marked region ends at a pair of zero octets. It must do so only where the first octet of a value
of its own would stand, and not at zero octets in headers, in content, or in a container inside it.

1. `Source.Closes height before after` says that the region opened at a height has been closed in
   between. What reads inside of values closes none of the regions open there
   (`Task.not_closes_of_readsInside`), and skipping closes its own alone (`Task.length_of_skip`).
2. Whatever else a task closes, it closes by taking the next value of that region, where it finds
   the marker (`Task.EndsAt`). One lemma a task says so, along what the task calls, and
   `Task.confines` says it of all.
-/

namespace Ber

open Source

namespace Source

variable {c : Octets} {s t u : Source} {scope : Scope} {height : Nat}

/-! ## Closing regions -/

/-- Whether the marked region opened at a height has read its marker. The outermost region stands at
height zero. -/
def closedAt? (height : Nat) (source : Source) : Option Bool :=
  (source.regions.map Region.closed?).reverse[height]?.join

/-- A region is closed from one state of a source to another. -/
def Closes (height : Nat) (before after : Source) : Prop :=
  before.closedAt? height = some false ∧ after.closedAt? height = some true

theorem closedAt?_congr (h : t.regions.map Region.closed? = s.regions.map Region.closed?) :
    t.closedAt? height = s.closedAt? height := by
  rw [closedAt?, closedAt?, h]

theorem lt_of_closedAt? {closed : Bool} (h : s.closedAt? height = some closed) :
    height < s.regions.length := by
  by_contra hle
  have hnone : (s.regions.map Region.closed?).reverse[height]? = none := by
    rw [List.getElem?_eq_none_iff, List.length_reverse, List.length_map]
    exact Nat.le_of_not_lt hle
  rw [closedAt?, hnone] at h
  cases h

/-- Opening a region closes none of those below it. -/
theorem closedAt?_enter (region : Region) (h : height < s.regions.length) :
    (s.enter region).closedAt? height = s.closedAt? height := by
  have hlength : height < (s.regions.map Region.closed?).reverse.length := by
    rwa [List.length_reverse, List.length_map]
  rw [closedAt?, closedAt?]
  show (List.map Region.closed? (region :: s.regions)).reverse[height]?.join = _
  rw [List.map_cons, List.reverse_cons, List.getElem?_append_left hlength]

/-- Where no search goes on, no region is closed. -/
theorem closedAt?_of_searches (h : t.searches = s.searches) (height : Nat) :
    t.closedAt? height = s.closedAt? height := by
  refine closedAt?_congr ?_
  have hsnd := congrArg (List.map Prod.snd) h
  simp only [searches, List.map_map] at hsnd
  exact hsnd

theorem not_closes_of_eq (h : t.closedAt? height = s.closedAt? height) : ¬ Closes height s t := by
  rintro ⟨hopen, hclosed⟩
  rw [h, hopen] at hclosed
  cases hclosed

/-- A region that is closed on a way is closed in one of its parts. -/
theorem Closes.split (h : Closes height s u) (ht : (t.closedAt? height).isSome) :
    Closes height s t ∨ Closes height t u := by
  obtain ⟨closed, hclosed⟩ := Option.isSome_iff_exists.1 ht
  cases closed with
  | true => exact .inl ⟨h.1, hclosed⟩
  | false => exact .inr ⟨hclosed, h.2⟩

/-- What is found closed after a region was given up was closed before. -/
theorem Closes.of_leave (h : Closes height s t.leave) : Closes height s t := by
  refine ⟨h.1, ?_⟩
  rcases t with ⟨regions, reader⟩
  cases regions with
  | nil => exact h.2
  | cons region below =>
    have hlt : height < (⟨below, reader⟩ : Source).regions.length := lt_of_closedAt? h.2
    exact (closedAt?_enter region hlt).trans h.2

theorem closedAt?_watch (enabled : Bool) (height : Nat) (s : Source) :
    (s.watch enabled).closedAt? height = s.closedAt? height := by
  refine closedAt?_congr ?_
  rcases s with ⟨regions, reader⟩
  cases regions with
  | nil => rfl
  | cons region below => cases region <;> rfl

/-- Octets that pass close nothing. -/
theorem Passes.closedAt?_eq (h : Passes c s t) (height : Nat) :
    t.closedAt? height = s.closedAt? height := by
  refine closedAt?_congr ?_
  rw [h.regions, List.map_map]
  refine List.map_congr_left fun region _ => ?_
  cases region <;> rfl

/-- What lets octets pass before a value, or instead of one, closes nothing. -/
theorem Passes.not_closes (h : Passes c (s.watch false) t) : ¬ Closes height s t := by
  refine not_closes_of_eq ?_
  rw [h.closedAt?_eq, closedAt?_watch]

/-- Advancing neither opens nor gives up a region. -/
theorem Advances.isSome_closedAt? (h : Advances c s t) (height : Nat) :
    (t.closedAt? height).isSome = (s.closedAt? height).isSome := by
  have hmarked : ∀ source : Source, (source.closedAt? height).isSome =
      ((source.regions.map Region.outline).map Region.isMarked).reverse[height]?.getD false := by
    intro source
    rw [closedAt?, ← List.map_reverse, List.map_map, ← List.map_reverse, List.getElem?_map,
      List.getElem?_map]
    cases source.regions.reverse[height]? with
    | none => rfl
    | some region => cases region <;> rfl
  have hspend : (s.regions.map (·.outline.spend c.length)).map Region.isMarked =
      (s.regions.map Region.outline).map Region.isMarked := by
    rw [List.map_map, List.map_map]
    exact List.map_congr_left fun region _ => Region.isMarked_spend _ _
  rw [hmarked, hmarked, h.outlines, hspend]

/-- On a way that advances in its first part, what is closed is closed in one of the parts. -/
theorem Closes.split_advances (h : Closes height s u) (hc : Advances c s t) :
    Closes height s t ∨ Closes height t u := by
  refine h.split ?_
  rw [hc.isSome_closedAt?, h.1]
  rfl

/-! ## Taking the next value -/

/-- Taking the next value keeps the regions that were open. -/
theorem isSome_closedAt?_of_next {found : Option Item} (hs : s.Settled)
    (hnext : next scope s = .ok found t) (h : (s.closedAt? height).isSome) :
    (t.closedAt? height).isSome := by
  have hleads : Leads scope s (next scope s) := next_leads hs
  rw [hnext] at hleads
  by_cases hopened : ∃ container, found = some (.container container)
  · obtain ⟨container, rfl⟩ := hopened
    obtain ⟨-, c, region, behind, -, -, hc, rfl, -, -⟩ := hleads.opens
    have hbehind : (behind.closedAt? height).isSome := by rwa [hc.isSome_closedAt?]
    obtain ⟨closed, hclosed⟩ := Option.isSome_iff_exists.1 hbehind
    rwa [closedAt?_enter region (lt_of_closedAt? hclosed)]
  · obtain ⟨c, hc⟩ := hleads.advances fun container m heq => hopened ⟨container, by cases heq; rfl⟩
    have hsame := hc.isSome_closedAt? height
    rwa [← hsame] at h

/-- The marker of the innermost region closes this region alone. -/
theorem length_of_marker (hs : s.Ready) (hmarked : s.isMarked)
    (hdelivers : Delivers [0, 0] (s.watch false) u) (h : Closes height s u.close) :
    s.regions.length = height + 1 := by
  obtain ⟨hopen, hclosed⟩ := h
  rcases hs.cases with ⟨hfalse, -⟩ | ⟨-, below, -, -, hwatch⟩
  · rw [hmarked] at hfalse
    cases hfalse
  · have hlength : s.regions.length = below.regions.length + 1 := by
      have hregions := congrArg (·.regions.length) hwatch
      simpa [Source.watch, enter] using hregions
    have hlt : height < s.regions.length := lt_of_closedAt? hopen
    by_cases hbelow : height < below.regions.length
    · -- a region further out is as it was
      rw [hwatch] at hdelivers
      obtain ⟨-, v, hv, rfl⟩ := delivers_enter.1 hdelivers
      have hvlength : height < v.regions.length := by
        rwa [hv.regions, List.length_map]
      have hsame : s.closedAt? height = below.closedAt? height := by
        rw [← closedAt?_watch false height s, hwatch, closedAt?_enter _ hbelow]
      have hafter : (v.enter (.marked { watching := false, closed := true })).closedAt? height =
          below.closedAt? height := by
        rw [closedAt?_enter _ hvlength, hv.passes.closedAt?_eq]
      rw [hsame, ← hafter] at hopen
      cases hopen.symm.trans hclosed
    · omega

/-- Taking the next value closes the innermost region, if any, and only where its marker stands. -/
theorem closes_next (hs : s.Settled) (h : Closes height s (Action.final (next scope s))) :
    ∃ t, next scope s = .ok none t ∧ s.regions.length = height + 1 ∧
      s.rest = [0, 0] ++ t.rest ∧ t.position = s.position + 2 := by
  have hleads : Leads scope s (next scope s) := next_leads hs
  generalize next scope s = result at hleads h
  cases hleads with
  | closed hbelow hsource =>
    have hsame := h.1.symm.trans h.2
    cases hsame
  | ended hready hmarked hpasses => exact absurd h hpasses.not_closes
  | marker hready hmarked hdelivers =>
    exact ⟨_, rfl, length_of_marker hready hmarked hdelivers h, hdelivers.rest, hdelivers.position⟩
  | value hready hitem hpasses => exact absurd h hpasses.not_closes
  | @container form region octets behind hready hfresh hpasses =>
    have hsame : behind.closedAt? height = some false := by
      rw [hpasses.closedAt?_eq, closedAt?_watch]
      exact h.1
    have hentered : (behind.enter region).closedAt? height = some false := by
      rw [closedAt?_enter region (lt_of_closedAt? hsame)]
      exact hsame
    cases hentered.symm.trans h.2
  | failure hready hpasses => exact absurd h hpasses.not_closes

end Source

/-! ## What closes regions on the way of a task -/

namespace Task

variable {task : Task} {moment next : Task × Decoder} {decoder : Decoder} {height bound : Nat}

/-- On its way, a task takes the next value of the region opened at a height, and finds the marker
where the first octet of one would stand. -/
def EndsAt (height : Nat) (moment : Task × Decoder) : Prop :=
  ∃ (scope : Scope) (before after : Decoder), Includes moment (.next scope, before) ∧
    Decoder.next scope before = .ok none after ∧ Closes height before.source after.source ∧
    before.source.regions.length = height + 1 ∧
    before.source.rest = [0, 0] ++ after.source.rest ∧
    after.source.position = before.source.position + 2

theorem EndsAt.of_calls (h : EndsAt height next) (hcalls : Calls moment next) :
    EndsAt height moment := by
  obtain ⟨scope, before, after, hincludes, hrest⟩ := h
  exact ⟨scope, before, after, .head hcalls hincludes, hrest⟩

/-- Where a task closes a region, it finds the marker there on its way. -/
def Confines (task : Task) : Prop :=
  ∀ (decoder : Decoder) (height : Nat), task.Fits decoder.source →
    Closes height decoder.source (task.final decoder).source → EndsAt height (task, decoder)

/-- Whether a task reads octets inside of values. -/
def readsInside : Task → Bool
  | .identifier _ | .length _ | .content .. | .remainder => true
  | _ => false

/-- Taking all octets of a region closes none. -/
theorem not_closes_of_remainder {s : Source} (hs : s.Settled) :
    ¬ Closes height s (Action.final (Source.remainder s)) := by
  rcases s with ⟨regions, reader⟩
  match regions with
  | [] => exact not_closes_of_eq rfl
  | .marked state :: below => exact not_closes_of_eq rfl
  | .definite remaining :: below =>
    have hpassing : (⟨.definite remaining :: below, reader⟩ : Source).Passing := by
      rcases hs with hready | ⟨below', -, hsame⟩
      · exact hready
      · cases hsame
    obtain ⟨c, hc⟩ := (Octetwise.of_scans (octets_scans remaining)).passes hpassing
    exact not_closes_of_eq (hc.closedAt?_eq height)

/-- What reads inside of values closes no region. -/
theorem not_closes_of_readsInside {s : Source} (hfits : task.Fits s) (hinside : task.readsInside) :
    ¬ Closes height s (task.leaves s) := by
  cases task with
  | identifier first =>
    exact not_closes_of_eq
      (closedAt?_of_searches ((Octetwise.of_scans (Identifier.after_scans first)).searches hfits) height)
  | length limit =>
    exact not_closes_of_eq
      (closedAt?_of_searches ((Octetwise.of_scans (Length.take_scans limit)).searches hfits) height)
  | content scope named what =>
    by_cases hentered : ∃ form region, what = .entered form region
    · obtain ⟨form, region, rfl⟩ := hentered
      intro h
      by_cases hdeep : scope.maxDepth ≤ scope.depth
      · simp only [leaves, item_entered_too_deep hdeep] at h
        cases h.1.symm.trans h.2
      · simp only [leaves, item_entered hdeep] at h
        have hsame : (s.enter region).closedAt? height = s.closedAt? height :=
          closedAt?_enter region (lt_of_closedAt? h.1)
        cases h.1.symm.trans (hsame.symm.trans h.2)
    · have hoctetwise : Octetwise (Source.item scope named what) :=
        .of_scans (item_scans fun form region heq => hentered ⟨form, region, heq⟩)
      exact not_closes_of_eq (closedAt?_of_searches (hoctetwise.searches hfits) height)
  | remainder => exact not_closes_of_remainder hfits
  | _ => cases hinside

/-- Skipping closes the region that it is done in, and no other. -/
theorem length_of_skip {s : Source} (hfits : Fits .skip s)
    (h : Closes height s (leaves .skip s)) : s.regions.length = height + 1 := by
  obtain ⟨behind, hbehind, rfl⟩ := hfits
  obtain ⟨region, u, hfinal, hsearches⟩ := exhaust_octetwise.searches_below hbehind (.marked {})
  have hskip : leaves .skip (behind.enter (.marked {})) = u.enter region := hfinal
  rw [hskip] at h
  have hlength : u.regions.length = behind.regions.length := by
    have hlengths := congrArg List.length hsearches
    simpa only [searches, List.length_map] using hlengths
  by_cases hbelow : height < behind.regions.length
  · have hsame : (u.enter region).closedAt? height =
        (behind.enter (.marked {})).closedAt? height := by
      rw [closedAt?_enter region (by omega), closedAt?_enter _ hbelow,
        closedAt?_of_searches hsearches]
    exact absurd h (not_closes_of_eq hsame)
  · have hlt : height < behind.regions.length + 1 := lt_of_closedAt? h.1
    show behind.regions.length + 1 = height + 1
    omega

theorem next_confines (scope : Scope) : Confines (.next scope) := by
  intro decoder height hfits hcloses
  rw [source_final] at hcloses
  obtain ⟨t, hnext, hlength, hrest, hposition⟩ := closes_next hfits hcloses
  have hafter : leaves (.next scope) decoder.source = t := by
    show Action.final (Source.next scope decoder.source) = t
    rw [hnext]
    rfl
  rw [hafter] at hcloses
  obtain ⟨journal, hdecoder⟩ := (Decoder.silent_next scope).eq_ok_iff.1 hnext
  exact ⟨scope, decoder, ⟨t, journal⟩, .refl, hdecoder, hcloses, hlength, hrest, hposition⟩

/-! ## Values read as a whole -/

/-- What a decoding leaves does not depend on what is made of its result. -/
theorem final_map {σ α β : Type} (action : Action σ α) (make : α → β) (state : σ) :
    Action.final ((action >>= fun a => pure (make a)) state) = Action.final (action state) := by
  simp only [Bind.bind, EStateM.bind]
  cases action state <;> rfl

/-- Reading a container closes regions by finding their markers if draining and joining do. -/
theorem contents_confines (helements : ∀ scope, Confines (.elements bound scope []))
    (hsegments : ∀ scope, Confines (.segments bound scope [])) (container : Container) :
    Confines (.contents bound container) := by
  intro decoder height hfits hcloses
  rcases container with ⟨form, scope, isIndefinite⟩
  have hdrain : ∀ make : List Element → Element,
      (final (.contents bound ⟨form, scope, isIndefinite⟩) decoder =
        Action.final ((Decoder.elementsWithin bound scope [] >>= fun es => pure (make es)) decoder)) →
      Closes height decoder.source (final (.elements bound scope []) decoder).source := by
    intro make hfinal
    rw [hfinal, final_map] at hcloses
    exact hcloses
  cases form with
  | sequence =>
    exact (helements scope decoder height hfits (hdrain .sequence rfl)).of_calls
      (.drain (by simp) (by simp))
  | set =>
    exact (helements scope decoder height hfits (hdrain .set rfl)).of_calls
      (.drain (by simp) (by simp))
  | octetString =>
    have hfinal : final (.contents bound ⟨.octetString, scope, isIndefinite⟩) decoder =
        Action.final ((Decoder.joinedWithin bound scope [] >>=
          fun octets => pure (Element.primitive (.octetString octets))) decoder) := rfl
    rw [hfinal, final_map] at hcloses
    exact (hsegments scope decoder height hfits hcloses).of_calls (.join rfl)
  | tagged named =>
    by_cases hconstructed : named.isConstructed
    · have hfinal : final (.contents bound ⟨.tagged named, scope, isIndefinite⟩) decoder =
          Action.final ((Decoder.elementsWithin bound scope [] >>=
            fun es => pure (Element.tagged named es)) decoder) := by
        simp only [final, contentsWithin, Decoder.contentsWith, hconstructed, if_true]
      refine (helements scope decoder height hfits (hdrain _ hfinal)).of_calls (.drain (by simp) ?_)
      intro named' hform
      cases hform
      exact hconstructed
    · have hfinal : (final (.contents bound ⟨.tagged named, scope, isIndefinite⟩) decoder).source =
          leaves .remainder decoder.source := by
        rw [← source_final]
        simp only [final, contentsWithin, Decoder.contentsWith, hconstructed]
        exact congrArg Decoder.source (final_map _ _ _)
      rw [hfinal] at hcloses
      exact absurd hcloses (not_closes_of_remainder hfits)

/-- Reading a value as a whole closes regions by finding their markers if reading containers does. -/
theorem element_confines (hcontents : ∀ container, Confines (.contents bound container))
    (item : Item) : Confines (.element bound item) := by
  intro decoder height hfits hcloses
  cases item with
  | container container =>
    have hfinal : (final (.element bound (.container container)) decoder).source =
        (final (.contents bound container) decoder).source.leave :=
      congrArg Decoder.source (Action.final_afterwards ..)
    rw [hfinal] at hcloses
    exact (hcontents container decoder height (Fits.settled_of_container hfits)
      hcloses.of_leave).of_calls .contents
  | uninterpreted named octets => exact absurd hcloses (not_closes_of_eq rfl)
  | primitive value => exact absurd hcloses (not_closes_of_eq rfl)

/-- What joining leaves, by the next value. -/
theorem final_segments (bound : Nat) (scope : Scope) (pieces : List Octets) (decoder : Decoder) :
    final (.segments (bound + 1) scope pieces) decoder =
      match Decoder.next scope decoder with
      | .error _ middle | .ok none middle => middle
      | .ok (some (.primitive (.octetString octets))) middle =>
        final (.segments bound scope (octets :: pieces)) middle
      | .ok (some (.container ⟨.octetString, inner, _⟩)) middle =>
        match Decoder.leaving (Decoder.joinedWithin bound inner []) middle with
        | .error _ behind => behind
        | .ok octets behind => final (.segments bound scope (octets :: pieces)) behind
      | .ok (some (.container _)) middle => middle.leave
      | .ok (some _) middle => middle := by
  have hposition : Decoder.position decoder = .ok decoder.source.position decoder := rfl
  show Action.final (Decoder.joinedWithin (bound + 1) scope pieces decoder) = _
  rw [Decoder.joinedWithin]
  simp only [Bind.bind, EStateM.bind, hposition]
  rcases Decoder.next scope decoder with ⟨_ | item, middle⟩ | ⟨failure, middle⟩
  · rfl
  · cases item with
    | uninterpreted named octets => rfl
    | primitive value => cases value <;> rfl
    | container container =>
      rcases container with ⟨form, inner, isIndefinite⟩
      cases form with
      | octetString =>
        simp only [EStateM.bind]
        cases Decoder.leaving (Decoder.joinedWithin bound inner []) middle <;> rfl
      | _ => rfl
  · rfl

/-- What draining leaves, by the next value. -/
theorem final_elements (bound : Nat) (scope : Scope) (taken : List Element) (decoder : Decoder) :
    (final (.elements (bound + 1) scope taken) decoder).source =
      match Decoder.next scope decoder with
      | .error _ middle | .ok none middle => middle.source
      | .ok (some item) middle =>
        match Decoder.elementWith (contentsWithin bound) item middle with
        | .error _ behind => behind.source
        | .ok first behind => (final (.elements bound scope (first :: taken)) behind).source := by
  have hcontents : Decoder.contentsWith (Decoder.elementsWithin bound · [])
      (Decoder.joinedWithin bound · []) = contentsWithin bound := rfl
  show (Action.final (Decoder.elementsWithin (bound + 1) scope taken decoder)).source = _
  rw [Decoder.elementsWithin, hcontents]
  simp only [Bind.bind, EStateM.bind]
  rcases Decoder.next scope decoder with ⟨found, middle⟩ | ⟨failure, middle⟩
  · cases found with
    | none => rfl
    | some item =>
      simp only [EStateM.bind]
      cases Decoder.elementWith (contentsWithin bound) item middle <;> rfl
  · rfl

section
variable {scope : Scope} {middle : Decoder} {u : Source}

/-- What is closed where there is no further value is closed by taking the next one. -/
theorem endsAt_of_next {result : EStateM.Result Failure Decoder (Option Item)}
    (hs : decoder.source.Settled) (hcalls : Calls moment (.next scope, decoder))
    (hnext : Decoder.next scope decoder = result)
    (h : Closes height decoder.source (Action.final result).source) : EndsAt height moment := by
  rw [← hnext] at h
  exact (next_confines scope decoder height hs h).of_calls hcalls

/-- What is closed beyond the next value is closed by taking it or behind its header. -/
theorem endsAt_or_closes {found : Option Item} (hs : decoder.source.Settled)
    (hcalls : Calls moment (.next scope, decoder))
    (hnext : Decoder.next scope decoder = .ok found middle) (h : Closes height decoder.source u) :
    EndsAt height moment ∨ Closes height middle.source u := by
  have hsource : Source.next scope decoder.source = .ok found middle.source :=
    (Decoder.silent_next scope).of_ok hnext
  have hsome : (middle.source.closedAt? height).isSome :=
    isSome_closedAt?_of_next hs hsource (Option.isSome_iff_exists.2 ⟨false, h.1⟩)
  rcases h.split hsome with hfirst | hrest
  · exact .inl (endsAt_of_next hs hcalls hnext hfirst)
  · exact .inr hrest

end

/-- Joining closes regions by finding their markers. -/
theorem segments_confines (bound : Nat) (scope : Scope) (pieces : List Octets) :
    Confines (.segments bound scope pieces) := by
  induction bound generalizing scope pieces with
  | zero =>
    intro decoder height hs hcloses
    exact absurd hcloses (not_closes_of_eq rfl)
  | succ bound ih =>
    intro decoder height hs hcloses
    have hcalls : Calls (.segments (bound + 1) scope pieces, decoder) (.next scope, decoder) :=
      .nextSegment
    rw [final_segments] at hcloses
    cases hnext : Decoder.next scope decoder with
    | error failure middle =>
      rw [hnext] at hcloses
      exact endsAt_of_next hs hcalls hnext hcloses
    | ok found middle =>
      rw [hnext] at hcloses
      match found with
      | none => exact endsAt_of_next hs hcalls hnext hcloses
      | some (.primitive value) =>
        cases value with
        | octetString octets =>
          rcases endsAt_or_closes hs hcalls hnext hcloses with hends | hrest
          · exact hends
          · exact (ih scope _ middle height (fits_element 0 hs hnext) hrest).of_calls
              (.segment hnext)
        | _ => exact endsAt_of_next hs hcalls hnext hcloses
      | some (.uninterpreted named octets) => exact endsAt_of_next hs hcalls hnext hcloses
      | some (.container ⟨form, inner, isIndefinite⟩) =>
        cases form with
        | octetString =>
          have hfits := fits_element bound hs hnext
          have hinside : ∀ behind : Decoder,
              Action.final (Decoder.leaving (Decoder.joinedWithin bound inner []) middle) = behind →
              Closes height middle.source behind.source →
              EndsAt height (.segments (bound + 1) scope pieces, decoder) := by
            intro behind hbehind hclosed
            have hleft : (final (.segments bound inner []) middle).leave = behind := by
              rw [← hbehind]
              exact (Action.final_afterwards ..).symm
            rw [← hleft] at hclosed
            exact (ih inner [] middle height hfits.settled_of_container hclosed.of_leave).of_calls
              (.inner hnext)
          cases hrun : Decoder.leaving (Decoder.joinedWithin bound inner []) middle with
          | error failure behind =>
            simp only [hrun] at hcloses
            rcases endsAt_or_closes hs hcalls hnext hcloses with hends | hrest
            · exact hends
            · exact hinside behind (by rw [hrun]; rfl) hrest
          | ok octets behind =>
            simp only [hrun] at hcloses
            obtain ⟨c, hc⟩ := advances_of_segment hs hnext hrun
            rcases hcloses.split_advances hc with hfirst | hrest
            · rcases endsAt_or_closes hs hcalls hnext hfirst with hends | hclosed
              · exact hends
              · exact hinside behind (by rw [hrun]; rfl) hclosed
            · exact (ih scope _ behind height hc.settled hrest).of_calls (.segmented hnext hrun)
        | _ => exact endsAt_of_next hs hcalls hnext hcloses.of_leave

/-- Draining closes regions by finding their markers. -/
theorem elements_confines (bound : Nat) (scope : Scope) (taken : List Element) :
    Confines (.elements bound scope taken) := by
  induction bound generalizing scope taken with
  | zero =>
    intro decoder height hs hcloses
    exact absurd hcloses (not_closes_of_eq rfl)
  | succ bound ih =>
    intro decoder height hs hcloses
    have hcalls : Calls (.elements (bound + 1) scope taken, decoder) (.next scope, decoder) :=
      .nextElement
    rw [final_elements] at hcloses
    cases hnext : Decoder.next scope decoder with
    | error failure middle =>
      rw [hnext] at hcloses
      exact endsAt_of_next hs hcalls hnext hcloses
    | ok found middle =>
      rw [hnext] at hcloses
      cases found with
      | none => exact endsAt_of_next hs hcalls hnext hcloses
      | some item =>
        have helement : Confines (.element bound item) :=
          element_confines (contents_confines (ih · []) (segments_confines bound · [])) item
        have hinside : Closes height middle.source (final (.element bound item) middle).source →
            EndsAt height (.elements (bound + 1) scope taken, decoder) := fun hclosed =>
          (helement middle height (fits_element bound hs hnext) hclosed).of_calls (.element hnext)
        cases hrun : Decoder.elementWith (contentsWithin bound) item middle with
        | error failure behind =>
          have hbehind : final (.element bound item) middle = behind := by
            show Action.final (Decoder.elementWith (contentsWithin bound) item middle) = behind
            rw [hrun]
            rfl
          rw [hbehind] at hinside
          simp only [hrun] at hcloses
          rcases endsAt_or_closes hs hcalls hnext hcloses with hends | hclosed
          · exact hends
          · exact hinside hclosed
        | ok first behind =>
          have hbehind : final (.element bound item) middle = behind := by
            show Action.final (Decoder.elementWith (contentsWithin bound) item middle) = behind
            rw [hrun]
            rfl
          rw [hbehind] at hinside
          simp only [hrun] at hcloses
          obtain ⟨c, hc⟩ := advances_of_element hs hnext hrun
          rcases hcloses.split_advances hc with hfirst | hrest
          · rcases endsAt_or_closes hs hcalls hnext hfirst with hends | hclosed
            · exact hends
            · exact hinside hclosed
          · exact (ih scope _ behind height hc.settled hrest).of_calls (.elements hnext hrun)

/-- Whatever a task closes, other than what it skips in, it closes by finding the marker. -/
theorem confines (task : Task) (hskip : task ≠ .skip) : Confines task := by
  cases task with
  | next scope => exact next_confines scope
  | elements bound scope taken => exact elements_confines bound scope taken
  | segments bound scope pieces => exact segments_confines bound scope pieces
  | contents bound container =>
    exact contents_confines (elements_confines bound · []) (segments_confines bound · []) container
  | element bound item =>
    exact element_confines
      (contents_confines (elements_confines bound · []) (segments_confines bound · [])) item
  | skip => exact absurd rfl hskip
  | identifier | length | content | remainder =>
    intro decoder height hfits hcloses
    rw [source_final] at hcloses
    exact absurd hcloses (not_closes_of_readsInside hfits rfl)

end Task

end Ber
