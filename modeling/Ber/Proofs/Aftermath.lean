import Ber.Proofs.Course

/-!
# Ber.Proofs.Aftermath — where reading leaves a source, also when it fails

1. `Source.Leads` lists what taking the next value of a settled source can lead to
   (`next_leads`): one case for each way in which a region ends, a value is taken, a container is
   opened, and reading fails.
2. From there, reading as a whole only advances a source, whether it fails or not: advancing is a
   course that reading takes (`Source.advancing`).
-/

namespace Ber

/-- A marked region that fails has not been closed, and holds nothing back. -/
theorem Region.take_marked_error {σ : Type} {supply : Supply σ} {state : Marked}
    {below after : σ} {region : Region} {failure : Failure}
    (h : Region.take supply (.marked state, below) = .error failure (region, after)) :
    region = .marked { state with ahead := none } := by
  simp only [Region.take] at h
  repeat' split at h
  all_goals
    cases h
    try rfl

namespace Source

variable {c e : Octets} {s t u : Source} {scope : Scope} {α : Type}

/-! ## Taking a value -/

/-- What taking a value can lead to once its first octet is there. -/
inductive Took (scope : Scope) (before : Source) : EStateM.Result Failure Source Item → Prop where
  /-- A value that is no container. -/
  | value {item : Item} {octets : Octets} {after : Source} (hitem : item.isContainer = false)
    (h : Passes octets before after) : Took scope before (.ok item after)
  /-- A container was opened. -/
  | container {form : Form} {region : Region} {octets : Octets} {behind : Source}
    (hfresh : region.Fresh) (h : Passes octets before behind) :
    Took scope before
      (.ok (.container ⟨form, scope.inside region, region.isMarked⟩) (behind.enter region))
  | failure {failure : Failure} {octets : Octets} {after : Source}
    (h : Passes octets before after) : Took scope before (.error failure after)

/-- Octets may have passed before. -/
theorem Took.behind {result : EStateM.Result Failure Source Item} (h : Took scope t result)
    (hbefore : Passes c s t) : Took scope s result := by
  cases h with
  | value hitem h => exact .value hitem (hbefore.append h)
  | container hfresh h => exact .container hfresh (hbefore.append h)
  | failure h => exact .failure (hbefore.append h)

/-- Actions that read, and then something that takes a value. -/
theorem Took.bind {action : Taking α} {rest : α → Taking Item} (hs : s.Passing)
    (haction : Octetwise action) (hrest : ∀ a m, m.Passing → Took scope m (rest a m)) :
    Took scope s ((action >>= rest) s) := by
  obtain ⟨c, hc⟩ := haction.passes hs
  simp only [Bind.bind, EStateM.bind]
  cases hrun : action s with
  | error failure m =>
    rw [hrun] at hc
    exact .failure hc
  | ok a m =>
    rw [hrun] at hc
    exact (hrest a m (hc.passing hs)).behind hc

/-- Only what is entered becomes a container. -/
theorem isContainer_of_item {identifier : Identifier} {content : Content} {item : Item}
    (hcontent : ∀ form region, content ≠ .entered form region)
    (h : Source.item scope identifier content s = .ok item t) : item.isContainer = false := by
  cases content with
  | kept count =>
    obtain ⟨octets, m, -, hitem⟩ := Action.bind_eq_ok.1 h
    rw [← (Action.pure_eq_ok.1 hitem).1]
    rfl
  | decoded count =>
    obtain ⟨octets, m, -, hrest⟩ := Action.bind_eq_ok.1 h
    obtain ⟨value, m', -, hitem⟩ := Action.bind_eq_ok.1 hrest
    rw [← (Action.pure_eq_ok.1 hitem).1]
    rfl
  | skipped =>
    obtain ⟨⟨⟩, m, -, hitem⟩ := Action.bind_eq_ok.1 h
    rw [← (Action.pure_eq_ok.1 hitem).1]
    rfl
  | entered form region => exact absurd rfl (hcontent form region)
  | refused => cases h

/-- A container is not entered where that is too deep. -/
theorem item_entered_too_deep {identifier : Identifier} {form : Form} {region : Region}
    (hdeep : scope.maxDepth ≤ scope.depth) :
    item scope identifier (.entered form region) s = .error ⟨.nestingTooDeep, s.position⟩ s := by
  simp [item, open?, hdeep, Bind.bind, EStateM.bind, fail]

theorem item_entered {identifier : Identifier} {form : Form} {region : Region}
    (hdeep : ¬ scope.maxDepth ≤ scope.depth) :
    item scope identifier (.entered form region) s =
      .ok (.container ⟨form, scope.inside region, region.isMarked⟩) (s.enter region) := by
  simp [item, open?, hdeep, Bind.bind, EStateM.bind, Pure.pure, EStateM.pure]

/-- Whatever becomes of the content of a value. -/
theorem item_took {identifier : Identifier} {length : Length} (hs : s.Passing) :
    Took scope s (item scope identifier (.of identifier length) s) := by
  by_cases hentered : ∃ form region, Content.of identifier length = .entered form region
  · obtain ⟨form, region, hcontent⟩ := hentered
    rw [hcontent]
    by_cases hdeep : scope.maxDepth ≤ scope.depth
    · rw [item_entered_too_deep hdeep]
      exact .failure (.nil s)
    · rw [item_entered hdeep]
      exact .container (Content.fresh_of hcontent) (.nil s)
  · have hcontent : ∀ form region, Content.of identifier length ≠ .entered form region :=
      fun form region h => hentered ⟨form, region, h⟩
    have hoctetwise : Octetwise (item scope identifier (.of identifier length)) :=
      .of_scans (item_scans hcontent)
    obtain ⟨c, hc⟩ := hoctetwise.passes hs
    cases hrun : item scope identifier (.of identifier length) s with
    | error failure t =>
      rw [hrun] at hc
      exact .failure hc
    | ok item t =>
      rw [hrun] at hc
      exact .value (isContainer_of_item hcontent hrun) hc

/-- Takes a value whose first octet has been taken. -/
def behindFirst (scope : Scope) (first : UInt8) : Taking Item := do
  let identifier ← Identifier.after first
  let length ← Length.take scope.limit
  item scope identifier (.of identifier length)

theorem behindFirst_took (first : UInt8) (hs : s.Passing) :
    Took scope s (behindFirst scope first s) := by
  refine .bind hs (.of_scans (Identifier.after_scans first)) fun identifier m hm => ?_
  exact .bind hm (.of_scans (Length.take_scans scope.limit)) fun length m' hm' => item_took hm'

/-- The next value is taken by its first octet, and then by what is behind it. -/
theorem next_eq_bind (scope : Scope) (s : Source) :
    next scope s =
      (do
        match ← firstOctet? with
        | none => return none
        | some first => return some (← behindFirst (scope.lower s.available) first) :
          Taking (Option Item)) s := by
  refine Action.bind_congr fun found m hfirst => ?_
  cases found with
  | none => rfl
  | some first => simp only [behindFirst, bind_assoc]

/-- The next value is its first octet and what is behind it. -/
theorem next_eq (scope : Scope) (s : Source) :
    next scope s =
      match firstOctet? s with
      | .ok none t => .ok none t
      | .ok (some first) t =>
        match behindFirst (scope.lower s.available) first t with
        | .ok item u => .ok (some item) u
        | .error failure u => .error failure u
      | .error failure t => .error failure t := by
  rw [next_eq_bind]
  simp only [Bind.bind, EStateM.bind]
  rcases firstOctet? s with ⟨_ | first, t⟩ | ⟨failure, t⟩
  · rfl
  · dsimp only [EStateM.bind]
    cases behindFirst (scope.lower s.available) first t <;> rfl
  · rfl

/-! ## The first octet of a value -/

/-- A region that looks for its marker fails as those below it do, and is as it was then. -/
theorem octet?_error_watching {failure : Failure} (hs : s.Passing)
    (h : octet? (s.enter (.marked {})) = .error failure t) :
    ∃ c u, Passes c s u ∧ t = u.enter (.marked {}) := by
  have hkept := @Region.take_keeps _ _ ⟨octet?, position⟩ (octet?_keeps_passes s)
    (.marked {}, s) ⟨hs, [], .nil s⟩
  rw [octet?_enter] at h
  rcases hrun : Region.take ⟨octet?, position⟩ (.marked {}, s) with _ | ⟨failure', region, u⟩
  · rw [hrun] at h
    cases h
  · rw [hrun] at h hkept
    cases h
    obtain ⟨-, c, hc⟩ := hkept
    have hregion : region = .marked {} := Region.take_marked_error hrun
    exact ⟨c, u, hc, by rw [hregion]⟩

/-- A source that fails to hand out the first octet of a value has let octets pass. -/
theorem firstOctet?_error_passes {failure : Failure} (hs : s.Ready)
    (h : firstOctet? s = .error failure t) : ∃ c, Passes c (s.watch false) t := by
  have hfirst : ∃ m, octet? (s.watch true) = .error failure m ∧ t = m.watch false := by
    unfold firstOctet? Action.afterwards at h
    cases hrun : octet? (s.watch true) with
    | ok found m =>
      simp only [hrun] at h
      cases h
    | error failure' m =>
      simp only [hrun] at h
      cases h
      exact ⟨m, rfl, rfl⟩
  obtain ⟨m, hm, rfl⟩ := hfirst
  rcases hs.cases with ⟨-, htrue, hfalse, hpassing⟩ | ⟨-, below, hbelow, htrue, hfalse⟩
  · rw [htrue] at hm
    have hpasses := octet?_error_passes hpassing hm
    rw [hfalse, hpasses.watch_eq hfalse]
    exact ⟨[], hpasses⟩
  · rw [htrue] at hm
    obtain ⟨c, u, hc, rfl⟩ := octet?_error_watching hbelow hm
    exact ⟨c, by rw [hfalse]; exact hc.enter trivial⟩

/-- Whether the octet behind a zero octet was read ahead or not, the value is taken alike: as if its
first octet had just been delivered. -/
theorem exists_delivers_of_first {first : UInt8} (hs : s.Ready)
    (h : firstOctet? s = .ok (some first) t) :
    ∃ m, Delivers [first] (s.watch false) m ∧
      ∀ scope, behindFirst scope first t = behindFirst scope first m := by
  rcases (firstOctet?_eq_some_iff hs).1 h with ⟨-, ht⟩ | ⟨hmarked, rfl, c, u, -, hu, rfl⟩
  · exact ⟨t, ht, fun _ => rfl⟩
  · obtain ⟨w, hw, hc⟩ := delivers_append.1 (show Delivers ([0] ++ [c]) (s.watch false) u from hu)
    refine ⟨w, hw, fun scope => ?_⟩
    have hwmarked : w.isMarked := by rw [hw.isMarked, isMarked_watch, hmarked]
    have hlength : Length.take scope.limit (u.keepAhead c) = Length.take scope.limit w :=
      Length.take_congr (octet_eq_of_keepAhead (hw.passing hs) hwmarked hc)
    -- an identifier that is zero ends with its first octet
    show (Length.take scope.limit >>= _) (u.keepAhead c) = (Length.take scope.limit >>= _) w
    simp only [Bind.bind, EStateM.bind, hlength]

theorem behindFirst_took_of_first {first : UInt8} (hs : s.Ready)
    (h : firstOctet? s = .ok (some first) t) :
    Took scope (s.watch false) (behindFirst scope first t) := by
  obtain ⟨m, hm, hsame⟩ := exists_delivers_of_first hs h
  rw [hsame]
  exact (behindFirst_took first (hm.passing hs)).behind hm.passes

/-! ## The next value -/

/-- What taking the next value of a settled source can lead to. -/
inductive Leads (scope : Scope) (before : Source) :
    EStateM.Result Failure Source (Option Item) → Prop where
  /-- The innermost region was closed before. -/
  | closed {below : Source} (hbelow : below.Passing)
    (h : before = below.enter (.marked { watching := false, closed := true })) :
    Leads scope before (.ok none before)
  /-- There are no more octets, and no marker is needed. -/
  | ended {after : Source} (hs : before.Ready) (hmarked : before.isMarked = false)
    (h : Passes [] (before.watch false) after) : Leads scope before (.ok none after)
  /-- The innermost region is closed by its marker. -/
  | marker {after : Source} (hs : before.Ready) (hmarked : before.isMarked)
    (h : Delivers [0, 0] (before.watch false) after) : Leads scope before (.ok none after.close)
  /-- A value that is no container was taken. -/
  | value {item : Item} {octets : Octets} {after : Source} (hs : before.Ready)
    (hitem : item.isContainer = false) (h : Passes octets (before.watch false) after) :
    Leads scope before (.ok (some item) after)
  /-- A container was opened. -/
  | container {form : Form} {region : Region} {octets : Octets} {behind : Source}
    (hs : before.Ready) (hfresh : region.Fresh) (h : Passes octets (before.watch false) behind) :
    Leads scope before (.ok (some (.container
      ⟨form, (scope.lower before.available).inside region, region.isMarked⟩))
      (behind.enter region))
  | failure {failure : Failure} {octets : Octets} {after : Source} (hs : before.Ready)
    (h : Passes octets (before.watch false) after) : Leads scope before (.error failure after)

/-- Where there is no first octet, there is no next value. -/
theorem leads_of_ended (hs : s.Ready) (h : firstOctet? s = .ok none t) :
    Leads scope s (.ok none t) := by
  rcases (firstOctet?_eq_none_iff hs).1 h with ⟨hmarked, hnone⟩ | ⟨hmarked, u, hu, rfl⟩
  · refine .ended hs hmarked ?_
    rcases hs.cases with ⟨-, -, hfalse, hpassing⟩ | ⟨htrue, -⟩
    · rw [hfalse]
      exact octet?_none_passes hpassing hnone
    · rw [hmarked] at htrue
      cases htrue
  · exact .marker hs hmarked hu

/-- All that taking the next value can lead to. -/
theorem next_leads (hs : s.Settled) : Leads scope s (next scope s) := by
  rcases hs with hready | ⟨below, hbelow, rfl⟩
  · rw [next_eq]
    rcases hfirst : firstOctet? s with ⟨_ | first, t⟩ | ⟨failure, t⟩
    · exact leads_of_ended hready hfirst
    · have htook : Took (scope.lower s.available) (s.watch false)
          (behindFirst (scope.lower s.available) first t) :=
        behindFirst_took_of_first hready hfirst
      dsimp only
      generalize behindFirst (scope.lower s.available) first t = result at htook
      cases htook with
      | value hitem h => exact .value hready hitem h
      | container hfresh h => exact .container hready hfresh h
      | failure h => exact .failure hready h
    · obtain ⟨c, hc⟩ := firstOctet?_error_passes hready hfirst
      exact .failure hready hc
  · rw [next_eq_none_iff.2 (firstOctet?_closed below)]
    exact .closed hbelow rfl

/-! ## Advancing -/

theorem Advances.append (hc : Advances c s t) (he : Advances e t u) : Advances (c ++ e) s u := by
  refine ⟨he.settled, ?_, ?_, ?_, ?_⟩
  · rw [he.position, hc.position, List.length_append, Nat.add_assoc]
  · rw [hc.rest, he.rest, List.append_assoc]
  · have hsplit : t.regions.map (·.outline.spend e.length) =
        (t.regions.map (·.outline)).map (·.spend e.length) := by
      rw [List.map_map]
      rfl
    rw [he.outlines, hsplit, hc.outlines, List.map_map, List.length_append]
    exact List.map_congr_left fun region _ => (Region.spend_add _ _ region.outline).symm
  · intro region hmem
    rw [List.length_append]
    refine Region.hasRoom_add.2 ⟨hc.room region hmem, ?_⟩
    -- the region is found again in between, up to the state of the search for its marker
    have hspent : region.outline.spend c.length ∈ t.regions.map (·.outline) := by
      rw [hc.outlines]
      exact List.mem_map.2 ⟨region, hmem, rfl⟩
    obtain ⟨between, hbetween, houtline⟩ := List.mem_map.1 hspent
    have hroom := Region.hasRoom_outline.2 (he.room between hbetween)
    rw [houtline, ← Region.outline_spend] at hroom
    exact Region.hasRoom_outline.1 hroom

/-- What advances inside a region advances the source around it. -/
theorem Advances.leave {region : Region} (h : Advances c (s.enter region) t) :
    Advances c s t.leave := by
  refine ⟨.inl h.settled.leave.ready, h.position, h.rest, ?_, ?_⟩
  · have houtlines : t.regions.tail.map (·.outline) =
        (t.regions.map (·.outline)).tail := List.map_tail ..
    show t.regions.tail.map (·.outline) = _
    rw [houtlines, h.outlines]
    rfl
  · intro r hr
    exact h.room r (List.mem_cons_of_mem _ hr)

/-- Unless a container is opened, taking the next value advances the source. -/
theorem Leads.advances {result : EStateM.Result Failure Source (Option Item)}
    (h : Leads scope s result)
    (hopened : ∀ container t, result ≠ .ok (some (.container container)) t) :
    ∃ c, Advances c s (Action.final result) := by
  cases h with
  | closed hbelow h => exact ⟨[], Settled.advances_nil (.inr ⟨_, hbelow, h⟩)⟩
  | ended hs hmarked h => exact ⟨[], h.advances hs⟩
  | marker hs hmarked h => exact ⟨[0, 0], (h.advances_close hs hmarked).1⟩
  | value hs hitem h => exact ⟨_, h.advances hs⟩
  | container hs hfresh h => exact absurd rfl (hopened _ _)
  | failure hs h => exact ⟨_, h.advances hs⟩

/-- If a container is opened, the source is advanced to its content. -/
theorem Leads.opens {container : Container}
    (h : Leads scope s (.ok (some (.container container)) t)) :
    s.Ready ∧ ∃ c region behind, region.Fresh ∧ behind.Passing ∧ Advances c s behind ∧
      t = behind.enter region ∧ container.scope = (scope.lower s.available).inside region ∧
      container.isIndefinite = region.isMarked := by
  cases h with
  | value hs hitem h => cases hitem
  | container hs hfresh h =>
    exact ⟨hs, _, _, _, hfresh, h.passing hs, h.advances hs, rfl, rfl, rfl⟩

/-! ## Reading as a whole -/

/-- An action that only advances a settled source, whether it fails or not. -/
def Proceeding (action : Taking α) : Prop :=
  ∀ s, s.Settled → ∃ c, Advances c s (Action.final (action s))

/-- An action that starts in a region just opened, gives it up, and only advances the source. -/
def Leaving (action : Taking α) : Prop :=
  ∀ (s : Source) (region : Region), s.Passing → region.Fresh →
    ∃ c, Advances c s (Action.final (action (s.enter region)))

/-- A region just opened is settled. -/
theorem Passing.settled_enter {region : Region} (hs : s.Passing) (hfresh : region.Fresh) :
    (s.enter region).Settled := .inl (hs.ready_enter hfresh)

/-- The region may be given up afterwards. -/
theorem Proceeding.leaving {action : Taking α} (haction : Proceeding action) :
    Leaving (Action.afterwards leave action) := by
  intro s region hs hfresh
  obtain ⟨c, hc⟩ := haction (s.enter region) (hs.settled_enter hfresh)
  rw [Action.final_afterwards]
  exact ⟨c, hc.leave⟩

/-- What is done inside a container and gives it up advances the source from in front of it. -/
theorem Leads.leaving {container : Container} {action : Taking α}
    (h : Leads scope s (.ok (some (.container container)) t)) (haction : Leaving action) :
    ∃ c, Advances c s (Action.final (action t)) := by
  obtain ⟨-, c, region, behind, hfresh, hbehind, hc, rfl, -, -⟩ := h.opens
  obtain ⟨e, he⟩ := haction behind region hbehind hfresh
  exact ⟨c ++ e, hc.append he⟩

/-- Taking the content of a definite region only advances the source. -/
theorem remainder_proceeds : Proceeding remainder := by
  intro s hs
  rcases s with ⟨regions, reader⟩
  match regions with
  | [] => exact ⟨[], hs.advances_nil⟩
  | .marked state :: below => exact ⟨[], hs.advances_nil⟩
  | .definite remaining :: below =>
    have hready : (⟨.definite remaining :: below, reader⟩ : Source).Ready := by
      rcases hs with hready | ⟨below', -, hsame⟩
      · exact hready
      · cases hsame
    obtain ⟨c, hc⟩ := (Octetwise.of_scans (octets_scans remaining)).passes hready
    exact ⟨c, hc.advances hready⟩

/-- Advancing settled sources is a course that reading takes. -/
def advancing : Course where
  starts := Settled
  leads s t := ∃ c, Advances c s t
  refl hs := ⟨[], hs.advances_nil⟩
  trans := fun ⟨c, hc⟩ ⟨e, he⟩ => ⟨c ++ e, hc.append he⟩
  starts_of_leads := fun _ ⟨_, hc⟩ => hc.settled
  remainder := fun hs => remainder_proceeds _ hs
  next := fun hs hnone => (next_leads hs).advances hnone
  opens := by
    intro scope s t container hs hrun
    have hleads : Leads scope s (next scope s) := next_leads hs
    rw [hrun] at hleads
    obtain ⟨-, c, region, behind, hfresh, hbehind, hc, rfl, -, -⟩ := hleads.opens
    exact ⟨hbehind.settled_enter hfresh, fun u ⟨e, he⟩ => ⟨c ++ e, hc.append he.leave⟩⟩

/-- Joining segments only advances the source. -/
theorem joinedWithin_proceeds (bound : Nat) (scope : Scope) (pieces : List Octets) :
    Proceeding (joinedWithin bound scope pieces) := advancing.joinedWithin bound scope pieces

/-- Reading a container only advances the source, if draining and joining do. -/
theorem contentsWith_proceeds {drain : Scope → Taking (List Element)}
    {join : Scope → Taking Octets} (hdrain : ∀ scope, Proceeding (drain scope))
    (hjoin : ∀ scope, Proceeding (join scope)) (container : Container) :
    Proceeding (contentsWith drain join container) :=
  @Course.contentsWith advancing _ _ hdrain hjoin container

/-- Draining only advances the source. -/
theorem elementsWithin_proceeds (bound : Nat) (scope : Scope) (taken : List Element) :
    Proceeding (elementsWithin bound scope taken) := advancing.elementsWithin bound scope taken

theorem joinedFrom_proceeds (scope : Scope) (pieces : List Octets) :
    Proceeding (joinedFrom scope pieces) := advancing.joinedFrom scope pieces

theorem contents_proceeds (container : Container) : Proceeding (contents container) :=
  advancing.contents container

/-- Taking the next value as a whole only advances the source. -/
theorem nextElement_proceeds (scope : Scope) : Proceeding (nextElement scope) :=
  advancing.nextElement scope

end Source
end Ber
