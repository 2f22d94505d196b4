import Ber.Proofs.Aftermath

/-!
# Ber.Proofs.Extending — octets that arrive behind

Reading looks no further than it has to. If more arrives behind the octets of a source
(`Source.extend`), an action does there what it does without, unless it has run into the end of the
shorter source (`Source.CutOff`): then it has failed, as the octets end too early, and no octet is
left.

1. `Source.Unaffected` says so of an action. An octet that has to be there is taken so
   (`Source.octet_unaffected`), and any octet in an open region (`Source.octet?_unaffected`); outside
   of all regions the end of the octets is an end like any other, and taking a value may end there.
2. From there it holds of whatever is read: the next value (`Source.next_unaffected`), and reading as
   a whole (`Source.elementsFrom_unaffected`, `Source.nextElement_unaffected`).
-/

namespace Ber

/-! ## Outcomes of extended states -/

/-- What an outcome has to do with the one in an extended state: it is the same there, but for the
extension, unless the action was cut off. -/
def Action.Extends {σ α : Type} (extend : σ → σ) (cut : Failure → σ → Prop) :
    EStateM.Result Failure σ α → EStateM.Result Failure σ α → Prop
  | .ok a after, longer => longer = .ok a (extend after)
  | .error failure after, longer => cut failure after ∨ longer = .error failure (extend after)

section
variable {σ α : Type} {supply : Supply σ} {extend : σ → σ} {cut : Failure → σ → Prop}

/-- An action has the same outcome in the extended state, or it was cut off. -/
theorem Action.Extends.outcomes {result longer : EStateM.Result Failure σ α}
    (h : Extends extend cut result longer) :
    (∃ a after, result = .ok a after ∧ longer = .ok a (extend after)) ∨
      (∃ failure after, result = .error failure after ∧ longer = .error failure (extend after)) ∨
      ∃ failure after, result = .error failure after ∧ cut failure after := by
  cases result with
  | ok a after => exact .inl ⟨a, after, rfl, h⟩
  | error failure after =>
    rcases h with hcut | hsame
    · exact .inr (.inr ⟨failure, after, rfl, hcut⟩)
    · exact .inr (.inl ⟨failure, after, rfl, hsame⟩)

/-- A region over a supply does not look further than the supply. -/
theorem Region.take_extends
    (hrequire : ∀ below,
      Action.Extends extend cut (supply.require below) (supply.require (extend below)))
    (region : Region) (below : σ) :
    Action.Extends (fun state => (state.1, extend state.2)) (fun failure state => cut failure state.2)
      (Region.take supply (region, below)) (Region.take supply (region, extend below)) := by
  match region with
  | .definite 0 => rfl
  | .definite (remaining + 1) =>
    simp only [Region.take]
    rcases (hrequire below).outcomes with ⟨octet, after, hrun, hsame⟩ |
      ⟨failure, after, hrun, hsame⟩ | ⟨failure, after, hrun, hcut⟩
    · rw [hrun, hsame]
      rfl
    · rw [hrun, hsame]
      exact .inr rfl
    · rw [hrun]
      exact .inl hcut
  | .marked state =>
    have hpeek : Action.Extends extend cut (Region.peeked supply state.ahead below)
        (Region.peeked supply state.ahead (extend below)) := by
      cases state.ahead with
      | none => exact hrequire below
      | some octet => rfl
    simp only [Region.take]
    by_cases hclosed : state.closed
    · simp only [if_pos hclosed]
      rfl
    simp only [if_neg hclosed]
    rcases hpeek.outcomes with ⟨first, between, hrun, hsame⟩ |
      ⟨failure, after, hrun, hsame⟩ | ⟨failure, after, hrun, hcut⟩
    · rw [hrun, hsame]
      by_cases hzero : (state.watching && first == 0) = true
      · -- a zero octet: the second octet decides
        simp only [if_pos hzero]
        rcases (hrequire between).outcomes with ⟨second, after, hrun, hsame⟩ |
          ⟨failure, after, hrun, hsame⟩ | ⟨failure, after, hrun, hcut⟩
        · rw [hrun, hsame]
          by_cases hmarker : (second == 0) = true
          · simp only [if_pos hmarker]
            rfl
          · simp only [if_neg hmarker]
            rfl
        · rw [hrun, hsame]
          exact .inr rfl
        · rw [hrun]
          exact .inl hcut
      · simp only [if_neg hzero]
        rfl
    · rw [hrun, hsame]
      exact .inr rfl
    · rw [hrun]
      exact .inl hcut
end

namespace Source

variable {s t : Source} {scope : Scope} {tail : List Arrival} {α β : Type}

/-! ## More behind a source -/

/-- A source behind whose octets more arrives. -/
def extend (tail : List Arrival) (source : Source) : Source :=
  ⟨source.regions, ⟨source.reader.arrivals ++ tail, source.reader.position⟩⟩

theorem extend_leave : s.leave.extend tail = (s.extend tail).leave := rfl

theorem extend_watch (enabled : Bool) :
    (s.watch enabled).extend tail = (s.extend tail).watch enabled := rfl

/-- A failure at the end of the octets: nothing arrives any more, and that is what failed. -/
structure CutOff (failure : Failure) (after : Source) : Prop where
  arrivals : after.reader.arrivals = []
  failure : failure = ⟨.truncated, after.position⟩

/-- What an action does is not affected by what arrives behind, unless it is cut off. -/
def Unaffected (tail : List Arrival) (action : Taking α) (s : Source) : Prop :=
  Action.Extends (extend tail) CutOff (action s) (action (s.extend tail))

namespace Unaffected

theorem pure (a : α) (s : Source) : Unaffected tail (pure a) s := rfl

theorem fail (cause : Cause) (s : Source) : Unaffected tail (fail cause : Taking α) s := .inr rfl

theorem throw (failure : Failure) (s : Source) :
    Unaffected tail (throw failure : Taking α) s := .inr rfl

/-- Sequences go on where their first action has led, with the same behind. -/
theorem bind {action : Taking α} {rest : α → Taking β} (haction : Unaffected tail action s)
    (hrest : ∀ a m, action s = .ok a m → Unaffected tail (rest a) m) :
    Unaffected tail (action >>= rest) s := by
  unfold Unaffected
  simp only [Bind.bind, EStateM.bind]
  rcases haction.outcomes with ⟨a, m, hrun, hsame⟩ | ⟨failure, m, hrun, hsame⟩ |
    ⟨failure, m, hrun, hcut⟩
  · rw [hrun, hsame]
    exact hrest a m hrun
  · rw [hrun, hsame]
    exact .inr rfl
  · rw [hrun]
    exact .inl hcut

/-- A change afterwards that has nothing to do with the reader. -/
theorem afterwards {change : Source → Source} {action : Taking α}
    (hextend : ∀ t, (change t).extend tail = change (t.extend tail))
    (hreader : ∀ t, (change t).reader = t.reader) (haction : Unaffected tail action s) :
    Unaffected tail (Action.afterwards change action) s := by
  unfold Unaffected Action.afterwards
  rcases haction.outcomes with ⟨a, m, hrun, hsame⟩ | ⟨failure, m, hrun, hsame⟩ |
    ⟨failure, m, hrun, hcut⟩
  · rw [hrun, hsame]
    show EStateM.Result.ok a (change (m.extend tail)) = _
    rw [← hextend]
  · rw [hrun, hsame]
    right
    show EStateM.Result.error failure (change (m.extend tail)) = _
    rw [← hextend]
  · rw [hrun]
    left
    have hposition : (change m).position = m.position := congrArg Reader.position (hreader m)
    refine ⟨?_, ?_⟩
    · rw [hreader]
      exact hcut.arrivals
    · rw [hcut.failure, hposition]

/-- The innermost region may be given up afterwards. -/
theorem leaving {action : Taking α} (haction : Unaffected tail action s) :
    Unaffected tail (Action.afterwards leave action) s :=
  haction.afterwards (fun _ => extend_leave.symm) fun _ => rfl

/-- An action that takes all that arrives, and some of it behind, is cut off without that. -/
theorem cutOff {action : Taking α} {a : α} (h : Unaffected tail action s) (htail : tail ≠ [])
    (hlonger : action (s.extend tail) = .ok a t) (hend : t.reader.arrivals = []) :
    ∃ failure after, action s = .error failure after ∧ CutOff failure after := by
  rcases h.outcomes with ⟨b, after, hrun, hsame⟩ | ⟨failure, after, hrun, hsame⟩ |
    ⟨failure, after, hrun, hcut⟩
  · -- what arrives behind would be left over
    have hsource : t = after.extend tail :=
      (EStateM.Result.ok.inj (hlonger.symm.trans hsame)).2
    rw [hsource] at hend
    exact absurd (List.append_eq_nil_iff.1 hend).2 htail
  · cases hlonger.symm.trans hsame
  · exact ⟨failure, after, hrun, hcut⟩

end Unaffected

/-- What is cut off fails behind all octets. -/
theorem CutOff.eq {c : Octets} {failure : Failure} (h : CutOff failure t) (hc : Advances c s t) :
    failure = ⟨.truncated, s.position + s.rest.length⟩ := by
  have hrest : t.rest = [] := by
    unfold rest Reader.octetsLeft
    rw [h.arrivals]
    rfl
  have hread : s.rest = c := by
    rw [hc.rest, hrest, List.append_nil]
  rw [h.failure, hc.position, hread]

/-! ## Taking octets -/

/-- A reader that is not at its end does not notice what arrives behind. -/
theorem nextFrom_extend (position : Nat) (arrivals : List Arrival) :
    match Reader.nextFrom position arrivals with
    | .ok (some octet) after => Reader.nextFrom position (arrivals ++ tail) =
      .ok (some octet) ⟨after.arrivals ++ tail, after.position⟩
    | .ok none after => after = ⟨[], position⟩
    | .error failure after => Reader.nextFrom position (arrivals ++ tail) =
      .error failure ⟨after.arrivals ++ tail, after.position⟩ := by
  fun_induction Reader.nextFrom position arrivals with
  | case1 => rfl
  | case2 value rest => rfl
  | case3 rest ih => exact ih
  | case4 reason rest => rfl

/-- A reader that is asked is at its end, or does not notice what arrives behind. -/
theorem takeThrough_zero_extends (tail : List Arrival) (s : Source) :
    (∃ t, takeThrough 0 s = .ok none t ∧ t.reader.arrivals = []) ∨
      Unaffected tail (takeThrough 0) s := by
  have hreader := @nextFrom_extend tail s.reader.position s.reader.arrivals
  unfold Unaffected
  simp only [takeThrough, Reader.next, extend]
  rcases hrun : Reader.nextFrom s.reader.position s.reader.arrivals with
    ⟨_ | octet, after⟩ | ⟨failure, after⟩
  · rw [hrun] at hreader
    left
    refine ⟨⟨s.regions, after⟩, rfl, ?_⟩
    rw [hreader]
  · rw [hrun] at hreader
    right
    simp only [hreader]
    rfl
  · rw [hrun] at hreader
    right
    simp only [hreader]
    exact .inr rfl

/-- An octet that has to be there is taken alike if any octet is. -/
theorem require_of_unaffected {take : Taking (Option UInt8)} (h : Unaffected tail take s) :
    Unaffected tail (Supply.require ⟨take, position⟩) s := by
  unfold Unaffected
  simp only [Supply.require]
  rcases h.outcomes with ⟨_ | octet, after, hrun, hsame⟩ | ⟨failure, after, hrun, hsame⟩ |
    ⟨failure, after, hrun, hcut⟩
  · -- an end that is found is found with more behind
    simp only [hrun, hsame]
    exact .inr rfl
  · simp only [hrun, hsame]
    rfl
  · simp only [hrun, hsame]
    exact .inr rfl
  · simp only [hrun]
    exact .inl hcut

/-- At the end of the reader, an octet that has to be there is cut off. -/
theorem require_zero_unaffected (s : Source) :
    Unaffected tail (Supply.require ⟨takeThrough 0, position⟩) s := by
  rcases takeThrough_zero_extends tail s with ⟨t, hnone, hdry⟩ | h
  · have hrequire : Supply.require ⟨takeThrough 0, position⟩ s =
        .error ⟨.truncated, t.position⟩ t := by
      simp only [Supply.require, hnone]
    unfold Unaffected
    rw [hrequire]
    exact .inl ⟨hdry, rfl⟩
  · exact require_of_unaffected h

/-- A region takes octets alike if those below it do. -/
theorem takeThrough_unaffected {height : Nat}
    (hrequire : ∀ s, Unaffected tail (Supply.require ⟨takeThrough height, position⟩) s)
    (region : Region) (below : List Region) (reader : Reader) :
    Unaffected tail (takeThrough (height + 1)) ⟨region :: below, reader⟩ := by
  have htake := Region.take_extends hrequire region ⟨below, reader⟩
  unfold Unaffected
  simp only [takeThrough, extend] at htake ⊢
  rcases htake.outcomes with ⟨found, after, hrun, hsame⟩ | ⟨failure, after, hrun, hsame⟩ |
    ⟨failure, after, hrun, hcut⟩
  · rw [hrun, hsame]
    rfl
  · rw [hrun, hsame]
    exact .inr rfl
  · rw [hrun]
    exact .inl ⟨hcut.arrivals, hcut.failure⟩

/-- An octet that has to be there is taken alike, through any number of regions. -/
theorem require_unaffected (height : Nat) (s : Source) :
    Unaffected tail (Supply.require ⟨takeThrough height, position⟩) s := by
  induction height generalizing s with
  | zero => exact require_zero_unaffected s
  | succ height ih =>
    rcases s with ⟨regions, reader⟩
    cases regions with
    | nil => exact require_zero_unaffected ⟨[], reader⟩
    | cons region below => exact require_of_unaffected (takeThrough_unaffected ih region below reader)

theorem octet_unaffected (s : Source) : Unaffected tail octet s := by
  have hrequire : ∀ s : Source,
      octet s = Supply.require ⟨takeThrough s.regions.length, position⟩ s := by
    intro s
    simp only [octet, octet?, Supply.require, Bind.bind, EStateM.bind]
    rcases takeThrough s.regions.length s with ⟨_ | octet, after⟩ | ⟨failure, after⟩ <;> rfl
  unfold Unaffected
  rw [hrequire, hrequire]
  exact require_unaffected s.regions.length s

/-- In an open region, and outside of all regions where an octet is left, any octet is taken alike. -/
theorem octet?_unaffected (h : s.regions = [] → ∀ t, octet? s ≠ .ok none t) :
    Unaffected tail octet? s := by
  rcases s with ⟨regions, reader⟩
  cases regions with
  | nil =>
    rcases takeThrough_zero_extends tail ⟨[], reader⟩ with ⟨t, hnone, -⟩ | htaken
    · exact absurd hnone (h rfl t)
    · exact htaken
  | cons region below =>
    exact takeThrough_unaffected (fun s => require_unaffected below.length s) region below reader

/-- The first octet of a value is taken alike, unless it is looked for at the end of all octets. -/
theorem firstOctet?_unaffected (h : s.regions = [] → ∀ t, firstOctet? s ≠ .ok none t) :
    Unaffected tail firstOctet? s := by
  have hwatched : (s.watch true).regions = [] → ∀ t, octet? (s.watch true) ≠ .ok none t := by
    intro hregions t hnone
    have hempty : s.regions = [] := by
      rcases s with ⟨regions, reader⟩
      cases regions with
      | nil => rfl
      | cons region below => cases hregions
    exact h hempty _ (firstOctet?_eq_ok.2 ⟨t, hnone, rfl⟩)
  have hlooked : Unaffected tail (fun source => octet? (source.watch true)) s :=
    octet?_unaffected hwatched
  exact hlooked.afterwards (fun _ => (extend_watch false).symm) fun _ => rfl

/-- Taking octets up to the end of a region. -/
theorem exhaust_unaffected (hregions : s.regions ≠ []) : Unaffected tail exhaust s := by
  generalize hleft : s.left = left
  induction left using Nat.strongRecOn generalizing s with
  | ind left ih =>
    subst hleft
    have hoctet : Unaffected tail octet? s :=
      octet?_unaffected fun hempty => absurd hempty hregions
    have hlength := takeThrough_keeps_length s.regions.length s.regions.length s rfl
    unfold Unaffected
    rcases hoctet.outcomes with ⟨_ | octet, t, hrun, hsame⟩ | ⟨failure, t, hrun, hsame⟩ |
      ⟨failure, t, hrun, hcut⟩
    · rw [exhaust_of_none hrun, exhaust_of_none hsame]
      rfl
    · rw [exhaust_of_some hrun, exhaust_of_some hsame]
      have hless := left_of_octet?_eq_ok hrun
      have hopen : t.regions ≠ [] := by
        intro hempty
        rw [show takeThrough s.regions.length s = .ok (some octet) t from hrun] at hlength
        have hzero : s.regions.length = 0 := by
          rw [← hlength]
          exact congrArg List.length hempty
        exact hregions (List.length_eq_zero_iff.1 hzero)
      exact ih _ (by omega) hopen rfl
    · rw [exhaust_of_error hrun, exhaust_of_error hsame]
      exact .inr rfl
    · rw [exhaust_of_error hrun]
      exact .inl hcut

/-- Skipping is done in a region of its own. -/
theorem within_skipToEnd_unaffected (s : Source) :
    Unaffected tail (within (.marked {}) skipToEnd) s := by
  have hskipped : Unaffected tail exhaust (s.enter (.marked {})) :=
    exhaust_unaffected fun hempty => nomatch hempty
  have hinside : Unaffected tail (fun source => skipToEnd (source.enter (.marked {}))) s := hskipped
  exact hinside.leaving

/-- What is put together from taking octets is done alike. -/
theorem Unaffected.of_scans {action : Taking α} (h : Scans action) (s : Source) :
    Unaffected tail action s := by
  induction h generalizing s with
  | pure a => exact .pure a s
  | fail cause => exact .fail cause s
  | octet => exact octet_unaffected s
  | skip => exact within_skipToEnd_unaffected s
  | bind _ _ haction hrest => exact (haction s).bind fun a m _ => hrest a m

theorem remainder_unaffected (s : Source) : Unaffected tail remainder s := by
  rcases s with ⟨regions, reader⟩
  match regions with
  | [] => exact .inr rfl
  | .marked state :: below => exact .inr rfl
  | .definite remaining :: below => exact Unaffected.of_scans (octets_scans remaining) _

/-! ## Taking values -/

/-- A container is entered alike, and other content is read alike. -/
theorem item_unaffected (identifier : Identifier) (content : Content) (s : Source) :
    Unaffected tail (item scope identifier content) s := by
  by_cases hentered : ∃ form region, content = .entered form region
  · obtain ⟨form, region, rfl⟩ := hentered
    have hopen : Unaffected tail (open? scope form region) s := by
      unfold Unaffected open?
      by_cases hdeep : scope.maxDepth ≤ scope.depth
      · rw [if_pos hdeep, if_pos hdeep]
        exact .inr rfl
      · rw [if_neg hdeep, if_neg hdeep]
        rfl
    exact hopen.bind fun _ _ _ => .pure _ _
  · exact .of_scans (item_scans fun form region h => hentered ⟨form, region, h⟩) s

/-- What follows the first octet of a value is the same, if that is. -/
theorem header_unaffected (lowered : Scope) (hfirst : Unaffected tail firstOctet? s) :
    Unaffected tail (do
      match ← firstOctet? with
      | none => return none
      | some first =>
        let identifier ← Identifier.after first
        let length ← Length.take lowered.limit
        return some (← item lowered identifier (.of identifier length))) s := by
  refine hfirst.bind fun found m _ => ?_
  cases found with
  | none => exact .pure _ _
  | some first =>
    refine (Unaffected.of_scans (Identifier.after_scans first) m).bind fun identifier m' _ => ?_
    refine (Unaffected.of_scans (Length.take_scans _) m').bind fun length m'' _ => ?_
    exact (item_unaffected identifier _ m'').bind fun _ _ _ => .pure _ _

/-- The next value is the same, whatever arrives behind, unless none is found at the end of all
octets. -/
theorem next_unaffected (h : s.regions = [] → ∀ t, next scope s ≠ .ok none t) :
    Unaffected tail (next scope) s := by
  have hfirst : Unaffected tail firstOctet? s :=
    firstOctet?_unaffected fun hregions t hnone => h hregions t (next_eq_none_iff.2 hnone)
  have hheader := header_unaffected (scope.lower s.available) hfirst
  unfold Unaffected at hheader ⊢
  exact hheader

/-! ## Reading as a whole -/

/-- Reading neither opens nor closes a region for good. -/
theorem Advances.regions_ne_nil {c : Octets} (h : Advances c s t) (hregions : s.regions ≠ []) :
    t.regions ≠ [] := by
  intro hempty
  have houtlines := h.outlines
  rw [hempty] at houtlines
  exact hregions (List.map_eq_nil_iff.1 houtlines.symm)

/-- What is done with the next value of an open region, if all that can be is done alike. -/
theorem unaffected_of_next {α : Type} {use : Option Item → Taking α} (hs : s.Settled)
    (h : s.regions = [] → ∀ t, next scope s ≠ .ok none t)
    (hended : ∀ m, Unaffected tail (use none) m)
    (hvalue : ∀ item m, item.isContainer = false → next scope s = .ok (some item) m →
      m.Settled → (s.regions ≠ [] → m.regions ≠ []) → Unaffected tail (use (some item)) m)
    (hcontainer : ∀ container (behind : Source) (region : Region), behind.Passing →
      region.Fresh → next scope s = .ok (some (.container container)) (behind.enter region) →
      (s.regions ≠ [] → behind.regions ≠ []) →
      Unaffected tail (use (some (.container container))) (behind.enter region)) :
    Unaffected tail (next scope >>= use) s := by
  refine (next_unaffected h).bind fun found m hnext => ?_
  have hleads : Leads scope s (.ok found m) := hnext ▸ next_leads hs
  match found with
  | none => exact hended m
  | some (.container container) =>
    obtain ⟨-, c, region, behind, hfresh, hbehind, hc, rfl, -, -⟩ := hleads.opens
    exact hcontainer container behind region hbehind hfresh hnext hc.regions_ne_nil
  | some (.primitive value) =>
    obtain ⟨c, hc⟩ := hleads.advances fun container t hopened => nomatch hopened
    exact hvalue _ m rfl hnext hc.settled hc.regions_ne_nil
  | some (.uninterpreted identifier content) =>
    obtain ⟨c, hc⟩ := hleads.advances fun container t hopened => nomatch hopened
    exact hvalue _ m rfl hnext hc.settled hc.regions_ne_nil

/-- Segments of an open region are joined alike. -/
theorem joinedFrom_unaffected (scope : Scope) (pieces : List Octets) (hs : s.Settled)
    (hregions : s.regions ≠ []) : Unaffected tail (joinedFrom scope pieces) s := by
  generalize hleft : s.left = left
  induction left using Nat.strongRecOn generalizing scope pieces s with
  | ind left ih =>
    subst hleft
    unfold Unaffected
    rw [joinedFrom_eq, joinedFrom_eq]
    refine unaffected_of_next hs (fun hempty => absurd hempty hregions) (fun m => .pure _ m) ?_ ?_
    · intro item m hitem hnext hm hopen
      match item with
      | .container container => cases hitem
      | .uninterpreted identifier content => exact .throw _ m
      | .primitive value =>
        cases value with
        | octetString octets =>
          exact ih _ (left_of_next_eq_ok hnext) scope _ hm (hopen hregions) rfl
        | _ => exact .throw _ m
    · intro container behind region hbehind hfresh hnext hopen
      rcases container with ⟨form, inner, isIndefinite⟩
      have hless := left_of_next_eq_ok hnext
      cases form with
      | octetString =>
        have hsettled : (behind.enter region).Settled := hbehind.settled_enter hfresh
        have hinner : Unaffected tail (joinedFrom inner []) (behind.enter region) :=
          ih _ hless inner [] hsettled (fun hempty => nomatch hempty) rfl
        refine hinner.leaving.bind fun octets m hjoined => ?_
        obtain ⟨c, hc⟩ := (joinedFrom_proceeds inner []).leaving behind region hbehind hfresh
        rw [hjoined] at hc
        have hspent := Sparing.afterwards left_leave (joinedFrom_sparing inner []) _ _ _ hjoined
        exact ih _ (by omega) scope _ hc.settled (hc.regions_ne_nil (hopen hregions)) rfl
      | _ => exact (Unaffected.throw _ _).leaving

/-- A container is read alike if draining and joining are done alike. -/
theorem contentsWith_unaffected {drain : Scope → Taking (List Element)}
    {join : Scope → Taking Octets} (hdrain : ∀ scope, Unaffected tail (drain scope) s)
    (hjoin : ∀ scope, Unaffected tail (join scope) s) (container : Container) :
    Unaffected tail (contentsWith drain join container) s := by
  unfold contentsWith
  cases container.form with
  | sequence => exact (hdrain _).bind fun _ _ _ => .pure _ _
  | set => exact (hdrain _).bind fun _ _ _ => .pure _ _
  | octetString => exact (hjoin _).bind fun _ _ _ => .pure _ _
  | tagged identifier =>
    by_cases hconstructed : identifier.isConstructed
    · simp only [hconstructed, if_true]
      exact (hdrain _).bind fun _ _ _ => .pure _ _
    · simp only [hconstructed]
      exact (remainder_unaffected s).bind fun _ _ _ => .pure _ _

/-- Values of an open region are drained alike. -/
theorem elementsFrom_unaffected (scope : Scope) (taken : List Element) (hs : s.Settled)
    (hregions : s.regions ≠ []) : Unaffected tail (elementsFrom scope taken) s := by
  generalize hleft : s.left = left
  induction left using Nat.strongRecOn generalizing scope taken s with
  | ind left ih =>
    subst hleft
    unfold Unaffected
    rw [elementsFrom_eq, elementsFrom_eq]
    refine unaffected_of_next hs (fun hempty => absurd hempty hregions) (fun m => .pure _ m) ?_ ?_
    · intro item m hitem hnext hm hopen
      have hless := left_of_next_eq_ok hnext
      match item with
      | .container container => cases hitem
      | .uninterpreted identifier content =>
        exact ih _ hless scope _ hm (hopen hregions) rfl
      | .primitive value => exact ih _ hless scope _ hm (hopen hregions) rfl
    · intro container behind region hbehind hfresh hnext hopen
      have hless := left_of_next_eq_ok hnext
      have hsettled : (behind.enter region).Settled := hbehind.settled_enter hfresh
      have hcontents : Unaffected tail (contents container) (behind.enter region) :=
        contentsWith_unaffected
          (fun scope => ih _ hless scope [] hsettled (fun hempty => nomatch hempty) rfl)
          (fun scope => joinedFrom_unaffected scope [] hsettled fun hempty => nomatch hempty)
          container
      refine hcontents.leaving.bind fun element m helement => ?_
      obtain ⟨c, hc⟩ := (contents_proceeds container).leaving behind region hbehind hfresh
      rw [helement] at hc
      have hspent := Sparing.afterwards left_leave (contents_sparing container) _ _ _ helement
      exact ih _ (by omega) scope _ hc.settled (hc.regions_ne_nil (hopen hregions)) rfl

/-- A container is read alike. -/
theorem contents_unaffected (container : Container) (hs : s.Settled) (hregions : s.regions ≠ []) :
    Unaffected tail (contents container) s :=
  contentsWith_unaffected (fun scope => elementsFrom_unaffected scope [] hs hregions)
    (fun scope => joinedFrom_unaffected scope [] hs hregions) container

/-- The next value is read as a whole alike, unless none is found at the end of all octets. -/
theorem nextElement_unaffected (hs : s.Settled)
    (h : s.regions = [] → ∀ t, next scope s ≠ .ok none t) :
    Unaffected tail (nextElement scope) s := by
  refine unaffected_of_next hs h (fun m => .pure _ m) ?_ ?_
  · intro item m hitem hnext hm hopen
    match item with
    | .container container => cases hitem
    | .uninterpreted identifier content => exact .pure _ m
    | .primitive value => exact .pure _ m
  · intro container behind region hbehind hfresh hnext hopen
    have hcontents : Unaffected tail (contents container) (behind.enter region) :=
      contents_unaffected container (hbehind.settled_enter hfresh) fun hempty => nomatch hempty
    exact hcontents.leaving.bind fun _ _ _ => .pure _ _

end Source
end Ber
