import Ber.Proofs.Visiting

/-!
# Ber.Proofs.Remaining — tagged values by their values and by their octets

The content of a tagged value can be pulled value by value and taken as it is, one after the other.
Both read the same octets once.

1. Whatever is done to a source, its reader has been asked for octets and nothing else
   (`Source.asking`). So a reader that would have delivered octets delivers those of them that are
   still to come (`Reader.Asked.delivers`).
2. `Session.Within` says that a container stays open. Beneath what is opened inside it, its source has
   advanced by the octets read (`Session.Within.advances`).
3. So what is left of definite content is taken, however much of it was read before
   (`Source.Present.rest`), and then nothing is left. Indefinite content is never taken, and nothing is
   read then (`Session.readOnce_of_visits`).
-/

namespace Ber

/-! ## Readers that have been asked -/

namespace Reader

/-- What becomes of a reader by asking it for octets, any number of times. -/
inductive Asked (first : Reader) : Reader → Prop where
  | first : Asked first first
  | next {reader : Reader} (h : Asked first reader) : Asked first (Action.final reader.next)

variable {r m u : Reader} {c : Octets}

theorem Asked.trans (h : Asked r m) (h' : Asked m u) : Asked r u := by
  induction h' with
  | first => exact h
  | next _ ih => exact ih.next

/-- Asking for an octet moves on by one octet at most. -/
theorem position_next (r : Reader) : r.position ≤ (Action.final r.next).position := by
  unfold Reader.next
  fun_induction nextFrom r.position r.arrivals <;> simp_all [Action.final]

theorem Asked.position_le (h : Asked r m) : r.position ≤ m.position := by
  induction h with
  | first => exact Nat.le_refl _
  | next _ ih => exact Nat.le_trans ih (position_next _)

/-- Where octets are to be delivered, asking goes through them one by one. -/
theorem Asked.cases (h : Asked r m) (hu : Delivers c r u) :
    (∃ j, j ≤ c.length ∧ m.position = r.position + j ∧ Delivers (c.drop j) m u) ∨ Asked u m := by
  induction h with
  | first => exact .inl ⟨0, Nat.zero_le _, rfl, hu⟩
  | @next m h ih =>
    rcases ih with ⟨j, hj, hm, hrest⟩ | hbehind
    · cases hdrop : c.drop j with
      | nil =>
        -- all of them are delivered, so asking again goes beyond
        rw [hdrop] at hrest
        cases hrest
        exact .inr (.next .first)
      | cons octet e =>
        rw [hdrop] at hrest
        obtain ⟨between, hnext, hrest⟩ := hrest
        have hbetween : between.position = m.position + 1 := (nextFrom_eq_some hnext).2
        have hlength := congrArg List.length hdrop
        simp only [List.length_drop, List.length_cons] at hlength
        refine .inl ⟨j + 1, by omega, ?_, ?_⟩
        · rw [hnext]
          exact hbetween.trans (by omega)
        · rw [hnext, ← List.drop_drop, hdrop]
          exact hrest
    · exact .inr hbehind.next

/-- A reader that has been asked for some of the octets to be delivered delivers the others. -/
theorem Asked.delivers {j : Nat} (h : Asked r m) (hu : Delivers c r u) (hj : j ≤ c.length)
    (hm : m.position = r.position + j) : ∃ last, Delivers (c.drop j) m last := by
  rcases h.cases hu with ⟨i, hi, hposition, hrest⟩ | hbehind
  · obtain rfl : i = j := by omega
    exact ⟨u, hrest⟩
  · have hle := hbehind.position_le
    have hend := hu.position
    obtain rfl : j = c.length := by omega
    rw [List.drop_length]
    exact ⟨m, rfl⟩

end Reader

namespace Source

variable {s t : Source} {reader : Reader} {scope : Scope}

theorem takeThrough_asks (height : Nat) :
    Action.Keeps (fun s : Source => reader.Asked s.reader) (takeThrough height) := by
  have hreading : ∀ s : Source, reader.Asked s.reader →
      reader.Asked (Action.final (takeThrough 0 s)).reader := by
    intro s hs
    have hnext := hs.next
    simp only [takeThrough]
    cases hrun : s.reader.next <;> rw [hrun] at hnext <;> exact hnext
  induction height with
  | zero => exact hreading
  | succ height ih =>
    intro s hs
    rcases s with ⟨_ | ⟨region, below⟩, r⟩
    · exact hreading _ hs
    · have hkept := @Region.take_keeps _ _ ⟨takeThrough height, position⟩ ih (region, ⟨below, r⟩) hs
      simp only [takeThrough]
      cases hrun : Region.take ⟨takeThrough height, position⟩ (region, ⟨below, r⟩) <;>
        rw [hrun] at hkept <;> exact hkept

theorem octet?_asks : Action.Keeps (fun s : Source => reader.Asked s.reader) octet? :=
  fun s hs => takeThrough_asks s.regions.length s hs

theorem firstOctet?_asks : Action.Keeps (fun s : Source => reader.Asked s.reader) firstOctet? :=
  firstOctet?_keeps octet?_asks fun _ _ hs => hs

theorem item_asks (identifier : Identifier) (content : Content) :
    Action.Keeps (fun s : Source => reader.Asked s.reader) (item scope identifier content) := by
  by_cases hentered : ∃ form region, content = .entered form region
  · obtain ⟨form, region, rfl⟩ := hentered
    intro s hs
    by_cases hdeep : scope.maxDepth ≤ scope.depth
    · rw [item_entered_too_deep hdeep]
      exact hs
    · rw [item_entered hdeep]
      exact hs
  · exact Octetwise.of_scans (item_scans fun form region h => hentered ⟨form, region, h⟩) _ octet?_asks

/-- Taking a value only asks the reader. -/
theorem next_asks : Action.Keeps (fun s : Source => reader.Asked s.reader) (next scope) := by
  intro s hs
  refine Action.Keeps.bind firstOctet?_asks (fun found => ?_) s hs
  cases found with
  | none => exact fun _ h => h
  | some first =>
    exact (Octetwise.of_scans (Identifier.after_scans first) _ octet?_asks).bind fun _ =>
      (Octetwise.of_scans (Length.take_scans _) _ octet?_asks).bind fun _ =>
        (item_asks _ _).bind fun _ _ h => h

/-- Asking the reader is a course that reading takes, from any source. -/
def asking : Course where
  starts _ := True
  leads s t := s.reader.Asked t.reader
  refl _ := .first
  trans h h' := h.trans h'
  starts_of_leads _ _ := trivial
  remainder := by
    intro s _
    rcases s with ⟨regions, reader⟩
    match regions with
    | [] => exact .first
    | .marked state :: below => exact .first
    | .definite remaining :: below =>
      exact Octetwise.of_scans (octets_scans remaining) _ octet?_asks _ .first
  next _ _ := next_asks _ .first
  opens := by
    intro scope s t container _ hrun
    have hnext := @next_asks s.reader scope s .first
    rw [hrun] at hnext
    exact ⟨trivial, fun u hu => hnext.trans hu⟩

/-! ## Beneath open regions -/

/-- A source without so many of its innermost regions. -/
def below (height : Nat) (source : Source) : Source :=
  { source with regions := source.regions.drop height }

theorem below_leave (height : Nat) (s : Source) : s.leave.below height = s.below (height + 1) := by
  simp [below, leave, List.drop_tail]

theorem leave_below (height : Nat) (s : Source) : (s.below height).leave = s.below (height + 1) := by
  simp [below, leave]

variable {c e : Octets} {last : Source}

/-- What advances a source advances it beneath the innermost region. -/
theorem Advances.leaves (h : Advances c s t) : Advances c s.leave t.leave := by
  rcases s with ⟨_ | ⟨region, regions⟩, reader⟩
  · have hregions : t.regions = [] := List.map_eq_nil_iff.1 h.outlines
    have ht : t.leave = t := by
      rcases t with ⟨regions, reader'⟩
      obtain rfl : regions = [] := hregions
      rfl
    rw [ht]
    exact h
  · exact @Advances.leave c ⟨regions, reader⟩ t region h

theorem Advances.below (h : Advances c s t) (height : Nat) :
    Advances c (s.below height) (t.below height) := by
  induction height with
  | zero => exact h
  | succ height ih =>
    rw [← leave_below, ← leave_below]
    exact ih.leaves

/-- Room for more octets than those read is room that is left. -/
theorem Advances.room_left (h : Advances e s t) {count : Nat}
    (hroom : ∀ region ∈ s.regions, region.HasRoom (e.length + count)) :
    ∀ region ∈ t.regions, region.HasRoom count := by
  intro region hmem
  have houtline : region.outline ∈ s.regions.map (·.outline.spend e.length) := by
    rw [← h.outlines]
    exact List.mem_map_of_mem hmem
  obtain ⟨origin, horigin, hspent⟩ := List.mem_map.1 houtline
  have hleft := (Region.hasRoom_add.1 (Region.hasRoom_outline.2 (hroom origin horigin))).2
  rw [hspent] at hleft
  exact Region.hasRoom_outline.1 hleft

/-! ## What is left of a definite region -/

/-- All octets that a definite region has left are there. -/
structure Present (c : Octets) (s last : Source) : Prop where
  delivers : Delivers c s last
  whole : last.regions.head? = some (.definite 0)

/-- The innermost region counts the octets that are there. -/
theorem Present.regions (h : Present c s last) : s.regions = .definite c.length :: s.leave.regions := by
  have hregions := h.delivers.regions
  have hroom := h.delivers.room
  have hwhole := h.whole
  rcases s with ⟨_ | ⟨region, below⟩, reader⟩
  · rw [hregions] at hwhole
    cases hwhole
  · rw [hregions] at hwhole
    cases region with
    | marked state => cases hwhole
    | definite remaining =>
      have hspent : remaining - c.length = 0 := Region.definite.inj (Option.some.inj hwhole)
      have hle : c.length ≤ remaining := hroom (.definite remaining) List.mem_cons_self
      obtain rfl : remaining = c.length := by omega
      rfl

/-- A source is what is around its innermost region, with that region open. -/
theorem eq_enter_leave {region : Region} (h : s.regions.head? = some region) :
    s = s.leave.enter region := by
  rcases s with ⟨_ | ⟨head, below⟩, reader⟩
  · cases h
  · cases h
    rfl

/-- A source in a definite region that is settled lets octets pass. -/
theorem Settled.passing_of_definite {remaining : Nat} {below : List Region} (hs : s.Settled)
    (hregions : s.regions = .definite remaining :: below) : s.Passing := by
  rcases s with ⟨regions, reader⟩
  obtain rfl : regions = _ := hregions
  rcases hs with hready | ⟨_, -, hclosed⟩
  · exact hready
  · cases hclosed

/-- A definite region that octets are read in remains definite, and counts them. -/
theorem Advances.definite {count : Nat} {below : List Region} (h : Advances e s t)
    (hregions : s.regions = .definite count :: below) :
    e.length ≤ count ∧ ∃ below', t.regions = .definite (count - e.length) :: below' := by
  have hroom := h.room
  have houtlines := h.outlines
  rw [hregions] at hroom houtlines
  refine ⟨hroom (.definite count) List.mem_cons_self, ?_⟩
  rcases t with ⟨_ | ⟨region, below'⟩, reader⟩
  · cases houtlines
  · refine ⟨below', ?_⟩
    have hhead : region.outline = .definite (count - e.length) := (List.cons.inj houtlines).1
    cases region with
    | marked state => cases hhead
    | definite remaining =>
      cases hhead
      rfl

/-- Octets that were read are the first of those that were there. -/
theorem Advances.eq_append_drop (h : Advances e s t) (hc : Delivers c s last)
    (hle : e.length ≤ c.length) : c = e ++ c.drop e.length := by
  have hrest : c ++ last.rest = e ++ t.rest := hc.rest.symm.trans h.rest
  have htake : c.take e.length = e := by
    have hboth := congrArg (List.take e.length) hrest
    rwa [List.take_append_of_le_length hle, List.take_left] at hboth
  calc
    c = c.take e.length ++ c.drop e.length := (List.take_append_drop e.length c).symm
    _ = e ++ c.drop e.length := by rw [htake]

/-- Where octets of a definite region have been read, the others are still there. -/
theorem Present.rest (h : Present c s last) (hadvances : Advances e s t)
    (hasked : s.reader.Asked t.reader) :
    e.length ≤ c.length ∧ ∃ u, Present (c.drop e.length) t u ∧ Advances c s u := by
  obtain ⟨hle, below, hregions⟩ := hadvances.definite h.regions
  rw [← List.length_drop] at hregions
  have hpassing := hadvances.settled.passing_of_definite hregions
  have hroom : ∀ region ∈ t.regions, region.HasRoom (c.drop e.length).length := by
    refine hadvances.room_left ?_
    rw [List.length_drop, Nat.add_sub_cancel' hle]
    exact h.delivers.room
  -- the reader has been asked for as many octets as were counted, and the others are still to come
  obtain ⟨reader, hreader⟩ := hasked.delivers h.delivers.reader hle hadvances.position
  have hdelivers : Delivers (c.drop e.length) t
      ⟨t.regions.map (·.spend (c.drop e.length).length), reader⟩ := ⟨hreader, rfl, hroom⟩
  refine ⟨hle, _, ⟨hdelivers, ?_⟩, ?_⟩
  · rw [hregions]
    simp [Region.spend]
  · have hwatch : t.watch false = t := by
      rcases t with ⟨regions, reader⟩
      obtain rfl : regions = _ := hregions
      rfl
    have hunwatched : Delivers (c.drop e.length) (t.watch false)
        ⟨t.regions.map (·.spend (c.drop e.length).length), reader⟩ := by
      rw [hwatch]
      exact hdelivers
    have hall := hadvances.append (hunwatched.advances hpassing.ready)
    rwa [← hadvances.eq_append_drop h.delivers hle] at hall

/-- The octets that are there are what is taken as the content. -/
theorem Present.remainder (h : Present c s last) (hs : s.Settled) :
    Source.remainder s = .ok c last := by
  have htaken := (octets_eq_ok_iff (hs.passing_of_definite h.regions)).2 ⟨rfl, h.delivers⟩
  rw [Source.remainder, h.regions]
  exact htaken

/-- At the end of a definite region there is no next value, and nothing is read. -/
theorem next_enter_definite_zero (scope : Scope) (s : Source) :
    next scope (s.enter (.definite 0)) = .ok none (s.enter (.definite 0)) :=
  next_eq_none_iff.2 (firstOctet?_eq_ok.2 ⟨_, octet?_enter_definite_zero s, rfl⟩)

/-- Nor is there content. -/
theorem remainder_enter_definite_zero (s : Source) :
    Source.remainder (s.enter (.definite 0)) = .ok [] (s.enter (.definite 0)) := rfl

end Source

namespace Session

open Source

variable {session opened later after : Session} {c : Octets}

/-! ## Inside a container -/

/-- Whatever an operation leaves of a session, its reader has only been asked. -/
theorem Leaves.asked (h : Leaves session after) :
    session.decoder.source.reader.Asked after.decoder.source.reader := by
  cases h with
  | asks hnone hafter =>
    rw [hafter.source]
    exact next_asks _ .first
  | drops hnext hafter =>
    have hasked := @next_asks session.decoder.source.reader session.current _ .first
    rw [hnext] at hasked
    rw [hafter.source]
    exact hasked
  | opens hnext hopened htop =>
    have hasked := @next_asks session.decoder.source.reader session.current _ .first
    rw [hnext] at hasked
    exact hasked
  | reads hwhole hafter =>
    rw [hafter.source]
    exact asking.of_whole hwhole _ trivial
  | gives hwhole hsource hopened htop =>
    rw [hsource]
    exact asking.of_whole hwhole _ trivial
  | sets hopened hafter =>
    rw [hafter]
    exact .first

/-- The containers that are open in a session stay open while operations are carried out, in any
order and with any others opened inside them. -/
inductive Within (opened : Session) : Session → Prop where
  | first : Within opened opened
  | step {session : Session} (operation : Operation) (h : Within opened session)
    (hopen : opened.opened <:+ (Action.final (perform operation session)).opened) :
    Within opened (Action.final (perform operation session))

theorem Within.asked (h : Within opened later) :
    opened.decoder.source.reader.Asked later.decoder.source.reader := by
  induction h with
  | first => exact .first
  | step operation _ _ ih => exact ih.trans (perform_leaves operation _).asked

/-- Where a container stays open, the source has advanced beneath what is opened inside it. -/
theorem Within.advances {arrivals : List Arrival} {limit maxDepth : Nat}
    (hvisits : Visits (fresh arrivals limit maxDepth) opened) (h : Within opened later) :
    Visits (fresh arrivals limit maxDepth) later ∧ ∃ inner e, later.opened = inner ++ opened.opened ∧
      Advances e opened.decoder.source (later.decoder.source.below inner.length) := by
  induction h with
  | first => exact ⟨hvisits, [], [], rfl, (sound_of_visits hvisits).settled.advances_nil⟩
  | @step session operation h hopen ih =>
    obtain ⟨hsession, inner, e, hinner, hadvances⟩ := ih
    refine ⟨hsession.step operation, ?_⟩
    cases perform_turns operation (sound_of_visits hsession).settled with
    | reads hreads hopened =>
      exact ⟨inner, _, hopened.trans hinner, hadvances.append (hreads.below inner.length)⟩
    | @opens container region octets behind hready hreads hbehind hfresh hsource hscope hmarked
        hopened =>
      have hpast : Advances octets (session.decoder.source.below inner.length)
          ((Action.final (perform operation session)).decoder.source.below (inner.length + 1)) := by
        rw [hsource]
        exact hreads.below inner.length
      exact ⟨container :: inner, _, by rw [hopened, hinner]; rfl, hadvances.append hpast⟩
    | @gives container octets source hreads hsource hopened =>
      -- the container given up was opened inside
      obtain ⟨inside, hinside⟩ := hopen
      obtain rfl : inner = container :: inside := by
        rw [hinner, ← hinside, ← List.cons_append] at hopened
        exact List.append_cancel_right hopened
      have hpast : Advances octets (session.decoder.source.below (inside.length + 1))
          ((Action.final (perform operation session)).decoder.source.below inside.length) := by
        rw [hsource, below_leave]
        exact hreads.below (inside.length + 1)
      exact ⟨inside, _, hinside.symm, hadvances.append hpast⟩

/-! ## Taking content -/

variable {below : List Container} {identifier : Identifier} {scope : Scope} {isIndefinite : Bool}

/-- Taking the content of a tagged value reads what remains of the innermost region. -/
theorem takeContent_eq (hopened : session.opened = ⟨.tagged identifier, scope, isIndefinite⟩ :: below) :
    perform .takeContent session =
      match Source.remainder session.decoder.source with
      | .ok octets source => .ok (.content octets)
        { session with decoder := { session.decoder with source } }
      | .error failure source => .error failure
        { session with decoder := { session.decoder with source } } := by
  rcases session with ⟨⟨source, journal⟩, top, opened⟩
  obtain rfl : opened = _ := hopened
  show (decoding (Decoder.taking Source.remainder) >>= fun octets => pure (Reply.content octets))
    ⟨⟨source, journal⟩, top, ⟨.tagged identifier, scope, isIndefinite⟩ :: below⟩ = _
  simp only [Bind.bind, EStateM.bind, decoding, Decoder.taking, Action.on]
  cases Source.remainder source <;> rfl

/-! ## Where nothing is left -/

/-- What pulling and taking the content are answered with where nothing is left. -/
def emptyReply : Operation → Reply
  | .pull => .exhausted
  | _ => .content []

/-- At the end of a definite tagged value, neither pulling nor taking the content reads anything. -/
theorem perform_at_end {outer : Source} {operation : Operation}
    (hopened : session.opened = ⟨.tagged identifier, scope, isIndefinite⟩ :: below)
    (hend : session.decoder.source = outer.enter (.definite 0))
    (hreads : operation = .pull ∨ operation = .takeContent) :
    ∃ after, perform operation session = .ok (emptyReply operation) after ∧
      session.At session.decoder.source after := by
  rcases hreads with rfl | rfl
  · have hnone := next_enter_definite_zero session.current outer
    rw [← hend] at hnone
    obtain ⟨after, hafter, hpull⟩ := pull_exhausted hnone
    exact ⟨after, hpull, hafter⟩
  · rw [takeContent_eq hopened, hend, remainder_enter_definite_zero]
    exact ⟨_, rfl, session.decoder.journal, rfl⟩

/-- Nor do they, however often they are asked for. -/
theorem run_at_end {outer : Source}
    (hopened : session.opened = ⟨.tagged identifier, scope, isIndefinite⟩ :: below)
    (hend : session.decoder.source = outer.enter (.definite 0)) {operations : List Operation}
    (hreads : ∀ operation ∈ operations, operation = .pull ∨ operation = .takeContent) :
    ∃ last, run operations session = ⟨operations.map emptyReply, none, last⟩ ∧
      session.At session.decoder.source last := by
  induction operations generalizing session with
  | nil => exact ⟨session, rfl, session.decoder.journal, rfl⟩
  | cons operation operations ih =>
    obtain ⟨hfirst, hrest⟩ := List.forall_mem_cons.1 hreads
    obtain ⟨after, hperform, hafter⟩ := perform_at_end hopened hend hfirst
    obtain ⟨last, hrun, hlast⟩ := ih (hafter.opened.trans hopened) (hafter.source.trans hend) hrest
    rw [hafter.source] at hlast
    refine ⟨last, ?_, hafter.trans hlast⟩
    simp only [run, hperform, hrun, List.map_cons]

/-! ## Every tagged value -/

/-- A session has read octets of a container to their end: asking for more gives nothing and reads
nothing, and what is around the container goes on behind them. -/
def Emptied (opened : Session) (c : Octets) (after : Session) : Prop :=
  ∀ operations : List Operation,
    (∀ operation ∈ operations, operation = .pull ∨ operation = .takeContent) →
      ∃ last parent, run operations after = ⟨operations.map emptyReply, none, last⟩ ∧
        last.decoder.source = after.decoder.source ∧ perform .leave last = .ok .left parent ∧
        parent.opened = opened.opened.tail ∧
        Advances c opened.decoder.source.leave parent.decoder.source

/-- The content of a tagged value is read once, be it by its values or by its octets. -/
structure ReadOnce (opened : Session) (isIndefinite : Bool) : Prop where
  /-- Where all octets of definite content are there, taking it gives those that were not read yet,
  whatever was done with the values in it before. -/
  definite : ∀ {c last}, Present c opened.decoder.source last →
    ∀ {later}, Within opened later → later.opened = opened.opened →
      ∃ read after, read ≤ c.length ∧ later.position = opened.position + read ∧
        perform .takeContent later = .ok (.content (c.drop read)) after ∧ Emptied opened c after
  /-- Indefinite content is refused, and nothing has changed. -/
  indefinite : isIndefinite = true → perform .takeContent opened =
    .error ⟨.unsupportedIndefiniteForm, opened.position⟩ opened

/-- Where definite content has been read to its end, nothing is left. -/
theorem emptied_of_whole (hopened : opened.opened = ⟨.tagged identifier, scope, isIndefinite⟩ :: below)
    (hafter : after.opened = opened.opened)
    (hwhole : after.decoder.source.regions.head? = some (.definite 0))
    (hadvances : Advances c opened.decoder.source after.decoder.source) : Emptied opened c after := by
  intro operations hreads
  have htagged := hafter.trans hopened
  obtain ⟨last, hrun, hlast⟩ := run_at_end htagged (eq_enter_leave hwhole) hreads
  refine ⟨last, giveUp last, hrun, hlast.source, leave_eq (hlast.opened.trans htagged), ?_, ?_⟩
  · exact congrArg List.tail (hlast.opened.trans hafter)
  · have hsource : (giveUp last).decoder.source = after.decoder.source.leave :=
      congrArg Source.leave hlast.source
    rw [hsource]
    exact hadvances.leaves

/-- Wherever operations on a new session lead in a tagged value, failing ones included, its content is
read once. -/
theorem readOnce_of_visits {arrivals : List Arrival} {limit maxDepth : Nat}
    (h : Visits (fresh arrivals limit maxDepth) opened)
    (hopened : opened.opened = ⟨.tagged identifier, scope, isIndefinite⟩ :: below) :
    ReadOnce opened isIndefinite := by
  constructor
  case definite =>
    intro c last hpresent later hwithin hsame
    obtain ⟨hlater, inner, e, hinner, hadvances⟩ := hwithin.advances h
    -- whatever was opened inside has been given up again
    obtain rfl : inner = [] := List.append_left_eq_self.1 (hinner.symm.trans hsame)
    have hread : Advances e opened.decoder.source later.decoder.source := hadvances
    obtain ⟨hle, reached, hrest, hall⟩ := hpresent.rest hread hwithin.asked
    have htaken := takeContent_eq (hsame.trans hopened)
    rw [hrest.remainder (sound_of_visits hlater).settled] at htaken
    exact ⟨e.length, _, hle, hread.position, htaken,
      emptied_of_whole hopened hsame hrest.whole hall⟩
  case indefinite =>
    rintro rfl
    obtain ⟨region, regions, hmarked, -, hregions⟩ :=
      List.forall₂_cons_left_iff.1 (hopened ▸ (sound_of_visits h).regions)
    rw [takeContent_eq hopened, remainder, hregions]
    cases region with
    | definite remaining => cases hmarked
    | marked state => rfl

/-- A tagged value. The sequence in it is opened and left unread, and then the content is taken. -/
theorem readOnce_of_visits_partly :
    ∃ opened later after, Visits (fresh ([0xA0, 0x07, 0x30, 0x03, 0x02, 0x01, 0x07, 0x05, 0x00].map
        .octet) 10 2) opened ∧ ReadOnce opened false ∧
      Within opened later ∧ later.position = opened.position + 2 ∧
      perform .takeContent later = .ok (.content [0x02, 0x01, 0x07, 0x05, 0x00]) after ∧
      Emptied opened [0x30, 0x03, 0x02, 0x01, 0x07, 0x05, 0x00] after := by
  let opened := Action.final (perform .pull (fresh ([0xA0, 0x07, 0x30, 0x03, 0x02, 0x01, 0x07, 0x05,
    0x00].map .octet) 10 2))
  let later := Action.final (perform .leave (Action.final (perform .pull opened)))
  have hvisits : Visits _ opened := Visits.first.step .pull
  have hwithin : Within opened later := (Within.first.step .pull ⟨[_], rfl⟩).step .leave ⟨[], rfl⟩
  have hpresent : Present [0x30, 0x03, 0x02, 0x01, 0x07, 0x05, 0x00] opened.decoder.source
      ⟨[.definite 0], ⟨[], 9⟩⟩ := by
    refine ⟨⟨Reader.delivers_ofData [0x30, 0x03, 0x02, 0x01, 0x07, 0x05, 0x00] [] 2, rfl, ?_⟩, rfl⟩
    exact List.forall_mem_singleton.2 (Nat.le_refl 7)
  have honce : ReadOnce opened false := readOnce_of_visits hvisits rfl
  have hsame : later.opened = opened.opened := rfl
  have hposition : later.position = opened.position + 2 := rfl
  obtain ⟨read, after, -, hread, htaken, hemptied⟩ := honce.definite hpresent hwithin hsame
  obtain rfl : read = 2 := Nat.add_left_cancel (hread.symm.trans hposition)
  exact ⟨opened, later, after, hvisits, honce, hwithin, hposition, htaken, hemptied⟩

end Session
end Ber
