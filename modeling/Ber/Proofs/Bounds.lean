import Ber.Proofs.Causes
import Ber.Proofs.Visiting

/-!
# Ber.Proofs.Bounds — lengths that claim more than is left

Inside a definite region, a length has to be below the number of octets that the region had left in
front of the identifier.

1. `Region.availableIn` is how many octets open regions have left, and `Session.Covered` says that
   the limit of each open container is no less (`Session.covered_of_visits`). So the limit of a
   container never decides, but only the octets left.
2. `Session.bounded_of_visits`: a length is out of bounds exactly if it exceeds what is left behind
   its header by as many octets as the header has, or by more. A length that exceeds it by less is
   let pass; then no value without parts is returned, but a container is entered
   (`Session.container_beyond_end`).
-/

namespace Ber

open Source

/-! ## Octets left -/

namespace Region

/-- How many octets regions have left at most, the innermost first, if any of them tells. -/
def availableIn (regions : List Region) : Option Nat :=
  (regions.map outline).foldr available none

@[simp] theorem availableIn_definite (remaining : Nat) (regions : List Region) :
    availableIn (.definite remaining :: regions) = some remaining := rfl

@[simp] theorem availableIn_marked (state : Marked) (regions : List Region) :
    availableIn (.marked state :: regions) = availableIn regions := by
  have hnone : (availableIn regions).map (· + 0) = availableIn regions := by
    cases availableIn regions <;> rfl
  exact hnone

/-- Regions count the octets that are taken through them. -/
theorem availableIn_spend {count : Nat} {before after : List Region}
    (h : after.map outline = before.map (·.outline.spend count)) :
    availableIn after = (availableIn before).map (· - count) := by
  induction before generalizing after with
  | nil =>
    rw [List.map_eq_nil_iff.1 h]
    rfl
  | cons region before ih =>
    cases after with
    | nil => cases h
    | cons region' after =>
      obtain ⟨hhead, hrest⟩ := List.cons.inj h
      cases region with
      | definite remaining =>
        cases region' with
        | definite remaining' =>
          have hremaining : remaining' = remaining - count := Region.definite.inj hhead
          rw [availableIn_definite, availableIn_definite, hremaining]
          rfl
        | marked state => cases hhead
      | marked state =>
        cases region' with
        | definite remaining' => cases hhead
        | marked state' => rw [availableIn_marked, availableIn_marked, ih hrest]

end Region

namespace Source

variable {c : Octets} {s t : Source}

/-- Where octets pass, as many are available as the regions have left. -/
theorem Passing.availableIn (hs : s.Passing) : Region.availableIn s.regions = s.available := by
  rcases s with ⟨regions, reader⟩
  induction regions with
  | nil => rfl
  | cons region below ih =>
    have hbelow : Passing ⟨below, reader⟩ := fun r hr => hs r (List.mem_cons_of_mem _ hr)
    cases region with
    | definite remaining => rfl
    | marked state =>
      have hstate : state = { watching := false } := hs (.marked state) List.mem_cons_self
      have hsame : (⟨.marked state :: below, reader⟩ : Source).available =
          (Source.available ⟨below, reader⟩).map (· + 0) := by
        rw [hstate]
        rfl
      have hzero : ∀ available : Option Nat, available.map (· + 0) = available := by
        intro available
        cases available <;> rfl
      show Region.availableIn (.marked state :: below) = _
      rw [Region.availableIn_marked, hsame, hzero]
      exact ih hbelow

theorem Ready.availableIn (hs : s.Ready) : Region.availableIn s.regions = s.available := by
  have hwatched : Region.availableIn (s.watch false).regions = (s.watch false).available :=
    Passing.availableIn hs
  rw [available_watch] at hwatched
  rw [← hwatched]
  rcases s with ⟨regions, reader⟩
  cases regions with
  | nil => rfl
  | cons region below => cases region <;> rfl

/-- Octets that are read are no longer available. -/
theorem Advances.availableIn (h : Advances c s t) :
    Region.availableIn t.regions = (Region.availableIn s.regions).map (· - c.length) :=
  Region.availableIn_spend h.outlines

end Source

/-! ## Limits of open containers -/

namespace Session

variable {session after : Session}

/-- The limit of every open container is no less than the octets that its region has left. -/
def Covered : List Container → List Region → Prop
  | [], [] => True
  | container :: opened, region :: regions =>
    (∀ available, Region.availableIn (region :: regions) = some available →
      available ≤ container.scope.limit) ∧ Covered opened regions
  | _, _ => False

theorem Covered.tail {opened : List Container} {regions : List Region}
    (h : Covered opened regions) : Covered opened.tail regions.tail := by
  match opened, regions with
  | [], [] => trivial
  | container :: opened, region :: regions => exact h.2

/-- Reading leaves fewer octets. -/
theorem Covered.spend {opened : List Container} {before after : List Region} {count : Nat}
    (h : Covered opened before)
    (hspend : after.map Region.outline = before.map (·.outline.spend count)) :
    Covered opened after := by
  induction opened generalizing before after with
  | nil =>
    cases before with
    | nil =>
      rw [List.map_eq_nil_iff.1 hspend]
      trivial
    | cons region before => exact h.elim
  | cons container opened ih =>
    cases before with
    | nil => exact h.elim
    | cons region before =>
      cases after with
      | nil => cases hspend
      | cons region' after =>
        obtain ⟨hhead, htail⟩ := h
        refine ⟨fun available havailable => ?_, ih htail (List.cons.inj hspend).2⟩
        rw [Region.availableIn_spend hspend] at havailable
        obtain ⟨least, hleast, rfl⟩ := Option.map_eq_some_iff.1 havailable
        have hle := hhead least hleast
        omega

/-- The limit of the values that a session acts on is no less than the octets left for them. -/
theorem Covered.current {available : Nat}
    (h : Covered session.opened session.decoder.source.regions)
    (havailable : Region.availableIn session.decoder.source.regions = some available) :
    available ≤ session.current.limit := by
  rcases session with ⟨decoder, top, opened⟩
  cases opened with
  | nil =>
    cases hregions : decoder.source.regions with
    | nil =>
      rw [show Session.decoder _ = decoder from rfl, hregions] at havailable
      cases havailable
    | cons region below =>
      rw [show Session.decoder _ = decoder from rfl, hregions] at h
      exact h.elim
  | cons container below =>
    cases hregions : decoder.source.regions with
    | nil =>
      rw [show Session.decoder _ = decoder from rfl, hregions] at h
      exact h.elim
    | cons region regions =>
      rw [show Session.decoder _ = decoder from rfl, hregions] at h havailable
      exact h.1 available havailable

/-- A container that is opened gets a limit that is no less than the octets in its region. -/
theorem covered_of_opens {octets : Octets} {behind : Source} {region : Region}
    (h : Covered session.opened session.decoder.source.regions)
    (hready : session.decoder.source.Ready)
    (hc : Advances octets session.decoder.source behind) {available : Nat}
    (havailable : Region.availableIn (region :: behind.regions) = some available) :
    available ≤
      ((session.current.lower session.decoder.source.available).inside region).limit := by
  cases region with
  | definite count =>
    rw [Region.availableIn_definite] at havailable
    exact Nat.le_of_eq (Option.some.inj havailable).symm
  | marked state =>
    rw [Region.availableIn_marked, hc.availableIn] at havailable
    obtain ⟨least, hleast, rfl⟩ := Option.map_eq_some_iff.1 havailable
    have hle : least ≤ session.current.limit := h.current hleast
    rw [hready.availableIn] at hleast
    rw [hleast]
    show least - octets.length ≤ min session.current.limit least
    omega

/-- Whatever operations are carried out on a new session, failing ones included, the limits of open
containers cover what is left of them. -/
theorem covered_of_visits {arrivals : List Arrival} {limit maxDepth : Nat}
    (h : Visits (fresh arrivals limit maxDepth) session) :
    Covered session.opened session.decoder.source.regions := by
  induction h with
  | first => trivial
  | @step session operation hvisits ih =>
    have hsettled := (sound_of_visits hvisits).settled
    cases perform_turns operation hsettled with
    | reads hc hopened =>
      rw [hopened]
      exact ih.spend hc.outlines
    | opens hready hc hbehind hfresh hsource hscope hmarked hopened =>
      rw [hopened, hsource]
      refine ⟨fun available havailable => ?_, ih.spend hc.outlines⟩
      rw [hscope]
      exact covered_of_opens ih hready hc havailable
    | gives hc hsource hopened =>
      have hall := (ih.spend hc.outlines).tail
      rw [hopened] at hall
      rw [hsource]
      exact hall

end Session

/-! ## Headers -/

namespace Source

/-- The header of the next value is read, whatever its length. -/
def ReadsHeader (identifier : Identifier) (length : Length) (before after : Source) : Prop :=
  ∃ first middle middle', firstOctet? before = .ok (some first) middle ∧
    Identifier.after first middle = .ok identifier middle' ∧
    Length.take 0x80000000 middle' = .ok length after

/-- Content is never refused for its length. -/
theorem item_unbounded (scope : Scope) (identifier : Identifier) (length : Nat) :
    Spares .outOfBounds (item scope identifier (.of identifier (.definite length))) := by
  refine item_spares (by decide) fun hstops => ?_
  cases hcontent : Content.of identifier (.definite length) with
  | _ =>
    rw [hcontent] at hstops
    cases hstops

end Source

namespace Length

variable {s t : Source} {limit count : Nat}

/-- A length that stays below a limit is compared with another one in the same place. -/
theorem below_eq {octets : Nat} (h : below 0x80000000 octets s = .ok (.definite count) t) :
    below limit octets s =
      if count < limit then .ok (.definite count) t else .error ⟨.outOfBounds, t.position⟩ t := by
  obtain ⟨hcount, -, rfl⟩ := below_eq_ok_iff.1 h
  cases hcount
  unfold below
  split <;> rfl

/-- A length is compared with the limit once all of its octets have been read. -/
theorem take_eq (h : take 0x80000000 s = .ok (.definite count) t) :
    take limit s =
      if count < limit then .ok (.definite count) t else .error ⟨.outOfBounds, t.position⟩ t := by
  obtain ⟨first, m, hfirst, hrest⟩ := Action.bind_eq_ok.1 h
  have hstep : take limit s = (if first < 0x80 then below limit first.toNat
      else if first = 0x80 then pure .indefinite
      else long (first.toNat - 0x80) limit : Taking Length) m := by
    simp only [take, Bind.bind, EStateM.bind, hfirst]
  rw [hstep]
  by_cases hshort : first < 0x80
  · rw [if_pos hshort] at hrest ⊢
    exact below_eq hrest
  rw [if_neg hshort] at hrest ⊢
  by_cases hmarked : first = 0x80
  · rw [if_pos hmarked] at hrest
    cases hrest
  rw [if_neg hmarked] at hrest ⊢
  rw [long_eq] at hrest ⊢
  by_cases hcount : maxOctets < first.toNat - 0x80
  · rw [if_pos hcount] at hrest
    cases hrest
  rw [if_neg hcount] at hrest ⊢
  obtain ⟨octets, m', hoctets, hchecked⟩ := Action.bind_eq_ok.1 hrest
  simp only [Bind.bind, EStateM.bind, hoctets]
  by_cases hnegative : octets.bigEndian < 0x80000000
  · rw [if_pos hnegative] at hchecked ⊢
    exact below_eq hchecked
  · rw [if_neg hnegative] at hchecked
    cases hchecked

end Length

namespace Source

variable {s t : Source} {scope : Scope} {identifier : Identifier} {count left : Nat}

/-- Where a header is read, octets pass in front of it and behind it. -/
theorem ReadsHeader.passing {length : Length} (h : ReadsHeader identifier length s t)
    (hs : s.Settled) : s.Ready ∧ t.Passing ∧ ∃ octets, Advances octets s t ∧
      ∀ least, s.available = some least → octets.length ≤ least := by
  obtain ⟨first, m, m', hfirst, hafter, hlength⟩ := h
  have hready : s.Ready := by
    rcases hs with hready | ⟨below, -, rfl⟩
    · exact hready
    · cases (firstOctet?_closed below).symm.trans hfirst
  obtain ⟨lengthOctets, hheaded⟩ :=
    (firstOctet?_header_iff hready).1 ⟨first, m, m', hfirst, hafter, hlength⟩
  refine ⟨hready, hheaded.delivers.passing hready, _, hheaded.delivers.advances hready, ?_⟩
  intro least hleast
  exact hheaded.delivers.le_available hready (by rw [available_watch, hleast])

/-- As many octets are available in front of a header as are left behind it and written in it. -/
theorem ReadsHeader.available {length : Length} (h : ReadsHeader identifier length s t)
    (hs : s.Settled) (hleft : t.available = some left) :
    s.available = some (left + (t.position - s.position)) := by
  obtain ⟨hready, ht, octets, hadvances, hfits⟩ := h.passing hs
  have havailable := hadvances.availableIn
  rw [ht.availableIn, hready.availableIn, hleft] at havailable
  obtain ⟨before, hbefore, hcount⟩ := Option.map_eq_some_iff.1 havailable.symm
  have hle : octets.length ≤ before := hfits before hbefore
  have hposition : t.position = s.position + octets.length := hadvances.position
  rw [hbefore, hposition]
  congr 1
  omega

/-- Behind a header, the next value is out of bounds or its content decides. -/
theorem ReadsHeader.next_eq (h : ReadsHeader identifier (.definite count) s t) :
    next scope s =
      if count < (scope.lower s.available).limit then
        match item (scope.lower s.available) identifier (.of identifier (.definite count)) t with
        | .ok found u => .ok (some found) u
        | .error failure u => .error failure u
      else .error ⟨.outOfBounds, t.position⟩ t := by
  obtain ⟨first, m, m', hfirst, hafter, hlength⟩ := h
  have hbehind : behindFirst (scope.lower s.available) first m =
      if count < (scope.lower s.available).limit then
        item (scope.lower s.available) identifier (.of identifier (.definite count)) t
      else .error ⟨.outOfBounds, t.position⟩ t := by
    simp only [behindFirst, Bind.bind, EStateM.bind, hafter, Length.take_eq hlength]
    by_cases hbelow : count < (scope.lower s.available).limit
    · simp only [if_pos hbelow]
    · simp only [if_neg hbelow]
  rw [Source.next_eq, hfirst]
  dsimp only
  rw [hbehind]
  by_cases hbelow : count < (scope.lower s.available).limit
  · cases item (scope.lower s.available) identifier (.of identifier (.definite count)) t with
    | ok found u => simp only [if_pos hbelow]
    | error failure u => simp only [if_pos hbelow]
  · simp only [if_neg hbelow]

/-- Content that is longer than what is left is not read: only a container can be opened for it. -/
theorem entered_of_left {found : Item} {u : Source} (hs : s.Passing)
    (hleft : s.available = some left) (hlong : left < count)
    (h : Source.item scope identifier (.of identifier (.definite count)) s = .ok found u) :
    ∃ container, found = .container container ∧ u = s.enter (.definite count) := by
  have hshort : ∀ {c : Octets}, c.length = count → ¬ Delivers c s u := by
    intro c hlength hc
    have hle := hc.le_available hs hleft
    omega
  have hallowed := Content.allowed_of identifier (.definite count)
  generalize Content.of identifier (.definite count) = content at hallowed h
  match content with
  | .kept octets =>
    cases hallowed.1
    obtain ⟨c, hlength, hc, -⟩ := (item_kept_eq_ok_iff hs).1 h
    exact absurd hc (hshort hlength)
  | .decoded octets =>
    cases hallowed.1
    obtain ⟨c, value, hlength, hc, -⟩ := (item_decoded_eq_ok_iff hs).1 h
    exact absurd hc (hshort hlength)
  | .skipped => cases hallowed.1
  | .entered form region =>
    obtain ⟨-, rfl, rfl⟩ := item_entered_eq_ok_iff.1 h
    cases region with
    | definite octets =>
      cases hallowed.1
      exact ⟨_, rfl, rfl⟩
    | marked state => cases hallowed.1
  | .refused => cases h

end Source

/-! ## Every session -/

namespace Session

variable {session : Session} {identifier : Identifier} {length left : Nat} {behind : Source}

/-- Behind a header whose length reaches the limit, pulling fails. -/
theorem pull_of_le
    (hheader : ReadsHeader identifier (.definite length) session.decoder.source behind)
    (hle : (session.current.lower session.decoder.source.available).limit ≤ length) :
    ∃ after, session.At behind after ∧
      perform .pull session = .error ⟨.outOfBounds, behind.position⟩ after := by
  have hpull := perform_pull session
  rw [hheader.next_eq, if_neg (Nat.not_lt_of_le hle)] at hpull
  exact hpull

/-- Behind a header whose length is below the limit, the content decides. -/
theorem pull_of_lt
    (hheader : ReadsHeader identifier (.definite length) session.decoder.source behind)
    (hlt : length < (session.current.lower session.decoder.source.available).limit) :
    (∃ failure source after,
      item (session.current.lower session.decoder.source.available) identifier
        (.of identifier (.definite length)) behind = .error failure source ∧
      perform .pull session = .error failure after) ∨
    ∃ found after,
      item (session.current.lower session.decoder.source.available) identifier
        (.of identifier (.definite length)) behind = .ok found after.decoder.source ∧
      perform .pull session = .ok (.item found) after := by
  have hpull := perform_pull session
  rw [hheader.next_eq, if_pos hlt] at hpull
  cases hitem : item (session.current.lower session.decoder.source.available) identifier
      (.of identifier (.definite length)) behind with
  | error failure source =>
    rw [hitem] at hpull
    obtain ⟨after, -, hfailed⟩ := hpull
    exact .inl ⟨failure, source, after, rfl, hfailed⟩
  | ok found source =>
    rw [hitem] at hpull
    obtain ⟨after, hreply, hsource, -⟩ := hpull
    exact .inr ⟨found, after, by rw [hsource], hreply⟩

/-- What pulling does where the header of the next value has this length, and so much is left behind
the header. -/
structure Bounded (session : Session) (length left : Nat) (behind : Source) : Prop where
  /-- A length that exceeds what is left by the octets of the header, or by more, is out of bounds.
  No octet of the content is read then. -/
  exceeds : left + (behind.position - session.position) ≤ length →
    ∃ after, session.At behind after ∧
      perform .pull session = .error ⟨.outOfBounds, behind.position⟩ after
  /-- Any other length is let pass, so one that fills what is left is. -/
  passes : length < left + (behind.position - session.position) →
    ∀ failure after, perform .pull session = .error failure after → failure.cause ≠ .outOfBounds
  /-- Of a value that claims more than is left, only a container is returned, and unread. -/
  unread : left < length → ∀ reply after, perform .pull session = .ok reply after →
    ∃ container, reply = .item (.container container) ∧
      after.decoder.source = behind.enter (.definite length)

/-- Whatever operations have been carried out on a new session, failing ones included: inside a
definite region, a length is out of bounds exactly if it is not below the number of octets that were
left in front of the header. -/
theorem bounded_of_visits {arrivals : List Arrival} {limit maxDepth : Nat}
    (h : Visits (fresh arrivals limit maxDepth) session)
    (hheader : ReadsHeader identifier (.definite length) session.decoder.source behind)
    (hleft : behind.available = some left) : session.Bounded length left behind := by
  have hs : session.decoder.source.Settled := (sound_of_visits h).settled
  have havailable := hheader.available hs hleft
  -- the limit of the container covers what is left of it, so what is left decides
  have hlower : (session.current.lower session.decoder.source.available).limit =
      left + (behind.position - session.position) := by
    have hready : session.decoder.source.Ready := (hheader.passing hs).1
    have hcovered : left + (behind.position - session.position) ≤ session.current.limit :=
      (covered_of_visits h).current (hready.availableIn.trans havailable)
    rw [havailable]
    exact Nat.min_eq_right hcovered
  have hbehind : behind.Passing := (hheader.passing hs).2.1
  refine ⟨fun hexceeds => ?_, fun hpasses failure after hfailed => ?_,
    fun hlong reply after hreply => ?_⟩
  · rw [← hlower] at hexceeds
    exact pull_of_le hheader hexceeds
  · rw [← hlower] at hpasses
    rcases pull_of_lt hheader hpasses with ⟨failure', source, after', hitem, hfailed'⟩ |
      ⟨found, after', hitem, hreply⟩
    · cases hfailed.symm.trans hfailed'
      exact item_unbounded _ _ _ _ _ _ hitem
    · cases hfailed.symm.trans hreply
  · by_cases hpasses :
        length < (session.current.lower session.decoder.source.available).limit
    · rcases pull_of_lt hheader hpasses with ⟨failure, source, after', hitem, hfailed⟩ |
        ⟨found, after', hitem, hreply'⟩
      · cases hreply.symm.trans hfailed
      · cases hreply.symm.trans hreply'
        obtain ⟨container, rfl, hsource⟩ := entered_of_left hbehind hleft hlong hitem
        exact ⟨container, rfl, hsource⟩
    · obtain ⟨after', -, hfailed⟩ := pull_of_le hheader (Nat.le_of_not_lt hpasses)
      cases hreply.symm.trans hfailed

/-- A sequence at the end of a sequence. Nothing is left behind its header, but it claims one octet,
which is less than the header has. It is entered. -/
theorem container_beyond_end :
    ∃ session behind, Visits (fresh ([0x30, 0x02, 0x30, 0x01].map .octet) 4 128) session ∧
      ReadsHeader ⟨0x30, [], 16⟩ (.definite 1) session.decoder.source behind ∧
      behind.available = some 0 ∧ session.Bounded 1 0 behind ∧
      ∃ container after, perform .pull session = .ok (.item (.container container)) after ∧
        after.decoder.source.available = some 1 := by
  have hfirst := @Visits.first (fresh ([0x30, 0x02, 0x30, 0x01].map .octet) 4 128)
  have hopened := hfirst.step .pull
  have hheader : ReadsHeader ⟨0x30, [], 16⟩ (.definite 1)
      ⟨[.definite 2], ⟨[0x30, 0x01].map .octet, 2⟩⟩ ⟨[.definite 0], ⟨[], 4⟩⟩ :=
    ⟨0x30, _, _, rfl, rfl, rfl⟩
  exact ⟨_, _, hopened, hheader, rfl, bounded_of_visits hopened hheader rfl, _, _, rfl, rfl⟩

end Session
end Ber
