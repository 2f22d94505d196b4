import Ber.Proofs.Measuring
import Ber.Proofs.Stopping
import Ber.Proofs.Tasks

/-!
# Ber.Proofs.Skipping — where skipping stops

A region that is skipped ends with the first pair of zero octets, wherever the pair begins and
whatever regions are open below. A region sees one octet at a time and reads at most one ahead, so a
single zero octet, or a row of them apart from one another, must not be mistaken for the marker.

1. Octets up to their first pair are skipped (`Source.exhaust_of_yields`), and without a pair the
   octets run out (`Source.exhaust_of_streams`). Both go along the octets, with the one read ahead
   in front.
2. The regions below keep their places: none is closed by octets that it hands out
   (`Source.closed?_of_yields`), and where octets pass, each of them is spent by their number, also
   if they run out (`Source.Streams.regions`).
3. `Source.skipsToPair` says so for a region in any state over any source, and
   `Decoder.skipsNull_of_settled` for a NULL of indefinite length that comes next.
4. `Session.skips_of_visits` puts them together for every session.
-/

namespace Ber

/-! ## The first pair of zero octets -/

/-- Octets without a pair in front of the last one end at the marker. -/
theorem endsAtMarker_of_first {c : Octets} (h : ¬ [0, 0] <:+: c ++ [0]) :
    EndsAtMarker (c ++ [0, 0]) := by
  induction c with
  | nil => simp [EndsAtMarker]
  | cons octet c ih =>
    rw [List.cons_append, List.infix_cons_iff, not_or] at h
    obtain ⟨hfront, hrest⟩ := h
    have hends : EndsAtMarker (c ++ [0, 0]) := ih hrest
    by_cases hoctet : octet = 0
    · -- a zero octet in front of another one would be a pair
      subst hoctet
      cases c with
      | nil => exact absurd (List.prefix_refl [0, 0]) hfront
      | cons second c =>
        refine EndsAtMarker.zero_cons hends ?_
        rintro rfl
        exact hfront ⟨c ++ [0], rfl⟩
    · exact hends.cons hoctet

namespace Source

variable {c stream : Octets} {s t u last below : Source} {failure : Failure} {ahead : Option UInt8}

/-! ## The regions below -/

/-- What every octet keeps that is handed out, all of them keep. -/
theorem keeps_of_yields {P : Source → Prop}
    (hkeep : ∀ octet s t, octet? s = .ok (some octet) t → P s → P t) (h : supply.Yields c s t)
    (hs : P s) : P t := by
  induction c generalizing s with
  | nil =>
    cases h
    exact hs
  | cons octet c ih =>
    obtain ⟨m, htake, hrest⟩ := h
    exact ih hrest (hkeep octet s m htake hs)

/-- No region is closed by an octet that it hands out, not even one that looks for its marker. -/
theorem closed?_of_octet? (closed : List (Option Bool)) (octet : UInt8) (s t : Source)
    (h : octet? s = .ok (some octet) t) (hs : s.regions.map Region.closed? = closed) :
    t.regions.map Region.closed? = closed := by
  -- on the number of regions: each takes its octets from those below it
  induction closed generalizing octet s t with
  | nil =>
    have hempty : s.regions.length = 0 := by rw [List.map_eq_nil_iff.1 hs, List.length_nil]
    have hkept := takeThrough_keeps_length s.regions.length 0 s hempty
    rw [show takeThrough s.regions.length s = _ from h] at hkept
    rw [List.map_eq_nil_iff]
    exact List.length_eq_zero_iff.1 hkept
  | cons head closed ih =>
    rcases s with ⟨_ | ⟨region, below⟩, reader⟩
    · cases hs
    obtain ⟨hregion, hbelow⟩ := List.cons.inj hs
    obtain ⟨taken, region', u, hgives, hyields, rfl⟩ := octet?_enter_eq_ok_iff.1
      (show octet? (enter region ⟨below, reader⟩) = .ok (some octet) t from h)
    have hsame : region'.closed? = region.closed? := by
      cases hgives <;> rfl
    have hkept : u.regions.map Region.closed? = closed := keeps_of_yields ih hyields hbelow
    show region'.closed? :: u.regions.map Region.closed? = head :: closed
    rw [hsame, hkept, hregion]

theorem closed?_of_yields (h : supply.Yields c s t) :
    t.regions.map Region.closed? = s.regions.map Region.closed? :=
  keeps_of_yields (closed?_of_octet? (s.regions.map Region.closed?)) h rfl

/-- Where octets pass, no region changes for an octet that is missing. -/
theorem regions_of_octet_error (hs : s.Passing) (h : octet s = .error failure t) :
    t.regions = s.regions := by
  rw [octet_eq_require] at h
  rcases s with ⟨regions, reader⟩
  induction regions generalizing t with
  | nil =>
    have htake : supply.take ⟨[], reader⟩ = octet? ⟨[], reader⟩ := rfl
    rw [Supply.require, htake, octet?_nil] at h
    rcases hrun : reader.next with ⟨_ | octet, after⟩ | ⟨failure', after⟩
    · rw [hrun] at h
      cases h
      rfl
    · simp [hrun] at h
    · rw [hrun] at h
      cases h
      rfl
  | cons region below ih =>
    have hbelow : Passing ⟨below, reader⟩ := fun r hr => hs r (List.mem_cons_of_mem _ hr)
    have hpassing : region.Passing := hs region List.mem_cons_self
    have htake : supply.take ⟨region :: below, reader⟩ =
        octet? (enter region ⟨below, reader⟩) := rfl
    rw [Supply.require, htake] at h
    rcases hrun : octet? (enter region ⟨below, reader⟩) with ⟨_ | octet, m⟩ | ⟨failure', m⟩
    · -- nothing is left to be handed out, so nothing has been taken
      rw [hrun] at h
      cases h
      rcases (octet?_eq_none_iff hs).1 hrun with ⟨hnil, -⟩ | ⟨-, rfl⟩
      · cases hnil
      · rfl
    · simp [hrun] at h
    · rw [hrun] at h
      cases h
      obtain ⟨taken, mid, u, hwants, hyields, hrequire, rfl⟩ := octet?_enter_eq_error_iff.1 hrun
      cases hwants with
      | counted remaining =>
        cases hyields
        exact congrArg (_ :: ·) (ih hbelow hrequire)
      | first hopen hahead =>
        cases hyields
        cases hpassing
        exact congrArg (_ :: ·) (ih hbelow hrequire)
      | second hopen hwatching hoctets =>
        cases hpassing
        cases hwatching

/-- Where octets pass, all that a stream does to the regions is to spend them. -/
theorem Streams.regions (hs : s.Passing) (h : Streams stream s last) :
    last.regions = s.regions.map (·.spend stream.length) := by
  obtain ⟨behind, failure, hyields, hend, -⟩ := h
  have hdelivers : Delivers stream s behind := (yields_iff_delivers hs).1 hyields
  rw [regions_of_octet_error (hdelivers.passing hs) hend, hdelivers.regions]

/-! ## Skipping along a stream -/

variable {first second : UInt8}

/-- An octet that does not begin a pair is skipped. -/
theorem exhaust_passed (hoctets : ahead.toList ++ c = [first]) (hfirst : first ≠ 0)
    (hc : supply.Yields c s u) :
    exhaust (s.enter (.marked { ahead })) = exhaust (u.enter (.marked {})) := by
  have hgives : Region.Gives (some first) c (.marked { ahead }) (.marked {}) :=
    .passed rfl hoctets fun _ => hfirst
  exact exhaust_of_some (octet?_enter_eq_ok_iff.2 ⟨c, _, u, hgives, hc, rfl⟩)

/-- A zero octet without a second one is skipped, and the octet behind it is looked at next. -/
theorem exhaust_single (hoctets : ahead.toList ++ c = [0, second]) (hsecond : second ≠ 0)
    (hc : supply.Yields c s u) : exhaust (s.enter (.marked { ahead })) =
      exhaust (u.enter (.marked { ahead := some second })) := by
  have hgives : Region.Gives (some 0) c (.marked { ahead }) (.marked { ahead := some second }) :=
    .single rfl rfl hoctets hsecond
  exact exhaust_of_some (octet?_enter_eq_ok_iff.2 ⟨c, _, u, hgives, hc, rfl⟩)

/-- Octets up to their first pair of zero octets are skipped, counting the one read ahead. -/
theorem exhaust_of_yields (hends : EndsAtMarker (ahead.toList ++ c)) (hc : supply.Yields c s u) :
    exhaust (s.enter (.marked { ahead })) = .ok () (u.enter (.marked { closed := true })) := by
  generalize hoctets : ahead.toList ++ c = octets at hends
  fun_induction EndsAtMarker octets generalizing s ahead c with
  | case1 first second rest hzero =>
    obtain ⟨rfl, rfl⟩ := hzero
    subst hends
    exact exhaust_of_none
      (octet?_enter_eq_ok_iff.2 ⟨c, _, u, .marker rfl rfl hoctets, hc, rfl⟩)
  | case2 first second rest hzero ih =>
    by_cases hfirst : first = 0
    · subst hfirst
      have hsecond : second ≠ 0 := fun h => hzero ⟨rfl, h⟩
      obtain ⟨d, rfl, hd⟩ := ahead_append_eq_append (p := [0, second]) (by simp) hoctets
      obtain ⟨m, hm, hrest⟩ := Supply.yields_append.1 hc
      rw [exhaust_single hd hsecond hm]
      exact ih hrest rfl hends
    · obtain ⟨d, rfl, hd⟩ := ahead_append_eq_append (p := [first]) (by simp) hoctets
      obtain ⟨m, hm, hrest⟩ := Supply.yields_append.1 hc
      rw [exhaust_passed hd hfirst hm]
      exact ih hrest rfl hends
  | case3 => exact hends.elim

/-- Without a pair of zero octets, all octets are skipped and then the next one is missing. -/
theorem exhaust_of_streams (h : Streams stream s last)
    (hnone : ¬ [0, 0] <:+: ahead.toList ++ stream) :
    ∃ failure, exhaust (s.enter (.marked { ahead })) = .error failure (last.enter (.marked {})) ∧
      failure.cause = .truncated := by
  -- an octet that the region wants is missing where the stream ends
  have hmissing : ∀ {ahead : Option UInt8} {stream : Octets} {s : Source},
      Streams stream s last → Region.Wants stream (.marked { ahead }) →
      ∃ failure, exhaust (s.enter (.marked { ahead })) =
        .error failure (last.enter (.marked {})) ∧ failure.cause = .truncated := by
    rintro ahead stream s ⟨behind, failure, hyields, hend, hcause⟩ hwants
    rw [octet_eq_require] at hend
    exact ⟨failure, exhaust_of_error (octet?_enter_eq_error_iff.2
      ⟨stream, behind, last, hwants, hyields, hend, rfl⟩), hcause⟩
  generalize hoctets : ahead.toList ++ stream = octets at hnone
  induction octets generalizing s ahead stream with
  | nil =>
    obtain ⟨hahead, rfl⟩ := List.append_eq_nil_iff.1 hoctets
    exact hmissing h (.first rfl (Option.toList_eq_nil_iff.1 hahead))
  | cons first rest ih =>
    have hrest : ¬ [0, 0] <:+: rest := fun h => hnone (List.infix_cons h)
    by_cases hfirst : first = 0
    · subst hfirst
      cases rest with
      | nil => exact hmissing h (.second rfl rfl hoctets)
      | cons second rest =>
        have hsecond : second ≠ 0 := by
          rintro rfl
          exact hnone ⟨[], rest, rfl⟩
        obtain ⟨d, rfl, hd⟩ := ahead_append_eq_append (p := [0, second]) (by simp) hoctets
        obtain ⟨m, hm, hstream⟩ := h.behind
        rw [exhaust_single hd hsecond hm]
        exact ih hstream rfl hrest
    · obtain ⟨d, rfl, hd⟩ := ahead_append_eq_append (p := [first]) (by simp) hoctets
      obtain ⟨m, hm, hstream⟩ := h.behind
      rw [exhaust_passed hd hfirst hm]
      exact ih hstream rfl hrest

/-! ## Regions in any state -/

/-- A region over a source is skipped up to the first pair of zero octets of a stream. The octet
that it has read ahead is the first one of the stream. -/
structure SkipsToPair (state : Marked) (below : Source) : Prop where
  /-- If there is a pair, exactly the octets up to it are taken from below. All others are left
  there, no region there is closed, and where octets pass, each is spent by the octets taken. -/
  found : ∀ {stream before rest : Octets} {last : Source}, Streams stream below last →
    state.ahead.toList ++ stream = before ++ [0, 0] ++ rest → ¬ [0, 0] <:+: before ++ [0] →
    ∃ c below', state.ahead.toList ++ c = before ++ [0, 0] ∧ supply.Yields c below below' ∧
      skipToEnd (below.enter (.marked state)) = .ok () (below'.enter (.marked { closed := true })) ∧
      Streams rest below' last ∧
      below'.regions.map Region.closed? = below.regions.map Region.closed? ∧
      (below.Passing → Delivers c below below')
  /-- Otherwise the octets run out, and the region is not closed. -/
  missing : ∀ {stream : Octets} {last : Source}, Streams stream below last →
    ¬ [0, 0] <:+: state.ahead.toList ++ stream →
    ∃ failure, skipToEnd (below.enter (.marked state)) = .error failure (last.enter (.marked {})) ∧
      failure.cause = .truncated ∧
      (below.Passing → last.regions = below.regions.map (·.spend stream.length))

/-- Skipping looks for the marker, whether the region did so before or not. -/
theorem skipToEnd_enter {state : Marked} (hopen : state.closed = false) (below : Source) :
    skipToEnd (below.enter (.marked state)) =
      exhaust (below.enter (.marked { ahead := state.ahead })) := by
  rcases state with ⟨watching, ahead, closed⟩
  cases hopen
  rfl

/-- A region that has not ended is skipped up to the first pair of zero octets, in whatever state
and over whatever source it is. -/
theorem skipsToPair {state : Marked} (hopen : state.closed = false) (below : Source) :
    SkipsToPair state below := by
  constructor
  · intro stream before rest last h hstream hfirst
    obtain ⟨c, rfl, hc⟩ := ahead_append_eq_append (by simp) hstream
    obtain ⟨below', hyields, hrest⟩ := h.behind
    have hends : EndsAtMarker (state.ahead.toList ++ c) := by
      rw [hc]
      exact endsAtMarker_of_first hfirst
    refine ⟨c, below', hc, hyields, ?_, hrest, closed?_of_yields hyields, ?_⟩
    · rw [skipToEnd_enter hopen]
      exact exhaust_of_yields hends hyields
    · intro hpassing
      exact (yields_iff_delivers hpassing).1 hyields
  · intro stream last h hnone
    obtain ⟨failure, herror, hcause⟩ := exhaust_of_streams h hnone
    refine ⟨failure, ?_, hcause, fun hpassing => h.regions hpassing⟩
    rw [skipToEnd_enter hopen]
    exact herror

/-! ## The next value -/

variable {scope : Scope} {identifier : Identifier}

/-- Behind the header of a NULL of indefinite length, skipping decides. -/
theorem next_of_null {behind : Source} (hs : s.Ready) (hwritten : identifier.Written)
    (htag : identifier.tag = .universal .null)
    (h : Delivers (identifier.octets ++ [0x80]) (s.watch false) behind) :
    next scope s =
      match within (.marked {}) skipToEnd behind with
      | .ok () t => .ok (some (.primitive .null)) t
      | .error failure t => .error failure t := by
  have hmarker : identifier.octets ++ [0x80] ≠ [0, 0] := by
    intro hsame
    have hsplit : identifier.octets ++ [0x80] = [0] ++ [0] := hsame
    cases (List.append_inj' hsplit rfl).2
  have hheaded : Headed (scope.lower s.available).limit identifier [0x80] .indefinite s behind :=
    ⟨hwritten, .indefinite, trivial, fun _ => hmarker, h⟩
  have haccepts : Accepts scope identifier .indefinite s behind :=
    (firstOctet?_header_iff hs).2 ⟨[0x80], hheaded⟩
  have hcontent : Content.of identifier .indefinite = .skipped :=
    Content.of_eq_of_allowed ⟨rfl, htag⟩ (by simp)
  rw [haccepts.next_eq, hcontent, item]
  simp only [Bind.bind, EStateM.bind]
  rcases within (.marked {}) skipToEnd behind with ⟨⟨⟩, t⟩ | ⟨failure, t⟩ <;> rfl

end Source

namespace Decoder

open Source

/-- A NULL of indefinite length that comes next ends with the first pair of zero octets behind its
header. -/
structure SkipsNull (scope : Scope) (decoder : Decoder) : Prop where
  /-- If there is a pair, NULL is the value. Exactly its octets are taken, all others are left, and
  each open region is spent by the octets taken. -/
  found : ∀ (identifier : Identifier) (before rest : Octets) (last : Source), identifier.Written →
    identifier.tag = .universal .null → ¬ [0, 0] <:+: before ++ [0] →
    Streams (identifier.octets ++ [0x80] ++ (before ++ [0, 0] ++ rest))
      (decoder.source.watch false) last →
    ∃ after, next scope decoder = .ok (some (.primitive .null)) after ∧
      Delivers (identifier.octets ++ [0x80] ++ (before ++ [0, 0])) (decoder.source.watch false)
        after.source ∧
      Streams rest after.source last
  /-- Otherwise the octets run out, and that is all that happens to the open regions. -/
  missing : ∀ (identifier : Identifier) (stream : Octets) (last : Source), identifier.Written →
    identifier.tag = .universal .null → ¬ [0, 0] <:+: stream →
    Streams (identifier.octets ++ [0x80] ++ stream) (decoder.source.watch false) last →
    ∃ failure after, next scope decoder = .error failure after ∧ failure.cause = .truncated ∧
      after.source = last ∧
      last.regions = (decoder.source.watch false).regions.map
        (·.spend (identifier.octets ++ [0x80] ++ stream).length)

/-- A region that has ended hands out no octet. -/
theorem ready_of_streams {octet : UInt8} {stream : Octets} {s last : Source} (hs : s.Settled)
    (h : Streams (octet :: stream) (s.watch false) last) : s.Ready := by
  rcases hs with hready | ⟨below, -, rfl⟩
  · exact hready
  · obtain ⟨behind, failure, ⟨m, htake, -⟩, -⟩ := h
    obtain ⟨taken, region', u, hgives, -⟩ := octet?_enter_eq_ok_iff.1
      (show octet? (below.enter (.marked { watching := false, closed := true })) =
        .ok (some octet) m from htake)
    cases (hgives.of_hasEnded rfl).1

/-- So it is wherever the next value is taken. -/
theorem skipsNull_of_settled {decoder : Decoder} (hs : decoder.source.Settled) (scope : Scope) :
    SkipsNull scope decoder := by
  constructor
  · intro identifier before rest last hwritten htag hfirst h
    have hready : decoder.source.Ready := ready_of_streams hs h
    obtain ⟨behind, hheader, hstream⟩ := h.behind
    have hdelivers := (yields_iff_delivers hready).1 hheader
    have hbehind : behind.Passing := hdelivers.passing hready
    have hskips : SkipsToPair {} behind := skipsToPair rfl behind
    obtain ⟨c, t, hc, -, hskip, hrest, -, hspent⟩ := hskips.found hstream rfl hfirst
    obtain rfl : c = before ++ [0, 0] := hc
    have hwithin : within (.marked {}) skipToEnd behind = .ok () t :=
      Action.afterwards_eq_ok.2 ⟨_, hskip, rfl⟩
    have hnext : Source.next scope decoder.source = .ok (some (.primitive .null)) t := by
      rw [next_of_null hready hwritten htag hdelivers, hwithin]
    obtain ⟨journal, hrun⟩ := (silent_next scope).eq_ok_iff.1 hnext
    exact ⟨_, hrun, hdelivers.append (hspent hbehind), hrest⟩
  · intro identifier stream last hwritten htag hnone h
    have hready : decoder.source.Ready := ready_of_streams hs h
    obtain ⟨behind, hheader, hstream⟩ := h.behind
    have hdelivers := (yields_iff_delivers hready).1 hheader
    have hskips : SkipsToPair {} behind := skipsToPair rfl behind
    obtain ⟨failure, hskip, hcause, -⟩ := hskips.missing hstream hnone
    have hwithin : within (.marked {}) skipToEnd behind = .error failure last := by
      simp only [within, Action.afterwards, hskip]
      rfl
    have hnext : Source.next scope decoder.source = .error failure last := by
      rw [next_of_null hready hwritten htag hdelivers, hwithin]
    obtain ⟨journal, hrun⟩ := (silent_next scope).eq_error_iff.1 hnext
    exact ⟨failure, _, hrun, hcause, rfl, h.regions hready⟩

end Decoder

/-! ## Sessions -/

namespace Session

open Source

variable {session : Session}

/-- Skipping stops at the first pair of zero octets. -/
structure Skips (session : Session) : Prop where
  /-- So it does where the session acts, … -/
  next : ∀ scope, session.decoder.SkipsNull scope
  /-- … wherever an operation takes a value on its way, … -/
  throughout : ∀ operation scope decoder, session.Includes operation (.next scope, decoder) →
    decoder.SkipsNull scope
  /-- … and in every region that has not ended, over whatever source. -/
  regions : ∀ (state : Marked) (below : Source), state.closed = false → SkipsToPair state below

/-- Whatever operations have been carried out on a new session, failing ones included, skipping
stops at the first pair of zero octets. -/
theorem skips_of_visits {arrivals : List Arrival} {limit maxDepth : Nat}
    (h : Visits (fresh arrivals limit maxDepth) session) : session.Skips := by
  have hs : session.decoder.source.Settled := (sound_of_visits h).settled
  constructor
  · intro scope
    exact Decoder.skipsNull_of_settled hs scope
  · intro operation scope decoder hincludes
    have hfits : Task.Fits (.next scope) decoder.source := fits_of_includes hs hincludes
    exact Decoder.skipsNull_of_settled hfits scope
  · intro state below hopen
    exact skipsToPair hopen below

/-- A constructed NULL of indefinite length in a sequence of indefinite length. The pair that ends
it begins at its second octet, and behind it stands the marker of the sequence. -/
theorem skips_of_visits_odd :
    ∃ session, Visits (fresh ([0x30, 0x80, 0x25, 0x80, 1, 0, 0, 0, 0].map .octet) 9 128) session ∧
      session.Skips ∧ ∃ after,
        Decoder.next session.current session.decoder = .ok (some (.primitive .null)) after ∧
        after.source.position = 7 := by
  have hfirst :=
    @Visits.first (fresh ([0x30, 0x80, 0x25, 0x80, 1, 0, 0, 0, 0].map .octet) 9 128)
  have hopened := hfirst.step .pull
  have hskips := skips_of_visits hopened
  have hwritten : Identifier.Written ⟨0x25, [], 5⟩ := .short (by decide)
  obtain ⟨after, hnext, hdelivers, -⟩ :=
    (hskips.next _).found _ [1] [0, 0] _ hwritten rfl (by decide)
      ⟨_, _, ⟨_, rfl, _, rfl, _, rfl, _, rfl, _, rfl, _, rfl, _, rfl, rfl⟩, rfl, rfl⟩
  exact ⟨_, hopened, hskips, after, hnext, hdelivers.position⟩

end Session
end Ber
