import Ber.Proofs.Site

/-!
# Ber.Proofs.Pinpointing — where draining fails

Draining fails at the next value, or inside it, or behind it (`Source.FailsIn.failsAt`). So going from
site to site, a failure is `Located`: at a site that is reached, and as far behind it as its cause says
(`Source.FailsIn.located`, `Decoder.drain_failure_located`).

* The octets end within a value: where the data ends, or the first of the definite regions that are open.
* A value is refused: behind the octets that were read for it, which are all there for its cause.
* An octet string holds another value: in front of that value, however deep the segments are nested.
-/

namespace Ber

/-! ## How reading the values of a region fails -/

/-- A container with the tag of octet strings is one. -/
theorem Form.NamedBy.eq_octetString {form : Form} {identifier : Identifier} {isIndefinite : Bool}
    (h : form.NamedBy identifier isIndefinite) (htag : identifier.tag = .universal .octetString) :
    form = .octetString := by
  have hclass : identifier.tagClass = .universal := congrArg Tag.tagClass htag
  cases form with
  | octetString => rfl
  | sequence =>
    have hother : identifier.tag = .universal .sequence := h
    rw [htag, Tag.universal_inj] at hother
    cases hother
  | set =>
    have hother : identifier.tag = .universal .set := h
    rw [htag, Tag.universal_inj] at hother
    cases hother
  | tagged named =>
    obtain ⟨-, hother | ⟨-, hother⟩⟩ := h <;> rw [hclass] at hother <;> cases hother

/-- Whether an item may be the segment of an octet string. -/
def Item.isSegment : Item → Bool
  | .primitive (.octetString _) => true
  | .container ⟨.octetString, _, _⟩ => true
  | _ => false

namespace Source

variable {form? : Option Form} {scope : Scope} {s m t : Source} {item : Item} {failure : Failure}

/-- Reading the values of a region fails. In an octet string they are joined, elsewhere drained. -/
def FailsIn (form? : Option Form) (scope : Scope) (s : Source) (failure : Failure) : Prop :=
  if form? = some .octetString then ∃ pieces t, joinedFrom scope pieces s = .error failure t
  else ∃ t, elementsFrom scope [] s = .error failure t

/-- Where reading the values of a region fails: at the next value, inside it, or behind it. An octet
string also fails in front of a value that is not a segment. -/
inductive FailsAt (form? : Option Form) (scope : Scope) (s : Source) (failure : Failure) : Prop where
  | value {t : Source} (h : next scope s = .error failure t)
  | segment {item : Item} {m : Source} (hnext : next scope s = .ok (some item) m)
    (hform : form? = some .octetString) (hitem : ¬ item.isSegment)
    (hfailure : failure = ⟨Decoder.foreignSegment, s.position⟩)
  | inside {item : Item} {m t : Source} (hnext : next scope s = .ok (some item) m)
    (hitem : form? = some .octetString → item.isSegment)
    (h : element item m = .error failure t)
  | behind {item : Item} {first : Element} {m m' : Source}
    (hnext : next scope s = .ok (some item) m) (hfirst : element item m = .ok first m')
    (hsegment : form? = some .octetString → first.segment?.isSome)
    (h : FailsIn form? scope m' failure)

/-- Joining fails at the next value, inside it, or behind it. -/
theorem joinedFrom_failsAt {pieces : List Octets} (h : joinedFrom scope pieces s = .error failure t) :
    FailsAt (some .octetString) scope s failure := by
  have hbehind : ∀ {pieces : List Octets} {m u : Source},
      joinedFrom scope pieces m = .error failure u →
      FailsIn (some .octetString) scope m failure := by
    intro pieces m u h
    rw [FailsIn, if_pos rfl]
    exact ⟨pieces, u, h⟩
  rw [joinedFrom_eq] at h
  rcases Action.bind_eq_error.1 h with hfailed | ⟨found, m, hnext, hrest⟩
  · exact .value hfailed
  match found with
  | none => cases hrest
  | some (.uninterpreted identifier content) =>
    cases hrest
    exact .segment hnext rfl (by simp [Item.isSegment]) rfl
  | some (.primitive value) =>
    cases value with
    | octetString piece =>
      obtain ⟨first, hfirst, hsegment⟩ := element_segment_iff.2 (.inl ⟨rfl, rfl⟩)
      exact .behind hnext hfirst (fun _ => by rw [hsegment]; rfl) (hbehind hrest)
    | _ =>
      cases hrest
      exact .segment hnext rfl (by simp [Item.isSegment]) rfl
  | some (.container ⟨form, inner, isIndefinite⟩) =>
    cases form with
    | octetString =>
      rcases Action.bind_eq_error.1 hrest with hfailed | ⟨piece, m', hpiece, hrest⟩
      · obtain ⟨u, hfailed⟩ := Action.afterwards_eq_error hfailed
        refine .inside hnext (fun _ => rfl) (t := u.leave) ?_
        simp only [element, elementWith, contents, contentsWith, Action.afterwards, Bind.bind,
          EStateM.bind, hfailed]
      · obtain ⟨first, hfirst, hsegment⟩ :=
          element_segment_iff.2 (.inr ⟨inner, isIndefinite, rfl, hpiece⟩)
        exact .behind hnext hfirst (fun _ => by rw [hsegment]; rfl) (hbehind hrest)
    | _ =>
      cases hrest
      exact .segment hnext rfl (by simp [Item.isSegment]) rfl

/-- Draining fails at the next value, inside it, or behind it. -/
theorem elementsFrom_failsAt (hform : form? ≠ some .octetString)
    (h : elementsFrom scope [] s = .error failure t) : FailsAt form? scope s failure := by
  rw [elementsFrom_eq] at h
  rcases Action.bind_eq_error.1 h with hfailed | ⟨found, m, hnext, hrest⟩
  · exact .value hfailed
  cases found with
  | none => cases hrest
  | some item =>
    rcases Action.bind_eq_error.1 hrest with hfailed | ⟨first, m', hfirst, hrest⟩
    · exact .inside hnext (fun h => absurd h hform) hfailed
    · refine .behind hnext hfirst (fun h => absurd h hform) ?_
      rw [elementsFrom_taken] at hrest
      rcases Action.bind_eq_error.1 hrest with hfailed | ⟨rest, u, -, hpure⟩
      · rw [FailsIn, if_neg hform]
        exact ⟨_, hfailed⟩
      · cases hpure

theorem FailsIn.failsAt (h : FailsIn form? scope s failure) : FailsAt form? scope s failure := by
  unfold FailsIn at h
  split at h
  · rename_i hform
    obtain ⟨pieces, t, h⟩ := h
    rw [hform]
    exact joinedFrom_failsAt h
  · rename_i hform
    obtain ⟨t, h⟩ := h
    exact elementsFrom_failsAt hform h

/-- Only reading a container as a whole fails: when its content is taken as it is, or when its values
are read. -/
theorem element_error (h : element item m = .error failure t) :
    ∃ container, item = .container container ∧
      ((∃ identifier u, container.form = .tagged identifier ∧ ¬ identifier.isConstructed ∧
          remainder m = .error failure u) ∨
        (∀ named, container.form = .tagged named → named.isConstructed) ∧
          FailsIn (some container.form) container.scope m failure) := by
  match item with
  | .uninterpreted identifier content => cases h
  | .primitive value => cases h
  | .container ⟨form, inner, isIndefinite⟩ =>
    refine ⟨_, rfl, ?_⟩
    obtain ⟨u, hcontents⟩ := Action.afterwards_eq_error h
    have hdrained : ∀ {wrap : List Element → Element}, form ≠ .octetString →
        (do return wrap (← elementsFrom inner []) : Taking Element) m = .error failure u →
        FailsIn (some form) inner m failure := by
      intro wrap hform hrun
      rw [FailsIn, if_neg (fun h => hform (Option.some.inj h))]
      rcases Action.bind_eq_error.1 hrun with hfailed | ⟨elements, u', -, hpure⟩
      · exact ⟨u, hfailed⟩
      · cases hpure
    have hother : ∀ named, form ≠ .tagged named → form = .tagged named → named.isConstructed :=
      fun named hne heq => absurd heq hne
    cases form with
    | sequence => exact .inr ⟨fun named => hother named (by simp), hdrained (by simp) hcontents⟩
    | set => exact .inr ⟨fun named => hother named (by simp), hdrained (by simp) hcontents⟩
    | octetString =>
      refine .inr ⟨fun named => hother named (by simp), ?_⟩
      rw [FailsIn, if_pos rfl]
      rcases Action.bind_eq_error.1 hcontents with hfailed | ⟨octets, u', -, hpure⟩
      · exact ⟨[], u, hfailed⟩
      · cases hpure
    | tagged identifier =>
      by_cases hconstructed : identifier.isConstructed
      · simp only [contents, contentsWith, hconstructed, if_true] at hcontents
        refine .inr ⟨?_, hdrained (by simp) hcontents⟩
        rintro named ⟨⟩
        exact hconstructed
      · simp only [contents, contentsWith, hconstructed] at hcontents
        rcases Action.bind_eq_error.1 hcontents with hfailed | ⟨octets, u', -, hpure⟩
        · exact .inl ⟨identifier, u, rfl, hconstructed, hfailed⟩
        · cases hpure

end Source

/-! ## Where failures are -/

/-- No octet of a value that goes on is behind the end of its content. -/
theorem Unfinished.lt_reach {scope : Scope} {c : Octets} {reach : Nat}
    (h : Unfinished scope c (some reach)) : c.length < reach := by
  cases h with
  | content hidentifier hlength htakes hcount =>
    simp only [List.length_append]
    omega

/-- Octets for which a value is known not to be an octet string: those of a whole value, or those of the
header of a container. -/
inductive Foreign (scope : Scope) : Octets → Prop where
  | value {value : Encoding} (hvalid : value.Valid) (hfits : Encoding.FitIn [value] scope)
    (hforeign : value.element.segment? = none) : Foreign scope value.octets
  | container {identifier : Identifier} {lengthOctets : Octets} {length : Length}
    (hidentifier : identifier.Written) (hlength : Length.Written lengthOctets length)
    (hbelow : length.Below scope.limit) (hopens : identifier.OpensContainer length)
    (hdepth : scope.depth < scope.maxDepth) (htag : identifier.tag ≠ .universal .octetString) :
    Foreign scope (identifier.octets ++ lengthOctets)

/-- A site that is reached, where the innermost container does not end. The octets come next, and do not
reach beyond the end of a definite container. -/
structure Site.Begins (limit maxDepth : Nat) (data c : Octets) (site : Site) : Prop where
  reached : site.Reached limit maxDepth
  next : ∃ rest, data = site.octets ++ (c ++ rest) ∧ ¬ site.Ends (c ++ rest)
  inside : ∀ e ∈ site.ends, site.position + c.length ≤ e

/-- Where draining data fails, under a limit and with a greatest depth. -/
inductive Located (limit maxDepth : Nat) (data : Octets) : Failure → Prop where
  /-- The octets end within a value. This is where the data ends, or a definite container around the
  value, or the content of the value itself, whatever comes first. -/
  | truncated {site : Site} {c : Octets} {reach : Option Nat} {position : Nat}
    (hsite : site.Begins limit maxDepth data c)
    (hunfinished : Unfinished (site.scope limit maxDepth) c reach)
    (hposition : position = site.position + c.length)
    (hleast : (data.length :: (site.ends ++ reach.toList.map (site.position + ·))).min? =
      some position) :
    Located limit maxDepth data ⟨.truncated, position⟩
  /-- A value is refused: right behind the octets that were read for it. -/
  | refused {site : Site} {c : Octets} {cause : Cause} (hsite : site.Begins limit maxDepth data c)
    (hrefused : Refused (site.scope limit maxDepth) cause c) :
    Located limit maxDepth data ⟨cause, site.position + c.length⟩
  /-- A value in an octet string is no octet string: in front of the value. -/
  | segment {site : Site} {c : Octets} (hsite : site.Begins limit maxDepth data c)
    (hform : site.form? = some .octetString) (hforeign : Foreign (site.scope limit maxDepth) c) :
    Located limit maxDepth data ⟨Decoder.foreignSegment, site.position⟩

namespace Source

variable {limit maxDepth : Nat} {scope : Scope} {site : Site} {data c rest : Octets} {s m : Source}
  {item : Item} {failure : Failure}

/-- A container is read behind its header, and its region is opened there. -/
theorem next_opened {container : Container} (hs : s.Ready)
    (h : next scope s = .ok (some (.container container)) m) :
    ∃ (identifier : Identifier) (extent : Extent) (count : Nat) (u : Source),
      Headed (scope.lower s.available).limit identifier extent.opening (extent.length count) s u ∧
      Content.of identifier (extent.length count) =
        .entered container.form (extent.region count) ∧
      container.form.NamedBy identifier extent.isMarked ∧ scope.depth < scope.maxDepth ∧
      m = u.enter (extent.region count) ∧
      container.scope = (scope.lower s.available).inside (extent.region count) := by
  obtain ⟨identifier, lengthOctets, length, u, hheaded, hitem⟩ := (next_eq_some_iff hs).1 h
  by_cases hentered : ∃ form region, Content.of identifier length = .entered form region
  · obtain ⟨form, region, hcontent⟩ := hentered
    have hallowed := Content.allowed_of identifier length
    rw [hcontent] at hitem hallowed
    obtain ⟨hdepth, hm, hcontainer⟩ := item_entered_eq_ok_iff.1 hitem
    obtain ⟨extent, count, rfl, rfl, rfl, hnamed⟩ :=
      Extent.of_allowed hallowed hheaded.lengthWritten
    obtain rfl := Item.container.inj hcontainer
    rw [Scope.lower_depth, Scope.lower_maxDepth] at hdepth
    exact ⟨identifier, extent, count, u, hheaded, hcontent, hnamed, hdepth, hm, rfl⟩
  · have hother := isContainer_of_item (fun form region h => hentered ⟨form, region, h⟩) hitem
    cases hother

/-- A value that is no segment is known to be none. -/
theorem foreign_of_next (hs : s.Ready) (hdepth : scope.depth ≤ scope.maxDepth)
    (hnext : next scope s = .ok (some item) m) (hitem : ¬ item.isSegment) :
    ∃ c u, Foreign (scope.lower s.available) c ∧ Delivers c (s.watch false) u := by
  have hvalue : ∀ {first : Element}, element item m = .ok first m → first.segment? = none →
      ∃ c u, Foreign (scope.lower s.available) c ∧ Delivers c (s.watch false) u := by
    intro first hfirst hsegment
    obtain ⟨value, hvalue, rfl⟩ := element_sound hs hdepth elementsFrom_sound hnext hfirst
    exact ⟨value.octets, m, .value hvalue.valid (hvalue.fitIn_lower hs) hsegment,
      hvalue.delivers⟩
  match item with
  | .uninterpreted identifier content => exact hvalue rfl rfl
  | .primitive value =>
    refine hvalue rfl ?_
    cases value with
    | octetString octets => simp [Item.isSegment] at hitem
    | _ => rfl
  | .container container =>
    obtain ⟨identifier, extent, count, u, hheaded, hcontent, hnamed, hdeeper, -, -⟩ :=
      next_opened hs hnext
    refine ⟨identifier.octets ++ extent.opening, u, .container hheaded.identifierWritten
      hheaded.lengthWritten hheaded.below ?_ (by simpa using hdeeper) ?_, hheaded.delivers⟩
    · obtain hregion := Content.region_of_entered hcontent
      rw [hregion] at hcontent
      exact Content.exists_entered_iff.1 ⟨_, hcontent⟩
    · intro htag
      rcases container with ⟨form, inner, isIndefinite⟩
      obtain rfl : form = .octetString := hnamed.eq_octetString htag
      exact hitem rfl

/-- Where a value is looked for, it begins with what is delivered. -/
theorem begins_of_delivers (hat : site.At limit maxDepth scope rest s)
    (hdata : data = site.octets ++ rest) (hnone : ∀ t, next scope s ≠ .ok none t)
    (hc : Delivers c (s.watch false) m) : site.Begins limit maxDepth data c := by
  rw [hat.source] at hc
  obtain ⟨rest', rfl, hroom, -⟩ := Site.delivers_source_iff.1 hc
  refine ⟨hat.reached, ⟨rest', hdata, ?_⟩, hat.reached.delivered_le_ends hroom⟩
  intro hends
  obtain ⟨t, ht⟩ := hends.firstOctet?
  rw [← hat.source, firstOctet?_watch] at ht
  exact hnone t (next_eq_none_iff.2 ht)

/-- Where the next value at a site stops, its failure is. -/
theorem Stops.located (hat : site.At limit maxDepth scope rest s)
    (hdata : data = site.octets ++ rest) (hnone : ∀ t, next scope s ≠ .ok none t)
    (h : Stops (site.scope limit maxDepth) c (s.watch false) failure) :
    Located limit maxDepth data failure := by
  have hposition : ∀ {m : Source}, Delivers c (s.watch false) m →
      m.position = site.position + c.length := by
    intro m hm
    rw [hm.position, hat.source, Site.source_position]
  cases h with
  | @runsOut reach hunfinished hcut =>
    obtain ⟨m, hm, hexhausted, rfl⟩ := hcut
    have hreach : ∀ n ∈ reach.toList.map (site.position + ·), site.position + c.length ≤ n := by
      intro n hmem
      obtain ⟨reach', hreach, rfl⟩ := List.mem_map.1 hmem
      obtain rfl := Option.mem_toList.1 hreach
      exact Nat.add_le_add_left (Nat.le_of_lt hunfinished.lt_reach) _
    have hleast := hat.reached.min_of_exhausted (hat.source ▸ hm) hexhausted hreach
    rw [← hdata] at hleast
    rw [hposition hm]
    exact .truncated (begins_of_delivers hat hdata hnone hm) hunfinished rfl hleast
  | refused hrefused hfails =>
    obtain ⟨m, hm, hfailure⟩ := hfails
    rw [hfailure, hposition hm]
    exact .refused (begins_of_delivers hat hdata hnone hm) hrefused

/-- Where the content of a tagged value is taken as it is and this fails, its octets are cut off, or its
length is not allowed. -/
theorem remainder_stops {named : Identifier} {extent : Extent} {count : Nat} {u t : Source}
    (hs : s.Ready) (hcalm : s.Calm)
    (hheaded : Headed scope.limit named extent.opening (extent.length count) s u)
    (hcontent : Content.of named (extent.length count) =
      .entered (.tagged named) (extent.region count))
    (hprimitive : ¬ named.isConstructed) (hdepth : scope.depth < scope.maxDepth)
    (h : remainder (u.enter (extent.region count)) = .error failure t) :
    ∃ c, Stops scope c (s.watch false) failure := by
  have hheader := hheaded.delivers
  cases extent with
  | definite lengthOctets =>
    have hentered : (u.enter (.definite count)).Passing := (hheader.passing hs).enter trivial
    have hcalm : u.Calm := hheader.calm hcalm
    obtain ⟨c, hlength, hcut⟩ := octets_error hentered hcalm h
    have hroom : Region.spend c.length (.definite count) ≠ .definite 0 := by
      intro h
      have hzero : count - c.length = 0 := Region.definite.inj h
      omega
    have htakes : named.TakesContent scope count := by
      refine ⟨hheaded.below, fun form region hentered => ?_⟩
      rw [show Content.of named (.definite count) = _ from hcontent] at hentered
      cases hentered
      exact ⟨rfl, hprimitive, hdepth⟩
    have hunfinished := Unfinished.content hheaded.identifierWritten hheaded.lengthWritten
      htakes hlength
    exact ⟨_, .runsOut hunfinished ((hcut.of_enter hroom).behind hheader)⟩
  | marked =>
    cases h
    refine ⟨_, .refused ?_ ⟨u, hheader, rfl⟩⟩
    exact .form hheaded.identifierWritten (.inr ⟨hcontent, hprimitive, hdepth⟩)

/-- Where reading the values of a region fails, the failure is located. -/
theorem FailsIn.located (hat : site.At limit maxDepth scope rest s)
    (hdata : data = site.octets ++ rest) (h : FailsIn site.form? scope s failure) :
    Located limit maxDepth data failure := by
  generalize hleft : s.left = left
  induction left using Nat.strongRecOn generalizing scope site rest s with
  | ind left ih =>
    subst hleft
    have hfound : ∀ {item : Item} {m : Source}, next scope s = .ok (some item) m →
        ∀ t, next scope s ≠ .ok none t := by
      intro item m hnext t h
      rw [hnext] at h
      cases h
    -- on the octets left: there are fewer inside the next value and fewer behind it
    cases h.failsAt with
    | value hfailed =>
      obtain ⟨c, hstops⟩ := next_stops hat.ready hat.calm hfailed
      rw [hat.available, hat.scope] at hstops
      refine hstops.located hat hdata fun t h => ?_
      rw [hfailed] at h
      cases h
    | segment hnext hform hitem hfailure =>
      obtain ⟨c, u, hforeign, hc⟩ := foreign_of_next hat.ready hat.depth_le hnext hitem
      rw [hat.available, hat.scope] at hforeign
      rw [hfailure, hat.position]
      exact .segment (begins_of_delivers hat hdata (hfound hnext) hc) hform hforeign
    | inside hnext hitem hfailed =>
      obtain ⟨container, rfl, hfails⟩ := element_error hfailed
      obtain ⟨identifier, extent, count, u, hheaded, hcontent, hnamed, hdepth, rfl, hscope⟩ :=
        next_opened hat.ready hnext
      have hdeeper : site.depth < maxDepth := by
        have hlowered : (scope.lower site.available).depth < (scope.lower site.available).maxDepth := by
          simpa using hdepth
        rwa [hat.scope] at hlowered
      rw [hat.available, hat.scope] at hheaded hscope
      rcases hfails with ⟨named, v, hform, hprimitive, hremainder⟩ | ⟨hconstructed, hfails⟩
      · rw [hform] at hnamed hcontent
        obtain ⟨rfl, -⟩ := hnamed
        obtain ⟨c, hstops⟩ := remainder_stops hat.ready hat.calm hheaded hcontent hprimitive
          hdeeper hremainder
        exact hstops.located hat hdata (hfound hnext)
      · have hsame : site.form? = some .octetString → container.form = .octetString := by
          intro hform
          have hsegment := hitem hform
          rcases container with ⟨_ | _ | _ | _, _, _⟩ <;> first | rfl | cases hsegment
        obtain ⟨rest', rfl, hinside⟩ := hat.inside hheaded hnamed hconstructed hdeeper hsame
        rw [hscope] at hfails
        refine ih _ (left_of_next_eq_ok hnext) hinside ?_ hfails rfl
        simp only [hdata, Site.octets, List.append_assoc]
    | behind hnext hfirst hsegment hrest =>
      obtain ⟨value, hvalue, rfl⟩ := element_sound hat.ready hat.depth_le
        elementsFrom_sound hnext hfirst
      obtain ⟨rest', rfl, hbehind⟩ := hat.behind hvalue hsegment
      refine ih _ (left_of_element_eq_ok hnext hfirst) hbehind ?_ hrest rfl
      rw [hdata, Site.octets, List.append_assoc]

end Source

/-! ## Draining data -/

/-- Where draining data fails, the failure is located: its position is where its cause is. -/
theorem Decoder.drain_failure_located {data : Octets} {limit maxDepth : Nat} {journal : List Remark}
    {failure : Failure} {decoder : Decoder}
    (h : drain (.top limit maxDepth) ⟨.ofData data, journal⟩ = .error failure decoder) :
    Located limit maxDepth data failure := by
  have hdrained : Source.elementsFrom (.top limit maxDepth) [] (.ofData data) =
      .error failure decoder.source := by
    rw [← silent_drain (Scope.top limit maxDepth) (.ofData data) journal, h]
    rfl
  have hat : Site.start.At limit maxDepth (.top limit maxDepth) data (.ofData data) :=
    ⟨.start, rfl, rfl⟩
  refine Source.FailsIn.located hat rfl ?_
  rw [Source.FailsIn, if_neg (fun h => nomatch h)]
  exact ⟨_, hdrained⟩

/-- An octet string in two segments, the second one again in segments. There is an integer among these,
and the failure is in front of it. -/
theorem Decoder.drain_failure_located_segment :
    ∃ decoder, drain (.top 16 2) ⟨.ofData [0x24, 0x80, 0x04, 0x01, 0x61, 0x24, 0x03, 0x02, 0x01,
        0x07, 0x00, 0x00], []⟩ = .error ⟨foreignSegment, 7⟩ decoder ∧
      Located 16 2 [0x24, 0x80, 0x04, 0x01, 0x61, 0x24, 0x03, 0x02, 0x01, 0x07, 0x00, 0x00]
        ⟨foreignSegment, 7⟩ := by
  have hdrained : ∃ decoder, drain (.top 16 2) ⟨.ofData [0x24, 0x80, 0x04, 0x01, 0x61, 0x24, 0x03,
      0x02, 0x01, 0x07, 0x00, 0x00], []⟩ = .error ⟨foreignSegment, 7⟩ decoder := ⟨_, rfl⟩
  obtain ⟨decoder, hdrained⟩ := hdrained
  exact ⟨decoder, hdrained, drain_failure_located hdrained⟩

end Ber
