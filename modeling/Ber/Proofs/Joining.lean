import Ber.Proofs.Nesting
import Ber.Proofs.Pinpointing

/-!
# Ber.Proofs.Joining — octet strings are put together from their segments

Wherever a session stands in an octet string, joining what remains of it agrees with its segments:

1. it gives the octets of the elements that draining gives, if these are octet strings
   (`Session.Joins.drained`);
2. these are the contents of the octet strings without parts that are written there, at whatever depth
   (`Encoding.leavesAll`, `Session.Joins.written`);
3. it is refused at a value that is no octet string, and only there. `Session.MeetsForeign` says how
   reading segment by segment comes to such a value (`Session.Joins.foreign`).
-/

namespace Ber

/-! ## Leaves -/

namespace Encoding

mutual

/-- The contents of the octet strings without parts that make up an octet string, in order. -/
def leaves : Encoding → List Octets
  | primitive _ _ (.octetString octets) => [octets]
  | container .octetString _ _ values => leavesAll values
  | _ => []

/-- The same for values in a row. -/
def leavesAll : List Encoding → List Octets
  | [] => []
  | value :: values => leaves value ++ leavesAll values

end

mutual

/-- A segment is made up of its leaves. -/
theorem flatten_leaves : (value : Encoding) → value.Valid → {piece : Octets} →
    value.element.segment? = some piece → (leaves value).flatten = piece
  | primitive _ _ value, _, piece, hsegment => by
    cases value <;> cases hsegment
    simp [leaves]
  | container form _ _ values, hvalid, piece, hsegment => by
    obtain ⟨-, -, -, -, hholds, hvalues, -⟩ := hvalid
    cases form <;> cases hsegment
    exact flatten_leavesAll values hvalues hholds

/-- Segments in a row are made up of their leaves. -/
theorem flatten_leavesAll : (values : List Encoding) → ValidAll values →
    Form.octetString.Holds (elements values) →
    (leavesAll values).flatten = ((elements values).filterMap Element.segment?).flatten
  | [], _, _ => rfl
  | value :: values, hvalid, hholds => by
    obtain ⟨hsegment, hholds⟩ := List.forall_mem_cons.1 hholds
    obtain ⟨piece, hpiece⟩ := Option.isSome_iff_exists.1 hsegment
    have hfirst := flatten_leaves value hvalid.1 hpiece
    have hrest := flatten_leavesAll values hvalid.2 hholds
    simp [leavesAll, elements, hpiece, hfirst, hrest]

end

end Encoding

theorem Element.segment?_eq_some_iff {element : Element} {piece : Octets} :
    element.segment? = some piece ↔ element = .primitive (.octetString piece) := by
  constructor
  · intro h
    cases element with
    | primitive value =>
      cases value <;> cases h
      rfl
    | _ => cases h
  · rintro rfl
    rfl

/-- Octet strings are joined from their octets. -/
theorem Element.segments_of_pieces (pieces : List Octets) :
    (pieces.map fun piece => Element.primitive (.octetString piece)).filterMap Element.segment? =
      pieces := by
  induction pieces with
  | nil => rfl
  | cons piece pieces ih => exact congrArg (piece :: ·) ih

/-- Elements that are segments are octet strings, and nothing else. -/
theorem Form.holds_octetString_iff {elements : List Element} :
    Form.octetString.Holds elements ↔
      ∃ pieces : List Octets, elements = pieces.map fun piece => .primitive (.octetString piece) := by
  constructor
  · intro h
    refine ⟨elements.filterMap Element.segment?, ?_⟩
    induction elements with
    | nil => rfl
    | cons element elements ih =>
      obtain ⟨hsegment, hrest⟩ := List.forall_mem_cons.1 h
      obtain ⟨piece, hpiece⟩ := Option.isSome_iff_exists.1 hsegment
      rw [List.filterMap_cons_some hpiece, List.map_cons, ← ih hrest,
        ← Element.segment?_eq_some_iff.1 hpiece]
  · rintro ⟨pieces, rfl⟩ element hmem
    obtain ⟨piece, -, rfl⟩ := List.mem_map.1 hmem
    rfl

namespace Source

open Encoding

variable {s t : Source} {scope : Scope} {values : List Encoding}

/-- Values are all that remains of the innermost region: they are written up to its end. If it has
been read to its end before, there are none. -/
structure Remain (scope : Scope) (values : List Encoding) (s t : Source) : Prop where
  written : WrittenAll scope values s t
  ready : s.Ready ∨ values = []

/-- The octets of the values that remain come next, and then the end-of-contents marker, if the region
ends with one and has not been read to its end before. -/
theorem Remain.rest (h : Remain scope values s t) (hs : s.Settled) :
    ∃ closing, (closing = [] ∨ closing = [0, 0]) ∧ s.rest = octetsAll values ++ closing ++ t.rest := by
  by_cases hready : s.Ready
  · obtain ⟨hdefinite, hmarked, -⟩ := h.written.ends.advances hready
    by_cases hkind : s.isMarked = true
    · refine ⟨[0, 0], .inr rfl, ?_⟩
      exact (hmarked hkind).rest
    · refine ⟨[], .inl rfl, ?_⟩
      rw [List.append_nil]
      exact (hdefinite (Bool.eq_false_iff.2 hkind)).rest
  · -- the region has been read to its end before, and stays as it is
    obtain rfl := h.ready.resolve_left hready
    obtain ⟨below, -, rfl⟩ := hs.resolve_left hready
    cases (firstOctet?_closed below).symm.trans (endsAfter_nil.1 h.written.ends)
    exact ⟨[], .inl rfl, rfl⟩

/-- Whatever is drained from a settled source was all that remained there, and all that remains there
is drained. -/
theorem elementsFrom_remain_iff (hs : s.Settled) (hdepth : scope.depth ≤ scope.maxDepth)
    {elements : List Element} :
    elementsFrom scope [] s = .ok elements t ↔
      ∃ values, Remain scope values s t ∧ Encoding.elements values = elements := by
  constructor
  · intro h
    rcases hs with hready | ⟨below, -, rfl⟩
    · obtain ⟨values, hwritten, rfl⟩ := elementsFrom_sound hready hdepth h
      exact ⟨values, ⟨hwritten, .inl hready⟩, rfl⟩
    · have hclosed := (@next_eq_none_iff _ _ scope).2 (firstOctet?_closed below)
      rcases elementsFrom_eq_ok_iff.1 h with ⟨rfl, hnext⟩ | ⟨item, m, first, m', rest, -, hnext, -⟩
      · refine ⟨[], ⟨⟨trivial, fun _ => ?_, ⟨?_, hdepth⟩, ?_⟩, .inr rfl⟩, rfl⟩
        · simp [Unmarked]
        · simp [lengthsAll]
        · exact endsAfter_nil.2 (next_eq_none_iff.1 hnext)
      · cases hclosed.symm.trans hnext
  · rintro ⟨values, ⟨hwritten, hready | rfl⟩, rfl⟩
    · exact elementsFrom_complete values hready hwritten
    · exact elementsFrom_eq_ok_iff.2
        (.inl ⟨rfl, next_eq_none_iff.2 (endsAfter_nil.1 hwritten.ends)⟩)

/-- Joining what remains gives the leaves of the octet strings that are written there. -/
theorem joinedFrom_remain_iff (hs : s.Settled) (hdepth : scope.depth ≤ scope.maxDepth)
    {octets : Octets} :
    joinedFrom scope [] s = .ok octets t ↔
      ∃ values, Remain scope values s t ∧ Form.octetString.Holds (elements values) ∧
        octets = (leavesAll values).flatten := by
  rw [joinedFrom_eq_ok_iff_elements]
  constructor
  · rintro ⟨elements, helements, hholds, rfl⟩
    obtain ⟨values, hremain, rfl⟩ := (elementsFrom_remain_iff hs hdepth).1 helements
    refine ⟨values, hremain, hholds, ?_⟩
    rw [flatten_leavesAll values hremain.written.valid hholds]
    rfl
  · rintro ⟨values, hremain, hholds, rfl⟩
    refine ⟨elements values, (elementsFrom_remain_iff hs hdepth).2 ⟨values, hremain, rfl⟩, hholds, ?_⟩
    rw [flatten_leavesAll values hremain.written.valid hholds]
    rfl

end Source

/-! ## Values that are no octet strings -/

namespace Source

variable {s m t : Source} {scope : Scope} {failure : Failure}

/-- No content is refused for being a segment that is no octet string. -/
theorem ofContent_ne_foreign {identifier : Identifier} {c : Octets} {reason : String}
    (h : Primitive.ofContent identifier c = .error reason) :
    Cause.malformedContent reason ≠ Decoder.foreignSegment := by
  cases Primitive.ofContent_eq_error_iff.1 h with
  | bitString htag hbits => cases hbits <;> decide
  | null => decide

/-- Taking a value never fails for being a segment that is no octet string. -/
theorem next_spares_foreign (scope : Scope) : Spares Decoder.foreignSegment (next scope) := by
  have hcause : ¬ Decoder.foreignSegment.stopsTaking := by decide
  have hheader : ¬ Decoder.foreignSegment.stopsHeader := by decide
  have hitem : ∀ scope identifier content,
      Spares Decoder.foreignSegment (Source.item scope identifier content) := by
    intro scope identifier content
    cases content with
    | decoded count =>
      refine (octets_spares hcause count).bind fun octets => .bind ?_ fun _ => .pure _
      unfold decode
      cases hread : Primitive.ofContent identifier octets with
      | error reason => exact .fail (ofContent_ne_foreign hread)
      | ok value => exact .pure _
    | kept count => exact item_spares hcause (by simp [Content.stopsFor])
    | skipped => exact item_spares hcause (by decide)
    | entered form region =>
      exact item_spares hcause (by simp [Content.stopsFor, Decoder.foreignSegment])
    | refused => exact item_spares hcause (by decide)
  intro s failure t h
  refine Spares.bind (firstOctet?_spares hcause) (fun found => ?_) s failure t h
  cases found with
  | none => exact .pure _
  | some first =>
    exact (Identifier.after_spares hcause hheader first).bind fun _ =>
      (Length.take_spares hcause hheader _).bind fun _ => (hitem _ _ _).bind fun _ => .pure _

/-- Joining goes on behind a segment without parts. -/
theorem joinedFrom_piece {pieces : List Octets} {piece : Octets}
    (hnext : next scope s = .ok (some (.primitive (.octetString piece))) m) :
    joinedFrom scope pieces s = joinedFrom scope (piece :: pieces) m := by
  rw [joinedFrom_eq]
  simp only [joinedStep, Bind.bind, EStateM.bind, hnext]

/-- Joining goes on inside a segment in segments, and then behind it. -/
theorem joinedFrom_segments {pieces : List Octets} {inner : Scope} {isIndefinite : Bool}
    (hnext : next scope s = .ok (some (.container ⟨.octetString, inner, isIndefinite⟩)) m) :
    joinedFrom scope pieces s =
      match joinedFrom inner [] m with
      | .ok piece t => joinedFrom scope (piece :: pieces) t.leave
      | .error failure t => .error failure t.leave := by
  rw [joinedFrom_eq]
  simp only [joinedStep, Bind.bind, EStateM.bind, hnext, Action.afterwards]
  cases joinedFrom inner [] m <;> rfl

/-- Joining is refused in front of a value that is no octet string. -/
theorem joinedFrom_foreign {pieces : List Octets} {item : Item}
    (hnext : next scope s = .ok (some item) m) (hitem : ¬ item.isSegment) :
    ∃ t, joinedFrom scope pieces s = .error ⟨Decoder.foreignSegment, s.position⟩ t := by
  rw [joinedFrom_eq]
  simp only [joinedStep, Bind.bind, EStateM.bind, hnext]
  cases item with
  | uninterpreted identifier content => exact ⟨_, rfl⟩
  | primitive value =>
    cases value with
    | octetString octets => exact absurd rfl hitem
    | _ => exact ⟨_, rfl⟩
  | container container =>
    rcases container with ⟨form, inner, isIndefinite⟩
    cases form with
    | octetString => exact absurd rfl hitem
    | _ => exact ⟨_, rfl⟩

end Source

namespace Session

open Source (Remain)
open Encoding (octetsAll leavesAll elements)

/-- Reading an octet string segment by segment comes to a value at a place that is no octet string. All
that is read before are octet strings: those without parts are pulled, and those in segments either
joined and left, or the value is among their segments. -/
inductive MeetsForeign : Session → Nat → Prop where
  | here {session after : Session} {item : Item}
    (hpull : perform .pull session = .ok (.item item) after) (hitem : ¬ item.isSegment) :
    MeetsForeign session session.position
  | behind {session after : Session} {octets : Octets} {place : Nat}
    (hpull : perform .pull session = .ok (.item (.primitive (.octetString octets))) after)
    (h : MeetsForeign after place) : MeetsForeign session place
  | inside {session after : Session} {inner : Scope} {isIndefinite : Bool} {place : Nat}
    (hpull : perform .pull session =
      .ok (.item (.container ⟨.octetString, inner, isIndefinite⟩)) after)
    (h : MeetsForeign after place) : MeetsForeign session place
  | past {session opened joined after : Session} {inner : Scope} {isIndefinite : Bool}
    {octets : Octets} {place : Nat}
    (hpull : perform .pull session =
      .ok (.item (.container ⟨.octetString, inner, isIndefinite⟩)) opened)
    (hjoin : perform .join opened = .ok (.joined octets) joined)
    (hleave : perform .leave joined = .ok .left after)
    (h : MeetsForeign after place) : MeetsForeign session place

variable {session after : Session} {container : Container} {below : List Container}

section
variable {α : Type} {action : Decoding α} {taking : Taking α} {answer : α → Reply} {source : Source}

/-- An operation that answers with what a decoding gives succeeds as that does on the source. -/
theorem answer_ok_iff {a : α} (hanswer : Function.Injective answer)
    (hsilent : Decoder.Silent action taking) :
    (∃ after, (decoding action >>= fun a => pure (answer a)) session = .ok (answer a) after ∧
      after.decoder.source = source) ↔ taking session.decoder.source = .ok a source := by
  constructor
  · rintro ⟨after, hdone, rfl⟩
    obtain ⟨b, hsame, hread, -⟩ := answer_eq_ok answer hsilent hdone
    rwa [hanswer hsame]
  · intro hread
    obtain ⟨journal, hrun⟩ := hsilent.eq_ok_iff.1 hread
    refine ⟨{ session with decoder := ⟨source, journal⟩ }, ?_, rfl⟩
    simp only [Bind.bind, EStateM.bind, decoding, Action.on, hrun]
    rfl

/-- It fails as that does on the source. -/
theorem answer_error_iff {failure : Failure} (hsilent : Decoder.Silent action taking) :
    (∃ after, (decoding action >>= fun a => pure (answer a)) session = .error failure after) ↔
      ∃ source, taking session.decoder.source = .error failure source := by
  constructor
  · rintro ⟨after, hfailed⟩
    obtain ⟨decoder, hrun⟩ := answer_eq_error action answer hfailed
    exact ⟨decoder.source, hsilent.eq_error_iff.2 ⟨decoder.journal, hrun⟩⟩
  · rintro ⟨source, hread⟩
    obtain ⟨journal, hrun⟩ := hsilent.eq_error_iff.1 hread
    refine ⟨{ session with decoder := ⟨source, journal⟩ }, ?_⟩
    simp only [Bind.bind, EStateM.bind, decoding, Action.on, hrun]

variable {scope : Scope} {isIndefinite : Bool}

/-- Joining an octet string answers with what it is joined to. -/
theorem perform_join (hopened : session.opened = ⟨.octetString, scope, isIndefinite⟩ :: below) :
    perform .join session =
      (decoding (Decoder.joined scope) >>= fun octets => pure (.joined octets)) session := by
  rcases session with ⟨decoder, top, opened⟩
  obtain rfl : opened = _ := hopened
  rfl

/-- Joining succeeds as it does on the source. -/
theorem join_eq_ok_iff {octets : Octets}
    (hopened : session.opened = ⟨.octetString, scope, isIndefinite⟩ :: below) :
    (∃ after, perform .join session = .ok (.joined octets) after ∧ after.decoder.source = source) ↔
      Source.joinedFrom scope [] session.decoder.source = .ok octets source := by
  rw [perform_join hopened]
  exact answer_ok_iff (fun _ _ => Reply.joined.inj) (Decoder.silent_joined scope)

/-- Joining changes nothing but the decoder. -/
theorem at_of_join {octets : Octets}
    (hopened : session.opened = ⟨.octetString, scope, isIndefinite⟩ :: below)
    (h : perform .join session = .ok (.joined octets) after) :
    session.At after.decoder.source after := by
  rw [perform_join hopened] at h
  obtain ⟨_, -, -, hat⟩ := answer_eq_ok .joined (Decoder.silent_joined scope) h
  exact hat

/-- Joining fails as it does on the source. -/
theorem join_eq_error_iff {failure : Failure}
    (hopened : session.opened = ⟨.octetString, scope, isIndefinite⟩ :: below) :
    (∃ after, perform .join session = .error failure after) ↔
      ∃ source, Source.joinedFrom scope [] session.decoder.source = .error failure source := by
  rw [perform_join hopened]
  exact answer_error_iff (Decoder.silent_joined scope)

/-- Draining succeeds as it does on the source. -/
theorem drain_eq_ok_iff {elements : List Element} :
    (∃ after, perform .drain session = .ok (.elements elements) after ∧
      after.decoder.source = source) ↔
      Source.elementsFrom session.current [] session.decoder.source = .ok elements source :=
  answer_ok_iff (fun _ _ => Reply.elements.inj) (Decoder.silent_drain session.current)

end

/-- Behind a value without parts, a session acts on the same values. -/
theorem current_behind (hopened : after.opened = session.opened) (htop : after.top = session.top) :
    after.current = session.current := by
  rw [current, current, hopened, htop]

/-- A segment in segments that is joined and left is read on the source alone. -/
theorem joined_and_left {opened joined : Session} {inner : Scope} {isIndefinite : Bool}
    {octets : Octets} (hopened : opened.opened = ⟨.octetString, inner, isIndefinite⟩ :: below)
    (hjoin : perform .join opened = .ok (.joined octets) joined)
    (hleave : perform .leave joined = .ok .left after) :
    ∃ source, Source.joinedFrom inner [] opened.decoder.source = .ok octets source ∧
      after.decoder.source = source.leave ∧ after.opened = below ∧ after.top = opened.top := by
  have hread := (join_eq_ok_iff hopened).1 ⟨joined, hjoin, rfl⟩
  have hat := at_of_join hopened hjoin
  cases hleave.symm.trans (leave_eq (hat.opened.trans hopened))
  refine ⟨joined.decoder.source, hread, rfl, ?_, hat.top⟩
  exact congrArg List.tail (hat.opened.trans hopened)

/-- A segment in segments that is read on the source can be joined and left. -/
theorem join_and_leave {opened : Session} {inner : Scope} {isIndefinite : Bool} {octets : Octets}
    {source : Source} (hopened : opened.opened = ⟨.octetString, inner, isIndefinite⟩ :: below)
    (h : Source.joinedFrom inner [] opened.decoder.source = .ok octets source) :
    ∃ joined after, perform .join opened = .ok (.joined octets) joined ∧
      perform .leave joined = .ok .left after ∧ after.decoder.source = source.leave ∧
      after.opened = below ∧ after.top = opened.top := by
  obtain ⟨joined, hjoin, rfl⟩ := (join_eq_ok_iff hopened).2 h
  have hat := at_of_join hopened hjoin
  refine ⟨joined, _, hjoin, leave_eq (hat.opened.trans hopened), rfl, ?_, hat.top⟩
  exact congrArg List.tail (hat.opened.trans hopened)

/-- Where reading segment by segment comes to a value that is no octet string, joining is refused. -/
theorem MeetsForeign.joinedFrom {place : Nat} (h : MeetsForeign session place) :
    ∀ pieces, ∃ t, Source.joinedFrom session.current pieces session.decoder.source =
      .error ⟨Decoder.foreignSegment, place⟩ t := by
  induction h with
  | here hpull hitem =>
    intro pieces
    exact Source.joinedFrom_foreign (next_of_pull hpull).1 hitem
  | behind hpull h ih =>
    intro pieces
    obtain ⟨hnext, hopened, htop⟩ := next_of_pull hpull
    rw [Source.joinedFrom_piece hnext, ← current_behind hopened htop]
    exact ih _
  | @inside session after inner isIndefinite place hpull h ih =>
    intro pieces
    obtain ⟨hnext, hopened, -⟩ := next_of_pull hpull
    obtain ⟨t, hfailed⟩ := ih []
    have hcurrent : after.current = inner := by rw [current, hopened]; rfl
    rw [hcurrent] at hfailed
    rw [Source.joinedFrom_segments hnext, hfailed]
    exact ⟨t.leave, rfl⟩
  | @past session opened joined after inner isIndefinite octets place hpull hjoin hleave h ih =>
    intro pieces
    obtain ⟨hnext, hopened, htop⟩ := next_of_pull hpull
    obtain ⟨source, hjoined, hsource, hbelow, hkept⟩ := joined_and_left hopened hjoin hleave
    rw [Source.joinedFrom_segments hnext, hjoined]
    rw [← current_behind hbelow (hkept.trans htop)]
    dsimp only
    rw [← hsource]
    exact ih _

/-- Where joining is refused for a value, reading segment by segment comes to it. -/
theorem meetsForeign_of_joinedFrom {pieces : List Octets} {place : Nat} {t : Source}
    (h : Source.joinedFrom session.current pieces session.decoder.source =
      .error ⟨Decoder.foreignSegment, place⟩ t) : MeetsForeign session place := by
  generalize hleft : session.decoder.source.left = left
  induction left using Nat.strongRecOn generalizing session pieces t with
  | ind left ih =>
    subst hleft
    -- on the octets left: there are fewer inside the next segment and fewer behind it
    cases Source.joinedFrom_failsAt h with
    | value hfailed => exact absurd rfl (Source.next_spares_foreign _ _ _ _ hfailed)
    | segment hnext _ hitem hfailure =>
      cases hfailure
      obtain ⟨after, hpull, -⟩ := pull_of_next hnext
      exact .here hpull hitem
    | @inside item m u hnext hitem hfailed =>
      obtain ⟨container, rfl, hfails⟩ := Source.element_error hfailed
      rcases container with ⟨form, inner, isIndefinite⟩
      have hsegment := hitem rfl
      cases form <;> cases hsegment
      obtain ⟨after, hpull, hsource, hopened, -⟩ := pull_of_next hnext
      have hcurrent : after.current = inner := by rw [current, hopened]; rfl
      rcases hfails with ⟨named, v, hform, -⟩ | ⟨-, hfails⟩
      · cases hform
      · rw [Source.FailsIn, if_pos rfl] at hfails
        obtain ⟨pieces', v, hfails⟩ := hfails
        rw [← hsource, ← hcurrent] at hfails
        refine .inside hpull (ih _ ?_ hfails rfl)
        rw [hsource]
        exact Source.left_of_next_eq_ok hnext
    | @behind item first m m' hnext hfirst hsegment hrest =>
      rw [Source.FailsIn, if_pos rfl] at hrest
      obtain ⟨pieces', v, hrest⟩ := hrest
      obtain ⟨piece, hpiece⟩ := Option.isSome_iff_exists.1 (hsegment rfl)
      have hless := Source.left_of_element_eq_ok hnext hfirst
      obtain ⟨opened, hpull, hsource, hopened, htop⟩ := pull_of_next hnext
      rcases Source.element_segment_iff.1 ⟨first, hfirst, hpiece⟩ with ⟨rfl, rfl⟩ |
        ⟨inner, isIndefinite, rfl, hjoined⟩
      · rw [← hsource, ← current_behind hopened htop] at hrest
        refine .behind hpull (ih _ ?_ hrest rfl)
        rwa [hsource]
      · obtain ⟨source, hrun, rfl⟩ := Action.afterwards_eq_ok.1 hjoined
        rw [← hsource] at hrun
        obtain ⟨joined, after, hjoin, hleave, hafter, hbelow, hkept⟩ := join_and_leave hopened hrun
        rw [← hafter, ← current_behind hbelow (hkept.trans htop)] at hrest
        refine .past hpull hjoin hleave (ih _ ?_ hrest rfl)
        rwa [hafter]

/-! ## Every octet string -/

/-- Joining what remains of an octet string agrees with its segments. -/
structure Joins (session : Session) : Prop where
  /-- It gives the octets of the elements that draining gives, if all of these are octet strings, and
  both end at the same place. -/
  drained : ∀ octets source,
    (∃ after, perform .join session = .ok (.joined octets) after ∧ after.decoder.source = source) ↔
      ∃ (pieces : List Octets) (after : Session), perform .drain session =
          .ok (.elements (pieces.map fun piece => .primitive (.octetString piece))) after ∧
        after.decoder.source = source ∧ octets = pieces.flatten
  /-- It gives the leaves of the segments that are written up to the end of the octet string. -/
  written : ∀ octets source,
    (∃ after, perform .join session = .ok (.joined octets) after ∧ after.decoder.source = source) ↔
      ∃ segments closing, Remain session.current segments session.decoder.source source ∧
        (closing = [] ∨ closing = [0, 0]) ∧
        session.decoder.source.rest = octetsAll segments ++ closing ++ source.rest ∧
        Form.octetString.Holds (elements segments) ∧
        octets = (leavesAll segments).flatten
  /-- It is refused at a value that is no octet string, and at no other place for this cause. -/
  foreign : ∀ place, MeetsForeign session place ↔
    ∃ after, perform .join session = .error ⟨Decoder.foreignSegment, place⟩ after

/-- Wherever operations on a new session lead in an octet string, failing ones included, joining agrees
with the segments. -/
theorem joins_of_visits {arrivals : List Arrival} {limit maxDepth : Nat} {scope : Scope}
    {isIndefinite : Bool} (h : Visits (fresh arrivals limit maxDepth) session)
    (hopened : session.opened = ⟨.octetString, scope, isIndefinite⟩ :: below) : session.Joins := by
  have hsettled := (sound_of_visits h).settled
  have hcurrent : session.current = scope := by rw [current, hopened]
  have hrooted := rooted_of_visits h
  have hdepth : scope.depth ≤ scope.maxDepth := by
    have hle := hrooted.depth_innermost_le hrooted.chain
    rwa [hopened] at hle
  constructor
  case drained =>
    intro octets source
    rw [join_eq_ok_iff hopened, Source.joinedFrom_eq_ok_iff_elements, ← hcurrent]
    constructor
    · rintro ⟨elements, helements, hholds, rfl⟩
      obtain ⟨pieces, rfl⟩ := Form.holds_octetString_iff.1 hholds
      obtain ⟨after, hdrain, hsource⟩ := drain_eq_ok_iff.2 helements
      rw [Element.segments_of_pieces]
      exact ⟨pieces, after, hdrain, hsource, rfl⟩
    · rintro ⟨pieces, after, hdrain, hsource, rfl⟩
      refine ⟨_, drain_eq_ok_iff.1 ⟨after, hdrain, hsource⟩,
        Form.holds_octetString_iff.2 ⟨pieces, rfl⟩, ?_⟩
      rw [Element.segments_of_pieces]
      rfl
  case written =>
    intro octets source
    rw [join_eq_ok_iff hopened, Source.joinedFrom_remain_iff hsettled hdepth, hcurrent]
    constructor
    · rintro ⟨segments, hremain, hholds, rfl⟩
      obtain ⟨closing, hclosing, hrest⟩ := hremain.rest hsettled
      exact ⟨segments, closing, hremain, hclosing, hrest, hholds, rfl⟩
    · rintro ⟨segments, closing, hremain, -, -, hholds, rfl⟩
      exact ⟨segments, hremain, hholds, rfl⟩
  case foreign =>
    intro place
    rw [join_eq_error_iff hopened, ← hcurrent]
    constructor
    · intro hmeets
      exact hmeets.joinedFrom []
    · rintro ⟨source, hfailed⟩
      exact meetsForeign_of_joinedFrom hfailed

/-- An octet string in two segments, the second one again in segments, behind its first segment. -/
theorem joins_of_visits_segments :
    ∃ session after, Visits (fresh ([0x24, 0x80, 0x04, 0x01, 0x61, 0x24, 0x03, 0x04, 0x01, 0x62, 0x00,
        0x00].map .octet) 13 2) session ∧ session.Joins ∧ session.position = 5 ∧
      perform .join session = .ok (.joined [0x62]) after ∧ after.position = 12 := by
  have hfirst := @Visits.first (fresh ([0x24, 0x80, 0x04, 0x01, 0x61, 0x24, 0x03, 0x04, 0x01, 0x62,
    0x00, 0x00].map .octet) 13 2)
  have hpulled := (hfirst.step .pull).step .pull
  exact ⟨_, _, hpulled, joins_of_visits hpulled rfl, rfl, rfl, rfl⟩

end Session
end Ber
