import Ber.Proofs.Forest

/-!
# Ber.Proofs.Tracing — remarks follow the values

Draining remarks on every value once, in the order of the octets. `Encoding.trace` are these remarks
for values in a row, by recursion over what is written:

1. the header of each value, at the place where it ends;
2. right behind it, a tag without a meaning and NULL of indefinite length;
3. behind the values in a container, where its region ends, and how many they are if it is drained.

`Decoder.Tells` says which remarks an action makes. The three that recursion goes through, taking a
value as a whole, draining and joining, make those of the trace (`Decoder.element_tells`,
`Decoder.elementsWithin_tells`, `Decoder.joinedWithin_tells`).
-/

namespace Ber

/-! ## The trace -/

/-- The remarks at the end of a region read value by value. The segments of an octet string are
joined, everything else is drained. -/
def Form.closingRemarks (count place : Nat) : Form → List Remark
  | .octetString => [.endOfContent place]
  | _ => [.endOfContent place, .drained count place]

/-- What is remarked on a value without parts. -/
def Primitive.remarks : Primitive → List Remark
  | unknown identifier content => [.unknownTag identifier content.length]
  | _ => []

namespace Encoding

/-- The remark on the header of a value that starts at a place. -/
def headerRemark (start : Nat) (value : Encoding) : Remark :=
  .header value.identifier value.length (start + value.header.length)

mutual

/-- The remarks behind that on the header of a value that starts at a place. -/
def innerTrace (start : Nat) : Encoding → List Remark
  | uninterpreted .. | taggedContent .. => []
  | primitive _ _ value => value.remarks
  | skippedNull identifier skipped =>
    [.indefiniteNull (start + (skippedNull identifier skipped).octets.length)]
  | container form identifier extent values =>
    trace (start + (container form identifier extent values).header.length) values ++
      form.closingRemarks values.length
        (start + (container form identifier extent values).octets.length)

/-- The remarks on values in a row, the first of which starts at a place. -/
def trace (start : Nat) : List Encoding → List Remark
  | [] => []
  | value :: values =>
    value.headerRemark start :: (innerTrace start value ++ trace (start + value.octets.length) values)

end

end Encoding

/-- The place that the remark on a header names. -/
def Remark.headerPlace? : Remark → Option Nat
  | .header _ _ position => some position
  | _ => none

namespace Encoding

/-- Only a header is remarked on as a header. -/
theorem headerPlaces_closing (form : Form) (count place : Nat) :
    (form.closingRemarks count place).filterMap Remark.headerPlace? = [] := by
  cases form <;> rfl

theorem headerPlaces_primitive (value : Primitive) :
    value.remarks.filterMap Remark.headerPlace? = [] := by
  cases value <;> rfl

/-- Places that grow, behind one place and not behind another. -/
structure Ordered (after upTo : Nat) (places : List Nat) : Prop where
  increasing : places.Pairwise (· < ·)
  after : ∀ place ∈ places, after < place
  upTo : ∀ place ∈ places, place ≤ upTo

namespace Ordered

variable {a b c place : Nat} {places others : List Nat}

theorem nil : Ordered a b [] := ⟨.nil, by simp, by simp⟩

theorem cons (h : Ordered place b places) (hafter : a < place) (hupTo : place ≤ b) :
    Ordered a b (place :: places) := by
  refine ⟨List.pairwise_cons.2 ⟨h.after, h.increasing⟩, ?_, ?_⟩
  · intro p hp
    rcases List.mem_cons.1 hp with rfl | hp
    · exact hafter
    · exact Nat.lt_trans hafter (h.after p hp)
  · exact List.forall_mem_cons.2 ⟨hupTo, h.upTo⟩

theorem append (h : Ordered a b places) (h' : Ordered b c others) (hab : a ≤ b) (hbc : b ≤ c) :
    Ordered a c (places ++ others) := by
  refine ⟨List.pairwise_append.2 ⟨h.increasing, h'.increasing, ?_⟩, ?_, ?_⟩
  · intro p hp q hq
    exact Nat.lt_of_le_of_lt (h.upTo p hp) (h'.after q hq)
  · intro p hp
    rcases List.mem_append.1 hp with hp | hp
    · exact h.after p hp
    · exact Nat.lt_of_le_of_lt hab (h'.after p hp)
  · intro p hp
    rcases List.mem_append.1 hp with hp | hp
    · exact Nat.le_trans (h.upTo p hp) hbc
    · exact h'.upTo p hp

theorem mono (h : Ordered a b places) (hbc : b ≤ c) : Ordered a c places :=
  ⟨h.increasing, h.after, fun p hp => Nat.le_trans (h.upTo p hp) hbc⟩

end Ordered

mutual

/-- Headers inside a value end behind its own, one behind the other. -/
theorem ordered_innerTrace (start : Nat) : (value : Encoding) →
    Ordered (start + value.header.length) (start + value.octets.length)
      ((innerTrace start value).filterMap Remark.headerPlace?)
  | uninterpreted .. => .nil
  | taggedContent .. => .nil
  | primitive _ _ value => by
    rw [innerTrace, headerPlaces_primitive]
    exact .nil
  | skippedNull .. => .nil
  | container form identifier extent values => by
    rw [innerTrace, List.filterMap_append, headerPlaces_closing, List.append_nil]
    refine (ordered_trace _ values).mono ?_
    rw [octets_eq_header, body]
    simp only [List.length_append]
    omega

/-- Headers of values in a row end one behind the other. -/
theorem ordered_trace (start : Nat) : (values : List Encoding) →
    Ordered start (start + (octetsAll values).length)
      ((trace start values).filterMap Remark.headerPlace?)
  | [] => .nil
  | value :: values => by
    have hpos := value.header_pos
    have hle : value.header.length ≤ value.octets.length := by
      rw [octets_eq_header, List.length_append]
      omega
    have hfirst := (ordered_innerTrace start value).cons
      (show start < start + value.header.length by omega) (by omega)
    have hrest := ordered_trace (start + value.octets.length) values
    rw [octetsAll, List.length_append, ← Nat.add_assoc]
    rw [trace, List.filterMap_cons_some (show Remark.headerPlace? _ = some _ from rfl),
      List.filterMap_append, ← List.cons_append]
    exact hfirst.append hrest (by omega) (by omega)

end

/-- A container has more octets than the values in it. -/
theorem length_octetsAll_lt (form : Form) (identifier : Identifier) (extent : Extent)
    (values : List Encoding) :
    (octetsAll values).length < (container form identifier extent values).octets.length := by
  have hpos := (container form identifier extent values).header_pos
  rw [octets_eq_header, body]
  simp only [List.length_append]
  omega

end Encoding

/-! ## Remarks that an action makes -/

namespace Decoder

variable {α β : Type} {s t u m : Source} {scope : Scope}

/-- An action leads from one source to another and makes remarks, whatever was remarked before. -/
def Tells (action : Decoding α) (remarks : List Remark) (s : Source) (a : α) (t : Source) : Prop :=
  ∀ journal, action ⟨s, journal⟩ = .ok a ⟨t, remarks.reverse ++ journal⟩

namespace Tells

theorem pure (a : α) (s : Source) : Tells (pure a) [] s a s := fun _ => rfl

theorem bind {action : Decoding α} {rest : α → Decoding β} {front back : List Remark} {a : α} {b : β}
    (haction : Tells action front s a m) (hrest : Tells (rest a) back m b t) :
    Tells (action >>= rest) (front ++ back) s b t := by
  intro journal
  refine Action.bind_eq_ok.2 ⟨a, _, haction journal, ?_⟩
  rw [hrest, List.reverse_append, List.append_assoc]

/-- What is made of the outcome makes no remarks. -/
theorem map {action : Decoding α} {remarks : List Remark} {a : α} (f : α → β)
    (h : Tells action remarks s a t) : Tells (do return f (← action)) remarks s (f a) t := by
  have hpure : Tells (do return f (← action)) (remarks ++ []) s (f a) t := h.bind (.pure (f a) t)
  rwa [List.append_nil] at hpure

/-- An action on the source makes no remarks. -/
theorem taking {action : Taking α} {a : α} (h : action s = .ok a t) :
    Tells (liftM action) [] s a t := by
  intro journal
  change Decoder.taking action ⟨s, journal⟩ = _
  simp only [Decoder.taking, Action.on, h]
  rfl

theorem taking_bind {action : Taking α} {rest : α → Decoding β} {remarks : List Remark} {a : α}
    {b : β} (h : action s = .ok a m) (hrest : Tells (rest a) remarks m b t) :
    Tells (liftM action >>= rest) remarks s b t :=
  (taking h).bind hrest

theorem remark_bind {rest : Unit → Decoding β} {remarks : List Remark} {b : β} (r : Remark)
    (hrest : Tells (rest ()) remarks s b t) : Tells (remark r >>= rest) (r :: remarks) s b t := by
  intro journal
  rw [List.reverse_cons, List.append_assoc]
  exact hrest (r :: journal)

theorem position_bind {rest : Nat → Decoding β} {remarks : List Remark} {b : β}
    (hrest : Tells (rest s.position) remarks s b t) : Tells (position >>= rest) remarks s b t :=
  fun journal => hrest journal

theorem leaving {action : Decoding α} {remarks : List Remark} {a : α}
    (h : Tells action remarks s a t) : Tells (leaving action) remarks s a t.leave := by
  intro journal
  exact Action.afterwards_eq_ok.2 ⟨_, h journal, rfl⟩

end Tells

/-! ## The next value -/

/-- At the end of a region, its end is remarked on. -/
theorem next_tells_end (h : Source.firstOctet? s = .ok none t) :
    Tells (next scope) [.endOfContent t.position] s none t := by
  intro journal
  exact Tells.taking_bind h (.position_bind (.remark_bind _ (.pure none t))) journal

/-- A header is remarked on before anything in its content. -/
theorem next_tells_header {limit : Nat} {identifier : Identifier} {lengthOctets : Octets}
    {length : Length} {remarks : List Remark} {item : Item} (hs : s.Ready)
    (hlimit : limit = (scope.lower s.available).limit)
    (hheaded : Source.Headed limit identifier lengthOctets length s m)
    (hitem : Tells (Decoder.item (scope.lower s.available) identifier (.of identifier length))
      remarks m item u) :
    Tells (next scope) (.header identifier length m.position :: remarks) s (some item) u := by
  subst hlimit
  obtain ⟨first, v, v', hfirst, hafter, htake⟩ :=
    (Source.firstOctet?_header_iff hs).2 ⟨lengthOctets, hheaded⟩
  intro journal
  exact Tells.taking_bind hfirst (.taking_bind hafter (.taking_bind htake
    (.position_bind (.remark_bind _ (.map some hitem))))) journal

end Decoder

namespace Source

open Encoding

variable {s t : Source} {scope : Scope} {value : Encoding}

/-- The length of a value that fits in a scope is below its limit. -/
theorem below_of_fitIn : {value : Encoding} → FitIn [value] scope → value.length.Below scope.limit
  | .uninterpreted .., h => h.lengths _ (by simp [lengthsAll, lengths])
  | .primitive .., h => h.lengths _ (by simp [lengthsAll, lengths])
  | .skippedNull .., _ => trivial
  | .taggedContent .., h => h.lengths _ (by simp [lengthsAll, lengths])
  | .container .., h => (fitIn_container.1 h).2.1

end Source

namespace Decoder

open Encoding Source

variable {s t u : Source} {scope : Scope}

/-- Taking a value that is written in front of a source remarks on its header, and then on what
reading its content remarks on. -/
theorem next_tells {value : Encoding} (hs : s.Ready) (h : Written scope value s t) :
    ∃ m, m.Passing ∧ Delivers value.body m t ∧ m.position = s.position + value.header.length ∧
      ∀ {remarks item u},
        Tells (Decoder.item (scope.lower s.available) value.identifier value.content) remarks m
          item u →
        Tells (next scope) (value.headerRemark s.position :: remarks) s (some item) u := by
  have hbelow := below_of_fitIn (h.fitIn_lower hs)
  obtain ⟨hidentifier, hlength, hcontent⟩ := h.valid.announces
  have hdelivers := h.delivers
  rw [octets_eq_header] at hdelivers
  obtain ⟨m, hm, hbody⟩ := delivers_append.1 hdelivers
  have hposition : m.position = s.position + value.header.length := hm.position
  refine ⟨m, hm.passing hs, hbody, hposition, fun {remarks item u} hitem => ?_⟩
  rw [← hcontent] at hitem
  rw [headerRemark, ← hposition]
  refine next_tells_header hs rfl ⟨hidentifier, hlength, hbelow, ?_, ?_⟩ hitem
  · rw [← header_eq]
    exact h.unmarked
  · rwa [← header_eq]

/-- A value of application or private class is taken with a remark on its header. -/
theorem uninterpreted_tells {identifier : Identifier} {lengthOctets content : Octets} (hs : s.Ready)
    (h : Written scope (.uninterpreted identifier lengthOctets content) s t) :
    Tells (next scope) [headerRemark s.position (.uninterpreted identifier lengthOctets content)]
      s (some (.uninterpreted identifier content)) t := by
  obtain ⟨m, hm, hbody, -, hnext⟩ := next_tells hs h
  exact hnext (.map _ (.taking ((octets_eq_ok_iff hm).2 ⟨rfl, hbody⟩)))

/-- A value without parts is taken with a remark on its header, and on its tag if that has no
meaning. -/
theorem primitive_tells {identifier : Identifier} {lengthOctets : Octets} {value : Primitive}
    (hs : s.Ready) (h : Written scope (.primitive identifier lengthOctets value) s t) :
    Tells (next scope)
      (headerRemark s.position (.primitive identifier lengthOctets value) :: value.remarks)
      s (some (.primitive value)) t := by
  obtain ⟨m, hm, hbody, -, hnext⟩ := next_tells hs h
  have hdecode : Tells (decode identifier value.content) value.remarks t value t := by
    unfold decode
    rw [Primitive.ofContent_content h.valid.2.2]
    cases value with
    | unknown => exact .remark_bind _ (.pure _ _)
    | _ => exact .pure _ _
  exact hnext (.taking_bind ((octets_eq_ok_iff hm).2 ⟨rfl, hbody⟩) (.map _ hdecode))

/-- NULL of indefinite length is taken with a remark on its header and one behind its marker. -/
theorem skippedNull_tells {identifier : Identifier} {skipped : Octets} (hs : s.Ready)
    (h : Written scope (.skippedNull identifier skipped) s t) :
    Tells (next scope) [headerRemark s.position (.skippedNull identifier skipped),
      .indefiniteNull (s.position + (skippedNull identifier skipped).octets.length)]
      s (some (.primitive .null)) t := by
  have hposition : t.position = s.position + (skippedNull identifier skipped).octets.length :=
    h.delivers.position
  obtain ⟨m, hm, hbody, -, hnext⟩ := next_tells hs h
  rw [← hposition]
  exact hnext (.taking_bind ((within_skipToEnd_eq_ok_iff hm).2 ⟨skipped, h.valid.2.2, hbody⟩)
    (.position_bind (.remark_bind _ (.pure _ _))))

/-- A container is entered without remarks of its own. -/
theorem entered_tells {identifier : Identifier} {form : Form} {region : Region}
    (hdepth : scope.depth < scope.maxDepth) :
    Tells (Decoder.item scope identifier (.entered form region)) [] s
      (.container ⟨form, scope.inside region, region.isMarked⟩) (s.enter region) := by
  have henter : Tells (enter scope form region) [] s
      ⟨form, scope.inside region, region.isMarked⟩ (s.enter region) := by
    intro journal
    simp only [enter, if_neg (Nat.not_le_of_lt hdepth)]
    rfl
  exact .map _ henter

/-- A container is entered with a remark on its header, and its values are written there. Its region
ends where the container does. -/
theorem container_tells {form : Form} {identifier : Identifier} {extent : Extent}
    {values : List Encoding} (hs : s.Ready)
    (h : Written scope (.container form identifier extent values) s t) :
    ∃ (inner : Scope) (m u : Source), m.Ready ∧ WrittenAll inner values m u ∧ u.leave = t ∧
      m.position = s.position + (container form identifier extent values).header.length ∧
      u.position = s.position + (container form identifier extent values).octets.length ∧
      Tells (next scope) [headerRemark s.position (.container form identifier extent values)] s
        (some (.container ⟨form, inner, extent.isMarked⟩)) m := by
  obtain ⟨hdeeper, -, hfits⟩ := fitIn_container.1 (h.fitIn_lower hs)
  obtain ⟨m, hm, hbody, hposition, hnext⟩ := next_tells hs h
  obtain ⟨u, hends, hleave⟩ := (endsAfter_extent hm).2 ⟨fun _ => rfl, hbody⟩
  obtain ⟨-, -, -, -, -, hvalid, hunmarked⟩ := h.valid
  refine ⟨_, m.enter (extent.region (octetsAll values).length), u, ?_,
    ⟨hvalid, fun hmarked => hunmarked ?_, hfits, hends⟩, hleave, hposition, ?_, ?_⟩
  · refine hm.ready_enter ?_
    cases extent <;> trivial
  · simpa [isMarked, Source.enter] using hmarked
  · rw [← show u.leave.position = u.position from rfl, hleave]
    exact h.delivers.position
  · rw [← Extent.isMarked_region extent (octetsAll values).length]
    exact hnext (entered_tells hdeeper)

/-! ## Values as a whole -/

section
variable {drain : Scope → Decoding (List Element)} {join : Scope → Decoding Octets}
  {remarks : List Remark}

/-- A container is read with the remarks of draining it, or of joining it if it is an octet
string. -/
theorem contents_tells {form : Form} {inner : Scope} {isIndefinite : Bool}
    {elements : List Element} {count place : Nat}
    (hconstructed : ∀ named, form = .tagged named → named.isConstructed)
    (hdrain : form ≠ .octetString →
      Tells (drain inner) (remarks ++ [.endOfContent place, .drained count place]) s elements t)
    (hjoin : form = .octetString → Tells (join inner) (remarks ++ [.endOfContent place]) s
      (elements.filterMap Element.segment?).flatten t) :
    Tells (contentsWith drain join ⟨form, inner, isIndefinite⟩)
      (remarks ++ form.closingRemarks count place) s (form.element elements) t := by
  cases form with
  | sequence => exact .map _ (hdrain (by simp))
  | set => exact .map _ (hdrain (by simp))
  | octetString => exact .map (fun octets => Element.primitive (.octetString octets)) (hjoin rfl)
  | tagged identifier =>
    simp only [contentsWith, hconstructed identifier rfl, if_true]
    exact .map _ (hdrain (by simp))

/-- The content of a tagged value that is not constructed is taken without remarks. -/
theorem remainder_tells {identifier : Identifier} {inner : Scope} {isIndefinite : Bool}
    {content : Octets} (hconstructed : ¬ identifier.isConstructed) (hs : s.Passing)
    (h : Delivers content s t) :
    Tells (leaving (contentsWith drain join ⟨.tagged identifier, inner, isIndefinite⟩)) []
      (s.enter (.definite content.length)) (.taggedContent identifier content) t := by
  have htaken : Source.remainder (s.enter (.definite content.length)) =
      .ok content (t.enter (.definite (content.length - content.length))) :=
    (octets_eq_ok_iff (hs.enter (show (Region.definite content.length).Passing from trivial))).2
      ⟨rfl, delivers_enter.2 ⟨Nat.le_refl _, t, h, rfl⟩⟩
  refine Tells.leaving (t := t.enter (.definite (content.length - content.length))) ?_
  simp only [contentsWith, hconstructed, Bool.false_eq_true, if_false]
  exact .map _ (.taking htaken)

end

/-- An item is a segment of an octet string, in one piece or in segments itself, which are joined
with remarks of their own. -/
inductive Segment (bound : Nat) : Item → Source → List Remark → Octets → Source → Prop where
  | piece (octets : Octets) (s : Source) :
    Segment bound (.primitive (.octetString octets)) s [] octets s
  | segmented {inner : Scope} {isIndefinite : Bool} {remarks : List Remark} {octets : Octets}
    {s t : Source} (hjoined : Tells (joinedWithin bound inner []) remarks s octets t) :
    Segment bound (.container ⟨.octetString, inner, isIndefinite⟩) s remarks octets t.leave

/-- A segment is joined with its remarks, before the segments behind it. -/
theorem joinedWithin_tells_segment {bound : Nat} {pieces : List Octets} {piece octets : Octets}
    {item : Item} {front back rest : List Remark} {m m' : Source}
    (hnext : Tells (next scope) front s (some item) m) (hsegment : Segment bound item m back piece m')
    (hrest : Tells (joinedWithin bound scope (piece :: pieces)) rest m' octets t) :
    Tells (joinedWithin (bound + 1) scope pieces) (front ++ (back ++ rest)) s octets t := by
  cases hsegment with
  | piece => exact .position_bind (hnext.bind hrest)
  | segmented hjoined => exact .position_bind (hnext.bind (hjoined.leaving.bind hrest))

mutual

/-- A value that is written in front of a source is taken as a whole with the remarks of its trace:
on its header, and then on what is inside. -/
theorem element_tells : (value : Encoding) → {scope : Scope} → {s t : Source} → {bound : Nat} →
    s.Ready → Written scope value s t → value.octets.length ≤ bound →
    ∃ item m front back, Tells (next scope) front s (some item) m ∧
      Tells (elementWith (contentsWith (elementsWithin bound · []) (joinedWithin bound · [])) item)
        back m value.element t ∧
      front ++ back = value.headerRemark s.position :: innerTrace s.position value
  | .uninterpreted .., scope, s, t, bound, hs, h, _ =>
    ⟨_, _, _, _, uninterpreted_tells hs h, .pure _ t, rfl⟩
  | .primitive .., scope, s, t, bound, hs, h, _ =>
    ⟨_, _, _, _, primitive_tells hs h, .pure _ t, List.append_nil _⟩
  | .skippedNull .., scope, s, t, bound, hs, h, _ =>
    ⟨_, _, _, _, skippedNull_tells hs h, .pure _ t, rfl⟩
  | .taggedContent identifier lengthOctets content, scope, s, t, bound, hs, h, _ => by
    obtain ⟨-, -, -, hconstructed⟩ := h.valid
    have hdeeper : scope.depth < scope.maxDepth := h.fits.nesting
    obtain ⟨m, hm, hbody, -, hnext⟩ := next_tells hs h
    exact ⟨_, _, _, _, hnext (entered_tells (by simpa using hdeeper)),
      remainder_tells hconstructed hm hbody, rfl⟩
  | .container form identifier extent values, scope, s, t, bound, hs, h, hbound => by
    obtain ⟨-, -, -, hconstructed, hholds, -⟩ := h.valid
    obtain ⟨inner, m, u, hm, hvalues, rfl, hstart, hend, hnext⟩ := container_tells hs h
    have hfewer := Nat.lt_of_lt_of_le (length_octetsAll_lt form identifier extent values) hbound
    -- its values are drained, or joined if it is an octet string; both remark on them alike
    refine ⟨_, m, _, _, hnext, .leaving (contents_tells hconstructed ?_ ?_), rfl⟩
    · intro _
      have hdrained := @elementsWithin_tells values inner m u bound [] hm hvalues hfewer
      rwa [hend, hstart, List.length_nil, Nat.zero_add] at hdrained
    · rintro rfl
      have hjoined := @joinedWithin_tells values inner m u bound [] hm hvalues hholds hfewer
      rwa [hend, hstart] at hjoined

/-- A segment that is written in front of a source is taken and joined with the remarks of its
trace. -/
theorem segment_tells : (value : Encoding) → {scope : Scope} → {s t : Source} → {bound : Nat} →
    {piece : Octets} → s.Ready → Written scope value s t → value.octets.length ≤ bound →
    value.element.segment? = some piece →
    ∃ item m front back, Tells (next scope) front s (some item) m ∧
      Segment bound item m back piece t ∧
      front ++ back = value.headerRemark s.position :: innerTrace s.position value
  | .primitive identifier lengthOctets value, scope, s, t, bound, piece, hs, h, _, hsegment => by
    have hnext := primitive_tells hs h
    cases value <;> cases hsegment
    exact ⟨_, _, _, _, hnext, .piece piece t, rfl⟩
  | .container form identifier extent values, scope, s, t, bound, piece, hs, h, hbound, hsegment => by
    obtain ⟨-, -, -, hconstructed, hholds, -⟩ := h.valid
    obtain ⟨inner, m, u, hm, hvalues, rfl, hstart, hend, hnext⟩ := container_tells hs h
    have hfewer := Nat.lt_of_lt_of_le (length_octetsAll_lt form identifier extent values) hbound
    cases form <;> cases hsegment
    have hjoined := @joinedWithin_tells values inner m u bound [] hm hvalues hholds hfewer
    rw [hend, hstart] at hjoined
    exact ⟨_, m, _, _, hnext, .segmented hjoined, rfl⟩

/-- Values that are written up to the end of a region are drained with the remarks of their trace
and two at the end. -/
theorem elementsWithin_tells : (values : List Encoding) → {scope : Scope} → {s t : Source} →
    {bound : Nat} → {taken : List Element} → s.Ready → WrittenAll scope values s t →
    (octetsAll values).length < bound →
    Tells (elementsWithin bound scope taken)
      (trace s.position values ++
        [.endOfContent t.position, .drained (taken.length + values.length) t.position])
      s (taken.reverse ++ elements values) t
  | [], scope, s, t, bound + 1, taken, hs, h, hbound => by
    have hend : Tells (next scope) _ s none t := next_tells_end (endsAfter_nil.1 h.ends)
    rw [elements, List.append_nil]
    exact hend.bind (.position_bind (.remark_bind _ (.pure _ t)))
  | value :: values, scope, s, t, bound + 1, taken, hs, h, hbound => by
    obtain ⟨m', hvalue, hvalues⟩ := writtenAll_cons.1 h
    -- a value has octets, so fewer remain for those behind it
    have hpos := value.header_pos
    have hlength := congrArg List.length value.octets_eq_header
    simp only [octetsAll, List.length_append] at hbound hlength
    have hfirst : value.octets.length ≤ bound := by omega
    obtain ⟨item, m, front, back, hnext, helement, htrace⟩ := element_tells value hs hvalue hfirst
    have hrest := @elementsWithin_tells values scope m' t bound (value.element :: taken)
      (hvalue.passing hs).ready hvalues (by omega)
    have hplace : m'.position = s.position + value.octets.length := hvalue.delivers.position
    have hall : Tells (elementsWithin (bound + 1) scope taken) _ s _ t :=
      hnext.bind (helement.bind hrest)
    rw [← List.append_assoc, htrace, hplace] at hall
    simpa [trace, elements, Nat.add_right_comm, Nat.add_assoc] using hall

/-- Segments that are written up to the end of a region are joined with the remarks of their trace
and one at the end. -/
theorem joinedWithin_tells : (values : List Encoding) → {scope : Scope} → {s t : Source} →
    {bound : Nat} → {pieces : List Octets} → s.Ready → WrittenAll scope values s t →
    Form.octetString.Holds (elements values) → (octetsAll values).length < bound →
    Tells (joinedWithin bound scope pieces) (trace s.position values ++ [.endOfContent t.position])
      s (pieces.reverse.flatten ++ ((elements values).filterMap Element.segment?).flatten) t
  | [], scope, s, t, bound + 1, pieces, hs, h, _, hbound => by
    have hend : Tells (next scope) _ s none t := next_tells_end (endsAfter_nil.1 h.ends)
    have hall : Tells (joinedWithin (bound + 1) scope pieces) _ s _ t :=
      .position_bind (hend.bind (.pure pieces.reverse.flatten t))
    simpa [trace, elements] using hall
  | value :: values, scope, s, t, bound + 1, pieces, hs, h, hholds, hbound => by
    obtain ⟨m', hvalue, hvalues⟩ := writtenAll_cons.1 h
    obtain ⟨hsegment, hholds⟩ := List.forall_mem_cons.1 hholds
    have hpos := value.header_pos
    have hlength := congrArg List.length value.octets_eq_header
    simp only [octetsAll, List.length_append] at hbound hlength
    have hplace : m'.position = s.position + value.octets.length := hvalue.delivers.position
    obtain ⟨piece, hpiece⟩ := Option.isSome_iff_exists.1 hsegment
    have hfirst : value.octets.length ≤ bound := by omega
    obtain ⟨item, m, front, back, hnext, hitem, htrace⟩ :=
      segment_tells value hs hvalue hfirst hpiece
    have hrest := @joinedWithin_tells values scope m' t bound (piece :: pieces)
      (hvalue.passing hs).ready hvalues hholds (by omega)
    have hall := joinedWithin_tells_segment hnext hitem hrest
    rw [← List.append_assoc, htrace, hplace] at hall
    simpa [trace, elements, hpiece] using hall

end

end Decoder
end Ber
