import Mathlib.Logic.Relation
import Ber.Proofs.Lookout
import Ber.Proofs.Visiting

/-!
# Ber.Proofs.Tasks — what an operation does on its way

An operation takes values, and every value is taken in pieces: its first octet, the identifier, the
length, and the content. `Task` lists the pieces, `Task.Calls` says which of them a piece is made up
of and where each starts, and `Session.Asks` where an operation starts. So `Session.Includes` holds
of every moment on the way of an operation, whether it fails later or not.

`Task.Fits` is what holds of the source where a task starts (`Session.fits_of_includes`).
-/

namespace Ber

open Source

/-- What decoding consists of. -/
inductive Task where
  /-- Take the next value, or find that there is none. -/
  | next (scope : Scope)
  /-- Take what follows the first octet of an identifier. -/
  | identifier (first : UInt8)
  | length (limit : Nat)
  | content (scope : Scope) (identifier : Identifier) (content : Content)
  /-- Take octets up to a marker, in a region of its own. -/
  | skip
  /-- Take all that remains of a definite region. -/
  | remainder
  /-- Take values as a whole, behind those taken so far. -/
  | elements (bound : Nat) (scope : Scope) (taken : List Element)
  /-- Join segments, behind the pieces taken so far. -/
  | segments (bound : Nat) (scope : Scope) (pieces : List Octets)
  /-- Read what remains of a container. -/
  | contents (bound : Nat) (container : Container)
  /-- Read a value as a whole. -/
  | element (bound : Nat) (item : Item)

namespace Task

/-- Reads what remains of a container, with a bound. -/
def contentsWithin (bound : Nat) : Container → Decoding Element :=
  Decoder.contentsWith (Decoder.elementsWithin bound · []) (Decoder.joinedWithin bound · [])

/-- What a task leaves of a decoder, whether it fails or not. -/
def final (task : Task) (decoder : Decoder) : Decoder :=
  match task with
  | .next scope => Action.final (Decoder.next scope decoder)
  | .identifier first => Action.final (Decoder.taking (Identifier.after first) decoder)
  | .length limit => Action.final (Decoder.taking (Length.take limit) decoder)
  | .content scope named what => Action.final (Decoder.item scope named what decoder)
  | .skip => Action.final (Decoder.taking skipToEnd decoder)
  | .remainder => Action.final (Decoder.taking Source.remainder decoder)
  | .elements bound scope taken =>
    Action.final (Decoder.elementsWithin bound scope taken decoder)
  | .segments bound scope pieces => Action.final (Decoder.joinedWithin bound scope pieces decoder)
  | .contents bound container => Action.final (contentsWithin bound container decoder)
  | .element bound item => Action.final (Decoder.elementWith (contentsWithin bound) item decoder)

/-- A task on a decoder does another one on the way, from where it has got. -/
inductive Calls : Task × Decoder → Task × Decoder → Prop where
  /-- The first octet of a value is followed by the rest of its identifier, … -/
  | identifier {scope : Scope} {decoder : Decoder} {first : UInt8} {source : Source}
    (hfirst : firstOctet? decoder.source = .ok (some first) source) :
    Calls (.next scope, decoder) (.identifier first, { decoder with source })
  /-- … by its length, … -/
  | length {scope : Scope} {decoder : Decoder} {first : UInt8} {identifier : Identifier}
    {source source' : Source} (hfirst : firstOctet? decoder.source = .ok (some first) source)
    (hafter : Identifier.after first source = .ok identifier source') :
    Calls (.next scope, decoder)
      (.length (scope.lower decoder.source.available).limit, { decoder with source := source' })
  /-- … and by its content. -/
  | content {scope : Scope} {decoder : Decoder} {first : UInt8} {identifier : Identifier}
    {length : Length} {source source' source'' : Source}
    (hfirst : firstOctet? decoder.source = .ok (some first) source)
    (hafter : Identifier.after first source = .ok identifier source')
    (hlength : Length.take (scope.lower decoder.source.available).limit source' =
      .ok length source'') :
    Calls (.next scope, decoder)
      (.content (scope.lower decoder.source.available) identifier (.of identifier length),
        ⟨source'', .header identifier length source''.position :: decoder.journal⟩)
  /-- Content that is skipped is skipped in a region of its own. -/
  | skip {scope : Scope} {identifier : Identifier} {decoder : Decoder} :
    Calls (.content scope identifier .skipped, decoder)
      (.skip, { decoder with source := decoder.source.enter (.marked {}) })
  /-- Draining takes the next value, … -/
  | nextElement {bound : Nat} {scope : Scope} {taken : List Element} {decoder : Decoder} :
    Calls (.elements (bound + 1) scope taken, decoder) (.next scope, decoder)
  /-- … reads it as a whole, … -/
  | element {bound : Nat} {scope : Scope} {taken : List Element} {item : Item}
    {decoder middle : Decoder} (hnext : Decoder.next scope decoder = .ok (some item) middle) :
    Calls (.elements (bound + 1) scope taken, decoder) (.element bound item, middle)
  /-- … and goes on. -/
  | elements {bound : Nat} {scope : Scope} {taken : List Element} {item : Item}
    {element : Element} {decoder middle behind : Decoder}
    (hnext : Decoder.next scope decoder = .ok (some item) middle)
    (helement : Decoder.elementWith (contentsWithin bound) item middle = .ok element behind) :
    Calls (.elements (bound + 1) scope taken, decoder)
      (.elements bound scope (element :: taken), behind)
  /-- A container is read as a whole by reading what is in it. -/
  | contents {bound : Nat} {container : Container} {decoder : Decoder} :
    Calls (.element bound (.container container), decoder) (.contents bound container, decoder)
  /-- A container is drained, … -/
  | drain {bound : Nat} {container : Container} {decoder : Decoder}
    (hform : container.form ≠ .octetString)
    (hconstructed : ∀ identifier, container.form = .tagged identifier → identifier.isConstructed) :
    Calls (.contents bound container, decoder) (.elements bound container.scope [], decoder)
  /-- … or its content is taken as it is, … -/
  | remainder {bound : Nat} {container : Container} {identifier : Identifier} {decoder : Decoder}
    (hform : container.form = .tagged identifier) (hprimitive : ¬ identifier.isConstructed) :
    Calls (.contents bound container, decoder) (.remainder, decoder)
  /-- … or its segments are joined. -/
  | join {bound : Nat} {container : Container} {decoder : Decoder}
    (hform : container.form = .octetString) :
    Calls (.contents bound container, decoder) (.segments bound container.scope [], decoder)
  /-- Joining takes the next value, … -/
  | nextSegment {bound : Nat} {scope : Scope} {pieces : List Octets} {decoder : Decoder} :
    Calls (.segments (bound + 1) scope pieces, decoder) (.next scope, decoder)
  /-- … joins the segments in it if it has any, … -/
  | inner {bound : Nat} {scope inner : Scope} {isIndefinite : Bool} {pieces : List Octets}
    {decoder middle : Decoder} (hnext : Decoder.next scope decoder =
      .ok (some (.container ⟨.octetString, inner, isIndefinite⟩)) middle) :
    Calls (.segments (bound + 1) scope pieces, decoder) (.segments bound inner [], middle)
  /-- … and goes on behind them, … -/
  | segmented {bound : Nat} {scope inner : Scope} {isIndefinite : Bool} {pieces : List Octets}
    {octets : Octets} {decoder middle behind : Decoder} (hnext : Decoder.next scope decoder =
      .ok (some (.container ⟨.octetString, inner, isIndefinite⟩)) middle)
    (hinner : Decoder.leaving (Decoder.joinedWithin bound inner []) middle = .ok octets behind) :
    Calls (.segments (bound + 1) scope pieces, decoder)
      (.segments bound scope (octets :: pieces), behind)
  /-- … or behind a segment in one piece. -/
  | segment {bound : Nat} {scope : Scope} {pieces : List Octets} {octets : Octets}
    {decoder middle : Decoder}
    (hnext : Decoder.next scope decoder = .ok (some (.primitive (.octetString octets))) middle) :
    Calls (.segments (bound + 1) scope pieces, decoder)
      (.segments bound scope (octets :: pieces), middle)

/-- A task does another one on the way, at whatever depth. -/
def Includes : Task × Decoder → Task × Decoder → Prop := Relation.ReflTransGen Calls

end Task

/-- Whether an operation acts on the next value. -/
def Operation.takesNext : Operation → Bool
  | .pull | .element | .primitive | .container => true
  | _ => false

namespace Session

/-- An operation on a session starts with a task. -/
inductive Asks (session : Session) : Operation → Task × Decoder → Prop where
  | next {operation : Operation} (h : operation.takesNext) :
    Asks session operation (.next session.current, session.decoder)
  /-- A value that is found is read as a whole. -/
  | element {item : Item} {middle : Decoder}
    (hnext : Decoder.next session.current session.decoder = .ok (some item) middle) :
    Asks session .element (.element (middle.source.left + 1) item, middle)
  | drain :
    Asks session .drain
      (.elements (session.decoder.source.left + 1) session.current [], session.decoder)
  | takeContent {container : Container} {identifier : Identifier} {below : List Container}
    (hopened : session.opened = container :: below)
    (hform : container.form = .tagged identifier) :
    Asks session .takeContent (.remainder, session.decoder)
  | join {container : Container} {below : List Container}
    (hopened : session.opened = container :: below) (hform : container.form = .octetString) :
    Asks session .join
      (.segments (session.decoder.source.left + 1) container.scope [], session.decoder)
  | finish {container : Container} {below : List Container}
    (hopened : session.opened = container :: below) :
    Asks session .finish
      (.contents (session.decoder.source.left + 1) container, session.decoder)

/-- An operation on a session does a task on the way. -/
def Includes (session : Session) (operation : Operation) (moment : Task × Decoder) : Prop :=
  ∃ start, Asks session operation start ∧ Task.Includes start moment

end Session

/-! ## Where tasks start -/

namespace Task

variable {task next : Task} {decoder after : Decoder}

/-- What holds of the source where a task starts. Inside a value no region looks for its marker. -/
def Fits : Task → Source → Prop
  | identifier _, source | length _, source | content .., source => source.Quiet
  | skip, source => ∃ behind : Source, behind.Quiet ∧ source = behind.enter (.marked {})
  | element _ (.container _), source => ∃ (region : Region) (behind : Source),
    behind.Passing ∧ region.Fresh ∧ source = behind.enter region
  | _, source => source.Settled

theorem Fits.guarded (h : task.Fits decoder.source) : decoder.source.Guarded := by
  cases task with
  | identifier first => exact Quiet.guarded h
  | length limit => exact Quiet.guarded h
  | content scope named what => exact Quiet.guarded h
  | skip =>
    obtain ⟨behind, hbehind, hsource⟩ := h
    rw [hsource]
    exact hbehind
  | element bound item =>
    cases item with
    | container container =>
      obtain ⟨region, behind, hbehind, -, hsource⟩ := h
      rw [hsource]
      exact hbehind.quiet
    | uninterpreted named octets => exact Settled.guarded h
    | primitive value => exact Settled.guarded h
  | next | remainder | elements | segments | contents => exact Settled.guarded h

/-! ## What a task leaves -/

/-- Reads what remains of a container, with a bound and without remarks. -/
def contentsTaking (bound : Nat) : Container → Taking Element :=
  Source.contentsWith (Source.elementsWithin bound · []) (Source.joinedWithin bound · [])

theorem silent_contentsWithin (bound : Nat) (container : Container) :
    Decoder.Silent (contentsWithin bound container) (contentsTaking bound container) :=
  Decoder.silent_contentsWith (Decoder.silent_elementsWithin bound · [])
    (Decoder.silent_joinedWithin bound · []) container

/-- What a task leaves of a source, whether it fails or not. -/
def leaves (task : Task) (source : Source) : Source :=
  match task with
  | .next scope => Action.final (Source.next scope source)
  | .identifier first => Action.final (Identifier.after first source)
  | .length limit => Action.final (Length.take limit source)
  | .content scope named what => Action.final (Source.item scope named what source)
  | .skip => Action.final (skipToEnd source)
  | .remainder => Action.final (Source.remainder source)
  | .elements bound scope taken => Action.final (Source.elementsWithin bound scope taken source)
  | .segments bound scope pieces => Action.final (Source.joinedWithin bound scope pieces source)
  | .contents bound container => Action.final (contentsTaking bound container source)
  | .element bound item => Action.final (Source.elementWith (contentsTaking bound) item source)

/-- A task does to a decoder what it does to its source. -/
theorem source_final (task : Task) (decoder : Decoder) :
    (task.final decoder).source = task.leaves decoder.source := by
  cases task with
  | next scope => exact (Decoder.silent_next scope).final decoder
  | identifier first => exact (Decoder.Silent.liftM _).final decoder
  | length limit => exact (Decoder.Silent.liftM _).final decoder
  | content scope named what => exact (Decoder.silent_item scope named what).final decoder
  | skip => exact (Decoder.Silent.liftM _).final decoder
  | remainder => exact (Decoder.Silent.liftM _).final decoder
  | elements bound scope taken =>
    exact (Decoder.silent_elementsWithin bound scope taken).final decoder
  | segments bound scope pieces =>
    exact (Decoder.silent_joinedWithin bound scope pieces).final decoder
  | contents bound container => exact (silent_contentsWithin bound container).final decoder
  | element bound item =>
    exact (Decoder.silent_elementWith (silent_contentsWithin bound) item).final decoder

/-- A container is read as it is with the bound that is set from the octets left. -/
theorem contents_eq_within (container : Container) (decoder : Decoder) :
    Decoder.contents container decoder =
      contentsWithin (decoder.source.left + 1) container decoder := by
  rcases container with ⟨form, scope, isIndefinite⟩
  cases form with
  | tagged named =>
    unfold Decoder.contents contentsWithin Decoder.contentsWith
    by_cases hconstructed : named.isConstructed
    · simp only [hconstructed, if_true]
      rfl
    · simp only [hconstructed]
      rfl
  | _ => rfl

/-- So it is without remarks. -/
theorem contents_eq_taking (container : Container) (s : Source) :
    Source.contents container s = contentsTaking (s.left + 1) container s := by
  rw [← Decoder.silent_contents container s [], contents_eq_within,
    silent_contentsWithin (s.left + 1) container s []]

theorem contentsTaking_proceeds (bound : Nat) (container : Container) :
    Proceeding (contentsTaking bound container) :=
  contentsWith_proceeds (elementsWithin_proceeds bound · []) (joinedWithin_proceeds bound · [])
    container

/-- Whether a task reads values as a whole, or takes all octets of a region. -/
def isWhole : Task → Bool
  | .remainder | .elements .. | .segments .. | .contents .. => true
  | _ => false

/-- Such a task only advances a source. -/
theorem leaves_advances {task : Task} {s : Source} (hwhole : task.isWhole) (hs : s.Settled) :
    ∃ c, Advances c s (task.leaves s) := by
  cases task with
  | remainder => exact remainder_proceeds s hs
  | elements bound scope taken => exact elementsWithin_proceeds bound scope taken s hs
  | segments bound scope pieces => exact joinedWithin_proceeds bound scope pieces s hs
  | contents bound container => exact contentsTaking_proceeds bound container s hs
  | _ => cases hwhole

/-- Reading a value as a whole advances the source from in front of its region. -/
theorem leaves_element {bound : Nat} {container : Container} {region : Region} {s : Source}
    (hs : s.Passing) (hfresh : region.Fresh) :
    ∃ c, Advances c s (leaves (.element bound (.container container)) (s.enter region)) :=
  (contentsTaking_proceeds bound container).leaving s region hs hfresh

/-- What a task leaves is guarded. -/
theorem Fits.leaves_guarded {s : Source} (h : task.Fits s) : (task.leaves s).Guarded := by
  have hadvanced : task.isWhole → s.Settled → (task.leaves s).Guarded := by
    intro hwhole hs
    obtain ⟨c, hc⟩ := leaves_advances hwhole hs
    exact hc.settled.guarded
  cases task with
  | next scope =>
    have hleads : Leads scope s (Source.next scope s) := next_leads h
    show (Action.final (Source.next scope s)).Guarded
    by_cases hopened : ∃ container t, Source.next scope s = .ok (some (.container container)) t
    · obtain ⟨container, t, hrun⟩ := hopened
      rw [hrun] at hleads ⊢
      obtain ⟨-, c, region, behind, -, hbehind, -, rfl, -, -⟩ := hleads.opens
      exact hbehind.quiet
    · obtain ⟨c, hc⟩ := hleads.advances fun container t hrun => hopened ⟨container, t, hrun⟩
      exact hc.settled.guarded
  | identifier first => exact ((Octetwise.of_scans (Identifier.after_scans first)).quiet h).guarded
  | length limit => exact ((Octetwise.of_scans (Length.take_scans limit)).quiet h).guarded
  | content scope named what =>
    by_cases hentered : ∃ form region, what = .entered form region
    · obtain ⟨form, region, rfl⟩ := hentered
      show (Action.final (Source.item scope named (.entered form region) s)).Guarded
      by_cases hdeep : scope.maxDepth ≤ scope.depth
      · rw [item_entered_too_deep hdeep]
        exact Quiet.guarded h
      · rw [item_entered hdeep]
        exact h
    · have hoctetwise : Octetwise (Source.item scope named what) :=
        .of_scans (item_scans fun form region heq => hentered ⟨form, region, heq⟩)
      exact (hoctetwise.quiet h).guarded
  | skip =>
    obtain ⟨behind, hbehind, rfl⟩ := h
    obtain ⟨region, u, hfinal, hsearches⟩ :=
      exhaust_octetwise.searches_below hbehind (.marked {})
    show (Action.final (exhaust (behind.enter (.marked {})))).Guarded
    rw [hfinal]
    exact hbehind.of_searches hsearches
  | remainder | elements | segments | contents => exact hadvanced rfl h
  | element bound item =>
    cases item with
    | container container =>
      obtain ⟨region, behind, hbehind, hfresh, rfl⟩ := h
      obtain ⟨c, hc⟩ := @leaves_element bound container region behind hbehind hfresh
      exact hc.settled.guarded
    | uninterpreted named octets => exact Settled.guarded h
    | primitive value => exact Settled.guarded h

/-! ## What a task calls -/

/-- Behind a value that was taken, a source is settled. A container first starts in its region. -/
theorem fits_element {scope : Scope} {item : Item} (bound : Nat) (hs : decoder.source.Settled)
    (hnext : Decoder.next scope decoder = .ok (some item) after) :
    Fits (.element bound item) after.source := by
  have hleads : Leads scope decoder.source (Source.next scope decoder.source) := next_leads hs
  rw [(Decoder.silent_next scope).of_ok hnext] at hleads
  match item with
  | .container container =>
    obtain ⟨-, c, region, behind, hfresh, hbehind, -, hafter, -, -⟩ := hleads.opens
    exact ⟨region, behind, hbehind, hfresh, hafter⟩
  | .primitive value =>
    obtain ⟨c, hc⟩ := hleads.advances fun _ _ h => nomatch h
    exact hc.settled
  | .uninterpreted named octets =>
    obtain ⟨c, hc⟩ := hleads.advances fun _ _ h => nomatch h
    exact hc.settled

/-- What is in a container that was opened is settled. -/
theorem Fits.settled_of_container {bound : Nat} {container : Container} {s : Source}
    (h : Fits (.element bound (.container container)) s) : s.Settled := by
  obtain ⟨region, behind, hbehind, hfresh, rfl⟩ := h
  exact hbehind.settled_enter hfresh

/-- Taking the next value and reading it as a whole advances a source. -/
theorem advances_of_element {bound : Nat} {scope : Scope} {item : Item} {element : Element}
    {middle : Decoder} (hs : decoder.source.Settled)
    (hnext : Decoder.next scope decoder = .ok (some item) middle)
    (helement : Decoder.elementWith (contentsWithin bound) item middle = .ok element after) :
    ∃ c, Advances c decoder.source after.source := by
  have hleads : Leads scope decoder.source (Source.next scope decoder.source) := next_leads hs
  rw [(Decoder.silent_next scope).of_ok hnext] at hleads
  match item with
  | .container container =>
    obtain ⟨c, hc⟩ := hleads.leaving (contentsTaking_proceeds bound container).leaving
    rw [(silent_contentsWithin bound container).leaving.of_ok helement] at hc
    exact ⟨c, hc⟩
  | .primitive value =>
    cases helement
    exact hleads.advances fun _ _ h => nomatch h
  | .uninterpreted named octets =>
    cases helement
    exact hleads.advances fun _ _ h => nomatch h

/-- So does taking a segment and joining the segments in it. -/
theorem advances_of_segment {bound : Nat} {scope inner : Scope} {isIndefinite : Bool}
    {octets : Octets} {middle : Decoder} (hs : decoder.source.Settled)
    (hnext : Decoder.next scope decoder =
      .ok (some (.container ⟨.octetString, inner, isIndefinite⟩)) middle)
    (hinner : Decoder.leaving (Decoder.joinedWithin bound inner []) middle = .ok octets after) :
    ∃ c, Advances c decoder.source after.source := by
  have hleads : Leads scope decoder.source (Source.next scope decoder.source) := next_leads hs
  rw [(Decoder.silent_next scope).of_ok hnext] at hleads
  obtain ⟨c, hc⟩ := hleads.leaving (joinedWithin_proceeds bound inner []).leaving
  rw [(Decoder.silent_joinedWithin bound inner []).leaving.of_ok hinner] at hc
  exact ⟨c, hc⟩

/-- Where a task fits, whatever it calls fits. -/
theorem Fits.of_calls (h : task.Fits decoder.source) (hcalls : Calls (task, decoder) (next, after)) :
    next.Fits after.source := by
  cases hcalls with
  | identifier hfirst =>
    have hquiet := firstOctet?_quiet (Settled.guarded h)
    rw [hfirst] at hquiet
    exact hquiet
  | length hfirst hafter =>
    have hquiet := firstOctet?_quiet (Settled.guarded h)
    rw [hfirst] at hquiet
    exact (Octetwise.of_scans (Identifier.after_scans _)).quiet_of_ok hquiet hafter
  | content hfirst hafter hlength =>
    have hquiet := firstOctet?_quiet (Settled.guarded h)
    rw [hfirst] at hquiet
    have hmiddle := (Octetwise.of_scans (Identifier.after_scans _)).quiet_of_ok hquiet hafter
    exact (Octetwise.of_scans (Length.take_scans _)).quiet_of_ok hmiddle hlength
  | skip => exact ⟨decoder.source, h, rfl⟩
  | nextElement => exact h
  | element hnext => exact fits_element _ h hnext
  | elements hnext helement =>
    obtain ⟨c, hc⟩ := advances_of_element h hnext helement
    exact hc.settled
  | contents => exact h.settled_of_container
  | drain => exact h
  | remainder => exact h
  | join => exact h
  | nextSegment => exact h
  | inner hnext => exact (fits_element 0 h hnext).settled_of_container
  | segmented hnext hinner =>
    obtain ⟨c, hc⟩ := advances_of_segment h hnext hinner
    exact hc.settled
  | segment hnext => exact fits_element 0 h hnext

end Task

namespace Session

variable {session : Session} {operation : Operation} {task : Task} {decoder : Decoder}

/-- Whatever an operation does on its way fits where it starts. -/
theorem fits_of_includes (hs : session.decoder.source.Settled)
    (h : Includes session operation (task, decoder)) : task.Fits decoder.source := by
  obtain ⟨⟨first, start⟩, hasks, hincludes⟩ := h
  have hfirst : first.Fits start.source := by
    cases hasks with
    | next htakes => exact hs
    | element hnext => exact Task.fits_element _ hs hnext
    | drain => exact hs
    | takeContent => exact hs
    | join => exact hs
    | finish => exact hs
  have hall : ∀ moment : Task × Decoder, Task.Includes (first, start) moment →
      moment.1.Fits moment.2.source := by
    intro moment hmoment
    induction hmoment with
    | refl => exact hfirst
    | tail _ hcalls ih => exact ih.of_calls hcalls
  exact hall (task, decoder) hincludes

end Session
end Ber
