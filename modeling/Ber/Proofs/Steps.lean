import Ber.Proofs.Draining
import Ber.Session

/-!
# Ber.Proofs.Steps — what the operations of a session do

Every operation of a session does one of a few things to the source and to the open containers
(`Session.Moves`), and `perform_moves` says so once for all of them. What taking a value as a whole
and draining do is told for failures as well (`perform_element`, `perform_drain`).
-/

namespace Ber

/-- Whether an item is a container. -/
def Item.isContainer : Item → Bool
  | .container _ => true
  | _ => false

/-- Whether a reply only reports on the session. -/
def Reply.isReport : Reply → Bool
  | .scope .. | .container _ | .maxDepth _ | .notApplicable => true
  | _ => false

namespace Decoder

/-- Taking the next value as a whole, without the remarks. -/
theorem silent_nextElement (scope : Scope) :
    Silent (do
      match ← next scope with
      | none => return none
      | some item => return some (← element item)) (Source.nextElement scope) := by
  refine (silent_next scope).bind fun item => ?_
  cases item with
  | none => exact .pure _
  | some item => exact (silent_element item).bind fun _ => .pure _

end Decoder

namespace Session

/-- The same session with its decoder at another source. -/
def At (session : Session) (source : Source) (after : Session) : Prop :=
  ∃ journal, after = { session with decoder := ⟨source, journal⟩ }

/-- Taking the next value as a whole does to the source what it says. -/
theorem perform_element (session : Session) :
    match Source.nextElement session.current session.decoder.source with
    | .ok none source => ∃ after, session.At source after ∧
      perform .element session = .ok .exhausted after
    | .ok (some first) source => ∃ after, session.At source after ∧
      perform .element session = .ok (.element first) after
    | .error failure source => ∃ after, session.At source after ∧
      perform .element session = .error failure after := by
  have h := Decoder.silent_nextElement session.current session.decoder.source
    session.decoder.journal
  rcases session with ⟨⟨source, journal⟩, top, opened⟩
  dsimp only at h ⊢
  rw [← h]
  generalize hcurrent : (⟨⟨source, journal⟩, top, opened⟩ : Session).current = scope
  rw [perform, withNext_eq, hcurrent]
  simp only [Bind.bind, EStateM.bind, decoding, Action.on]
  cases hnext : Decoder.next scope ⟨source, journal⟩ with
  | error failure decoder => exact ⟨_, ⟨decoder.journal, rfl⟩, rfl⟩
  | ok item decoder =>
    cases item with
    | none => exact ⟨_, ⟨decoder.journal, rfl⟩, rfl⟩
    | some item =>
      simp only [EStateM.bind, liftM, monadLift, MonadLift.monadLift, decoding, Action.on]
      cases helement : Decoder.element item decoder with
      | error failure decoder' => exact ⟨_, ⟨decoder'.journal, rfl⟩, rfl⟩
      | ok first decoder' => exact ⟨_, ⟨decoder'.journal, rfl⟩, rfl⟩

/-- Draining does to the source what it says. -/
theorem perform_drain (session : Session) :
    match Source.elementsFrom session.current [] session.decoder.source with
    | .ok elements source => ∃ after, session.At source after ∧
      perform .drain session = .ok (.elements elements) after
    | .error failure source => ∃ after, session.At source after ∧
      perform .drain session = .error failure after := by
  have h := Decoder.silent_drain session.current session.decoder.source session.decoder.journal
  rw [← h]
  have hdrain : perform .drain session =
      (do return .elements (← decoding (Decoder.drain session.current)) : Stepping Reply)
        session := rfl
  rw [hdrain]
  simp only [Bind.bind, EStateM.bind, decoding, Action.on]
  cases hrun : Decoder.drain session.current session.decoder with
  | error failure decoder => exact ⟨_, ⟨decoder.journal, rfl⟩, rfl⟩
  | ok elements decoder => exact ⟨_, ⟨decoder.journal, rfl⟩, rfl⟩

theorem At.trans {session middle after : Session} {source source' : Source}
    (h : session.At source middle) (h' : middle.At source' after) : session.At source' after := by
  rcases h with ⟨journal, rfl⟩
  rcases h' with ⟨journal', rfl⟩
  exact ⟨journal', rfl⟩

theorem At.current {session after : Session} {source : Source} (h : session.At source after) :
    after.current = session.current := by
  rcases h with ⟨journal, rfl⟩
  rfl

theorem At.source {session after : Session} {source : Source} (h : session.At source after) :
    after.decoder.source = source := by
  rcases h with ⟨journal, rfl⟩
  rfl

/-! ## All operations -/

/-- The region of the container that is the next value, if it is one. -/
def found? (session : Session) : Option Region :=
  match Decoder.next session.current session.decoder with
  | .ok (some (.container _)) decoder => decoder.source.regions.head?
  | _ => none

/-- What an operation that succeeds replies, where it leaves the source, and which containers are
open then. -/
inductive Moves (session : Session) : Operation → Reply → Source → List Container → Prop where
  /-- Nothing is read. -/
  | still {operation : Operation} {reply : Reply} (hreply : reply.isReport) :
    Moves session operation reply session.decoder.source session.opened
  /-- There is no value left. -/
  | exhausted {operation : Operation} {source : Source}
    (hnext : Source.next session.current session.decoder.source = .ok none source) :
    Moves session operation .exhausted source session.opened
  /-- A value that is no container was taken. -/
  | taken {operation : Operation} {reply : Reply} {item : Item} {source : Source}
    (hnext : Source.next session.current session.decoder.source = .ok (some item) source)
    (hitem : item.isContainer = false) (hfound : session.found? = none)
    (hreply : reply = .item item ∨ reply = .dropped) :
    Moves session operation reply source session.opened
  /-- A container was opened. -/
  | opened {operation : Operation} {container : Container} {source : Source}
    (hnext : Source.next session.current session.decoder.source =
      .ok (some (.container container)) source) :
    Moves session operation (.item (.container container)) source (container :: session.opened)
  /-- A container was dropped unread. -/
  | dropped {operation : Operation} {container : Container} {source : Source}
    (hnext : Source.next session.current session.decoder.source =
      .ok (some (.container container)) source) (hfound : session.found? = source.regions.head?) :
    Moves session operation .dropped source.leave session.opened
  /-- A value was taken as a whole. -/
  | element {item : Item} {element : Element} {middle source : Source}
    (hnext : Source.next session.current session.decoder.source = .ok (some item) middle)
    (helement : Source.element item middle = .ok element source) :
    Moves session .element (.element element) source session.opened
  /-- All remaining values were taken. -/
  | drained {elements : List Element} {source : Source}
    (helements : Source.elementsFrom session.current [] session.decoder.source =
      .ok elements source) :
    Moves session .drain (.elements elements) source session.opened
  /-- The content of a tagged value was taken. -/
  | content {octets : Octets} {source : Source} {container : Container} {below : List Container}
    (hopened : session.opened = container :: below)
    (hcontent : session.decoder.source.remainder = .ok octets source) :
    Moves session .takeContent (.content octets) source session.opened
  /-- The segments of an octet string were joined. -/
  | joined {octets : Octets} {source : Source} {container : Container} {below : List Container}
    (hopened : session.opened = container :: below)
    (hjoined : Source.joinedFrom session.current [] session.decoder.source = .ok octets source) :
    Moves session .join (.joined octets) source session.opened
  /-- What remained of the innermost container was read, and the container given up. -/
  | finished {element : Element} {source : Source} {container : Container}
    {below : List Container} (hopened : session.opened = container :: below)
    (hcontents : Source.contents container session.decoder.source = .ok element source) :
    Moves session .finish (.element element) source.leave below
  /-- The innermost container was given up. -/
  | left {container : Container} {below : List Container}
    (hopened : session.opened = container :: below) :
    Moves session .leave .left session.decoder.source.leave below

/-- The values outside of all containers keep their scope, but for the greatest depth. -/
def KeepsTop (session after : Session) : Prop :=
  after.top.limit = session.top.limit ∧ after.top.depth = session.top.depth

section
variable {session after : Session} {reply : Reply} {source : Source}

theorem At.opened (h : session.At source after) : after.opened = session.opened := by
  rcases h with ⟨journal, rfl⟩
  rfl

theorem At.top (h : session.At source after) : after.top = session.top := by
  rcases h with ⟨journal, rfl⟩
  rfl

theorem At.keepsTop (h : session.At source after) : session.KeepsTop after := by
  rcases h with ⟨journal, rfl⟩
  exact ⟨rfl, rfl⟩

/-- What a decoding does in a session, it does to the source alone. -/
theorem decoding_eq_ok {α : Type} {action : Decoding α} {taking : Taking α} {a : α}
    (hsilent : Decoder.Silent action taking) (h : decoding action session = .ok a after) :
    taking session.decoder.source = .ok a after.decoder.source ∧
      session.At after.decoder.source after := by
  simp only [decoding, Action.on] at h
  cases hrun : action session.decoder with
  | error failure decoder =>
    rw [hrun] at h
    cases h
  | ok b decoder =>
    rw [hrun] at h
    cases h
    exact ⟨hsilent.eq_ok_iff.2 ⟨decoder.journal, hrun⟩, decoder.journal, rfl⟩

/-- An operation that answers with what a decoding gives. -/
theorem answer_eq_ok {α : Type} {action : Decoding α} {taking : Taking α} (answer : α → Reply)
    (hsilent : Decoder.Silent action taking)
    (h : (decoding action >>= fun a => pure (answer a)) session = .ok reply after) :
    ∃ a, reply = answer a ∧ taking session.decoder.source = .ok a after.decoder.source ∧
      session.At after.decoder.source after := by
  rcases Action.bind_eq_ok.1 h with ⟨a, middle, haction, hreply⟩
  rcases Action.pure_eq_ok.1 hreply with ⟨rfl, rfl⟩
  exact ⟨a, rfl, decoding_eq_ok hsilent haction⟩

/-- An operation on the next value makes a move if it does so with every value that it may find. -/
theorem withNext_moves {operation : Operation} {use : Item → Stepping Reply}
    (h : withNext use session = .ok reply after)
    (huse : ∀ item journal middle,
      Source.next session.current session.decoder.source = .ok (some item) middle →
      session.found? = (if item.isContainer then middle.regions.head? else none) →
      use item { session with decoder := ⟨middle, journal⟩ } = .ok reply after →
      Moves session operation reply after.decoder.source after.opened ∧
        session.KeepsTop after) :
    Moves session operation reply after.decoder.source after.opened ∧
      session.KeepsTop after := by
  rw [withNext_eq] at h
  rcases Action.bind_eq_ok.1 h with ⟨found, middle, hnext, h⟩
  -- the remarks are dropped here, so that moves speak of the source alone
  rcases decoding_eq_ok (Decoder.silent_next session.current) hnext with ⟨hsource, journal, hmiddle⟩
  cases found with
  | none =>
    rcases Action.pure_eq_ok.1 h with ⟨rfl, rfl⟩
    rw [hmiddle] at hsource ⊢
    exact ⟨.exhausted hsource, rfl, rfl⟩
  | some item =>
    have hfound : session.found? =
        if item.isContainer then middle.decoder.source.regions.head? else none := by
      have hdecoder : Decoder.next session.current session.decoder =
          .ok (some item) middle.decoder := by
        simp only [decoding, Action.on] at hnext
        cases hrun : Decoder.next session.current session.decoder <;> rw [hrun] at hnext <;>
          cases hnext
        rfl
      cases item <;> simp [found?, hdecoder, Item.isContainer]
    rw [hmiddle] at h
    exact huse item journal middle.decoder.source hsource hfound h

/-- Pulling opens a container and takes any other value. -/
theorem pull_moves (h : perform .pull session = .ok reply after) :
    Moves session .pull reply after.decoder.source after.opened ∧ session.KeepsTop after := by
  refine withNext_moves h fun item journal middle hnext hfound huse => ?_
  cases item with
  | container container =>
    cases huse
    exact ⟨.opened hnext, rfl, rfl⟩
  | uninterpreted identifier content =>
    cases huse
    exact ⟨.taken hnext rfl hfound (.inl rfl), rfl, rfl⟩
  | primitive value =>
    cases huse
    exact ⟨.taken hnext rfl hfound (.inl rfl), rfl, rfl⟩

/-- A value without parts is taken, any other is dropped. -/
theorem primitive_moves (h : perform .primitive session = .ok reply after) :
    Moves session .primitive reply after.decoder.source after.opened ∧ session.KeepsTop after := by
  refine withNext_moves h fun item journal middle hnext hfound huse => ?_
  cases item with
  | container container =>
    cases huse
    exact ⟨.dropped hnext hfound, rfl, rfl⟩
  | uninterpreted identifier content =>
    cases huse
    exact ⟨.taken hnext rfl hfound (.inr rfl), rfl, rfl⟩
  | primitive value =>
    cases huse
    exact ⟨.taken hnext rfl hfound (.inl rfl), rfl, rfl⟩

/-- A container is opened, any other value is dropped. -/
theorem container_moves (h : perform .container session = .ok reply after) :
    Moves session .container reply after.decoder.source after.opened ∧ session.KeepsTop after := by
  refine withNext_moves h fun item journal middle hnext hfound huse => ?_
  cases item with
  | container container =>
    cases huse
    exact ⟨.opened hnext, rfl, rfl⟩
  | uninterpreted identifier content =>
    cases huse
    exact ⟨.taken hnext rfl hfound (.inr rfl), rfl, rfl⟩
  | primitive value =>
    cases huse
    exact ⟨.taken hnext rfl hfound (.inr rfl), rfl, rfl⟩

/-- The next value is read as a whole. -/
theorem element_moves (h : perform .element session = .ok reply after) :
    Moves session .element reply after.decoder.source after.opened ∧ session.KeepsTop after := by
  refine withNext_moves h fun item journal middle hnext hfound huse => ?_
  rcases answer_eq_ok .element (Decoder.silent_element item) huse with
    ⟨element, rfl, helement, journal', hafter⟩
  rw [hafter]
  exact ⟨.element hnext helement, rfl, rfl⟩

/-- Finishing reads what remains of the innermost container and gives it up. -/
theorem finish_moves (h : perform .finish session = .ok reply after) :
    Moves session .finish reply after.decoder.source after.opened ∧ session.KeepsTop after := by
  rcases session with ⟨decoder, top, opened⟩
  cases opened with
  | nil =>
    cases h
    exact ⟨.still rfl, rfl, rfl⟩
  | cons container below =>
    rcases Action.afterwards_eq_ok.1
      (show givingUp (decoding (Decoder.contents container) >>= fun element =>
        pure (.element element)) ⟨decoder, top, container :: below⟩ = .ok reply after from h)
      with ⟨last, hlast, rfl⟩
    rcases answer_eq_ok .element (Decoder.silent_contents container) hlast with
      ⟨element, rfl, hcontents, hafter⟩
    have hopened := hafter.opened
    simp only [giveUp, hopened, List.tail_cons, Decoder.leave]
    exact ⟨.finished rfl hcontents, hafter.keepsTop⟩

/-- An operation that succeeds makes one of the moves. -/
theorem perform_moves {operation : Operation} (h : perform operation session = .ok reply after) :
    Moves session operation reply after.decoder.source after.opened ∧ session.KeepsTop after := by
  cases operation with
  | pull => exact pull_moves h
  | element => exact element_moves h
  | primitive => exact primitive_moves h
  | container => exact container_moves h
  | finish => exact finish_moves h
  | drain =>
    rcases answer_eq_ok .elements (Decoder.silent_drain session.current) h with
      ⟨elements, rfl, helements, hafter⟩
    rw [hafter.opened]
    exact ⟨.drained helements, hafter.keepsTop⟩
  | inspect =>
    rcases session with ⟨decoder, top, opened⟩
    cases opened <;> cases h <;> exact ⟨.still rfl, rfl, rfl⟩
  | setMaxDepth maxDepth =>
    rcases session with ⟨decoder, top, opened⟩
    cases opened <;> cases h <;> exact ⟨.still rfl, rfl, rfl⟩
  | takeContent =>
    rcases session with ⟨decoder, top, opened⟩
    match opened with
    | ⟨.tagged identifier, inner, isIndefinite⟩ :: below =>
      rcases answer_eq_ok .content (Decoder.Silent.liftM Source.remainder) h with
        ⟨octets, rfl, hcontent, hafter⟩
      rw [hafter.opened]
      exact ⟨.content rfl hcontent, hafter.keepsTop⟩
    | [] | ⟨.sequence, _, _⟩ :: _ | ⟨.set, _, _⟩ :: _ | ⟨.octetString, _, _⟩ :: _ =>
      cases h
      exact ⟨.still rfl, rfl, rfl⟩
  | join =>
    rcases session with ⟨decoder, top, opened⟩
    match opened with
    | ⟨.octetString, inner, isIndefinite⟩ :: below =>
      rcases answer_eq_ok .joined (Decoder.silent_joined inner) h with
        ⟨octets, rfl, hjoined, hafter⟩
      rw [hafter.opened]
      exact ⟨.joined rfl hjoined, hafter.keepsTop⟩
    | [] | ⟨.sequence, _, _⟩ :: _ | ⟨.set, _, _⟩ :: _ | ⟨.tagged _, _, _⟩ :: _ =>
      cases h
      exact ⟨.still rfl, rfl, rfl⟩
  | leave =>
    rcases session with ⟨decoder, top, opened⟩
    cases opened with
    | nil =>
      cases h
      exact ⟨.still rfl, rfl, rfl⟩
    | cons container below =>
      cases h
      exact ⟨.left rfl, rfl, rfl⟩

/-- A container that is handed out was the next value. -/
theorem Moves.next_of_container {operation : Operation} {opened : List Container}
    {container : Container} (h : Moves session operation reply source opened)
    (hreply : reply = .item (.container container)) :
    Source.next session.current session.decoder.source =
      .ok (some (.container container)) source := by
  cases h with
  | opened hnext =>
    cases hreply
    exact hnext
  | taken hnext hitem _ htaken =>
    subst hreply
    rcases htaken with hsame | hsame
    · cases hsame
      cases hitem
    · cases hsame
  | still hreport =>
    subst hreply
    cases hreport
  | _ => cases hreply

/-- Content that is replied with is what remained of the innermost container. -/
theorem Moves.remainder_of_content {operation : Operation} {opened : List Container}
    {octets : Octets} (h : Moves session operation reply source opened)
    (hreply : reply = .content octets) :
    session.opened ≠ [] ∧ Source.remainder session.decoder.source = .ok octets source := by
  cases h with
  | content hopened hcontent =>
    cases hreply
    rw [hopened]
    exact ⟨List.cons_ne_nil _ _, hcontent⟩
  | taken hnext hitem _ htaken =>
    subst hreply
    rcases htaken with hsame | hsame <;> cases hsame
  | still hreport =>
    subst hreply
    cases hreport
  | _ => cases hreply

end

end Session
end Ber
