import Ber.Decoder.Walk
import Ber.Probe
import Ber.Proofs.Retelling
import Ber.Session

/-!
# Ber.Proofs.Recounting — walks, sessions and probes that are told again

Readers that tell the same are told apart by nothing that is built on decoding. This holds of the
stretches of a walk (`Retelling.visitWithin_walks`), of the operations on a session
(`Retelling.perform_steps`) and of the requests made of a probe (`Retelling.request_asks`).

Some answers are positions. So operations and requests are answered alike only where readers are at
the same place as those that they tell the same as. Where they do not break off either, the retelling is
`Faithful`: then draining, walks, sessions and probes agree throughout.
-/

namespace Ber

namespace Retelling

open Ber.Action

variable (retelling : Retelling) {α : Type}

/-! ## Walks -/

/-- Walkers on decoders that tell the same, with the same events. -/
structure Walkers (walker other : Walker) : Prop where
  decoder : retelling.Decoders walker.decoder other.decoder
  trail : other.trail = walker.trail

/-- From walkers that tell the same, a stretch is walked alike. -/
def Walks (stretch : Walking α) : Prop :=
  Retells retelling.Walkers retelling.place retelling.breaks stretch stretch

theorem decoding_walks {action : Decoding α} (h : retelling.Decodes action action) :
    retelling.Walks (liftM action) :=
  .on (fun _ _ h => h.decoder) (fun _ _ _ _ h hdecoder => ⟨hdecoder, h.trail⟩) h

theorem note_walks (level : Nat) (sight : Sight) : retelling.Walks (Walker.note level sight) :=
  fun _ _ h => ⟨rfl, h.decoder, congrArg (_ :: ·) h.trail⟩

theorem leaving_walks {stretch : Walking Unit} (h : retelling.Walks stretch) :
    retelling.Walks (Walker.leaving stretch) :=
  h.afterwards fun _ _ h => ⟨⟨h.decoder.source.leave, h.decoder.journal⟩, h.trail⟩

/-- The values of a region are visited alike. -/
theorem visitWithin_walks (bound : Nat) (gait : Gait) (level : Nat) (scope : Scope) :
    retelling.Walks (Walker.visitWithin bound gait level scope) := by
  induction bound generalizing level scope with
  | zero =>
    exact retelling.decoding_walks (retelling.taking_retells (retelling.fail_retells _))
  | succ bound ih =>
    refine (retelling.decoding_walks (retelling.next_retells scope)).bind fun found => ?_
    cases found with
    | none => exact retelling.note_walks level .finish
    | some item =>
      refine (retelling.note_walks level (.item item)).bind fun _ => ?_
      match item with
      | .uninterpreted named octets => exact ih level scope
      | .primitive value => exact ih level scope
      | .container ⟨form, inner, isIndefinite⟩ =>
        refine (retelling.leaving_walks ?_).bind fun _ => ih level scope
        match form with
        | .sequence => exact ih (level + 1) inner
        | .set => exact ih (level + 1) inner
        | .octetString =>
          by_cases hjoins : gait.joins
          · simp only [if_pos hjoins]
            exact (retelling.decoding_walks (retelling.joinedWithin_retells bound inner [])).bind
              fun _ => retelling.note_walks _ _
          · simp only [if_neg hjoins]
            exact ih (level + 1) inner
        | .tagged identifier =>
          by_cases htakes : (gait.takesContent && !identifier.isConstructed) = true
          · simp only [if_pos htakes]
            exact (retelling.decoding_walks (retelling.taking_retells
              retelling.remainder_retells)).bind fun _ => retelling.note_walks _ _
          · simp only [if_neg htakes]
            exact ih (level + 1) inner

/-! ## Sessions -/

/-- Sessions on decoders that tell the same, with the same containers open. -/
structure Sessions (session other : Session) : Prop where
  decoder : retelling.Decoders session.decoder other.decoder
  top : other.top = session.top
  opened : other.opened = session.opened

/-- From sessions that tell the same, a step does the same. -/
def Steps (step : Stepping α) : Prop :=
  Retells retelling.Sessions retelling.place retelling.breaks step step

variable {retelling}

theorem Sessions.current {session other : Session} (h : retelling.Sessions session other) :
    other.current = session.current := by
  unfold Session.current
  rw [h.opened, h.top]

variable (retelling)

theorem decoding_steps {action : Decoding α} (h : retelling.Decodes action action) :
    retelling.Steps (liftM action) :=
  .on (fun _ _ h => h.decoder) (fun _ _ _ _ h hdecoder => ⟨hdecoder, h.top, h.opened⟩) h

theorem answer_steps {action : Decoding α} (answer : α → Reply)
    (h : retelling.Decodes action action) :
    retelling.Steps (do return answer (← action)) :=
  (retelling.decoding_steps h).bind fun _ => .pure _

/-- What a step does may depend on the open containers. -/
theorem steps_of_opened {step : Stepping α}
    (h : ∀ opened top decoder other, retelling.Decoders decoder other →
      Told retelling.Sessions retelling.place retelling.breaks (step ⟨decoder, top, opened⟩)
        (step ⟨other, top, opened⟩)) :
    retelling.Steps step := by
  rintro ⟨decoder, top, opened⟩ ⟨other, top', opened'⟩ ⟨hdecoder, htop, hopened⟩
  obtain rfl : top' = top := htop
  obtain rfl : opened' = opened := hopened
  exact h opened' top' decoder other hdecoder

theorem push_steps (container : Container) : retelling.Steps (Session.push container) :=
  fun _ _ h => ⟨rfl, h.decoder, h.top, congrArg (container :: ·) h.opened⟩

theorem givingUp_steps {step : Stepping α} (h : retelling.Steps step) :
    retelling.Steps (Session.givingUp step) :=
  h.afterwards fun _ _ h =>
    ⟨⟨h.decoder.source.leave, h.decoder.journal⟩, h.top, congrArg List.tail h.opened⟩

theorem drop_decodes (item : Item) :
    retelling.Decodes (Session.drop item) (Session.drop item) := by
  cases item with
  | container container => exact retelling.leaving_retells (.pure _)
  | uninterpreted named octets => exact .pure _
  | primitive value => exact .pure _

/-- An operation on the next value does the same if what it does with the value is the same. -/
theorem withNext_steps {use : Item → Stepping Reply} (h : ∀ item, retelling.Steps (use item)) :
    retelling.Steps (Session.withNext use) := by
  intro s t hst
  rw [Session.withNext_eq, Session.withNext_eq, hst.current]
  refine ((retelling.decoding_steps (retelling.next_retells s.current)).bind fun found => ?_) s t hst
  cases found with
  | none => exact .pure _
  | some item => exact h item

/-- Where nothing is told at another place, every operation does the same. -/
theorem perform_steps (hplace : retelling.place = id) (operation : Operation) :
    retelling.Steps (Session.perform operation) := by
  cases operation with
  | pull =>
    refine retelling.withNext_steps fun item => ?_
    cases item with
    | container container => exact (retelling.push_steps container).bind fun _ => .pure _
    | uninterpreted named octets => exact .pure _
    | primitive value => exact .pure _
  | element =>
    exact retelling.withNext_steps fun item =>
      retelling.answer_steps .element (retelling.element_retells item)
  | primitive =>
    refine retelling.withNext_steps fun item => ?_
    cases item with
    | primitive value => exact .pure _
    | container container =>
      exact retelling.decoding_steps (retelling.drop_decodes (.container container))
    | uninterpreted named octets => exact .pure _
  | container =>
    refine retelling.withNext_steps fun item => ?_
    cases item with
    | container container => exact (retelling.push_steps container).bind fun _ => .pure _
    | uninterpreted named octets => exact .pure _
    | primitive value => exact .pure _
  | drain =>
    have hstep : ∀ session, Session.perform .drain session =
        (do return Reply.elements (← Session.decoding (Decoder.drain session.current)))
          session := fun _ => rfl
    intro s t h
    rw [hstep s, hstep t, h.current]
    exact retelling.answer_steps .elements (retelling.drain_retells s.current) s t h
  | inspect =>
    refine retelling.steps_of_opened fun opened top decoder other h => ?_
    cases opened with
    | nil =>
      have hposition : other.source.position = decoder.source.position := by
        rw [h.source.position, hplace]
        rfl
      exact ⟨congrArg (Reply.scope top) hposition, h, rfl, rfl⟩
    | cons container below => exact ⟨rfl, h, rfl, rfl⟩
  | setMaxDepth maxDepth =>
    refine retelling.steps_of_opened fun opened top decoder other h => ?_
    cases opened with
    | nil => exact ⟨rfl, h, rfl, rfl⟩
    | cons container below => exact ⟨rfl, h, rfl, rfl⟩
  | takeContent =>
    refine retelling.steps_of_opened fun opened top decoder other h => ?_
    match opened with
    | ⟨.tagged identifier, inner, isIndefinite⟩ :: below =>
      exact retelling.answer_steps .content
        (retelling.taking_retells retelling.remainder_retells) _ _ ⟨h, rfl, rfl⟩
    | [] | ⟨.sequence, _, _⟩ :: _ | ⟨.set, _, _⟩ :: _ | ⟨.octetString, _, _⟩ :: _ =>
      exact ⟨rfl, h, rfl, rfl⟩
  | join =>
    refine retelling.steps_of_opened fun opened top decoder other h => ?_
    match opened with
    | ⟨.octetString, inner, isIndefinite⟩ :: below =>
      exact retelling.answer_steps .joined (retelling.joined_retells inner) _ _ ⟨h, rfl, rfl⟩
    | [] | ⟨.sequence, _, _⟩ :: _ | ⟨.set, _, _⟩ :: _ | ⟨.tagged _, _, _⟩ :: _ =>
      exact ⟨rfl, h, rfl, rfl⟩
  | finish =>
    refine retelling.steps_of_opened fun opened top decoder other h => ?_
    cases opened with
    | nil => exact ⟨rfl, h, rfl, rfl⟩
    | cons container below =>
      exact retelling.givingUp_steps
        (retelling.answer_steps .element (retelling.contents_retells container)) _ _ ⟨h, rfl, rfl⟩
  | leave =>
    refine retelling.steps_of_opened fun opened top decoder other h => ?_
    cases opened with
    | nil => exact ⟨rfl, h, rfl, rfl⟩
    | cons container below => exact retelling.givingUp_steps (.pure Reply.left) _ _ ⟨h, rfl, rfl⟩

/-! ## Probes -/

/-- Probes on sources that tell the same. -/
structure Probes (probe other : Probe) : Prop where
  source : retelling.Sources probe.source other.source
  asContent : other.asContent = probe.asContent

/-- From probes that tell the same, an action does the same. -/
def Asks (action : Action Probe α) : Prop :=
  Retells retelling.Probes retelling.place retelling.breaks action action

theorem answer_asks {action : Taking α} (answer : α → Probe.Answer)
    (h : retelling.Takes action) : retelling.Asks (do return answer (← action)) :=
  .bind (.on (fun _ _ h => h.source) (fun _ _ _ _ h hsource => ⟨hsource, h.asContent⟩) h)
    fun _ => .pure _

/-- What is known of the innermost region does not depend on the reader. -/
theorem Probes.state {probe other : Probe} (h : retelling.Probes probe other) :
    other.state = probe.state := by
  unfold Probe.state
  rw [h.source.regions, h.asContent]

/-- What is asked may depend on the open regions. -/
theorem asks_of_regions {action : Action Probe α}
    (h : ∀ regions asContent reader other, retelling.alike reader other →
      Told retelling.Probes retelling.place retelling.breaks (action ⟨⟨regions, reader⟩, asContent⟩)
        (action ⟨⟨regions, other⟩, asContent⟩)) :
    retelling.Asks action := by
  rintro ⟨⟨regions, reader⟩, asContent⟩ ⟨⟨regions', other⟩, asContent'⟩ ⟨⟨hregions, h'⟩, hcontent⟩
  obtain rfl : regions' = regions := hregions
  obtain rfl : asContent' = asContent := hcontent
  exact h regions' asContent' reader other h'

/-- Where nothing is told at another place, every request is answered alike. -/
theorem request_asks (hplace : retelling.place = id) (request : Probe.Request) :
    retelling.Asks (Probe.perform request) := by
  cases request with
  | octet? => exact retelling.answer_asks .octet? retelling.octet?_retells
  | octet => exact retelling.answer_asks .octet retelling.octet_retells
  | position =>
    intro s t h
    have hposition : t.source.position = s.source.position := by
      rw [h.source.position, hplace]
      rfl
    exact ⟨congrArg Probe.Answer.position hposition, h⟩
  | available =>
    exact fun s t h => ⟨congrArg Probe.Answer.available h.source.available, h⟩
  | watch enabled => exact fun s t h => ⟨rfl, h.source.watch enabled, h.asContent⟩
  | identifier? =>
    refine retelling.answer_asks .identifier? (retelling.octet?_retells.bind fun found => ?_)
    cases found with
    | none => exact .pure _
    | some first =>
      exact (retelling.retells_of_scans (Identifier.after_scans first)).bind fun _ => .pure _
  | identifierAfter first =>
    exact retelling.answer_asks .identifier
      (retelling.retells_of_scans (Identifier.after_scans first))
  | length limit =>
    exact retelling.answer_asks .length (retelling.retells_of_scans (Length.take_scans limit))
  | enter length asContent =>
    exact fun s t h => ⟨rfl, h.source.enter _, congrArg (asContent :: ·) h.asContent⟩
  | state => exact fun s t h => ⟨h.state, h⟩
  | remainder =>
    refine retelling.asks_of_regions fun regions asContent reader other h => ?_
    match regions, asContent with
    | .definite remaining :: below, false :: outer =>
      exact retelling.answer_asks .octets retelling.remainder_retells _ _ ⟨⟨rfl, h⟩, rfl⟩
    | .definite remaining :: below, true :: outer | .definite remaining :: below, []
    | .marked state :: below, _ | [], _ => exact ⟨rfl, ⟨rfl, h⟩, rfl⟩
  | skip =>
    refine retelling.asks_of_regions fun regions asContent reader other h => ?_
    match regions, asContent with
    | .marked state :: below, false :: outer =>
      exact retelling.answer_asks (fun _ => .done) retelling.skipToEnd_retells _ _
        ⟨⟨rfl, h⟩, rfl⟩
    | .marked state :: below, true :: outer | .marked state :: below, []
    | .definite remaining :: below, _ | [], _ => exact ⟨rfl, ⟨rfl, h⟩, rfl⟩
  | leave =>
    refine retelling.asks_of_regions fun regions asContent reader other h => ?_
    cases asContent with
    | nil => exact ⟨rfl, ⟨rfl, h⟩, rfl⟩
    | cons outermost outer => exact ⟨rfl, ⟨rfl, h⟩, rfl⟩

/-! ## Readers that tell everything -/

/-- The others are at the same places as the ones, and they never break off. -/
structure Faithful : Prop where
  place : retelling.place = id
  breaks : ∀ failure, ¬ retelling.breaks failure

namespace Faithful

variable {retelling} {σ : Type} {related : σ → σ → Prop}

/-- Then outcomes are the same: the same value, or the same failure. -/
theorem outcomes {result other : EStateM.Result Failure σ α} (h : retelling.Faithful)
    (htold : Told related retelling.place retelling.breaks result other) :
    (∃ a s t, result = .ok a s ∧ other = .ok a t ∧ related s t) ∨
      ∃ failure s t, result = .error failure s ∧ other = .error failure t ∧ related s t := by
  rcases htold.outcomes with hok | ⟨failure, s, t, hrun, hother, h'⟩ | ⟨told, t, -, hbreaks⟩
  · exact .inl hok
  · rw [h.place] at hother
    exact .inr ⟨failure, s, t, hrun, hother, h'⟩
  · exact absurd hbreaks (h.breaks told)

/-- A walk meets the same and ends alike. -/
theorem walk_same (h : retelling.Faithful) (gait : Gait) (scope : Scope) {d e : Decoder}
    (hde : retelling.Decoders d e) :
    (e.walk gait scope).events = (d.walk gait scope).events ∧
      (e.walk gait scope).failure? = (d.walk gait scope).failure? ∧
      retelling.Decoders (d.walk gait scope).decoder (e.walk gait scope).decoder := by
  have hwalks := retelling.visitWithin_walks (d.source.left + 1) gait 0 scope ⟨d, []⟩ ⟨e, []⟩
    ⟨hde, rfl⟩
  unfold Decoder.walk
  rw [hde.source.left]
  rcases h.outcomes hwalks with ⟨_, w, w', hrun, hother, h'⟩ | ⟨failure, w, w', hrun, hother, h'⟩
  · rw [hrun, hother]
    exact ⟨congrArg List.reverse h'.trail, rfl, h'.decoder⟩
  · rw [hrun, hother]
    exact ⟨congrArg List.reverse h'.trail, rfl, h'.decoder⟩

/-- A session answers alike, operation by operation, and ends alike. -/
theorem run_same (h : retelling.Faithful) (operations : List Operation) {session other : Session}
    (hsame : retelling.Sessions session other) :
    (Session.run operations other).replies = (Session.run operations session).replies ∧
      (Session.run operations other).failure? = (Session.run operations session).failure? ∧
      retelling.Sessions (Session.run operations session).session
        (Session.run operations other).session := by
  induction operations generalizing session other with
  | nil => exact ⟨rfl, rfl, hsame⟩
  | cons operation operations ih =>
    have hstep := retelling.perform_steps h.place operation session other hsame
    simp only [Session.run]
    rcases h.outcomes hstep with ⟨reply, s, t, hrun, hother, h'⟩ | ⟨failure, s, t, hrun, hother, h'⟩
    · rw [hrun, hother]
      obtain ⟨hreplies, hfailure, hsessions⟩ := ih h'
      exact ⟨congrArg (reply :: ·) hreplies, hfailure, hsessions⟩
    · rw [hrun, hother]
      exact ⟨rfl, rfl, h'⟩

/-- A probe answers alike, request by request, failures included. -/
theorem probe_same (h : retelling.Faithful) (requests : List Probe.Request) {probe other : Probe}
    (hsame : retelling.Probes probe other) :
    (Probe.run requests other).1 = (Probe.run requests probe).1 ∧
      retelling.Probes (Probe.run requests probe).2 (Probe.run requests other).2 := by
  induction requests generalizing probe other with
  | nil => exact ⟨rfl, hsame⟩
  | cons request requests ih =>
    have hstep := retelling.request_asks h.place request probe other hsame
    simp only [Probe.run]
    rcases h.outcomes hstep with ⟨answer, s, t, hrun, hother, h'⟩ |
      ⟨failure, s, t, hrun, hother, h'⟩
    · rw [hrun, hother]
      obtain ⟨hanswers, hprobes⟩ := ih h'
      exact ⟨congrArg (.ok answer :: ·) hanswers, hprobes⟩
    · rw [hrun, hother]
      obtain ⟨hanswers, hprobes⟩ := ih h'
      exact ⟨congrArg (.error failure :: ·) hanswers, hprobes⟩

end Faithful
end Retelling
end Ber
