import Ber.Proofs.Aftermath
import Ber.Proofs.Position

/-!
# Ber.Proofs.Visiting — the sessions that operations lead to, failures included

`Session.Visits` says which sessions a new one becomes by operations in any order. An operation that
fails counts as well: the session goes on from where the failure left it.

1. `Session.Leaves` lists what an operation leaves of a session, whether it fails or not
   (`Session.perform_leaves`): what taking a value leaves, with the container opened or given up
   that was found, or what reading as a whole leaves, with the innermost container given up or not.
2. `Session.Turns` says what that means for a settled source: octets were read, and a container was
   opened behind them, or given up, or neither (`Session.perform_turns`).
3. Every session that is visited is sound (`Session.sound_of_visits`): its source is settled, and
   its regions are those of the open containers.
-/

namespace Ber

open Source

/-- A decoding that succeeds does so on the source. -/
theorem Decoder.Silent.of_ok {α : Type} {action : Decoding α} {taking : Taking α} {a : α}
    {decoder after : Decoder} (hsilent : Decoder.Silent action taking)
    (h : action decoder = .ok a after) : taking decoder.source = .ok a after.source :=
  hsilent.eq_ok_iff.2 ⟨after.journal, h⟩

/-- A decoding leaves of the source what it leaves without remarks. -/
theorem Decoder.Silent.final {α : Type} {action : Decoding α} {taking : Taking α}
    (hsilent : Decoder.Silent action taking) (decoder : Decoder) :
    (Action.final (action decoder)).source = Action.final (taking decoder.source) := by
  have h := hsilent decoder.source decoder.journal
  rw [← h]
  show (Action.final (action decoder)).source = Action.final (Decoder.forget (action decoder))
  cases action decoder <;> rfl

namespace Session

/-- What operations make of a session, whether they fail or not. -/
inductive Visits (first : Session) : Session → Prop where
  | first : Visits first first
  | step {session : Session} (operation : Operation) (h : Visits first session) :
    Visits first (Action.final (perform operation session))

/-- What an operation leaves of a session, whether it fails or not. -/
inductive Leaves (session : Session) : Session → Prop where
  /-- The next value was asked for, and it is no container: or there was none, or asking failed. -/
  | asks {after : Session}
    (hnone : ∀ container t,
      Source.next session.current session.decoder.source ≠ .ok (some (.container container)) t)
    (hafter : session.At (Action.final (Source.next session.current session.decoder.source)) after) :
    Leaves session after
  /-- A container was found and given up. -/
  | drops {after : Session} {container : Container} {source : Source}
    (hnext : Source.next session.current session.decoder.source =
      .ok (some (.container container)) source)
    (hafter : session.At source.leave after) : Leaves session after
  /-- A container was found and opened. -/
  | opens {after : Session} {container : Container}
    (hnext : Source.next session.current session.decoder.source =
      .ok (some (.container container)) after.decoder.source)
    (hopened : after.opened = container :: session.opened) (htop : after.top = session.top) :
    Leaves session after
  /-- Something was read as a whole, or nothing was done. -/
  | reads {after : Session} {α : Type} {taking : Taking α} (hwhole : Course.Whole taking)
    (hafter : session.At (Action.final (taking session.decoder.source)) after) :
    Leaves session after
  /-- The innermost container was given up behind that. -/
  | gives {after : Session} {container : Container} {α : Type} {taking : Taking α}
    (hwhole : Course.Whole taking)
    (hsource : after.decoder.source = (Action.final (taking session.decoder.source)).leave)
    (hopened : session.opened = container :: after.opened) (htop : after.top = session.top) :
    Leaves session after
  /-- The greatest depth was set, outside of all containers. -/
  | sets {after : Session} {maxDepth : Nat} (hopened : session.opened = [])
    (hafter : after = { session with top := { session.top with maxDepth } }) :
    Leaves session after

/-- What an operation does to a session, whether it fails or not. -/
inductive Turns (session : Session) : Session → Prop where
  /-- Octets were read, if any. -/
  | reads {after : Session} {octets : Octets}
    (h : Advances octets session.decoder.source after.decoder.source)
    (hopened : after.opened = session.opened) : Turns session after
  /-- A container was opened behind the octets read. -/
  | opens {after : Session} {container : Container} {region : Region} {octets : Octets}
    {behind : Source} (hready : session.decoder.source.Ready)
    (h : Advances octets session.decoder.source behind) (hbehind : behind.Passing)
    (hfresh : region.Fresh) (hsource : after.decoder.source = behind.enter region)
    (hscope : container.scope =
      (session.current.lower session.decoder.source.available).inside region)
    (hmarked : container.isIndefinite = region.isMarked)
    (hopened : after.opened = container :: session.opened) : Turns session after
  /-- The innermost container was given up behind the octets read. -/
  | gives {after : Session} {container : Container} {octets : Octets} {source : Source}
    (h : Advances octets session.decoder.source source)
    (hsource : after.decoder.source = source.leave)
    (hopened : session.opened = container :: after.opened) : Turns session after

variable {session after : Session} {α : Type}

/-- Where nothing happens to the source and the containers, nothing is read. -/
theorem turns_of_still (hs : session.decoder.source.Settled)
    (hsource : after.decoder.source = session.decoder.source)
    (hopened : after.opened = session.opened) : Turns session after := by
  have h : Advances [] session.decoder.source after.decoder.source := by
    rw [hsource]
    exact hs.advances_nil
  exact .reads h hopened

/-- A session at a source that is further on. -/
theorem turns_of_at {octets : Octets} {source : Source} (hafter : session.At source after)
    (h : Advances octets session.decoder.source source) : Turns session after := by
  rw [← hafter.source] at h
  exact .reads h hafter.opened

/-! ## Each operation -/

/-- What a decoding leaves in a session, it leaves on the source alone. -/
theorem decoding_final {action : Decoding α} {taking : Taking α}
    (hsilent : Decoder.Silent action taking) (session : Session) :
    session.At (Action.final (taking session.decoder.source))
      (Action.final (decoding action session)) := by
  rw [← hsilent.final]
  simp only [decoding, Action.on]
  cases action session.decoder with
  | ok a decoder => exact ⟨decoder.journal, rfl⟩
  | error failure decoder => exact ⟨decoder.journal, rfl⟩

/-- An operation that answers with what a decoding gives leaves what the decoding leaves. -/
theorem answer_final {action : Decoding α} {taking : Taking α} (answer : α → Reply)
    (hsilent : Decoder.Silent action taking) (session : Session) :
    session.At (Action.final (taking session.decoder.source))
      (Action.final ((decoding action >>= fun a => pure (answer a)) session)) := by
  have hfinal := decoding_final hsilent session
  simp only [Bind.bind, EStateM.bind]
  cases hrun : decoding action session with
  | ok a after =>
    rw [hrun] at hfinal
    exact hfinal
  | error failure after =>
    rw [hrun] at hfinal
    exact hfinal

/-- An operation that answers with what is read only reads. -/
theorem leaves_of_answer {action : Decoding α} {taking : Taking α} (answer : α → Reply)
    (hsilent : Decoder.Silent action taking) (hwhole : Course.Whole taking) :
    Leaves session (Action.final ((decoding action >>= fun a => pure (answer a)) session)) :=
  .reads hwhole (answer_final answer hsilent session)

/-- Nothing may be done. -/
theorem leaves_of_nothing (session : Session) : Leaves session session :=
  .reads .nothing ⟨session.decoder.journal, rfl⟩

/-- What an operation on the next value leaves: what it makes of the value, if there is one, and
else what taking it leaves. -/
theorem withNext_final (use : Item → Stepping Reply) (session : Session) :
    match Source.next session.current session.decoder.source with
    | .ok (some item) source => ∃ middle, session.At source middle ∧
      Action.final (withNext use session) = Action.final (use item middle)
    | .ok none source | .error _ source => session.At source
      (Action.final (withNext use session)) := by
  have hsilent := Decoder.silent_next session.current session.decoder.source session.decoder.journal
  rw [withNext_eq, ← hsilent]
  simp only [Bind.bind, EStateM.bind, decoding, Action.on]
  cases Decoder.next session.current session.decoder with
  | error failure decoder => exact ⟨decoder.journal, rfl⟩
  | ok found decoder =>
    cases found with
    | none => exact ⟨decoder.journal, rfl⟩
    | some item => exact ⟨_, ⟨decoder.journal, rfl⟩, rfl⟩

/-- What pulling does is what taking the next value does, and a container is opened. -/
theorem pull_eq (session : Session) :
    perform .pull session =
      match Decoder.next session.current session.decoder with
      | .error failure decoder => .error failure { session with decoder }
      | .ok none decoder => .ok .exhausted { session with decoder }
      | .ok (some (.container container)) decoder =>
        .ok (.item (.container container))
          { session with decoder, opened := container :: session.opened }
      | .ok (some item) decoder => .ok (.item item) { session with decoder } := by
  rw [perform, withNext_eq]
  simp only [Bind.bind, EStateM.bind, decoding, Action.on]
  rcases Decoder.next session.current session.decoder with ⟨found, decoder⟩ | ⟨failure, decoder⟩
  · cases found with
    | none => rfl
    | some item => cases item <;> rfl
  · rfl

/-- The containers that are open behind the next value. -/
def openedBehind (session : Session) : Item → List Container
  | .container container => container :: session.opened
  | _ => session.opened

/-- Pulling does to the source what taking the next value does, and answers with the value. -/
theorem perform_pull (session : Session) :
    match Source.next session.current session.decoder.source with
    | .error failure source => ∃ after, session.At source after ∧
      perform .pull session = .error failure after
    | .ok none source => ∃ after, session.At source after ∧
      perform .pull session = .ok .exhausted after
    | .ok (some item) source => ∃ after, perform .pull session = .ok (.item item) after ∧
      after.decoder.source = source ∧ after.opened = session.openedBehind item ∧
      after.top = session.top := by
  rw [pull_eq, ← Decoder.silent_next session.current session.decoder.source session.decoder.journal]
  have hsame : Decoder.next session.current session.decoder =
      Decoder.next session.current ⟨session.decoder.source, session.decoder.journal⟩ := rfl
  rw [hsame]
  match Decoder.next session.current ⟨session.decoder.source, session.decoder.journal⟩ with
  | .error failure decoder => exact ⟨_, ⟨decoder.journal, rfl⟩, rfl⟩
  | .ok none decoder => exact ⟨_, ⟨decoder.journal, rfl⟩, rfl⟩
  | .ok (some (.container container)) decoder => exact ⟨_, rfl, rfl, rfl, rfl⟩
  | .ok (some (.primitive value)) decoder => exact ⟨_, rfl, rfl, rfl, rfl⟩
  | .ok (some (.uninterpreted named octets)) decoder => exact ⟨_, rfl, rfl, rfl, rfl⟩

/-- A value that comes next can be pulled. -/
theorem pull_of_next {item : Item} {source : Source}
    (h : Source.next session.current session.decoder.source = .ok (some item) source) :
    ∃ after, perform .pull session = .ok (.item item) after ∧ after.decoder.source = source ∧
      after.opened = session.openedBehind item ∧ after.top = session.top := by
  have hpull := perform_pull session
  rwa [h] at hpull

/-- A value that is pulled came next. -/
theorem next_of_pull {item : Item} (h : perform .pull session = .ok (.item item) after) :
    Source.next session.current session.decoder.source = .ok (some item) after.decoder.source ∧
      after.opened = session.openedBehind item ∧ after.top = session.top := by
  have hpull := perform_pull session
  rcases hrun : Source.next session.current session.decoder.source with ⟨_ | found, source⟩ | _ <;>
    rw [hrun] at hpull
  · obtain ⟨_, -, hdone⟩ := hpull
    cases h.symm.trans hdone
  · obtain ⟨_, hdone, hsource, hopened, htop⟩ := hpull
    cases h.symm.trans hdone
    exact ⟨by rw [hsource], hopened, htop⟩
  · obtain ⟨_, -, hfailed⟩ := hpull
    cases h.symm.trans hfailed

/-- Where there is no next value, pulling finds the end. -/
theorem pull_exhausted {source : Source}
    (h : Source.next session.current session.decoder.source = .ok none source) :
    ∃ after, session.At source after ∧ perform .pull session = .ok .exhausted after := by
  have hpull := perform_pull session
  rwa [h] at hpull

/-- Pulling finds the end where there is no next value. -/
theorem next_of_pull_exhausted (h : perform .pull session = .ok .exhausted after) :
    Source.next session.current session.decoder.source = .ok none after.decoder.source ∧
      session.At after.decoder.source after := by
  have hpull := perform_pull session
  rcases hrun : Source.next session.current session.decoder.source with ⟨_ | found, source⟩ | _ <;>
    rw [hrun] at hpull
  · obtain ⟨_, hat, hdone⟩ := hpull
    cases h.symm.trans hdone
    rw [hat.source]
    exact ⟨rfl, hat⟩
  · obtain ⟨_, hdone, -⟩ := hpull
    cases h.symm.trans hdone
  · obtain ⟨_, -, hfailed⟩ := hpull
    cases h.symm.trans hfailed

/-- A container that is open can be given up. -/
theorem leave_eq {container : Container} {below : List Container}
    (hopened : session.opened = container :: below) :
    perform .leave session = .ok .left (giveUp session) := by
  rcases session with ⟨decoder, top, opened⟩
  obtain rfl : opened = _ := hopened
  rfl

/-- An operation on the next value, which pushes a container that it finds or gives it up. -/
theorem withNext_leaves {use : Item → Stepping Reply}
    (hvalue : ∀ item session, item.isContainer = false →
      Action.final (use item session) = session)
    (hcontainer : ∀ container session, Action.final (use (.container container) session) =
        { session with opened := container :: session.opened } ∨
      Action.final (use (.container container) session) =
        { session with decoder := session.decoder.leave }) :
    Leaves session (Action.final (withNext use session)) := by
  have hfinal := withNext_final use session
  match hrun : Source.next session.current session.decoder.source with
  | .error failure source =>
    rw [hrun] at hfinal
    refine .asks (fun _ _ h => nomatch hrun.symm.trans h) ?_
    rw [hrun]
    exact hfinal
  | .ok none source =>
    rw [hrun] at hfinal
    refine .asks (fun _ _ h => nomatch hrun.symm.trans h) ?_
    rw [hrun]
    exact hfinal
  | .ok (some item) source =>
    rw [hrun] at hfinal
    obtain ⟨middle, hmiddle, hafter⟩ := hfinal
    by_cases hitem : item.isContainer = false
    · refine .asks (fun _ _ h => ?_) ?_
      · cases hrun.symm.trans h
        cases hitem
      · rw [hrun, hafter, hvalue item middle hitem]
        exact hmiddle
    · obtain ⟨container, rfl⟩ : ∃ container, item = .container container := by
        cases item with
        | container container => exact ⟨container, rfl⟩
        | uninterpreted named octets => exact absurd rfl hitem
        | primitive value => exact absurd rfl hitem
      obtain ⟨journal, rfl⟩ := hmiddle
      rcases hcontainer container _ with hpushed | hdropped
      · rw [hafter, hpushed]
        exact .opens hrun rfl rfl
      · rw [hafter, hdropped]
        exact .drops hrun ⟨journal, rfl⟩

/-- Taking the next value as a whole only reads. -/
theorem element_leaves (session : Session) :
    Leaves session (Action.final (perform .element session)) := by
  have hperform := perform_element session
  refine .reads (.nextElement session.current) ?_
  rcases hrun : nextElement session.current session.decoder.source with (_ | first) | _ <;>
    (rw [hrun] at hperform
     obtain ⟨after, hafter, hresult⟩ := hperform
     rw [hresult]
     exact hafter)

/-- Finishing reads what remains of the innermost container, and gives it up in any case. -/
theorem finish_final (decoder : Decoder) (top : Scope) (container : Container)
    (below : List Container) :
    Action.final (perform .finish ⟨decoder, top, container :: below⟩) =
      giveUp (Action.final ((decoding (Decoder.contents container) >>=
        fun element => pure (Reply.element element)) ⟨decoder, top, container :: below⟩)) :=
  Action.final_afterwards ..

/-- Finishing gives up the innermost container, also if reading it fails. -/
theorem finish_leaves (session : Session) :
    Leaves session (Action.final (perform .finish session)) := by
  rcases session with ⟨decoder, top, opened⟩
  cases opened with
  | nil => exact leaves_of_nothing _
  | cons container below =>
    have hat := answer_final .element (Decoder.silent_contents container)
      ⟨decoder, top, container :: below⟩
    obtain ⟨journal, hat⟩ := hat
    rw [finish_final, hat]
    exact .gives (.contents container) rfl rfl rfl

/-- All that an operation can leave of a session. -/
theorem perform_leaves (operation : Operation) (session : Session) :
    Leaves session (Action.final (perform operation session)) := by
  cases operation with
  | pull =>
    refine withNext_leaves (fun item session hitem => ?_) fun container session => .inl rfl
    cases item with
    | container container => cases hitem
    | uninterpreted identifier content => rfl
    | primitive value => rfl
  | primitive =>
    refine withNext_leaves (fun item session hitem => ?_) fun container session => .inr rfl
    cases item with
    | container container => cases hitem
    | uninterpreted identifier content => rfl
    | primitive value => rfl
  | container =>
    refine withNext_leaves (fun item session hitem => ?_) fun container session => .inl rfl
    cases item with
    | container container => cases hitem
    | uninterpreted identifier content => rfl
    | primitive value => rfl
  | element => exact element_leaves session
  | finish => exact finish_leaves session
  | drain =>
    exact leaves_of_answer .elements (Decoder.silent_drain session.current)
      (.elements session.current)
  | takeContent =>
    rcases session with ⟨decoder, top, opened⟩
    match opened with
    | ⟨.tagged identifier, inner, isIndefinite⟩ :: below =>
      exact leaves_of_answer .content (Decoder.Silent.liftM Source.remainder) .remainder
    | [] | ⟨.sequence, _, _⟩ :: _ | ⟨.set, _, _⟩ :: _ | ⟨.octetString, _, _⟩ :: _ =>
      exact leaves_of_nothing _
  | join =>
    rcases session with ⟨decoder, top, opened⟩
    match opened with
    | ⟨.octetString, inner, isIndefinite⟩ :: below =>
      exact leaves_of_answer .joined (Decoder.silent_joined inner) (.joined inner)
    | [] | ⟨.sequence, _, _⟩ :: _ | ⟨.set, _, _⟩ :: _ | ⟨.tagged _, _, _⟩ :: _ =>
      exact leaves_of_nothing _
  | inspect =>
    rcases session with ⟨decoder, top, opened⟩
    cases opened <;> exact leaves_of_nothing _
  | setMaxDepth maxDepth =>
    rcases session with ⟨decoder, top, opened⟩
    cases opened with
    | nil => exact .sets rfl rfl
    | cons container below => exact leaves_of_nothing _
  | leave =>
    rcases session with ⟨decoder, top, opened⟩
    cases opened with
    | nil => exact leaves_of_nothing _
    | cons container below => exact .gives .nothing rfl rfl rfl

/-! ## Settled sources -/

/-- All that an operation can do to a session whose source is settled. -/
theorem perform_turns (operation : Operation) (hs : session.decoder.source.Settled) :
    Turns session (Action.final (perform operation session)) := by
  have hleads : Leads session.current session.decoder.source
      (Source.next session.current session.decoder.source) := next_leads hs
  cases perform_leaves operation session with
  | asks hnone hafter =>
    obtain ⟨c, hc⟩ := hleads.advances hnone
    exact turns_of_at hafter hc
  | drops hnext hafter =>
    rw [hnext] at hleads
    obtain ⟨-, c, region, behind, -, -, hc, rfl, -, -⟩ := hleads.opens
    exact turns_of_at hafter hc
  | opens hnext hopened htop =>
    rw [hnext] at hleads
    obtain ⟨hready, c, region, behind, hfresh, hbehind, hc, hsource, hscope, hmarked⟩ :=
      hleads.opens
    exact .opens hready hc hbehind hfresh hsource hscope hmarked hopened
  | reads hwhole hafter =>
    obtain ⟨c, hc⟩ := advancing.of_whole hwhole _ hs
    exact turns_of_at hafter hc
  | gives hwhole hsource hopened htop =>
    obtain ⟨c, hc⟩ := advancing.of_whole hwhole _ hs
    exact .gives hc hsource hopened
  | sets hopened hafter =>
    rw [hafter]
    exact turns_of_still hs rfl rfl

/-! ## What every session keeps -/

/-- A source fits open containers: it is settled, and its regions are theirs. -/
structure Sound (session : Session) : Prop where
  settled : session.decoder.source.Settled
  /-- The open regions are those of the open containers. -/
  regions : List.Forall₂ (fun container region => container.isIndefinite = region.isMarked)
    session.opened session.decoder.source.regions

/-- A session keeps to its containers, whatever an operation does. -/
theorem Sound.turns (h : session.Sound) (hturns : Turns session after) : after.Sound := by
  have hkept : ∀ {c : Octets} {source : Source}, Advances c session.decoder.source source →
      List.Forall₂ (fun container region => container.isIndefinite = region.isMarked)
        session.opened source.regions := by
    intro c source hc
    have houtlines : List.Forall₂
        (fun container region => container.isIndefinite = region.isMarked) session.opened
        (session.decoder.source.regions.map (·.outline.spend c.length)) := by
      refine List.forall₂_map_right_iff.2 (h.regions.imp fun container region hmarked => ?_)
      rw [Region.isMarked_spend, Region.isMarked_outline]
      exact hmarked
    rw [← hc.outlines] at houtlines
    refine (List.forall₂_map_right_iff.1 houtlines).imp fun container region hmarked => ?_
    rwa [Region.isMarked_outline] at hmarked
  cases hturns with
  | reads hc hopened =>
    refine ⟨hc.settled, ?_⟩
    rw [hopened]
    exact hkept hc
  | opens hready hc hbehind hfresh hsource hscope hmarked hopened =>
    refine ⟨?_, ?_⟩
    · rw [hsource]
      exact hbehind.settled_enter hfresh
    · rw [hsource, hopened]
      exact .cons hmarked (hkept hc)
  | @gives container c source hc hsource hopened =>
    refine ⟨?_, ?_⟩
    · rw [hsource]
      exact .inl hc.settled.leave.ready
    · have hall := hkept hc
      rw [hopened] at hall
      rw [hsource]
      cases hregions : source.regions with
      | nil =>
        rw [hregions] at hall
        cases hall
      | cons region regions =>
        rw [hregions] at hall
        cases hall with
        | cons hmarked hrest =>
          show List.Forall₂ _ after.opened source.regions.tail
          rw [hregions]
          exact hrest

/-- Whatever operations are carried out on a new session, failing ones included, it stays sound. -/
theorem sound_of_visits {arrivals : List Arrival} {limit maxDepth : Nat}
    (h : Visits (fresh arrivals limit maxDepth) session) : session.Sound := by
  induction h with
  | first => exact ⟨.inl fun _ hmem => absurd hmem List.not_mem_nil, .nil⟩
  | step operation _ ih => exact ih.turns (perform_turns operation ih.settled)

end Session
end Ber
