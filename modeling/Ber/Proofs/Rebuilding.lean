import Ber.Decoder.Walk
import Ber.Proofs.Budget
import Ber.Proofs.Encoding

/-!
# Ber.Proofs.Rebuilding — a walk tells what draining would give

A walk that joins octet strings and takes the content of tagged values makes the same reads as
draining, in the same order, whether they succeed or fail.

1. `rebuild` puts elements together from the events of a walk, one event at a time.
2. `Walker.Traces` says that a stretch of a walk acts on the source as an action does, and what the
   events of the stretch tell about the result. Stretches in sequence are traced one by one.
3. `Walker.traces_visitWithin`: visiting a region tells the elements that draining it gives.
-/

namespace Ber

/-! ## Elements from events -/

/-- Elements being put together. -/
inductive Rebuilding where
  /-- The elements met in the innermost region, and around it each container that was entered with
  the elements met before it; the latest first. -/
  | inside (taken : List Element) (outer : List (Form × List Element))
  /-- The elements of the region that the walk was about. -/
  | complete (elements : List Element)

namespace Rebuilding

/-- What the end of a region leads to, given the elements in it and what is around it. -/
def close (elements : List Element) : List (Form × List Element) → Rebuilding
  | [] => complete elements
  | (form, before) :: outer => inside (form.element elements :: before) outer

/-- Follows an event, if it can happen here. -/
def follow : Rebuilding → Event → Option Rebuilding
  | inside taken outer, ⟨level, sight⟩ =>
    if level = outer.length then
      match sight, taken, outer with
      | .item (.uninterpreted identifier content), taken, outer =>
        some (inside (.uninterpreted identifier content :: taken) outer)
      | .item (.primitive value), taken, outer => some (inside (.primitive value :: taken) outer)
      | .item (.container container), taken, outer =>
        some (inside [] ((container.form, taken) :: outer))
      | .joined octets, [], (.octetString, before) :: outer =>
        some (inside (.primitive (.octetString octets) :: before) outer)
      | .content octets, [], (.tagged identifier, before) :: outer =>
        some (inside (.taggedContent identifier octets :: before) outer)
      | .finish, taken, outer => some (close taken.reverse outer)
      | _, _, _ => none
    else none
  | complete _, _ => none

/-- Follows events in order. -/
def followAll : Rebuilding → List Event → Option Rebuilding
  | state, [] => some state
  | state, event :: events => (state.follow event).bind (followAll · events)

theorem followAll_append (state : Rebuilding) (events more : List Event) :
    state.followAll (events ++ more) = (state.followAll events).bind (followAll · more) := by
  induction events generalizing state with
  | nil => rfl
  | cons event events ih => simp only [List.cons_append, followAll, ih, Option.bind_assoc]

end Rebuilding

/-- The elements that the events of a whole walk tell. -/
def rebuild (events : List Event) : Option (List Element) :=
  match (Rebuilding.inside [] []).followAll events with
  | some (.complete elements) => some elements
  | _ => none

/-! ## Stretches of a walk -/

namespace Walker

variable {α β γ δ : Type}

/-- A stretch acts on the source as an action does, and its events tell about the two results. -/
def Traces (stretch : Walking α) (taking : Taking β) (told : List Event → α → β → Prop) : Prop :=
  ∀ walker : Walker, match taking walker.decoder.source with
    | .ok b source => ∃ a journal events,
      stretch walker = .ok a ⟨⟨source, journal⟩, events.reverse ++ walker.trail⟩ ∧ told events a b
    | .error failure source => ∃ journal trail,
      stretch walker = .error failure ⟨⟨source, journal⟩, trail⟩

namespace Traces

variable {stretch : Walking α} {taking : Taking β} {told : List Event → α → β → Prop}

/-- Stretches in sequence. -/
theorem bind {rest : α → Walking γ} {restTaking : β → Taking δ}
    {tell : List Event → γ → δ → Prop} (h : Traces stretch taking told)
    (hrest : ∀ events a b, told events a b →
      Traces (rest a) (restTaking b) fun more => tell (events ++ more)) :
    Traces (stretch >>= rest) (taking >>= restTaking) tell := by
  intro walker
  have h := h walker
  simp only [Bind.bind, EStateM.bind]
  cases hrun : taking walker.decoder.source with
  | ok b source =>
    rw [hrun] at h
    rcases h with ⟨a, journal, events, hstretch, htold⟩
    -- the trail holds the latest event first, so the events are turned around
    have hrest := hrest events a b htold ⟨⟨source, journal⟩, events.reverse ++ walker.trail⟩
    simp only [hstretch]
    cases hrun' : restTaking b source with
    | ok d source' =>
      rw [hrun'] at hrest
      rcases hrest with ⟨c, journal', more, hstretch', htell⟩
      exact ⟨c, journal', events ++ more, by simp [hstretch'], htell⟩
    | error failure source' =>
      rw [hrun'] at hrest
      exact hrest
  | error failure source =>
    rw [hrun] at h
    rcases h with ⟨journal, trail, hstretch⟩
    exact ⟨journal, trail, by simp [hstretch]⟩

/-- What the events tell may be weakened. -/
theorem mono {tell : List Event → α → β → Prop} (h : Traces stretch taking told)
    (htell : ∀ events a b, told events a b → tell events a b) : Traces stretch taking tell := by
  intro walker
  have h := h walker
  cases hrun : taking walker.decoder.source with
  | ok b source =>
    rw [hrun] at h
    rcases h with ⟨a, journal, events, hstretch, htold⟩
    exact ⟨a, journal, events, hstretch, htell events a b htold⟩
  | error failure source =>
    rw [hrun] at h
    exact h

/-- The action may go on without the stretch, as long as it leaves the source alone. -/
theorem returning {tell : List Event → α → δ → Prop} (result : β → δ)
    (h : Traces stretch taking told)
    (htell : ∀ events a b, told events a b → tell events a (result b)) :
    Traces stretch (do return result (← taking)) tell := by
  intro walker
  have h := h walker
  simp only [Bind.bind, EStateM.bind]
  cases hrun : taking walker.decoder.source with
  | ok b source =>
    rw [hrun] at h
    rcases h with ⟨a, journal, events, hstretch, htold⟩
    exact ⟨a, journal, events, hstretch, htell events a b htold⟩
  | error failure source =>
    rw [hrun] at h
    exact h

/-- An event by itself. -/
theorem note {level : Nat} {sight : Sight} {b : β} {told : List Event → Unit → β → Prop}
    (h : told [⟨level, sight⟩] () b) : Traces (Walker.note level sight) (pure b) told := by
  intro h
  rcases h with ⟨⟨source, journal⟩, trail⟩
  exact ⟨(), journal, [⟨level, sight⟩], rfl, h⟩

/-- An event in front of a stretch. -/
theorem note_bind {rest : Unit → Walking α} {level : Nat} {sight : Sight}
    (h : Traces (rest ()) taking fun events => told (⟨level, sight⟩ :: events)) :
    Traces (Walker.note level sight >>= rest) taking told := by
  intro h
  rcases h with ⟨⟨source, journal⟩, trail⟩
  have h := h ⟨⟨source, journal⟩, ⟨level, sight⟩ :: trail⟩
  change match taking source with
    | .ok b source => _
    | .error failure source => _
  dsimp only at h
  cases hrun : taking source with
  | ok b source' =>
    rw [hrun] at h
    rcases h with ⟨a, journal', events, hstretch, htold⟩
    refine ⟨a, journal', ⟨level, sight⟩ :: events, ?_, htold⟩
    rw [List.reverse_cons, List.append_assoc]
    exact hstretch
  | error failure source' =>
    rw [hrun] at h
    exact h

/-- A decoding makes no events. -/
theorem decoding {action : Decoding β} (h : Decoder.Silent action taking) :
    Traces (Walker.decoding action) taking fun events a b => events = [] ∧ a = b := by
  intro h
  rcases h with ⟨⟨source, journal⟩, trail⟩
  have h := h source journal
  cases hrun : action ⟨source, journal⟩ with
  | ok b decoder =>
    rw [hrun] at h
    dsimp only
    rw [← h]
    exact ⟨b, decoder.journal, [], by simp [Walker.decoding, Action.on, hrun], rfl, rfl⟩
  | error failure decoder =>
    rw [hrun] at h
    dsimp only
    rw [← h]
    exact ⟨decoder.journal, trail, by simp [Walker.decoding, Action.on, hrun]⟩

/-- Leaving the innermost region makes no events. -/
theorem leaving {stretch : Walking Unit} {told : List Event → Unit → β → Prop}
    (h : Traces stretch taking told) :
    Traces (leaving stretch) (Action.afterwards Source.leave taking) told := by
  intro walker
  have h := h walker
  simp only [Walker.leaving, Action.afterwards]
  cases hrun : taking walker.decoder.source with
  | ok b source =>
    rw [hrun] at h
    rcases h with ⟨a, journal, events, hstretch, htold⟩
    exact ⟨a, journal, events, by simp [hstretch, Decoder.leave], htold⟩
  | error failure source =>
    rw [hrun] at h
    rcases h with ⟨journal, trail, hstretch⟩
    exact ⟨journal, trail, by simp [hstretch, Decoder.leave]⟩

end Traces

/-! ## Visiting and draining -/

/-- Joins octet strings and takes the content of tagged values, as draining does. -/
def eager : Gait := ⟨true, true⟩

/-- Events that are met in a region with these elements before, and that complete it. -/
def Completes (level : Nat) (taken : List Element) (events : List Event)
    (elements : List Element) : Prop :=
  ∀ outer : List (Form × List Element), outer.length = level →
    (Rebuilding.inside taken outer).followAll events = some (.close elements outer)

/-- Events that are met in a container, and that tell the element it becomes. -/
def Becomes (level : Nat) (form : Form) (events : List Event) (element : Element) : Prop :=
  ∀ (before : List Element) (outer : List (Form × List Element)), outer.length = level →
    (Rebuilding.inside [] ((form, before) :: outer)).followAll events =
      some (.inside (element :: before) outer)

theorem Completes.becomes {level : Nat} {events : List Event} {elements : List Element}
    (h : Completes (level + 1) [] events elements) (form : Form) :
    Becomes level form events (form.element elements) := by
  intro before outer hlevel
  exact h ((form, before) :: outer) (congrArg (· + 1) hlevel)

/-- Entering a container as a walk does and reading it as draining does are the same, if this holds
for the values in it. -/
theorem traces_contents {bound level : Nat} {container : Container}
    (ih : ∀ scope, Traces (visitWithin bound eager (level + 1) scope)
      (Source.elementsWithin bound scope []) fun events _ => Completes (level + 1) [] events) :
    Traces
      (match container.form with
        | .octetString => do
          if eager.joins then
            note (level + 1) (.joined (← Decoder.joinedWithin bound container.scope []))
          else visitWithin bound eager (level + 1) container.scope
        | .tagged identifier => do
          if eager.takesContent && !identifier.isConstructed then
            note (level + 1) (.content (← decoding Source.remainder))
          else visitWithin bound eager (level + 1) container.scope
        | _ => visitWithin bound eager (level + 1) container.scope : Walking Unit)
      (Source.contentsWith (Source.elementsWithin bound · []) (Source.joinedWithin bound · [])
        container)
      fun events _ => Becomes level container.form events := by
  rcases container with ⟨form, inner, isIndefinite⟩
  cases form with
  | sequence => exact (ih inner).returning _ fun events _ elements h => h.becomes .sequence
  | set => exact (ih inner).returning _ fun events _ elements h => h.becomes .set
  | octetString =>
    refine (Traces.decoding (Decoder.silent_joinedWithin bound inner [])).bind ?_
    rintro events octets _ ⟨rfl, rfl⟩
    refine .note fun before outer hlevel => ?_
    simp [Rebuilding.followAll, Rebuilding.follow, hlevel]
  | tagged identifier =>
    by_cases hconstructed : identifier.isConstructed
    · simp only [Source.contentsWith, eager, hconstructed, Bool.not_true, Bool.and_false, if_true,
        Bool.false_eq_true, if_false]
      exact (ih inner).returning _ fun events _ elements h => h.becomes (.tagged identifier)
    · simp only [Source.contentsWith, eager, hconstructed, Bool.not_false, Bool.and_true, if_true,
        Bool.false_eq_true, if_false]
      refine (Traces.decoding (Decoder.Silent.liftM Source.remainder)).bind ?_
      rintro events octets _ ⟨rfl, rfl⟩
      refine .note fun before outer hlevel => ?_
      simp [Rebuilding.followAll, Rebuilding.follow, hlevel]

/-- Visiting a region reads what draining it reads, and the events tell the elements. -/
theorem traces_visitWithin (bound level : Nat) (scope : Scope) (taken : List Element) :
    Traces (visitWithin bound eager level scope) (Source.elementsWithin bound scope taken)
      fun events _ => Completes level taken events := by
  induction bound generalizing level scope taken with
  | zero =>
    intro h
    rcases h with ⟨⟨source, journal⟩, trail⟩
    exact ⟨journal, trail, rfl⟩
  | succ bound ih =>
    -- both take the next value; what the walk does with it decides how draining goes on
    refine (Traces.decoding (Decoder.silent_next scope)).bind ?_
    rintro events item _ ⟨rfl, rfl⟩
    cases item with
    | none =>
      refine .note fun outer hlevel => ?_
      simp [Rebuilding.followAll, Rebuilding.follow, hlevel]
    | some item =>
      refine .note_bind ?_
      match item with
      | .uninterpreted identifier content =>
        exact (ih level scope (.uninterpreted identifier content :: taken)).mono
          fun events _ elements h outer hlevel => by
            simp [Rebuilding.followAll, Rebuilding.follow, hlevel, h outer hlevel]
      | .primitive value =>
        exact (ih level scope (.primitive value :: taken)).mono
          fun events _ elements h outer hlevel => by
            simp [Rebuilding.followAll, Rebuilding.follow, hlevel, h outer hlevel]
      | .container ⟨form, inner, isIndefinite⟩ =>
        refine (Traces.leaving (@traces_contents bound level ⟨form, inner, isIndefinite⟩
          fun scope => ih (level + 1) scope [])).bind ?_
        intro events _ element hbecomes
        refine (ih level scope (element :: taken)).mono fun more _ elements h outer hlevel => ?_
        simp [Rebuilding.followAll, Rebuilding.follow, hlevel, Rebuilding.followAll_append,
          hbecomes taken outer hlevel, h outer hlevel]

end Walker

/-- A walk fails where draining fails, and else its events tell the drained elements. -/
theorem Decoder.walk_eager (scope : Scope) (decoder : Decoder) :
    match Source.elementsFrom scope [] decoder.source with
    | .ok elements source =>
      (decoder.walk Walker.eager scope).failure? = none ∧
        rebuild (decoder.walk Walker.eager scope).events = some elements ∧
        (decoder.walk Walker.eager scope).decoder.source = source
    | .error failure source =>
      (decoder.walk Walker.eager scope).failure? = some failure ∧
        (decoder.walk Walker.eager scope).decoder.source = source := by
  have h := Walker.traces_visitWithin (decoder.source.left + 1) 0 scope [] { decoder }
  unfold Decoder.walk
  cases hrun : Source.elementsFrom scope [] decoder.source with
  | ok elements source =>
    rw [show Source.elementsWithin (decoder.source.left + 1) scope [] decoder.source =
      .ok elements source from hrun] at h
    rcases h with ⟨⟨⟩, journal, events, hvisit, hcompletes⟩
    simp [hvisit, rebuild, hcompletes [] rfl, Rebuilding.close]
  | error failure source =>
    rw [show Source.elementsWithin (decoder.source.left + 1) scope [] decoder.source =
      .error failure source from hrun] at h
    rcases h with ⟨journal, trail, hvisit⟩
    simp [hvisit]

end Ber
