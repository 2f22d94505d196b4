import Ber.Proofs.Causes
import Ber.Proofs.Tasks

/-!
# Ber.Proofs.Blame — which value an operation fails for

An operation that fails does so for a value that it takes on its way, unless octets are missing, a segment is
foreign, or octets are wanted of content that has no length (`Session.blames_of_perform`). The failure is
the one that taking that value ends with.
-/

namespace Ber

open Source

/-- A cause that only a value can be refused for, as it is taken. -/
def Cause.ofValue (cause : Cause) : Prop :=
  ¬ cause.stopsTaking ∧ cause ≠ .unsupportedIndefiniteForm ∧ cause ≠ Decoder.foreignSegment

namespace Task

variable {moment next : Task × Decoder} {decoder after : Decoder} {failure : Failure}

/-- On its way, a task takes a value, and that fails. -/
def Blames (failure : Failure) (moment : Task × Decoder) : Prop :=
  ∃ scope decoder after, Includes moment (.next scope, decoder) ∧
    Decoder.next scope decoder = .error failure after

theorem Blames.of_calls (hcalls : Calls moment next) (h : Blames failure next) :
    Blames failure moment := by
  obtain ⟨scope, decoder, after, hincludes, hfailed⟩ := h
  exact ⟨scope, decoder, after, .head hcalls hincludes, hfailed⟩

theorem blames_of_next {scope : Scope} (h : Decoder.next scope decoder = .error failure after) :
    Blames failure (.next scope, decoder) := ⟨scope, decoder, after, .refl, h⟩

section
variable (hcause : failure.cause.ofValue)
include hcause

/-- Reading fails for a value where its bound is reached. -/
theorem not_fail_truncated {α : Type}
    (h : (liftM (Source.fail (α := α) .truncated) : Decoding α) decoder = .error failure after) :
    False := by
  cases h
  exact hcause.1 rfl

/-- Joining segments fails for a segment that is taken. -/
theorem blames_of_segments (bound : Nat) (scope : Scope) (pieces : List Octets)
    (h : Decoder.joinedWithin bound scope pieces decoder = .error failure after) :
    Blames failure (.segments bound scope pieces, decoder) := by
  -- the bound runs out only as if octets were missing, and no value is to blame for that
  induction bound generalizing scope pieces decoder after with
  | zero => exact (not_fail_truncated hcause h).elim
  | succ bound ih =>
    have hforeign : ∀ {start : Nat} {d e : Decoder}, (throw ⟨Decoder.foreignSegment, start⟩ :
        Decoding Octets) d = .error failure e → False := by
      intro start d e hthrown
      cases hthrown
      exact hcause.2.2 rfl
    rcases Action.bind_eq_error.1 h with hposition | ⟨start, m, hposition, h⟩
    · cases hposition
    cases hposition
    rcases Action.bind_eq_error.1 h with hnext | ⟨found, middle, hnext, hrest⟩
    · exact (blames_of_next hnext).of_calls .nextSegment
    match found with
    | none => cases hrest
    | some (.primitive value) =>
      cases value with
      | octetString octets => exact (ih _ _ hrest).of_calls (.segment hnext)
      | _ => exact (hforeign hrest).elim
    | some (.uninterpreted named octets) => exact (hforeign hrest).elim
    | some (.container ⟨form, inner, isIndefinite⟩) =>
      cases form with
      | octetString =>
        rcases Action.bind_eq_error.1 hrest with hinner | ⟨octets, behind, hinner, hrest⟩
        · obtain ⟨last, hinner⟩ := Action.afterwards_eq_error hinner
          exact (ih _ _ hinner).of_calls (.inner hnext)
        · exact (ih _ _ hrest).of_calls (.segmented hnext hinner)
      | _ =>
        obtain ⟨last, hthrown⟩ := Action.afterwards_eq_error hrest
        exact (hforeign hthrown).elim

/-- Taking what remains of a region fails for no value. -/
theorem not_fail_remainder
    (h : (liftM Source.remainder : Decoding Octets) decoder = .error failure after) : False := by
  have hremainder : Spares failure.cause Source.remainder := by
    intro s failure' t hfailed
    unfold Source.remainder at hfailed
    split at hfailed
    · exact octets_spares hcause.1 _ _ _ _ hfailed
    · cases hfailed
      exact hcause.2.1.symm
  have hsource := (Decoder.Silent.liftM Source.remainder).eq_error_iff.2 ⟨after.journal, h⟩
  exact hremainder _ _ _ hsource rfl

/-- Reading a container fails for a value in it, if draining it does. -/
theorem blames_of_contents {bound : Nat}
    (hdrain : ∀ scope decoder after,
      Decoder.elementsWithin bound scope [] decoder = .error failure after →
      Blames failure (.elements bound scope [], decoder)) (container : Container)
    (h : contentsWithin bound container decoder = .error failure after) :
    Blames failure (.contents bound container, decoder) := by
  -- every form is drained, but for segments and for content that is taken as it is
  have hdrained : ∀ {make : List Element → Element}, container.form ≠ .octetString →
      (∀ identifier, container.form = .tagged identifier → identifier.isConstructed) →
      (do return make (← Decoder.elementsWithin bound container.scope []) : Decoding Element)
        decoder = .error failure after →
      Blames failure (.contents bound container, decoder) := by
    intro make hform hconstructed hfailed
    rcases Action.bind_eq_error.1 hfailed with hfailed | ⟨elements, m, -, hpure⟩
    · exact (hdrain _ _ _ hfailed).of_calls (.drain hform hconstructed)
    · cases hpure
  unfold contentsWithin Decoder.contentsWith at h
  cases hform : container.form with
  | sequence =>
    rw [hform] at h
    exact hdrained (by rw [hform]; exact fun h => nomatch h)
      (fun identifier hnamed => by rw [hform] at hnamed; cases hnamed) h
  | set =>
    rw [hform] at h
    exact hdrained (by rw [hform]; exact fun h => nomatch h)
      (fun identifier hnamed => by rw [hform] at hnamed; cases hnamed) h
  | octetString =>
    rw [hform] at h
    rcases Action.bind_eq_error.1 h with hfailed | ⟨octets, m, -, hpure⟩
    · exact (blames_of_segments hcause _ _ _ hfailed).of_calls (.join hform)
    · cases hpure
  | tagged identifier =>
    rw [hform] at h
    by_cases hconstructed : identifier.isConstructed
    · simp only [hconstructed, if_true] at h
      refine hdrained (by rw [hform]; exact fun h => nomatch h) (fun named hnamed => ?_) h
      rw [hform] at hnamed
      cases hnamed
      exact hconstructed
    · simp only [hconstructed] at h
      rcases Action.bind_eq_error.1 h with hfailed | ⟨octets, m, -, hpure⟩
      · exact (not_fail_remainder hcause hfailed).elim
      · cases hpure

/-- Reading a value as a whole fails for a value in it, if draining does. -/
theorem blames_of_element {bound : Nat}
    (hdrain : ∀ scope decoder after,
      Decoder.elementsWithin bound scope [] decoder = .error failure after →
      Blames failure (.elements bound scope [], decoder)) (item : Item)
    (h : Decoder.elementWith (contentsWithin bound) item decoder = .error failure after) :
    Blames failure (.element bound item, decoder) := by
  cases item with
  | uninterpreted named octets => cases h
  | primitive value => cases h
  | container container =>
    obtain ⟨last, hcontents⟩ := Action.afterwards_eq_error h
    exact (blames_of_contents hcause hdrain container hcontents).of_calls .contents

/-- Draining fails for a value that is taken. -/
theorem blames_of_elements (bound : Nat) (scope : Scope) (taken : List Element)
    (h : Decoder.elementsWithin bound scope taken decoder = .error failure after) :
    Blames failure (.elements bound scope taken, decoder) := by
  induction bound generalizing scope taken decoder after with
  | zero => exact (not_fail_truncated hcause h).elim
  | succ bound ih =>
    rcases Action.bind_eq_error.1 h with hnext | ⟨found, middle, hnext, hrest⟩
    · exact (blames_of_next hnext).of_calls .nextElement
    cases found with
    | none => cases hrest
    | some item =>
      -- the value itself is to blame, or one that is taken behind it
      rcases Action.bind_eq_error.1 hrest with helement | ⟨element, behind, helement, hrest⟩
      · have hinside := blames_of_element hcause (fun scope _ _ h => ih scope [] h) item helement
        exact hinside.of_calls (.element hnext)
      · exact (ih _ _ hrest).of_calls (.elements hnext helement)

end
end Task

namespace Session

variable {session after : Session} {operation : Operation} {failure : Failure} {α : Type}

/-- What an operation does on a decoder fails there. -/
theorem decoding_eq_error {action : Decoding α} (h : decoding action session = .error failure after) :
    ∃ decoder, action session.decoder = .error failure decoder := by
  simp only [decoding, Action.on] at h
  cases hrun : action session.decoder with
  | ok a decoder =>
    rw [hrun] at h
    cases h
  | error other decoder =>
    rw [hrun] at h
    cases h
    exact ⟨decoder, rfl⟩

/-- An operation that answers with what a decoding gives fails as that does. -/
theorem answer_eq_error (action : Decoding α) (answer : α → Reply)
    (h : (decoding action >>= fun a => pure (answer a)) session = .error failure after) :
    ∃ decoder, action session.decoder = .error failure decoder := by
  rcases Action.bind_eq_error.1 h with hfailed | ⟨a, m, -, hpure⟩
  · exact decoding_eq_error hfailed
  · cases hpure

/-- An operation on the next value fails in taking it, or in what it makes of it. -/
theorem withNext_eq_error {use : Item → Stepping Reply}
    (h : withNext use session = .error failure after) :
    (∃ decoder, Decoder.next session.current session.decoder = .error failure decoder) ∨
      ∃ item middle decoder, Decoder.next session.current session.decoder =
        .ok (some item) decoder ∧ middle.decoder = decoder ∧
        use item middle = .error failure after := by
  rw [withNext_eq] at h
  rcases Action.bind_eq_error.1 h with hfailed | ⟨found, middle, hnext, hrest⟩
  · exact .inl (decoding_eq_error hfailed)
  cases found with
  | none => cases hrest
  | some item =>
    simp only [decoding, Action.on] at hnext
    cases hrun : Decoder.next session.current session.decoder with
    | error other decoder =>
      rw [hrun] at hnext
      cases hnext
    | ok found decoder =>
      rw [hrun] at hnext
      cases hnext
      exact .inr ⟨item, _, decoder, rfl, rfl, hrest⟩

/-- Reading what remains of a container fails for a value in it. -/
theorem blames_of_contents (hcause : failure.cause.ofValue) {container : Container}
    {decoder after : Decoder} (h : Decoder.contents container decoder = .error failure after) :
    Task.Blames failure (.contents (decoder.source.left + 1) container, decoder) := by
  rw [Task.contents_eq_within] at h
  exact Task.blames_of_contents hcause
    (fun scope _ _ hfailed => Task.blames_of_elements hcause _ scope [] hfailed) container h

/-- An operation fails for a value that it takes on its way. -/
theorem blames_of_perform (hcause : failure.cause.ofValue)
    (h : perform operation session = .error failure after) :
    ∃ start, Asks session operation start ∧ Task.Blames failure start := by
  have hnext : ∀ {decoder}, operation.takesNext →
      Decoder.next session.current session.decoder = .error failure decoder →
      ∃ start, Asks session operation start ∧ Task.Blames failure start :=
    fun htakes hfailed => ⟨_, .next htakes, Task.blames_of_next hfailed⟩
  cases operation with
  | pull =>
    rcases withNext_eq_error h with ⟨decoder, hfailed⟩ | ⟨item, middle, decoder, -, -, huse⟩
    · exact hnext rfl hfailed
    · cases item <;> cases huse
  | primitive =>
    rcases withNext_eq_error h with ⟨decoder, hfailed⟩ | ⟨item, middle, decoder, -, -, huse⟩
    · exact hnext rfl hfailed
    · cases item <;> cases huse
  | container =>
    rcases withNext_eq_error h with ⟨decoder, hfailed⟩ | ⟨item, middle, decoder, -, -, huse⟩
    · exact hnext rfl hfailed
    · cases item <;> cases huse
  | element =>
    rcases withNext_eq_error h with ⟨decoder, hfailed⟩ | ⟨item, middle, decoder, hfound, hmiddle, huse⟩
    · exact hnext rfl hfailed
    · obtain ⟨last, helement⟩ := answer_eq_error _ .element huse
      rw [hmiddle] at helement
      cases item with
      | uninterpreted named octets => cases helement
      | primitive value => cases helement
      | container container =>
        obtain ⟨inside, hcontents⟩ := Action.afterwards_eq_error helement
        exact ⟨_, .element hfound, (blames_of_contents hcause hcontents).of_calls .contents⟩
  | drain =>
    obtain ⟨decoder, hfailed⟩ := answer_eq_error _ .elements h
    exact ⟨_, .drain, Task.blames_of_elements hcause _ _ _ hfailed⟩
  | takeContent =>
    clear hnext
    rcases session with ⟨decoder, top, opened⟩
    match opened with
    | ⟨.tagged identifier, inner, isIndefinite⟩ :: below =>
      obtain ⟨last, hfailed⟩ := answer_eq_error (liftM Source.remainder) .content h
      exact (Task.not_fail_remainder hcause hfailed).elim
    | [] | ⟨.sequence, _, _⟩ :: _ | ⟨.set, _, _⟩ :: _ | ⟨.octetString, _, _⟩ :: _ => cases h
  | join =>
    clear hnext
    rcases session with ⟨decoder, top, opened⟩
    match opened with
    | ⟨.octetString, inner, isIndefinite⟩ :: below =>
      obtain ⟨last, hfailed⟩ := answer_eq_error (Decoder.joined inner) .joined h
      exact ⟨_, .join rfl rfl, Task.blames_of_segments hcause _ _ _ hfailed⟩
    | [] | ⟨.sequence, _, _⟩ :: _ | ⟨.set, _, _⟩ :: _ | ⟨.tagged _, _, _⟩ :: _ => cases h
  | finish =>
    rcases session with ⟨decoder, top, opened⟩
    cases opened with
    | nil => cases h
    | cons container below =>
      obtain ⟨last, hanswer⟩ := Action.afterwards_eq_error
        (show givingUp (decoding (Decoder.contents container) >>= fun element =>
          pure (Reply.element element)) ⟨decoder, top, container :: below⟩ =
            .error failure after from h)
      obtain ⟨inside, hcontents⟩ := answer_eq_error _ .element hanswer
      exact ⟨_, .finish rfl, blames_of_contents hcause hcontents⟩
  | inspect =>
    rcases session with ⟨decoder, top, opened⟩
    cases opened <;> cases h
  | setMaxDepth maxDepth =>
    rcases session with ⟨decoder, top, opened⟩
    cases opened <;> cases h
  | leave =>
    rcases session with ⟨decoder, top, opened⟩
    cases opened <;> cases h

end Session
end Ber
