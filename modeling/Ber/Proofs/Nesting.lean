import Ber.Proofs.Blame
import Ber.Proofs.Opening
import Ber.Proofs.Surroundings

/-!
# Ber.Proofs.Nesting — how deep containers are nested

A container is as deep as there are containers around it, itself included, and no deeper than
allowed. A value that would become a container where none may be opened is refused right behind its
header, and no other value is ever refused for its depth.

`Session.nested_of_visits` says so of every session that operations lead to, failing ones included, and
of every moment on the way of its next operation.
-/

namespace Ber

open Source

namespace Session

/-- Containers are nested as deep as they say, and as deep as allowed at most. -/
structure Nested (session : Session) : Prop where
  /-- An open container is as deep as there are containers open up to it, and all have the greatest
  depth that is set outside of them. -/
  opened : ∀ container below, container :: below <:+ session.opened →
    container.scope.depth = below.length + 1 ∧
      container.scope.maxDepth = session.top.maxDepth ∧
      container.scope.depth ≤ container.scope.maxDepth
  /-- A container that an operation hands out is one deeper than those that are open. -/
  handed : ∀ operation container after,
    perform operation session = .ok (.item (.container container)) after →
    container.scope.depth = session.opened.length + 1 ∧
      container.scope.maxDepth = session.top.maxDepth ∧
      container.scope.depth ≤ container.scope.maxDepth
  /-- So it is of a container that is found on the way of an operation, as a value in others. -/
  found : ∀ operation opened scope decoder,
    session.Around operation opened (.next scope, decoder) →
    scope.depth = opened.length ∧ scope.maxDepth = session.top.maxDepth ∧
      ∀ container after, Decoder.next scope decoder = .ok (some (.container container)) after →
        container.scope.depth = opened.length + 1 ∧
          container.scope.maxDepth = scope.maxDepth ∧
          container.scope.depth ≤ container.scope.maxDepth
  /-- Where the greatest depth is reached, a value that would become a container is refused right
  behind its header. -/
  refused : ∀ operation opened scope decoder identifier length behind,
    session.Around operation opened (.next scope, decoder) →
    Accepts scope identifier length decoder.source behind → identifier.OpensContainer length →
    scope.depth = scope.maxDepth →
    ∃ after, Decoder.next scope decoder = .error ⟨.nestingTooDeep, behind.position⟩ after ∧
      after.source = behind
  /-- No other value is refused for its depth. -/
  only : ∀ operation opened scope decoder failure after,
    session.Around operation opened (.next scope, decoder) →
    Decoder.next scope decoder = .error failure after → failure.cause = .nestingTooDeep →
    ∃ identifier length, Accepts scope identifier length decoder.source after.source ∧
      identifier.OpensContainer length ∧ scope.depth = scope.maxDepth ∧
      failure.position = after.source.position
  /-- An operation fails for the depth only because such a value was refused on its way. -/
  fails : ∀ operation failure after,
    perform operation session = .error failure after → failure.cause = .nestingTooDeep →
    ∃ opened scope decoder, session.Around operation opened (.next scope, decoder) ∧
      ∃ refused, Decoder.next scope decoder = .error failure refused
  /-- On its way, an operation is never inside more containers than may be nested. -/
  bounded : ∀ operation opened moment, session.Around operation opened moment →
    opened.length ≤ session.top.maxDepth
  /-- Whatever an operation does on its way, it does inside containers that are kept account of. -/
  throughout : ∀ operation moment, session.Includes operation moment →
    ∃ entered, session.Around operation (entered ++ session.opened) moment

variable {session : Session}

/-- No more containers are linked than may be nested. -/
theorem Rooted.length_le {limit : Nat} {opened : List Container} (h : session.Rooted limit)
    (hchain : session.top.Chain opened) : opened.length ≤ session.top.maxDepth := by
  cases opened with
  | nil => exact Nat.zero_le _
  | cons container below =>
    have hle := hchain.length_le (List.cons_ne_nil container below)
    rw [h.depth] at hle
    omega

/-- The depth of the scope inside linked containers is their number. -/
theorem Rooted.depth_innermost {limit : Nat} {opened : List Container} (h : session.Rooted limit)
    (hchain : session.top.Chain opened) :
    (session.top.innermost opened).depth = opened.length := by
  have hdepth := hchain.depth
  rw [h.depth] at hdepth
  omega

/-- It is never greater than allowed. -/
theorem Rooted.depth_innermost_le {limit : Nat} {opened : List Container} (h : session.Rooted limit)
    (hchain : session.top.Chain opened) :
    (session.top.innermost opened).depth ≤ (session.top.innermost opened).maxDepth := by
  rw [h.depth_innermost hchain, hchain.maxDepth]
  exact h.length_le hchain

/-- Whatever operations have been carried out on a new session, failing ones included, from wherever
its source stood. -/
theorem nested_of_visits {decoder : Decoder} {limit maxDepth : Nat}
    (h : Visits ⟨decoder, Scope.top limit maxDepth, []⟩ session) : session.Nested := by
  have hrooted : session.Rooted limit := rooted_of_visits h
  -- where a value is taken, the scope is that of the innermost container
  have hscope : ∀ {operation opened scope decoder},
      session.Around operation opened (.next scope, decoder) →
      scope.depth = opened.length ∧ scope.maxDepth = session.top.maxDepth ∧
        scope.depth ≤ scope.maxDepth := by
    intro operation opened scope decoder haround
    have hstands := stands_of_around hrooted haround
    have hinnermost : scope = session.top.innermost opened := hstands.acts
    have hdepth := hrooted.depth_innermost hstands.chain
    have hmax := hstands.chain.maxDepth
    have hle := hrooted.length_le hstands.chain
    rw [hinnermost, hdepth, hmax]
    exact ⟨rfl, rfl, hle⟩
  constructor
  case opened =>
    intro container below hsuffix
    have hchain := hrooted.chain.of_suffix hsuffix
    have hdepth : container.scope.depth = _ := hrooted.depth_innermost hchain
    have hmax : container.scope.maxDepth = _ := hchain.maxDepth
    have hle := hrooted.length_le hchain
    rw [hdepth, hmax]
    exact ⟨rfl, rfl, hle⟩
  case handed =>
    intro operation container after hhanded
    have hnext := (perform_moves hhanded).1.next_of_container rfl
    have hfound := foundIn_of_next hnext
    have hallowed := hfound.allowed
    rw [hfound.depth, hfound.maxDepth]
    rw [current_eq, hrooted.depth_innermost hrooted.chain] at hallowed ⊢
    rw [hrooted.chain.maxDepth] at hallowed ⊢
    exact ⟨rfl, rfl, hallowed⟩
  case found =>
    intro operation opened scope decoder haround
    obtain ⟨hdepth, hmax, -⟩ := hscope haround
    refine ⟨hdepth, hmax, ?_⟩
    intro container after hnext
    have hfound := foundIn_of_next ((Decoder.silent_next scope).of_ok hnext)
    have hallowed := hfound.allowed
    rw [hfound.depth, hfound.maxDepth, hdepth]
    rw [hdepth] at hallowed
    exact ⟨rfl, rfl, hallowed⟩
  case refused =>
    intro operation opened scope decoder identifier length behind haround haccepts hopens hdeep
    have hnext := (next_tooDeep_iff rfl).2
      ⟨identifier, length, haccepts, hopens, Nat.le_of_eq hdeep.symm, rfl⟩
    obtain ⟨journal, hfailed⟩ := (Decoder.silent_next scope).eq_error_iff.1 hnext
    exact ⟨_, hfailed, rfl⟩
  case only =>
    intro operation opened scope decoder failure after haround hfailed hcause
    have hnext := (Decoder.silent_next scope).eq_error_iff.2 ⟨after.journal, hfailed⟩
    obtain ⟨identifier, length, haccepts, hopens, hdeep, rfl⟩ := (next_tooDeep_iff hcause).1 hnext
    have hle := (hscope haround).2.2
    exact ⟨identifier, length, haccepts, hopens, Nat.le_antisymm hle hdeep, rfl⟩
  case fails =>
    intro operation failure after hfailed hcause
    have hvalue : failure.cause.ofValue := by
      rw [hcause]
      exact ⟨by decide, by decide, by decide⟩
    obtain ⟨start, hasks, scope, decoder, refused, hincludes, hnext⟩ :=
      blames_of_perform hvalue hfailed
    obtain ⟨entered, haround⟩ := around_of_includes ⟨start, hasks, hincludes⟩
    exact ⟨_, scope, decoder, haround, refused, hnext⟩
  case bounded =>
    intro operation opened moment haround
    exact hrooted.length_le (stands_of_around hrooted haround).chain
  case throughout =>
    intro operation moment hincludes
    exact around_of_includes hincludes

/-- A sequence in a sequence, where one container may be opened: the inner one is refused. -/
theorem nested_of_visits_refused :
    ∃ session, Visits ⟨⟨⟨[], .ofData [0x30, 0x02, 0x30, 0x00]⟩, []⟩, Scope.top 5 1, []⟩ session ∧
      session.Nested ∧ session.opened.map (·.scope.depth) = [1] ∧
      ∃ after, perform .pull session = .error ⟨.nestingTooDeep, 4⟩ after := by
  have hfirst := @Visits.first
    ⟨⟨⟨[], .ofData [0x30, 0x02, 0x30, 0x00]⟩, []⟩, Scope.top 5 1, []⟩
  exact ⟨_, hfirst.step .pull, nested_of_visits (hfirst.step .pull), rfl, _, rfl⟩

end Session
end Ber
