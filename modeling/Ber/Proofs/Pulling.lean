import Ber.Proofs.Rebuilding
import Ber.Proofs.Steps

/-!
# Ber.Proofs.Pulling — taking values one by one before draining

Values may be taken one by one before the rest is drained. That gives the elements, the failure and
the source that draining from the start gives (`Session.run_elements_drain`).

A region that has ended stays at its end (`next_of_next_eq_none`), so asking for more values than
there are does no harm.
-/

namespace Ber

/-! ## The end of a region -/

/-- A region reports its end in two states only, and in both it stays there. -/
theorem Region.take_eq_none {σ : Type} {supply : Supply σ} {region after : Region} {m n : σ}
    (h : Region.take supply (region, m) = .ok none (after, n)) :
    after = .definite 0 ∨ ∃ state, after = .marked state ∧ state.closed := by
  match region with
  | .definite 0 =>
    cases h
    exact .inl rfl
  | .definite (remaining + 1) =>
    simp only [Region.take] at h
    split at h <;> cases h
  | .marked state =>
    simp only [Region.take] at h
    split at h
    · rename_i hclosed
      cases h
      exact .inr ⟨state, rfl, hclosed⟩
    split at h
    · cases h
    split at h
    · -- a zero octet: only a second one ends the region
      split at h
      · cases h
      split at h
      · cases h
        exact .inr ⟨_, rfl, rfl⟩
      · cases h
    · cases h

namespace Source

variable {s t : Source} {scope : Scope}

/-- A region that has handed out its last octet has none whether or not it looks for its marker. -/
theorem octet?_of_octet?_eq_none (h : octet? s = .ok none t) (enabled : Bool) :
    octet? (t.watch enabled) = .ok none (t.watch enabled) := by
  rcases s with ⟨regions, reader⟩
  match regions with
  | [] =>
    rw [octet?_nil] at h
    cases hrun : reader.next with
    | error failure after =>
      rw [hrun] at h
      cases h
    | ok found after =>
      rw [hrun] at h
      cases h
      rcases Reader.nextFrom_eq_none hrun with ⟨-, rfl⟩
      rfl
  | region :: below =>
    rw [show (⟨region :: below, reader⟩ : Source) = enter region ⟨below, reader⟩ from rfl,
      octet?_enter] at h
    cases hrun : Region.take ⟨octet?, position⟩ (region, ⟨below, reader⟩) with
    | error failure after =>
      rw [hrun] at h
      cases h
    | ok found after =>
      rcases after with ⟨after, n⟩
      rw [hrun] at h
      cases h
      have hwatch : (n.enter after).watch enabled = n.enter (after.watch enabled) := rfl
      rw [hwatch, octet?_enter]
      rcases Region.take_eq_none hrun with rfl | ⟨state, rfl, hclosed⟩
      · rfl
      · simp [Region.watch, Region.take, hclosed]

/-- A region that has ended stays at its end. -/
theorem next_of_next_eq_none (h : next scope s = .ok none t) : next scope t = .ok none t := by
  rcases firstOctet?_eq_ok.1 (next_eq_none_iff.1 h) with ⟨m, hm, rfl⟩
  have hended := octet?_of_octet?_eq_none hm true
  refine next_eq_none_iff.2 (firstOctet?_eq_ok.2 ⟨m.watch true, ?_, watch_watch ..⟩)
  rwa [watch_watch]

/-- Draining a region that has ended gives nothing. -/
theorem elementsFrom_of_nextElement_eq_none (h : nextElement scope s = .ok none t) :
    elementsFrom scope [] t = .ok [] t := by
  rcases Action.bind_eq_ok.1 h with ⟨item, m, hnext, h⟩
  cases item with
  | none =>
    rcases Action.pure_eq_ok.1 h with ⟨-, rfl⟩
    exact elementsFrom_eq_ok_iff.2 (.inl ⟨rfl, next_of_next_eq_none hnext⟩)
  | some item =>
    rcases Action.bind_eq_ok.1 h with ⟨first, m', -, h⟩
    cases (Action.pure_eq_ok.1 h).1

end Source

/-! ## Sessions -/

namespace Session

/-- Taking so many values as a whole and draining the rest ends as draining from the start does: the
replies share out its elements, and a failure and the source are the same. -/
theorem run_elements_drain (count : Nat) (session : Session) :
    match Source.elementsFrom session.current [] session.decoder.source with
    | .ok elements source => ∃ after, session.At source after ∧
      run (List.replicate count .element ++ [.drain]) session =
        ⟨(elements.take count).map .element ++
          List.replicate (count - elements.length) .exhausted ++
          [.elements (elements.drop count)], none, after⟩
    | .error failure source => ∃ replies after, session.At source after ∧
      run (List.replicate count .element ++ [.drain]) session = ⟨replies, some failure, after⟩ := by
  induction count generalizing session with
  | zero =>
    have h := perform_drain session
    cases hrun : Source.elementsFrom session.current [] session.decoder.source with
    | ok elements source =>
      rw [hrun] at h
      rcases h with ⟨after, hafter, hperform⟩
      exact ⟨after, hafter, by simp [run, hperform]⟩
    | error failure source =>
      rw [hrun] at h
      rcases h with ⟨after, hafter, hperform⟩
      exact ⟨[], after, hafter, by simp [run, hperform]⟩
  | succ count ih =>
    have h := perform_element session
    rw [Source.elementsFrom_nextElement]
    simp only [List.replicate_succ, List.cons_append, run]
    cases hnext : Source.nextElement session.current session.decoder.source with
    | error failure source =>
      rw [hnext] at h
      rcases h with ⟨after, hafter, hperform⟩
      exact ⟨[], after, hafter, by simp [hperform]⟩
    | ok first source =>
      rw [hnext] at h
      cases first with
      | none =>
        -- at the end: asking again finds the end again
        rcases h with ⟨after, hafter, hperform⟩
        have ih := ih after
        rw [hafter.current, hafter.source, Source.elementsFrom_of_nextElement_eq_none hnext] at ih
        rcases ih with ⟨last, hlast, hrun⟩
        exact ⟨last, hafter.trans hlast, by simp [hperform, hrun, List.replicate_succ]⟩
      | some first =>
        rcases h with ⟨after, hafter, hperform⟩
        have ih := ih after
        rw [hafter.current, hafter.source] at ih
        dsimp only
        cases hrest : Source.elementsFrom session.current [] source with
        | ok rest source' =>
          rw [hrest] at ih
          rcases ih with ⟨last, hlast, hrun⟩
          exact ⟨last, hafter.trans hlast, by simp [hperform, hrun]⟩
        | error failure source' =>
          rw [hrest] at ih
          rcases ih with ⟨replies, last, hlast, hrun⟩
          exact ⟨.element first :: replies, last, hafter.trans hlast, by simp [hperform, hrun]⟩

/-- Reading lazily and draining agree on every source, whatever it holds and wherever it fails. A
walk that joins octet strings and takes the content of tagged values tells the drained elements, and
so does taking any number of values one by one before draining the rest. All of them end with the
same failure, if any, and leave the source in the same state. -/
theorem lazy_eq_eager (session : Session) (count : Nat) :
    let walk := session.decoder.walk Walker.eager session.current
    let outcome := run (List.replicate count .element ++ [.drain]) session
    match Decoder.drain session.current session.decoder with
    | .ok elements drained =>
      walk.failure? = none ∧ rebuild walk.events = some elements ∧
        walk.decoder.source = drained.source ∧
        outcome.failure? = none ∧
        outcome.replies = (elements.take count).map .element ++
          List.replicate (count - elements.length) .exhausted ++
          [.elements (elements.drop count)] ∧
        outcome.session.decoder.source = drained.source
    | .error failure drained =>
      walk.failure? = some failure ∧ walk.decoder.source = drained.source ∧
        outcome.failure? = some failure ∧ outcome.session.decoder.source = drained.source := by
  intro walk outcome
  have hwalk := session.decoder.walk_eager session.current
  have houtcome := run_elements_drain count session
  rw [← Decoder.silent_drain session.current session.decoder.source session.decoder.journal]
    at hwalk houtcome
  cases hdrain : Decoder.drain session.current session.decoder with
  | ok elements drained =>
    rw [hdrain] at hwalk houtcome
    rcases hwalk with ⟨hfailure, hevents, hsource⟩
    rcases houtcome with ⟨after, hafter, hrun⟩
    refine ⟨hfailure, hevents, hsource, ?_⟩
    rw [show outcome = _ from hrun]
    exact ⟨rfl, rfl, hafter.source⟩
  | error failure drained =>
    rw [hdrain] at hwalk houtcome
    rcases hwalk with ⟨hfailure, hsource⟩
    rcases houtcome with ⟨replies, after, hafter, hrun⟩
    refine ⟨hfailure, hsource, ?_⟩
    rw [show outcome = _ from hrun]
    exact ⟨rfl, hafter.source⟩

/-- A sequence of indefinite length that holds an octet string in segments, with NULL behind it. The
sequence is taken as one value, and the rest is drained. -/
theorem lazy_eq_eager_segments :
    ∃ session : Session, session = ⟨⟨.ofData
        [0x30, 0x80, 0x24, 0x80, 0x04, 0x01, 0x0a, 0x00, 0x00, 0x00, 0x00, 0x05, 0x00], []⟩,
        Scope.top 13 2, []⟩ ∧
      (session.decoder.walk Walker.eager session.current).failure? = none ∧
      rebuild (session.decoder.walk Walker.eager session.current).events =
        some [.sequence [.primitive (.octetString [0x0a])], .primitive .null] ∧
      (session.decoder.walk Walker.eager session.current).decoder.source = ⟨[], ⟨[], 13⟩⟩ ∧
      (run [.element, .drain] session).failure? = none ∧
      (run [.element, .drain] session).replies =
        [.element (.sequence [.primitive (.octetString [0x0a])]), .elements [.primitive .null]] ∧
      (run [.element, .drain] session).session.decoder.source = ⟨[], ⟨[], 13⟩⟩ := by
  obtain ⟨session, hsession⟩ : ∃ session : Session, session = ⟨⟨.ofData
      [0x30, 0x80, 0x24, 0x80, 0x04, 0x01, 0x0a, 0x00, 0x00, 0x00, 0x00, 0x05, 0x00], []⟩,
      Scope.top 13 2, []⟩ := ⟨_, rfl⟩
  have hdrain : Decoder.drain session.current session.decoder =
      .ok [.sequence [.primitive (.octetString [0x0a])], .primitive .null]
        ⟨⟨[], ⟨[], 13⟩⟩, [.drained 2 13, .endOfContent 13, .header ⟨0x05, [], 5⟩ (.definite 0) 13,
          .drained 1 11, .endOfContent 11, .endOfContent 9, .header ⟨0x04, [], 4⟩ (.definite 1) 6,
          .header ⟨0x24, [], 4⟩ .indefinite 4, .header ⟨0x30, [], 16⟩ .indefinite 2]⟩ := by
    rw [hsession]
    decide +kernel
  have hagree := lazy_eq_eager session 1
  rw [hdrain] at hagree
  exact ⟨session, hsession, hagree⟩

end Session
end Ber
