import Ber.Proofs.Budget
import Ber.Proofs.Encoding

/-!
# Ber.Proofs.Draining — draining value by value

What was taken before does not decide what is taken next (`elementsFrom_taken`). So draining is told
by the first value and the rest (`elementsFrom_eq_ok_iff`), and joining is draining where every
element is a segment (`joinedFrom_eq_ok_iff_elements`).
-/

namespace Ber.Source

variable {s t : Source} {scope : Scope}

/-! ## What was taken before -/

/-- Behind a value, fewer octets are left than before it. -/
theorem left_of_element_eq_ok {item : Item} {element : Element} {m : Source}
    (hnext : next scope s = .ok (some item) m) (h : Source.element item m = .ok element t) :
    t.left < s.left :=
  Nat.lt_of_le_of_lt (element_sparing item _ _ _ h) (left_of_next_eq_ok hnext)

/-- Elements taken before come first and change nothing else. -/
theorem elementsFrom_taken (scope : Scope) (taken : List Element) (s : Source) :
    elementsFrom scope taken s = (do return taken.reverse ++ (← elementsFrom scope [])) s := by
  generalize hleft : s.left = left
  induction left using Nat.strongRecOn generalizing s taken with
  | ind left ih =>
    subst hleft
    -- both sides take the same first value, and then go on with fewer octets left
    have hstep : (do return taken.reverse ++ (← elementsFrom scope []) : Taking _) s =
        (do return taken.reverse ++ (← elementsStep elementsFrom joinedFrom scope []) :
          Taking _) s := by
      simp only [bind, EStateM.bind, elementsFrom_eq scope [] s]
    rw [hstep, elementsFrom_eq]
    simp only [elementsStep, bind_assoc]
    refine Action.bind_congr fun item m hnext => ?_
    cases item with
    | none => simp [pure, bind, EStateM.pure, EStateM.bind]
    | some item =>
      simp only [bind_assoc]
      refine Action.bind_congr fun element m' helement => ?_
      have hless := left_of_element_eq_ok hnext helement
      -- the element in front of an empty list, so that the induction applies twice
      have htwo : (do return taken.reverse ++ (← elementsFrom scope [element]) : Taking _) m' =
          (do return taken.reverse ++ (← (do return [element] ++ (← elementsFrom scope []))) :
            Taking _) m' := by
        simp only [bind, EStateM.bind, ih _ hless [element] m' rfl]
        rfl
      rw [ih _ hless _ m' rfl, htwo]
      simp

/-! ## When draining succeeds -/

/-- Draining takes a value as a whole and then the rest, or finds the end. -/
theorem elementsFrom_eq_ok_iff {elements : List Element} :
    elementsFrom scope [] s = .ok elements t ↔
      (elements = [] ∧ next scope s = .ok none t) ∨
      ∃ item m first m' rest, elements = first :: rest ∧ next scope s = .ok (some item) m ∧
        element item m = .ok first m' ∧ elementsFrom scope [] m' = .ok rest t := by
  rw [elementsFrom_eq, elementsStep, Action.bind_eq_ok]
  constructor
  · intro h
    rcases h with ⟨found, m, hnext, h⟩
    cases found with
    | none =>
      rcases Action.pure_eq_ok.1 h with ⟨rfl, rfl⟩
      exact .inl ⟨rfl, hnext⟩
    | some item =>
      rcases Action.bind_eq_ok.1 h with ⟨first, m', hfirst, h⟩
      rw [elementsFrom_taken] at h
      rcases Action.bind_eq_ok.1 h with ⟨rest, m'', hrest, h⟩
      rcases Action.pure_eq_ok.1 h with ⟨rfl, rfl⟩
      exact .inr ⟨item, m, first, m', rest, rfl, hnext, hfirst, hrest⟩
  · intro h
    rcases h with ⟨rfl, hnext⟩ | ⟨item, m, first, m', rest, rfl, hnext, hfirst, hrest⟩
    · exact ⟨none, t, hnext, rfl⟩
    · refine ⟨some item, m, hnext, Action.bind_eq_ok.2 ⟨first, m', hfirst, ?_⟩⟩
      rw [elementsFrom_taken]
      exact Action.bind_eq_ok.2 ⟨rest, t, hrest, rfl⟩

/-- Of all items, those that read as a segment are the octet strings. -/
theorem element_segment_iff {item : Item} {piece : Octets} {m : Source} :
    (∃ first, element item m = .ok first t ∧ first.segment? = some piece) ↔
      (item = .primitive (.octetString piece) ∧ m = t) ∨
      ∃ inner isIndefinite, item = .container ⟨.octetString, inner, isIndefinite⟩ ∧
        Action.afterwards leave (joinedFrom inner []) m = .ok piece t := by
  constructor
  · intro h
    rcases h with ⟨first, h, hsegment⟩
    match item with
    | .uninterpreted identifier content =>
      rcases Action.pure_eq_ok.1 h with ⟨rfl, rfl⟩
      cases hsegment
    | .primitive value =>
      rcases Action.pure_eq_ok.1 h with ⟨rfl, rfl⟩
      cases value <;> cases hsegment
      exact .inl ⟨rfl, rfl⟩
    | .container ⟨form, inner, isIndefinite⟩ =>
      rcases Action.afterwards_eq_ok.1 h with ⟨u, hcontents, rfl⟩
      cases form with
      | octetString =>
        rcases Action.bind_eq_ok.1 hcontents with ⟨octets, u', hjoined, h⟩
        rcases Action.pure_eq_ok.1 h with ⟨rfl, rfl⟩
        cases hsegment
        exact .inr ⟨inner, isIndefinite, rfl, Action.afterwards_eq_ok.2 ⟨u', hjoined, rfl⟩⟩
      | sequence =>
        rcases Action.bind_eq_ok.1 hcontents with ⟨es, u', -, h⟩
        rcases Action.pure_eq_ok.1 h with ⟨rfl, rfl⟩
        cases hsegment
      | set =>
        rcases Action.bind_eq_ok.1 hcontents with ⟨es, u', -, h⟩
        rcases Action.pure_eq_ok.1 h with ⟨rfl, rfl⟩
        cases hsegment
      | tagged identifier =>
        simp only [contents, contentsWith] at hcontents
        split at hcontents
        · rcases Action.bind_eq_ok.1 hcontents with ⟨es, u', -, h⟩
          rcases Action.pure_eq_ok.1 h with ⟨rfl, rfl⟩
          cases hsegment
        · rcases Action.bind_eq_ok.1 hcontents with ⟨es, u', -, h⟩
          rcases Action.pure_eq_ok.1 h with ⟨rfl, rfl⟩
          cases hsegment
  · intro h
    rcases h with ⟨rfl, rfl⟩ | ⟨inner, isIndefinite, rfl, h⟩
    · exact ⟨_, rfl, rfl⟩
    · rcases Action.afterwards_eq_ok.1 h with ⟨u, hjoined, rfl⟩
      exact ⟨.primitive (.octetString piece), Action.afterwards_eq_ok.2
        ⟨u, Action.bind_eq_ok.2 ⟨piece, u, hjoined, rfl⟩, rfl⟩, rfl⟩

/-- Joining takes a segment as a whole and then goes on, or finds the end. -/
theorem joinedFrom_eq_ok_iff {pieces : List Octets} {octets : Octets} :
    joinedFrom scope pieces s = .ok octets t ↔
      (octets = pieces.reverse.flatten ∧ next scope s = .ok none t) ∨
      ∃ item m first piece m', next scope s = .ok (some item) m ∧
        element item m = .ok first m' ∧ first.segment? = some piece ∧
        joinedFrom scope (piece :: pieces) m' = .ok octets t := by
  rw [joinedFrom_eq, joinedStep, Action.bind_eq_ok]
  constructor
  · intro h
    rcases h with ⟨found, m, hnext, h⟩
    match found with
    | none =>
      rcases Action.pure_eq_ok.1 h with ⟨rfl, rfl⟩
      exact .inl ⟨rfl, hnext⟩
    | some (.primitive value) =>
      cases value <;> try cases h
      rename_i piece
      rcases element_segment_iff.2 (.inl ⟨rfl, rfl⟩) with ⟨first, hfirst, hsegment⟩
      exact .inr ⟨_, m, first, piece, m, hnext, hfirst, hsegment, h⟩
    | some (.container ⟨form, inner, isIndefinite⟩) =>
      cases form <;> try cases h
      rcases Action.bind_eq_ok.1 h with ⟨piece, m', hpiece, h⟩
      obtain ⟨first, hfirst, hsegment⟩ :=
        element_segment_iff.2 (.inr ⟨inner, isIndefinite, rfl, hpiece⟩)
      exact .inr ⟨_, m, first, piece, m', hnext, hfirst, hsegment, h⟩
    | some (.uninterpreted identifier content) => cases h
  · intro h
    rcases h with ⟨rfl, hnext⟩ | ⟨item, m, first, piece, m', hnext, hfirst, hsegment, h⟩
    · exact ⟨none, t, hnext, rfl⟩
    · refine ⟨some item, m, hnext, ?_⟩
      -- what reads as a segment was written as one, in one piece or in segments itself
      rcases element_segment_iff.1 ⟨first, hfirst, hsegment⟩ with ⟨rfl, rfl⟩ |
        ⟨inner, isIndefinite, rfl, hpiece⟩
      · exact h
      · exact Action.bind_eq_ok.2 ⟨piece, m', hpiece, h⟩

/-- Joining is draining where all elements are segments. -/
theorem joinedFrom_eq_ok_iff_elements {pieces : List Octets} {octets : Octets} :
    joinedFrom scope pieces s = .ok octets t ↔
      ∃ elements, elementsFrom scope [] s = .ok elements t ∧ Form.octetString.Holds elements ∧
        octets = pieces.reverse.flatten ++ (elements.filterMap Element.segment?).flatten := by
  generalize hleft : s.left = left
  induction left using Nat.strongRecOn generalizing s pieces with
  | ind left ih =>
    subst hleft
    rw [joinedFrom_eq_ok_iff]
    constructor
    · intro h
      rcases h with ⟨rfl, hnext⟩ | ⟨item, m, first, piece, m', hnext, hfirst, hsegment, h⟩
      · exact ⟨[], elementsFrom_eq_ok_iff.2 (.inl ⟨rfl, hnext⟩), by simp [Form.Holds], by simp⟩
      · rcases (ih _ (left_of_element_eq_ok hnext hfirst) rfl).1 h with ⟨rest, hrest, hholds, rfl⟩
        refine ⟨first :: rest, elementsFrom_eq_ok_iff.2
          (.inr ⟨item, m, first, m', rest, rfl, hnext, hfirst, hrest⟩), ?_, ?_⟩
        · simpa [Form.Holds, hsegment] using hholds
        · simp [hsegment]
    · intro h
      rcases h with ⟨elements, helements, hholds, rfl⟩
      rcases elementsFrom_eq_ok_iff.1 helements with ⟨rfl, hnext⟩ |
        ⟨item, m, first, m', rest, rfl, hnext, hfirst, hrest⟩
      · exact .inl ⟨by simp, hnext⟩
      · rcases List.forall_mem_cons.1 hholds with ⟨hsome, hholds⟩
        rcases Option.isSome_iff_exists.1 hsome with ⟨piece, hsegment⟩
        refine .inr ⟨item, m, first, piece, m', hnext, hfirst, hsegment, ?_⟩
        refine (ih _ (left_of_element_eq_ok hnext hfirst) rfl).2 ⟨rest, hrest, hholds, ?_⟩
        simp [hsegment]

/-- A container is read by draining it, unless its content is taken as it is. -/
theorem contents_eq_ok_iff {container : Container} {element : Element} :
    contents container s = .ok element t ↔
      (∃ identifier c, container.form = .tagged identifier ∧ ¬ identifier.isConstructed ∧
        remainder s = .ok c t ∧ element = .taggedContent identifier c) ∨
      ((∀ identifier, container.form = .tagged identifier → identifier.isConstructed) ∧
        ∃ elements, elementsFrom container.scope [] s = .ok elements t ∧
          container.form.Holds elements ∧ element = container.form.element elements) := by
  rcases container with ⟨form, inner, isIndefinite⟩
  cases form with
  | octetString =>
    simp only [contents, contentsWith, Action.bind_eq_ok, Action.pure_eq_ok,
      joinedFrom_eq_ok_iff_elements]
    constructor
    · intro h
      rcases h with ⟨octets, m, ⟨elements, helements, hholds, rfl⟩, rfl, rfl⟩
      exact .inr ⟨by simp, elements, helements, hholds, rfl⟩
    · intro h
      rcases h with ⟨identifier, c, hform, -⟩ | ⟨-, elements, helements, hholds, rfl⟩
      · cases hform
      · exact ⟨_, t, ⟨elements, helements, hholds, rfl⟩, rfl, rfl⟩
  | tagged identifier =>
    by_cases hconstructed : identifier.isConstructed
    · simp only [contents, contentsWith, hconstructed, if_true, Action.bind_eq_ok,
        Action.pure_eq_ok]
      constructor
      · intro h
        rcases h with ⟨elements, m, helements, rfl, rfl⟩
        exact .inr ⟨by simp [hconstructed], elements, helements, trivial, rfl⟩
      · intro h
        rcases h with ⟨named, c, hform, hnot, -⟩ | ⟨-, elements, helements, -, rfl⟩
        · cases hform
          exact absurd hconstructed hnot
        · exact ⟨elements, t, helements, rfl, rfl⟩
    · simp only [contents, contentsWith, hconstructed, Bool.false_eq_true, if_false,
        Action.bind_eq_ok, Action.pure_eq_ok]
      constructor
      · intro h
        rcases h with ⟨c, m, hc, rfl, rfl⟩
        exact .inl ⟨identifier, c, rfl, hconstructed, hc, rfl⟩
      · intro h
        rcases h with ⟨named, c, hform, -, hc, rfl⟩ | ⟨hall, -⟩
        · cases hform
          exact ⟨c, t, hc, rfl, rfl⟩
        · exact absurd (hall identifier rfl) hconstructed
  | _ =>
    simp only [contents, contentsWith, Action.bind_eq_ok, Action.pure_eq_ok]
    constructor
    · intro h
      rcases h with ⟨elements, m, helements, rfl, rfl⟩
      exact .inr ⟨by simp, elements, helements, trivial, rfl⟩
    · intro h
      rcases h with ⟨identifier, c, hform, -⟩ | ⟨-, elements, helements, -, rfl⟩
      · cases hform
      · exact ⟨elements, t, helements, rfl, rfl⟩

/-! ## The first value -/

/-- Takes the next value as a whole, if there is one. -/
def nextElement (scope : Scope) : Taking (Option Element) := do
  match ← next scope with
  | none => return none
  | some item => return some (← element item)

/-- Draining takes the first value as a whole and drains the rest. -/
theorem elementsFrom_nextElement (scope : Scope) (s : Source) :
    elementsFrom scope [] s =
      match nextElement scope s with
      | .ok none t => .ok [] t
      | .ok (some first) t =>
        match elementsFrom scope [] t with
        | .ok rest u => .ok (first :: rest) u
        | .error failure u => .error failure u
      | .error failure t => .error failure t := by
  have h : elementsFrom scope [] s =
      (do
        match ← nextElement scope with
        | none => return []
        | some first => return first :: (← elementsFrom scope []) : Taking (List Element)) s := by
    rw [elementsFrom_eq]
    simp only [elementsStep, nextElement, bind_assoc]
    refine Action.bind_congr fun item m hnext => ?_
    cases item with
    | none => rfl
    | some item =>
      simp only [bind_assoc]
      refine Action.bind_congr fun first m' hfirst => ?_
      rw [elementsFrom_taken]
      rfl
  rw [h]
  simp only [bind, EStateM.bind]
  rcases nextElement scope s with ⟨_ | first, t⟩ | ⟨failure, t⟩
  · rfl
  · simp only [EStateM.bind]
    cases elementsFrom scope [] t <;> rfl
  · rfl

end Ber.Source
