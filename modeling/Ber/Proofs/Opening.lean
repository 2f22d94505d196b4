import Ber.Proofs.Aftermath
import Ber.Proofs.Causes

/-!
# Ber.Proofs.Opening — which values become containers

Once the identifier and the length of a value are accepted, they alone decide whether it becomes a
container (`Identifier.OpensContainer`). Then it is entered, unless it would be too deep.

1. `Source.Accepts` says that the header of the next value is accepted. Behind it, the content decides
   (`Source.Accepts.next_eq`).
2. `Source.next_container_iff` says when the next value is a container, and which one.
3. `Source.next_tooDeep_iff` says when it is refused because it would be too deep.
-/

namespace Ber

/-! ## Values that become containers -/

/-- A value becomes a container if it is of context class, a sequence, a set, an octet string in
segments, or of private class with an indefinite length. -/
def Identifier.OpensContainer (identifier : Identifier) (length : Length) : Prop :=
  identifier.tagClass = .context ∨ identifier.tag = .universal .sequence ∨
    identifier.tag = .universal .set ∨
    identifier.tag = .universal .octetString ∧ (identifier.isConstructed ∨ length = .indefinite) ∨
    identifier.tagClass = .privateUse ∧ length = .indefinite

namespace Content

variable {identifier : Identifier} {length : Length} {form : Form} {region : Region}

/-- What is entered is the region of the length. -/
theorem region_of_entered (h : of identifier length = .entered form region) :
    region = length.region := by
  have hallowed := allowed_of identifier length
  rw [h] at hallowed
  cases region with
  | definite octets => rw [hallowed.1, Length.region]
  | marked state => rw [hallowed.1, hallowed.2.1, Length.region]

/-- Content is entered exactly if the value becomes a container. -/
theorem exists_entered_iff : (∃ form, of identifier length = .entered form length.region) ↔
    identifier.OpensContainer length := by
  have hof : ∀ {form}, Allowed identifier length (.entered form length.region) →
      ∃ form, of identifier length = .entered form length.region :=
    fun h => ⟨_, of_eq_of_allowed h fun h => nomatch h⟩
  have hallowed : ∀ form, Allowed identifier length (.entered form length.region) ↔
      form.NamedBy identifier length.region.isMarked := by
    intro form
    cases length with
    | definite octets => exact ⟨fun h => h.2, fun h => ⟨rfl, h⟩⟩
    | indefinite => exact ⟨fun h => h.2.2, fun h => ⟨rfl, rfl, h⟩⟩
  have hmarked : length.region.isMarked ↔ length = .indefinite := by
    cases length <;> simp [Length.region, Region.isMarked]
  constructor
  · rintro ⟨form, h⟩
    have hnamed := allowed_of identifier length
    rw [h, hallowed] at hnamed
    cases form with
    | sequence => exact .inr (.inl hnamed)
    | set => exact .inr (.inr (.inl hnamed))
    | octetString =>
      exact .inr (.inr (.inr (.inl ⟨hnamed.1, hnamed.2.symm.imp_right hmarked.1⟩)))
    | tagged named =>
      obtain ⟨-, hclass | ⟨hindefinite, hclass⟩⟩ := hnamed
      · exact .inl hclass
      · exact .inr (.inr (.inr (.inr ⟨hclass, hmarked.1 hindefinite⟩)))
  · rintro (hclass | htag | htag | ⟨htag, hsegments⟩ | ⟨hclass, hindefinite⟩)
    · exact hof ((hallowed (.tagged identifier)).2 ⟨rfl, .inl hclass⟩)
    · exact hof ((hallowed .sequence).2 htag)
    · exact hof ((hallowed .set).2 htag)
    · exact hof ((hallowed .octetString).2 ⟨htag, hsegments.symm.imp_left hmarked.2⟩)
    · exact hof ((hallowed (.tagged identifier)).2 ⟨rfl, .inr ⟨hmarked.2 hindefinite, hclass⟩⟩)

end Content

/-! ## Accepted headers -/

/-- A definite length that is accepted is below the limit. -/
theorem Length.lt_of_take {limit octets : Nat} {s t : Source}
    (h : take limit s = .ok (.definite octets) t) : octets < limit := by
  have hbelow : ∀ {count : Nat} {m : Source}, below limit count m = .ok (.definite octets) t →
      octets < limit := by
    intro count m h
    obtain ⟨hsame, hlt, -⟩ := below_eq_ok_iff.1 h
    cases hsame
    exact hlt
  obtain ⟨first, m, -, hrest⟩ := Action.bind_eq_ok.1 h
  split at hrest
  · exact hbelow hrest
  split at hrest
  · cases hrest
  rw [long_eq] at hrest
  split at hrest
  · cases hrest
  obtain ⟨written, m', -, hchecked⟩ := Action.bind_eq_ok.1 hrest
  split at hchecked
  · exact hbelow hchecked
  · cases hchecked

namespace Source

variable {scope : Scope} {identifier : Identifier} {length : Length} {s t behind : Source}

/-- The header of the next value is accepted, and this is behind it. -/
def Accepts (scope : Scope) (identifier : Identifier) (length : Length) (before behind : Source) :
    Prop :=
  ∃ first middle middle', firstOctet? before = .ok (some first) middle ∧
    Identifier.after first middle = .ok identifier middle' ∧
    Length.take (scope.lower before.available).limit middle' = .ok length behind

/-- Behind an accepted header, the content decides. -/
theorem Accepts.next_eq (h : Accepts scope identifier length s behind) :
    next scope s =
      match item (scope.lower s.available) identifier (.of identifier length) behind with
      | .ok found t => .ok (some found) t
      | .error failure t => .error failure t := by
  obtain ⟨first, m, m', hfirst, hafter, hlength⟩ := h
  have hbehind : behindFirst (scope.lower s.available) first m =
      item (scope.lower s.available) identifier (.of identifier length) behind := by
    simp only [behindFirst, Bind.bind, EStateM.bind, hafter, hlength]
  cases hitem : item (scope.lower s.available) identifier (.of identifier length) behind with
  | ok found t =>
    rw [hitem] at hbehind
    simp only [Source.next_eq, hfirst, hbehind]
  | error failure t =>
    rw [hitem] at hbehind
    simp only [Source.next_eq, hfirst, hbehind]

theorem Accepts.definite_lt {octets : Nat}
    (h : Accepts scope identifier (.definite octets) s behind) :
    octets < (scope.lower s.available).limit := by
  obtain ⟨first, m, m', -, -, hlength⟩ := h
  exact Length.lt_of_take hlength

/-- A value is found behind an accepted header. -/
theorem next_some {found : Item} (h : next scope s = .ok (some found) t) :
    ∃ identifier length behind, Accepts scope identifier length s behind ∧
      item (scope.lower s.available) identifier (.of identifier length) behind = .ok found t := by
  obtain ⟨first?, m, hfirst, hrest⟩ := Action.bind_eq_ok.1 h
  cases first? with
  | none => cases (Action.pure_eq_ok.1 hrest).1
  | some first =>
    obtain ⟨identifier, m', hafter, hrest⟩ := Action.bind_eq_ok.1 hrest
    obtain ⟨length, behind, hlength, hrest⟩ := Action.bind_eq_ok.1 hrest
    obtain ⟨item', t', hitem, hpure⟩ := Action.bind_eq_ok.1 hrest
    obtain ⟨heq, rfl⟩ := Action.pure_eq_ok.1 hpure
    cases heq
    exact ⟨identifier, length, behind, ⟨first, m, m', hfirst, hafter, hlength⟩, hitem⟩

/-- The header of the next value is refused, or its octets cannot be taken. -/
def RefusesHeader (scope : Scope) (failure : Failure) (before after : Source) : Prop :=
  firstOctet? before = .error failure after ∨
    ∃ first middle, firstOctet? before = .ok (some first) middle ∧
      (Identifier.after first middle = .error failure after ∨
        ∃ identifier middle', Identifier.after first middle = .ok identifier middle' ∧
          Length.take (scope.lower before.available).limit middle' = .error failure after)

/-- Taking a value fails in the header, or else behind it. -/
theorem next_error {failure : Failure} (h : next scope s = .error failure t) :
    RefusesHeader scope failure s t ∨
      ∃ identifier length behind, Accepts scope identifier length s behind ∧
        item (scope.lower s.available) identifier (.of identifier length) behind =
          .error failure t := by
  rcases Action.bind_eq_error.1 h with hfailed | ⟨first?, m, hfirst, hrest⟩
  · exact .inl (.inl hfailed)
  cases first? with
  | none => cases hrest
  | some first =>
    rcases Action.bind_eq_error.1 hrest with hfailed | ⟨identifier, m', hafter, hrest⟩
    · exact .inl (.inr ⟨first, m, hfirst, .inl hfailed⟩)
    rcases Action.bind_eq_error.1 hrest with hfailed | ⟨length, behind, hlength, hrest⟩
    · exact .inl (.inr ⟨first, m, hfirst, .inr ⟨identifier, m', hafter, hfailed⟩⟩)
    rcases Action.bind_eq_error.1 hrest with hfailed | ⟨item', t', -, hpure⟩
    · exact .inr ⟨identifier, length, behind, ⟨first, m, m', hfirst, hafter, hlength⟩, hfailed⟩
    · cases hpure

/-- A header is refused for a cause that stops headers, or that stops the taking of octets. -/
theorem RefusesHeader.stops {failure : Failure} (h : RefusesHeader scope failure s t) :
    failure.cause.stopsTaking ∨ failure.cause.stopsHeader := by
  by_cases htaking : failure.cause.stopsTaking
  · exact .inl htaking
  by_cases hheader : failure.cause.stopsHeader
  · exact .inr hheader
  rcases h with hfailed | ⟨first, m, -, hfailed | ⟨identifier, m', -, hfailed⟩⟩
  · exact absurd rfl (firstOctet?_spares htaking _ _ _ hfailed)
  · exact absurd rfl (Identifier.after_spares htaking hheader first _ _ _ hfailed)
  · exact absurd rfl (Length.take_spares htaking hheader _ _ _ _ hfailed)

/-! ## Containers -/

/-- The next value is a container if its header is accepted and it becomes one, and it is not too
deep. Then its region is open, and nothing of it has been read. -/
theorem next_container_iff {container : Container} :
    next scope s = .ok (some (.container container)) t ↔
      ∃ identifier length behind form, Accepts scope identifier length s behind ∧
        Content.of identifier length = .entered form length.region ∧
        scope.depth < scope.maxDepth ∧ t = behind.enter length.region ∧
        container = ⟨form, (scope.lower s.available).inside length.region,
          length.region.isMarked⟩ := by
  constructor
  · intro h
    obtain ⟨identifier, length, behind, haccepts, hitem⟩ := next_some h
    by_cases hentered : ∃ form region, Content.of identifier length = .entered form region
    · obtain ⟨form, region, hcontent⟩ := hentered
      obtain rfl := Content.region_of_entered hcontent
      rw [hcontent] at hitem
      obtain ⟨hdepth, ht, hcontainer⟩ := item_entered_eq_ok_iff.1 hitem
      rw [Scope.lower_depth, Scope.lower_maxDepth] at hdepth
      exact ⟨identifier, length, behind, form, haccepts, hcontent, hdepth, ht,
        Item.container.inj hcontainer⟩
    · have hother := isContainer_of_item (fun form region h => hentered ⟨form, region, h⟩) hitem
      cases hother
  · rintro ⟨identifier, length, behind, form, haccepts, hcontent, hdepth, rfl, rfl⟩
    rw [haccepts.next_eq, hcontent, item_entered (by simpa using hdepth)]

/-- The next value is too deep if its header is accepted and it becomes a container where none may
be opened. Nothing of its content has been read then. -/
theorem next_tooDeep_iff {failure : Failure} (hcause : failure.cause = .nestingTooDeep) :
    next scope s = .error failure t ↔
      ∃ identifier length, Accepts scope identifier length s t ∧
        identifier.OpensContainer length ∧ scope.maxDepth ≤ scope.depth ∧
        failure = ⟨.nestingTooDeep, t.position⟩ := by
  have hlowered : ∀ available, (scope.lower available).maxDepth ≤ (scope.lower available).depth ↔
      scope.maxDepth ≤ scope.depth := by simp
  constructor
  · intro h
    obtain ⟨identifier, length, behind, haccepts, hitem⟩ :=
      (next_error h).resolve_left fun hrefuses => by
        have hstops := hrefuses.stops
        rw [hcause] at hstops
        exact absurd hstops (by decide)
    -- no other content is refused for being too deep
    by_cases hentered : ∃ form region, Content.of identifier length = .entered form region
    · obtain ⟨form, region, hcontent⟩ := hentered
      obtain rfl := Content.region_of_entered hcontent
      rw [hcontent] at hitem
      by_cases hdeep : scope.maxDepth ≤ scope.depth
      · rw [item_entered_too_deep ((hlowered _).2 hdeep)] at hitem
        cases hitem
        exact ⟨identifier, length, haccepts, Content.exists_entered_iff.1 ⟨form, hcontent⟩, hdeep,
          rfl⟩
      · rw [item_entered (fun h => hdeep ((hlowered _).1 h))] at hitem
        cases hitem
    · refine absurd hcause (item_spares (by decide) (fun hstops => ?_) _ _ _ hitem)
      cases hcontent : Content.of identifier length with
      | entered form region => exact hentered ⟨form, region, hcontent⟩
      | _ =>
        rw [hcontent] at hstops
        cases hstops
  · rintro ⟨identifier, length, haccepts, hopens, hdeep, rfl⟩
    obtain ⟨form, hcontent⟩ := Content.exists_entered_iff.2 hopens
    rw [haccepts.next_eq, hcontent, item_entered_too_deep ((hlowered _).2 hdeep)]

end Source
end Ber
