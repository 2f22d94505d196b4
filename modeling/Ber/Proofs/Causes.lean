import Ber.Proofs.Marker
import Ber.Proofs.Scanning

/-!
# Ber.Proofs.Causes — what can go wrong where

Every piece of a value has its own causes to fail for. `Source.Spares` says of an action that it never
fails for a given cause:

1. taking octets fails only because the data ends or because the reader fails (`Source.octet_spares`);
2. a header also fails for what its octets write (`Identifier.after_spares`, `Length.take_spares`);
3. content also fails for what becomes of it (`Source.item_spares`).
-/

namespace Ber

/-- A cause that may stop the taking of any octet. -/
def Cause.stopsTaking : Cause → Bool
  | .truncated | .unreadable _ => true
  | _ => false

/-- A cause for which the octets of a header are refused. -/
def Cause.stopsHeader : Cause → Bool
  | .malformedTag | .malformedLength | .outOfBounds => true
  | _ => false

/-- A cause for which content is refused. -/
def Content.stopsFor : Content → Cause → Bool
  | .decoded _, .malformedContent _ => true
  | .entered .., .nestingTooDeep => true
  | .refused, .unsupportedIndefiniteForm => true
  | _, _ => false

/-- A sequence fails where its first action does, or where the rest does from there. -/
theorem Action.bind_eq_error {σ α β : Type} {action : Action σ α} {rest : α → Action σ β}
    {s t : σ} {failure : Failure} :
    (action >>= rest) s = .error failure t ↔
      action s = .error failure t ∨ ∃ a m, action s = .ok a m ∧ rest a m = .error failure t := by
  simp only [Bind.bind, EStateM.bind]
  cases hrun : action s with
  | error other m => simp
  | ok a m =>
    constructor
    · exact fun h => .inr ⟨a, m, rfl, h⟩
    · rintro (h | ⟨b, n, hsame, h⟩)
      · cases h
      · cases hsame
        exact h

/-- A change afterwards does not decide whether an action fails. -/
theorem Action.afterwards_eq_error {σ α : Type} {change : σ → σ} {action : Action σ α} {s t : σ}
    {failure : Failure} (h : afterwards change action s = .error failure t) :
    ∃ m, action s = .error failure m := by
  unfold afterwards at h
  cases hrun : action s with
  | ok a m =>
    rw [hrun] at h
    cases h
  | error other m =>
    rw [hrun] at h
    cases h
    exact ⟨m, rfl⟩

section
variable {σ : Type} {supply : Supply σ}

/-- An octet that is required is missing at the end, or taking it fails. -/
theorem Supply.require_eq_error {below after : σ} {failure : Failure}
    (h : supply.require below = .error failure after) :
    failure.cause = .truncated ∨ supply.take below = .error failure after := by
  unfold Supply.require at h
  rcases hrun : supply.take below with (_ | octet) | _
  · rw [hrun] at h
    cases h
    exact .inl rfl
  · rw [hrun] at h
    cases h
  · rw [hrun] at h
    cases h
    exact .inr rfl

/-- A region fails where the octets below it end too early, or where taking one of them fails. -/
theorem Region.take_eq_error {state after : Region × σ} {failure : Failure}
    (h : Region.take supply state = .error failure after) :
    failure.cause = .truncated ∨ ∃ below below', supply.take below = .error failure below' := by
  have hrequired : ∀ {below after : σ}, supply.require below = .error failure after →
      failure.cause = .truncated ∨ ∃ below below', supply.take below = .error failure below' := by
    intro below after hrun
    rcases Supply.require_eq_error hrun with htruncated | hfailed
    · exact .inl htruncated
    · exact .inr ⟨below, after, hfailed⟩
  match state with
  | (.definite 0, below) => cases h
  | (.definite (remaining + 1), below) =>
    simp only [Region.take] at h
    cases hrun : supply.require below with
    | ok octet middle => simp only [hrun] at h; cases h
    | error failure' middle =>
      simp only [hrun] at h
      cases h
      exact hrequired hrun
  | (.marked state, below) =>
    simp only [Region.take] at h
    split at h
    · cases h
    cases hpeek : Region.peeked supply state.ahead below with
    | error failure' middle =>
      simp only [hpeek] at h
      cases h
      cases hahead : state.ahead with
      | none =>
        rw [hahead] at hpeek
        exact hrequired hpeek
      | some octet =>
        rw [hahead] at hpeek
        cases hpeek
    | ok first middle =>
      simp only [hpeek] at h
      split at h
      · cases hrun : supply.require middle with
        | error failure' last =>
          simp only [hrun] at h
          cases h
          exact hrequired hrun
        | ok second last =>
          simp only [hrun] at h
          split at h <;> cases h
      · cases h
end

/-- A reader that fails has a reason of its own. -/
theorem Reader.stopsTaking_of_nextFrom {position : Nat} {arrivals : List Arrival}
    {failure : Failure} {after : Reader} (h : nextFrom position arrivals = .error failure after) :
    failure.cause.stopsTaking := by
  fun_induction nextFrom position arrivals with
  | case1 => cases h
  | case2 value rest => cases h
  | case3 rest ih => exact ih h
  | case4 reason rest =>
    cases h
    rfl

namespace Source

variable {cause : Cause} {α β : Type}

/-- An action that never fails for a cause. -/
def Spares (cause : Cause) (action : Taking α) : Prop :=
  ∀ s failure t, action s = .error failure t → failure.cause ≠ cause

namespace Spares

theorem pure (a : α) : Spares cause (pure a : Taking α) := fun _ _ _ h => nomatch h

theorem fail {other : Cause} (hother : other ≠ cause) : Spares cause (fail other : Taking α) := by
  intro s failure t h
  cases h
  exact hother

theorem bind {action : Taking α} {rest : α → Taking β} (haction : Spares cause action)
    (hrest : ∀ a, Spares cause (rest a)) : Spares cause (action >>= rest) := by
  intro s failure t h
  rcases Action.bind_eq_error.1 h with hfailed | ⟨a, m, -, hfailed⟩
  · exact haction _ _ _ hfailed
  · exact hrest a m failure t hfailed

theorem afterwards {change : Source → Source} {action : Taking α} (h : Spares cause action) :
    Spares cause (Action.afterwards change action) := by
  intro s failure t hfailed
  obtain ⟨m, hrun⟩ := Action.afterwards_eq_error hfailed
  exact h _ _ _ hrun

end Spares

/-! ## Taking octets -/

/-- Taking an octet fails where the octets end too early, or where the reader does. -/
theorem stopsTaking_of_takeThrough {height : Nat} {s t : Source} {failure : Failure}
    (h : takeThrough height s = .error failure t) : failure.cause.stopsTaking := by
  have hreading : ∀ (reader : Reader) (regions : List Region) (t : Source),
      takeThrough 0 ⟨regions, reader⟩ = .error failure t → failure.cause.stopsTaking := by
    intro reader regions t h
    simp only [takeThrough] at h
    cases hrun : reader.next with
    | ok found after =>
      rw [hrun] at h
      cases h
    | error failure' after =>
      rw [hrun] at h
      cases h
      exact Reader.stopsTaking_of_nextFrom hrun
  induction height generalizing s t with
  | zero => exact hreading s.reader s.regions t h
  | succ height ih =>
    rcases s with ⟨regions, reader⟩
    cases regions with
    | nil => exact hreading reader [] t h
    | cons region below =>
      simp only [takeThrough] at h
      cases hrun : Region.take ⟨takeThrough height, position⟩ (region, ⟨below, reader⟩) with
      | ok found after =>
        rw [hrun] at h
        cases h
      | error failure' after =>
        rw [hrun] at h
        cases h
        rcases Region.take_eq_error hrun with htruncated | ⟨u, v, hfailed⟩
        · rw [htruncated]
          rfl
        · exact ih hfailed

section
variable (hcause : ¬ cause.stopsTaking)
include hcause

theorem octet?_spares : Spares cause octet? := by
  intro s failure t h heq
  rw [← heq] at hcause
  exact hcause (stopsTaking_of_takeThrough h)

theorem firstOctet?_spares : Spares cause firstOctet? :=
  .afterwards fun s => octet?_spares hcause (s.watch true)

theorem octet_spares : Spares cause octet := by
  refine (octet?_spares hcause).bind fun found => ?_
  cases found with
  | none =>
    refine .fail fun heq => hcause ?_
    rw [← heq]
    rfl
  | some b => exact .pure _

theorem octetsAfter_spares (count : Nat) (taken : Octets) :
    Spares cause (octetsAfter taken count) := by
  induction count generalizing taken with
  | zero => exact .pure _
  | succ count ih => exact (octet_spares hcause).bind fun octet => ih _

theorem octets_spares (count : Nat) : Spares cause (octets count) :=
  octetsAfter_spares hcause count []

theorem exhaust_spares : Spares cause exhaust := by
  intro s failure t h
  generalize hleft : s.left = left
  induction left using Nat.strongRecOn generalizing s with
  | ind left ih =>
    subst hleft
    rcases hrun : octet? s with (_ | octet) | _
    · rw [exhaust_of_none hrun] at h
      cases h
    · rw [exhaust_of_some hrun] at h
      have hless := left_of_octet?_eq_ok hrun
      exact ih _ (by omega) _ h rfl
    · rw [exhaust_of_error hrun] at h
      cases h
      exact octet?_spares hcause _ _ _ hrun

theorem skip_spares : Spares cause (within (.marked {}) skipToEnd) :=
  .afterwards fun _ => exhaust_spares hcause _

end
end Source

/-! ## Headers -/

section
open Source

variable {cause : Cause}

/-- A cause that stops a header is none that does not. -/
theorem Cause.ne_of_stopsHeader {other : Cause} (hheader : ¬ cause.stopsHeader)
    (hother : other.stopsHeader) : other ≠ cause := by
  rintro rfl
  exact hheader hother

theorem Length.below_spares (hheader : ¬ cause.stopsHeader) (limit octets : Nat) :
    Spares cause (below limit octets) := by
  unfold below
  split
  · exact .pure _
  · exact .fail (Cause.ne_of_stopsHeader hheader rfl)

variable (hcause : ¬ cause.stopsTaking) (hheader : ¬ cause.stopsHeader)
include hcause hheader

theorem Identifier.longNumber_spares (room number : Nat) :
    Spares cause (longNumber room number) := by
  induction room generalizing number with
  | zero => exact .fail (Cause.ne_of_stopsHeader hheader rfl)
  | succ room ih =>
    refine (octet_spares hcause).bind fun octet => ?_
    cases sevenBits? number octet with
    | none => exact .fail (Cause.ne_of_stopsHeader hheader rfl)
    | some number =>
      dsimp only
      split
      · exact .pure _
      · exact (ih number).bind fun _ => .pure _

theorem Identifier.after_spares (first : UInt8) : Spares cause (after first) := by
  unfold after
  split
  · exact .pure _
  · exact (longNumber_spares hcause hheader _ _).bind fun _ => .pure _

theorem Length.take_spares (limit : Nat) : Spares cause (take limit) := by
  refine (octet_spares hcause).bind fun first => ?_
  split
  · exact below_spares hheader _ _
  split
  · exact .pure _
  · rw [long_eq]
    split
    · exact .fail (Cause.ne_of_stopsHeader hheader rfl)
    · refine (octets_spares hcause _).bind fun octets => ?_
      dsimp only
      split
      · exact below_spares hheader _ _
      · exact .fail (Cause.ne_of_stopsHeader hheader rfl)

end

/-! ## Content -/

namespace Source

/-- Content fails for what becomes of it, or because its octets cannot be taken. -/
theorem item_spares {cause : Cause} {scope : Scope} {identifier : Identifier} {content : Content}
    (hcause : ¬ cause.stopsTaking) (hcontent : ¬ content.stopsFor cause) :
    Spares cause (item scope identifier content) := by
  have hother : ∀ {other : Cause}, content.stopsFor other → other ≠ cause := by
    rintro other hstops rfl
    exact hcontent hstops
  cases content with
  | kept count => exact (octets_spares hcause count).bind fun _ => .pure _
  | decoded count =>
    refine (octets_spares hcause count).bind fun octets => .bind ?_ fun _ => .pure _
    unfold decode
    cases Primitive.ofContent identifier octets with
    | error reason => exact .fail (hother rfl)
    | ok value => exact .pure _
  | skipped => exact (skip_spares hcause).bind fun _ => .pure _
  | entered form region =>
    refine .bind (fun s failure t h => ?_) fun _ => .pure _
    unfold open? at h
    split at h
    · cases h
      exact hother rfl
    · cases h
  | refused => exact .fail (hother rfl)

end Source
end Ber
