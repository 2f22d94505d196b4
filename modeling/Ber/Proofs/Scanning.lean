import Ber.Proofs.Silence

/-!
# Ber.Proofs.Scanning — what reading is put together from

Identifiers, lengths and content that is not entered are read by taking octets one after the other,
or by skipping to a marker. `Source.Scans` says of an action that it is put together from these and
from nothing else (`Identifier.after_scans`, `Length.take_scans`, `Source.item_scans`). So a property
that sequences keep is shown for all of them by showing it for one octet and for skipping.
-/

namespace Ber

namespace Source

/-- An action that is put together from taking octets and skipping. -/
inductive Scans : {α : Type} → Taking α → Prop where
  | pure {α : Type} (a : α) : Scans (pure a : Taking α)
  | fail {α : Type} (cause : Cause) : Scans (fail cause : Taking α)
  | octet : Scans octet
  /-- Skips content of indefinite length. -/
  | skip : Scans (within (.marked {}) skipToEnd)
  | bind {α β : Type} {action : Taking α} {rest : α → Taking β} (haction : Scans action)
    (hrest : ∀ a, Scans (rest a)) : Scans (action >>= rest)

theorem octetsAfter_scans (count : Nat) (taken : Octets) : Scans (octetsAfter taken count) := by
  induction count generalizing taken with
  | zero => exact .pure _
  | succ count ih => exact Scans.octet.bind fun octet => ih _

theorem octets_scans (count : Nat) : Scans (octets count) := octetsAfter_scans count []

end Source

open Source

/-! ## Headers -/

theorem Identifier.longNumber_scans (room number : Nat) : Scans (longNumber room number) := by
  induction room generalizing number with
  | zero => exact .fail _
  | succ room ih =>
    refine Scans.octet.bind fun octet => ?_
    cases sevenBits? number octet with
    | none => exact .fail _
    | some number =>
      dsimp only
      by_cases hlast : octet < 0x80
      · rw [if_pos hlast]
        exact .pure _
      · rw [if_neg hlast]
        exact (ih number).bind fun _ => .pure _

theorem Identifier.after_scans (first : UInt8) : Scans (after first) := by
  unfold after
  split
  · exact .pure _
  · exact (longNumber_scans _ _).bind fun _ => .pure _

theorem Length.below_scans (limit octets : Nat) : Scans (below limit octets) := by
  unfold below
  split
  · exact .pure _
  · exact .fail _

theorem Length.long_scans (count limit : Nat) : Scans (long count limit) := by
  rw [long_eq]
  split
  · exact .fail _
  · refine (octets_scans _).bind fun octets => ?_
    dsimp only
    split
    · exact below_scans _ _
    · exact .fail _

theorem Length.take_scans (limit : Nat) : Scans (take limit) := by
  refine Scans.octet.bind fun first => ?_
  split
  · exact below_scans _ _
  split
  · exact .pure _
  · exact long_scans _ _

/-! ## Content -/

/-- Unless a region is entered for it, the content of a value is read octet by octet. -/
theorem Source.item_scans {scope : Scope} {identifier : Identifier} {content : Content}
    (hcontent : ∀ form region, content ≠ .entered form region) :
    Scans (item scope identifier content) := by
  cases content with
  | kept count => exact (octets_scans count).bind fun _ => .pure _
  | decoded count =>
    refine (octets_scans count).bind fun content => .bind ?_ fun _ => .pure _
    unfold decode
    cases Primitive.ofContent identifier content with
    | error reason => exact .fail _
    | ok value => exact .pure _
  | skipped => exact Scans.skip.bind fun _ => .pure _
  | entered form region => exact absurd rfl (hcontent form region)
  | refused => exact .fail _

end Ber
