import Ber.Source.Reader
import Ber.Source.Region

/-!
# Ber.Source — taking octets through nested regions

A source is a reader and the regions that are open on it, the innermost first. Octets are taken from
the innermost region, which takes them from the next one, and so on down to the reader. Taking is a
`Taking`: it changes the source also when it fails, so a failure shows how far reading got.

1. `octet?` takes one octet or notices the end; `octet` and `octets` require octets to be there.
2. `watch` switches the lookout for the end-of-contents marker, for the innermost region only.
3. `within` opens a region for the time of an action; what the region read ahead is gone with it.
4. `left` counts the octets that can still come out; every octet taken lowers it by one
   (`left_of_octet?_eq_ok`), so `skipToEnd` ends.
-/

namespace Ber

/-- A reader with the regions open on it, the innermost first. -/
structure Source where
  regions : List Region := []
  reader : Reader
deriving DecidableEq, Repr

/-- An action on a source that may fail. -/
abbrev Taking (α : Type) := Action Source α

namespace Source

/-- A source over data without faults. -/
def ofData (data : Octets) : Source := { reader := .ofData data }

/-- The number of octets the reader has delivered. -/
def position (source : Source) : Nat := source.reader.position

/-- The octets the reader has not delivered. -/
def rest (source : Source) : Octets := source.reader.octetsLeft

/-- How many octets are left at most, if any open region tells. A reader does not know. -/
def available (source : Source) : Option Nat := source.regions.foldr Region.available none

/-- Opens a region. -/
def enter (region : Region) (source : Source) : Source :=
  { source with regions := region :: source.regions }

/-- Gives up the innermost region in whatever state it is. -/
def leave (source : Source) : Source :=
  { source with regions := source.regions.tail }

/-- Switches the lookout for the end-of-contents marker in the innermost region. -/
def watch (enabled : Bool) (source : Source) : Source :=
  { source with regions := source.regions.modifyHead (·.watch enabled) }

/-! ## Taking octets -/

/-- Takes the next octet through so many of the innermost regions. -/
def takeThrough : Nat → Taking (Option UInt8)
  | height + 1, ⟨region :: below, reader⟩ =>
    match Region.take ⟨takeThrough height, position⟩ (region, ⟨below, reader⟩) with
    | .ok octet (region, source) => .ok octet (source.enter region)
    | .error failure (region, source) => .error failure (source.enter region)
  | _, ⟨regions, reader⟩ =>
    match reader.next with
    | .ok octet reader => .ok octet ⟨regions, reader⟩
    | .error failure reader => .error failure ⟨regions, reader⟩

/-- Takes the next octet, or none at the end of the innermost region. -/
def octet? : Taking (Option UInt8) := fun source => takeThrough source.regions.length source

/-- Fails at the current position. -/
def fail {α : Type} (cause : Cause) : Taking α := fun source =>
  .error ⟨cause, source.position⟩ source

/-- Takes the next octet, which has to be there. -/
def octet : Taking UInt8 := do
  match ← octet? with
  | some octet => return octet
  | none => fail .truncated

/-- Takes so many octets and puts them behind those taken before, which come latest first. -/
def octetsAfter (taken : Octets) : Nat → Taking Octets
  | 0 => return taken.reverse
  | count + 1 => do
    let octet ← octet
    octetsAfter (octet :: taken) count

/-- Takes exactly so many octets. -/
def octets (count : Nat) : Taking Octets := octetsAfter [] count

/-- Runs an action inside a new region and gives the region up afterwards, also after a failure. -/
def within {α : Type} (region : Region) (action : Taking α) : Taking α :=
  Action.afterwards leave fun source => action (source.enter region)

/-- Takes the first octet of a value, or none at the end of the innermost region. Only here may the
end-of-contents marker stand: the lookout for it is off afterwards. -/
def firstOctet? : Taking (Option UInt8) :=
  Action.afterwards (watch false) fun source => (source.watch true).octet?

/-- Takes all that remains of the innermost region. Only a definite region can be taken without
looking at the values in it. -/
def remainder : Taking Octets := fun source =>
  match source.regions with
  | .definite remaining :: _ => octets remaining source
  | _ => fail .unsupportedIndefiniteForm source

/-! ## Taking octets until the end -/

/-- How many octets can still come out: those the reader holds and those read ahead. -/
def left (source : Source) : Nat :=
  source.regions.foldr (·.ahead + ·) 0 + source.reader.octetsLeft.length

/-- Taking through any number of regions spends the octet taken. -/
theorem takeThrough_spends (height : Nat) (source : Source) :
    Spends left source.left (takeThrough height source) := by
  have reading : ∀ source : Source, Spends left source.left (takeThrough 0 source) := by
    intro source
    have spent := Reader.nextFrom_spends source.reader.position source.reader.arrivals
    simp only [takeThrough, show source.reader.next = Reader.nextFrom _ _ from rfl]
    split <;> rename_i taken <;> rw [taken] at spent
    · rename_i octet _
      cases octet <;> simp only [Spends, left, Reader.octetsLeft] at spent ⊢ <;> omega
    · simp only [Spends, left, Reader.octetsLeft] at spent ⊢
      omega
  induction height generalizing source with
  | zero => exact reading source
  | succ height ih =>
    rcases source with ⟨_ | ⟨region, below⟩, reader⟩
    · exact reading ⟨[], reader⟩
    · have spent := @Region.take_spends _ ⟨takeThrough height, position⟩ left ih region
        ⟨below, reader⟩
      simp only [takeThrough]
      split <;> rename_i taken <;> rw [taken] at spent
      · rename_i octet _ _
        cases octet <;> simp [Spends, left, enter] at spent ⊢ <;> omega
      · simp [Spends, left, enter] at spent ⊢
        omega

/-- Taking an octet lowers the number of octets left by one. -/
theorem left_of_octet?_eq_ok {source after : Source} {octet : UInt8}
    (taken : source.octet? = .ok (some octet) after) : after.left + 1 = source.left := by
  have spent := takeThrough_spends source.regions.length source
  rwa [show takeThrough source.regions.length source = _ from taken] at spent

/-- Takes octets up to the end of the innermost region. -/
def exhaust : Taking Unit := fun source =>
  match _ : source.octet? with
  | .ok (some _) after => exhaust after
  | .ok none after => .ok () after
  | .error failure after => .error failure after
termination_by source => source.left
decreasing_by
  have := left_of_octet?_eq_ok ‹_›
  omega

/-- Skips a marked region up to and including the end-of-contents marker, which is any pair of zero
octets. -/
def skipToEnd : Taking Unit := fun source => (source.watch true).exhaust

end Source
end Ber
