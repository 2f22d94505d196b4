import Ber.Action

/-!
# Ber.Source.Region — where content ends

The content of a value is a region of the octets around it. There are two kinds:

1. a *definite* region hands out a known number of octets and then ends, without touching what lies
   below it any more;
2. a *marked* region ends with the end-of-contents marker, two zero octets. The marker is consumed
   with the region and is only looked for while the region is watching. A zero octet that might
   begin a marker makes the region read one octet ahead, which it keeps and hands out next.

If the octets below a region end before the region does, the content is truncated.

`Region.take` is defined over any supply of octets below the region, so regions nest.
-/

namespace Ber

/-- A region that ends with the end-of-contents marker. -/
structure Marked where
  /-- Whether the marker is looked for. -/
  watching : Bool := true
  /-- The octet read ahead. -/
  ahead : Option UInt8 := none
  /-- Whether the marker has been read. -/
  closed : Bool := false
deriving DecidableEq, Repr

/-- A region of octets. -/
inductive Region where
  | definite (remaining : Nat)
  | marked (state : Marked)
deriving DecidableEq, Repr

/-- What octets can be taken from: how to take the next one, and the position reached. -/
structure Supply (σ : Type) where
  take : Action σ (Option UInt8)
  position : σ → Nat

/-- The next octet of a supply that must have one. -/
@[inline] def Supply.require {σ : Type} (supply : Supply σ) : Action σ UInt8 := fun below =>
  match supply.take below with
  | .ok (some octet) below => .ok octet below
  | .ok none below => .error ⟨.truncated, supply.position below⟩ below
  | .error failure below => .error failure below

namespace Region

/-- Whether the end of a region is given by a marker. -/
def isMarked : Region → Bool
  | .definite _ => false
  | .marked _ => true

/-- Switches the lookout for the end-of-contents marker on or off. A definite region has none. -/
def watch (enabled : Bool) : Region → Region
  | .definite remaining => .definite remaining
  | .marked state => .marked { state with watching := enabled }

/-- How many octets have been read from below but not handed out yet. -/
def ahead : Region → Nat
  | .definite _ => 0
  | .marked state => state.ahead.toList.length

/-- How many octets a region has left at most, given what the octets below it have left. -/
def available (region : Region) (below : Option Nat) : Option Nat :=
  match region with
  | .definite remaining => some remaining
  | .marked state =>
    if state.closed then some 0 else below.map (· + state.ahead.toList.length)

/-- The octet that a marked region looks at: the one read ahead, or else the next one below. -/
@[inline] def peeked {σ : Type} (supply : Supply σ) : Option UInt8 → Action σ UInt8
  | some octet => pure octet
  | none => supply.require

/-- The next octet of a region, or none at its end. -/
@[inline] def take {σ : Type} (supply : Supply σ) : Action (Region × σ) (Option UInt8)
  | (.definite 0, below) => .ok none (.definite 0, below)
  | (.definite (remaining + 1), below) =>
    match supply.require below with
    | .ok octet below => .ok (some octet) (.definite remaining, below)
    | .error failure below => .error failure (.definite (remaining + 1), below)
  | (.marked state, below) =>
    if state.closed then .ok none (.marked state, below)
    else
      match peeked supply state.ahead below with
      | .error failure below => .error failure (.marked { state with ahead := none }, below)
      | .ok first below =>
        if state.watching && first == 0 then
          match supply.require below with
          | .error failure below => .error failure (.marked { state with ahead := none }, below)
          | .ok second below =>
            if second == 0 then
              .ok none (.marked { state with ahead := none, closed := true }, below)
            else .ok (some first) (.marked { state with ahead := some second }, below)
        else .ok (some first) (.marked { state with ahead := none }, below)

end Region

/-! ## Every octet handed out was there before -/

/-- What the outcome of taking an octet says about the number of octets left: one octet less if one
was handed out, and never more. -/
def Spends {σ : Type} (left : σ → Nat) (before : Nat) :
    EStateM.Result Failure σ (Option UInt8) → Prop
  | .ok (some _) after => left after + 1 = before
  | .ok none after => left after ≤ before
  | .error _ after => left after ≤ before

/-- The same for an octet that has to be there. -/
def SpendsOne {σ : Type} (left : σ → Nat) (before : Nat) : EStateM.Result Failure σ UInt8 → Prop
  | .ok _ after => left after + 1 = before
  | .error _ after => left after ≤ before

section
variable {σ : Type} {supply : Supply σ} {left : σ → Nat}

/-- Requiring an octet spends it. -/
theorem Supply.require_spends (spends : ∀ below, Spends left (left below) (supply.take below))
    (below : σ) : SpendsOne left (left below) (supply.require below) := by
  have := spends below
  unfold Supply.require
  split <;> rename_i taken <;> rw [taken] at this <;> exact this

/-- Looking at an octet spends it, wherever it comes from. -/
theorem Region.peeked_spends (spends : ∀ below, Spends left (left below) (supply.take below))
    (ahead : Option UInt8) (below : σ) :
    SpendsOne left (ahead.toList.length + left below) (peeked supply ahead below) := by
  cases ahead with
  | none => simpa [peeked] using Supply.require_spends spends below
  | some octet => exact Nat.add_comm ..

/-- A region over a supply that spends its octets spends them too, counting the octet that it has
read ahead. -/
theorem Region.take_spends (spends : ∀ below, Spends left (left below) (supply.take below))
    (region : Region) (below : σ) :
    Spends (fun state => state.1.ahead + left state.2) (region.ahead + left below)
      (Region.take supply (region, below)) := by
  match region with
  | .definite 0 => simp [Region.take, Spends]
  | .definite (remaining + 1) =>
    have spent := Supply.require_spends spends below
    simp only [Region.take]
    split <;> rename_i taken <;> rw [taken] at spent <;>
      simpa [Spends, SpendsOne, Region.ahead] using spent
  | .marked state =>
    have spentFirst := Region.peeked_spends spends state.ahead below
    simp only [Region.take]
    split
    · simp [Spends]
    split
    · rename_i taken
      rw [taken] at spentFirst
      simpa [Spends, SpendsOne, Region.ahead] using spentFirst
    rename_i between taken
    rw [taken] at spentFirst
    split
    · -- a zero octet: the second octet decides
      have spentSecond := Supply.require_spends spends between
      split
      · rename_i taken
        rw [taken] at spentSecond
        simp_all [Spends, SpendsOne, Region.ahead]
        omega
      · rename_i taken
        rw [taken] at spentSecond
        split <;> simp_all [Spends, SpendsOne, Region.ahead] <;> omega
    · simpa [Spends, SpendsOne, Region.ahead] using spentFirst

end
end Ber
