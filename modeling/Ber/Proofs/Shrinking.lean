import Mathlib.Data.List.Forall2
import Ber.Proofs.Opening

/-!
# Ber.Proofs.Shrinking — regions only get shorter

Whatever is read, the regions that are open remain the same ones, and a definite one never has more
octets left than before (`Source.Shrinks`). This holds of any source, in whatever state its regions are,
and whether reading fails or not (`Source.shrinking`).
-/

namespace Ber

/-- A region is what became of another one: of the same kind, and with no more octets left. -/
inductive Region.Shrinks : Region → Region → Prop where
  | definite {before after : Nat} (h : after ≤ before) :
    Shrinks (.definite before) (.definite after)
  | marked (before after : Marked) : Shrinks (.marked before) (.marked after)

namespace Region

variable {σ : Type} {supply : Supply σ} {r r' r'' : Region}

namespace Shrinks

theorem refl (region : Region) : region.Shrinks region := by
  cases region with
  | definite remaining => exact .definite (Nat.le_refl remaining)
  | marked state => exact .marked state state

theorem trans (h : r.Shrinks r') (h' : r'.Shrinks r'') : r.Shrinks r'' := by
  cases h with
  | definite hle =>
    cases h' with
    | definite hle' => exact .definite (Nat.le_trans hle' hle)
  | marked before after =>
    cases h' with
    | marked before' after' => exact .marked before after'

theorem isMarked (h : r.Shrinks r') : r'.isMarked = r.isMarked := by
  cases h <;> rfl

end Shrinks

/-- Switching the lookout takes no octets. -/
theorem shrinks_watch (region : Region) (enabled : Bool) :
    region.Shrinks (region.watch enabled) := by
  cases region with
  | definite remaining => exact .refl _
  | marked state => exact .marked _ _

/-- Taking an octet from a region leaves the region, with no more octets. -/
theorem shrinks_take (region : Region) (below : σ) :
    region.Shrinks (Action.final (take supply (region, below))).1 := by
  match region with
  | .definite 0 => exact .refl _
  | .definite (remaining + 1) =>
    simp only [take]
    cases supply.require below with
    | ok octet after => exact .definite (Nat.le_succ remaining)
    | error failure after => exact .refl _
  | .marked state =>
    simp only [take]
    split
    · exact .marked _ _
    cases peeked supply state.ahead below with
    | error failure after => exact .marked _ _
    | ok first after =>
      dsimp only
      split
      · cases supply.require after with
        | error failure last => exact .marked _ _
        | ok second last =>
          dsimp only
          split <;> exact .marked _ _
      · exact .marked _ _

end Region

namespace Source

variable {s t u : Source} {α : Type}

/-- The regions of a source are what became of those of another one. -/
def Shrinks (before after : Source) : Prop :=
  List.Forall₂ Region.Shrinks before.regions after.regions

namespace Shrinks

theorem refl (s : Source) : s.Shrinks s := List.forall₂_same.2 fun region _ => .refl region

theorem trans (h : s.Shrinks t) (h' : t.Shrinks u) : s.Shrinks u := by
  unfold Shrinks at h h' ⊢
  generalize s.regions = regions at h
  generalize t.regions = regions' at h h'
  generalize u.regions = regions'' at h'
  induction h generalizing regions'' with
  | nil => exact h'
  | cons hhead _ ih =>
    cases h' with
    | cons hhead' hrest' => exact .cons (hhead.trans hhead') (ih _ hrest')

theorem leave (h : s.Shrinks t) : s.leave.Shrinks t.leave := by
  show List.Forall₂ Region.Shrinks s.regions.tail t.regions.tail
  unfold Shrinks at h
  generalize s.regions = regions at h
  generalize t.regions = regions' at h
  cases h with
  | nil => exact .nil
  | cons _ hrest => exact hrest

theorem length (h : s.Shrinks t) : t.regions.length = s.regions.length := (List.Forall₂.length_eq h).symm

end Shrinks

theorem shrinks_watch (s : Source) (enabled : Bool) : s.Shrinks (s.watch enabled) := by
  rcases s with ⟨regions, reader⟩
  cases regions with
  | nil => exact .refl _
  | cons region below =>
    exact .cons (region.shrinks_watch enabled) (List.forall₂_same.2 fun region _ => .refl region)

/-- Taking an octet leaves the regions, with no more octets. -/
theorem shrinks_octet? (s : Source) : s.Shrinks (Action.final (octet? s)) := by
  generalize hheight : s.regions.length = height
  induction height generalizing s with
  | zero =>
    rcases s with ⟨regions, reader⟩
    obtain rfl : regions = [] := List.length_eq_zero_iff.1 hheight
    rw [octet?_nil]
    cases reader.next <;> exact .nil
  | succ height ih =>
    rcases s with ⟨regions, reader⟩
    cases regions with
    | nil => cases hheight
    | cons region below =>
      have hlength : below.length = height := Nat.succ.inj hheight
      -- below the region, octets are taken any number of times
      have hkeep : Action.Keeps (fun t : Source => Shrinks ⟨below, reader⟩ t) octet? :=
        fun t ht => ht.trans (ih t (ht.length.trans hlength))
      have hbelow := @Region.take_keeps _ _ ⟨octet?, position⟩ hkeep (region, ⟨below, reader⟩)
        (.refl _)
      have hregion := @Region.shrinks_take _ ⟨octet?, position⟩ region ⟨below, reader⟩
      rw [show (⟨region :: below, reader⟩ : Source) = enter region ⟨below, reader⟩ from rfl,
        octet?_enter]
      cases hrun : Region.take ⟨octet?, position⟩ (region, ⟨below, reader⟩) with
      | ok found after =>
        rw [hrun] at hbelow hregion
        exact .cons hregion hbelow
      | error failure after =>
        rw [hrun] at hbelow hregion
        exact .cons hregion hbelow

/-- So does whatever is read octet by octet. -/
theorem Octetwise.shrinks {action : Taking α} (haction : Octetwise action) (s : Source) :
    s.Shrinks (Action.final (action s)) :=
  haction (s.Shrinks ·) (fun t ht => ht.trans (shrinks_octet? t)) s (.refl s)

theorem shrinks_of_scans {action : Taking α} {a : α} (hscans : Scans action)
    (h : action s = .ok a t) : s.Shrinks t := by
  have hshrinks := (Octetwise.of_scans hscans).shrinks s
  rwa [h] at hshrinks

theorem shrinks_firstOctet? (s : Source) : s.Shrinks (Action.final (firstOctet? s)) :=
  firstOctet?_keeps (fun t ht => ht.trans (shrinks_octet? t))
    (fun t enabled ht => ht.trans (t.shrinks_watch enabled)) s (.refl s)

theorem shrinks_of_firstOctet? {found : Option UInt8} (h : firstOctet? s = .ok found t) :
    s.Shrinks t := by
  have hshrinks := shrinks_firstOctet? s
  rwa [h] at hshrinks

/-! ## Values -/

variable {scope : Scope} {identifier : Identifier} {length : Length} {failure : Failure}

theorem Accepts.shrinks (h : Accepts scope identifier length s t) : s.Shrinks t := by
  obtain ⟨first, m, m', hfirst, hafter, hlength⟩ := h
  exact ((shrinks_of_firstOctet? hfirst).trans
    (shrinks_of_scans (Identifier.after_scans first) hafter)).trans
      (shrinks_of_scans (Length.take_scans _) hlength)

theorem RefusesHeader.shrinks (h : RefusesHeader scope failure s t) : s.Shrinks t := by
  have hfailed : ∀ {β : Type} {action : Taking β} {m : Source}, Scans action →
      action m = .error failure t → m.Shrinks t := by
    intro β action m hscans hrun
    have hshrinks := (Octetwise.of_scans hscans).shrinks m
    rwa [hrun] at hshrinks
  rcases h with hfirst | ⟨first, m, hfirst, hafter | ⟨identifier, m', hafter, hlength⟩⟩
  · have hshrinks := shrinks_firstOctet? s
    rwa [hfirst] at hshrinks
  · exact (shrinks_of_firstOctet? hfirst).trans (hfailed (Identifier.after_scans first) hafter)
  · exact ((shrinks_of_firstOctet? hfirst).trans
      (shrinks_of_scans (Identifier.after_scans first) hafter)).trans
        (hfailed (Length.take_scans _) hlength)

/-- Reading the content of a value opens no region, unless it is a container. -/
theorem shrinks_item (scope : Scope) (identifier : Identifier) (content : Content) (s : Source) :
    (∃ container t, item scope identifier content s = .ok (.container container) t) ∨
      s.Shrinks (Action.final (item scope identifier content s)) := by
  by_cases hentered : ∃ form region, content = .entered form region
  · obtain ⟨form, region, rfl⟩ := hentered
    by_cases hdeep : scope.maxDepth ≤ scope.depth
    · rw [item_entered_too_deep hdeep]
      exact .inr (.refl s)
    · rw [item_entered hdeep]
      exact .inl ⟨_, _, rfl⟩
  · have hscans : Scans (item scope identifier content) :=
      item_scans fun form region h => hentered ⟨form, region, h⟩
    exact .inr ((Octetwise.of_scans hscans).shrinks s)

/-- Taking a value opens no region, unless it is a container. -/
theorem shrinks_next (hnone : ∀ container t, next scope s ≠ .ok (some (.container container)) t) :
    s.Shrinks (Action.final (next scope s)) := by
  match hrun : next scope s with
  | .ok none t => exact shrinks_of_firstOctet? (next_eq_none_iff.1 hrun)
  | .ok (some found) t =>
    obtain ⟨identifier, length, behind, haccepts, hitem⟩ := next_some hrun
    rcases shrinks_item (scope.lower s.available) identifier (.of identifier length) behind with
      ⟨container, t', hcontainer⟩ | hshrinks
    · cases hitem.symm.trans hcontainer
      exact absurd hrun (hnone container t)
    · rw [hitem] at hshrinks
      exact haccepts.shrinks.trans hshrinks
  | .error failure t =>
    rcases next_error hrun with hrefuses | ⟨identifier, length, behind, haccepts, hitem⟩
    · exact hrefuses.shrinks
    · rcases shrinks_item (scope.lower s.available) identifier (.of identifier length) behind with
        ⟨container, t', hcontainer⟩ | hshrinks
      · cases hitem.symm.trans hcontainer
      · rw [hitem] at hshrinks
        exact haccepts.shrinks.trans hshrinks

/-- A container that is opened has a region of its own, and the others remain. -/
theorem shrinks_of_container {container : Container}
    (h : next scope s = .ok (some (.container container)) t) :
    ∃ region behind, s.Shrinks behind ∧ t = behind.enter region := by
  obtain ⟨identifier, length, behind, form, haccepts, -, -, ht, -⟩ := next_container_iff.1 h
  exact ⟨_, behind, haccepts.shrinks, ht⟩

/-- Regions getting shorter is a course that reading takes, from any source. -/
def shrinking : Course where
  starts _ := True
  leads := Shrinks
  refl _ := .refl _
  trans h h' := h.trans h'
  starts_of_leads _ _ := trivial
  remainder := by
    intro s _
    rcases s with ⟨regions, reader⟩
    match regions with
    | [] => exact .refl _
    | .marked state :: below => exact .refl _
    | .definite remaining :: below =>
      exact (Octetwise.of_scans (octets_scans remaining)).shrinks _
  next _ hnone := shrinks_next hnone
  opens := by
    intro scope s t container _ hrun
    obtain ⟨region, behind, hbehind, rfl⟩ := shrinks_of_container hrun
    exact ⟨trivial, fun u hu => hbehind.trans hu.leave⟩

end Source
end Ber
