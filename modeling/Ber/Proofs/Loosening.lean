import Ber.Decoder.Drain

/-!
# Ber.Proofs.Loosening — limits and the greatest depth only add failures

Two decoders on the same octets, one in a scope that allows more than the other: a larger limit, a
greater depth. They are kept in lock step through every nesting.

1. `Scope.Loosens` relates the scopes. Lowering the limit to what is available and entering a region
   keep it.
2. `Action.Loosens R tight loose`: wherever the tight action succeeds, the loose one does the same
   with a related value; wherever it fails, the loose one fails in the same way, unless the failure
   is one of a bound (`Cause.isBound`). Sequences are loosened step by step.
3. `Decoder.drain_of_looser`: a drain that succeeds in a scope gives the same in every looser one,
   and one that fails for another reason than a bound fails there alike.
-/

namespace Ber

/-- Whether a cause is that a bound was exceeded: the limit, or the greatest depth. -/
def Cause.isBound : Cause → Bool
  | .outOfBounds | .nestingTooDeep => true
  | _ => false

/-! ## Looser scopes -/

/-- No definite length can reach a limit of 31 bits, so all limits from there on allow the same. -/
def Scope.LimitLoosens (tight loose : Nat) : Prop := tight ≤ loose ∨ 0x80000000 ≤ loose

/-- A scope allows at least what another one allows, at the same depth. -/
structure Scope.Loosens (tight loose : Scope) : Prop where
  limit : LimitLoosens tight.limit loose.limit
  depth : tight.depth = loose.depth
  maxDepth : tight.maxDepth ≤ loose.maxDepth

/-- A container whose scope allows at least what that of another one allows. -/
structure Container.Loosens (tight loose : Container) : Prop where
  form : tight.form = loose.form
  scope : tight.scope.Loosens loose.scope
  isIndefinite : tight.isIndefinite = loose.isIndefinite

/-- The same item, but a container may have a looser scope. -/
inductive Item.Loosens : Item → Item → Prop where
  | uninterpreted (identifier : Identifier) (content : Octets) :
    Loosens (.uninterpreted identifier content) (.uninterpreted identifier content)
  | primitive (value : Primitive) : Loosens (.primitive value) (.primitive value)
  | container {tight loose : Container} (h : tight.Loosens loose) :
    Loosens (.container tight) (.container loose)

namespace Scope.Loosens

variable {tight loose : Scope}

/-- Lowering both limits to what is available. -/
theorem lower (h : tight.Loosens loose) (available : Option Nat) :
    (tight.lower available).Loosens (loose.lower available) := by
  cases available with
  | none => exact h
  | some available =>
    refine ⟨?_, h.depth, h.maxDepth⟩
    rcases h.limit with hle | hlarge
    · left
      show min tight.limit available ≤ min loose.limit available
      omega
    · -- what is available may itself be below the limit that allows everything
      by_cases hless : available ≤ loose.limit
      · left
        show min tight.limit available ≤ min loose.limit available
        omega
      · right
        show 0x80000000 ≤ min loose.limit available
        omega

/-- Entering the same region. -/
theorem inside (h : tight.Loosens loose) (region : Region) :
    (tight.inside region).Loosens (loose.inside region) := by
  have hdepth : tight.depth + 1 = loose.depth + 1 := by rw [h.depth]
  cases region with
  | definite octets => exact ⟨.inl (Nat.le_refl _), hdepth, h.maxDepth⟩
  | marked state => exact ⟨h.limit, hdepth, h.maxDepth⟩

end Scope.Loosens

/-! ## Looser actions -/

namespace Action

variable {σ τ α β γ δ : Type} {R : α → β → Prop} {S : γ → δ → Prop}

/-- Wherever an action succeeds another one does the same, with a related value, and wherever it
fails for another reason than a bound the other one fails alike. -/
def Loosens (R : α → β → Prop) (tight : Action σ α) (loose : Action σ β) : Prop :=
  ∀ state, match tight state with
    | .ok a after => ∃ b, loose state = .ok b after ∧ R a b
    | .error failure after => failure.cause.isBound ∨ loose state = .error failure after

namespace Loosens

/-- An action loosens itself. -/
theorem refl (action : Action σ α) : Loosens Eq action action := by
  intro state
  cases hrun : action state with
  | ok a after => exact ⟨a, rfl, rfl⟩
  | error failure after => exact .inr rfl

theorem pure {a : α} {b : β} (h : R a b) :
    Loosens R (Pure.pure a : Action σ α) (Pure.pure b : Action σ β) :=
  fun _ => ⟨b, rfl, h⟩

/-- A failure at a bound may be missing in the loose action. -/
theorem bound {tight : Action σ α} {loose : Action σ β}
    (h : ∀ state, ∃ failure after, tight state = .error failure after ∧ failure.cause.isBound) :
    Loosens R tight loose := by
  intro state
  obtain ⟨failure, after, hrun, hbound⟩ := h state
  rw [hrun]
  exact .inl hbound

/-- Sequences are loosened step by step. -/
theorem bind {tight : Action σ α} {loose : Action σ β} {tightRest : α → Action σ γ}
    {looseRest : β → Action σ δ} (haction : Loosens R tight loose)
    (hrest : ∀ a b, R a b → Loosens S (tightRest a) (looseRest b)) :
    Loosens S (tight >>= tightRest) (loose >>= looseRest) := by
  intro state
  have hfirst := haction state
  simp only [Bind.bind, EStateM.bind]
  cases hrun : tight state with
  | ok a after =>
    rw [hrun] at hfirst
    obtain ⟨b, hloose, hab⟩ := hfirst
    rw [hloose]
    exact hrest a b hab after
  | error failure after =>
    rw [hrun] at hfirst
    rcases hfirst with hbound | hloose
    · exact .inl hbound
    · right
      rw [hloose]

/-- After the same action, what follows is loosened. -/
theorem bind_same {action : Action σ α} {tightRest : α → Action σ γ} {looseRest : α → Action σ δ}
    (hrest : ∀ a, Loosens S (tightRest a) (looseRest a)) :
    Loosens S (action >>= tightRest) (action >>= looseRest) := by
  refine (refl action).bind fun a b hab => ?_
  subst hab
  exact hrest a

/-- A change afterwards is made by both. -/
theorem afterwards {tight : Action σ α} {loose : Action σ β} (change : σ → σ)
    (h : Loosens R tight loose) :
    Loosens R (Action.afterwards change tight) (Action.afterwards change loose) := by
  intro state
  have hrun := h state
  unfold Action.afterwards
  cases htight : tight state with
  | ok a after =>
    rw [htight] at hrun
    obtain ⟨b, hloose, hab⟩ := hrun
    rw [hloose]
    exact ⟨b, rfl, hab⟩
  | error failure after =>
    rw [htight] at hrun
    rcases hrun with hbound | hloose
    · exact .inl hbound
    · right
      rw [hloose]

end Loosens
end Action

/-! ## The decoder in a looser scope -/

namespace Length

open Ber.Action

/-- A definite length of at most 31 bits is below a looser limit if it is below the limit. -/
theorem below_loosens {tight loose octets : Nat} (hlimit : Scope.LimitLoosens tight loose)
    (hoctets : octets < 0x80000000) :
    Loosens Eq (below tight octets) (below loose octets) := by
  by_cases hbelow : octets < tight
  · have hloose : octets < loose := by
      rcases hlimit with hle | hlarge <;> omega
    unfold below
    rw [if_pos hbelow, if_pos hloose]
    exact .refl _
  · refine .bound fun state => ⟨⟨.outOfBounds, state.position⟩, state, ?_, rfl⟩
    unfold below
    rw [if_neg hbelow]
    rfl

/-- A length that is written in as many octets as announced. -/
theorem long_loosens {tight loose : Nat} (hlimit : Scope.LimitLoosens tight loose) (count : Nat) :
    Loosens Eq (long count tight) (long count loose) := by
  rw [long_eq, long_eq]
  by_cases hcount : maxOctets < count
  · rw [if_pos hcount, if_pos hcount]
    exact .refl _
  · rw [if_neg hcount, if_neg hcount]
    refine .bind_same fun octets => ?_
    dsimp only
    by_cases hlength : octets.bigEndian < 0x80000000
    · rw [if_pos hlength, if_pos hlength]
      exact below_loosens hlimit hlength
    · rw [if_neg hlength, if_neg hlength]
      exact .refl _

/-- Lengths are taken alike: the limit is applied last. -/
theorem take_loosens {tight loose : Nat} (hlimit : Scope.LimitLoosens tight loose) :
    Loosens Eq (take tight) (take loose) := by
  refine .bind_same fun first => ?_
  by_cases hshort : first < 0x80
  · rw [if_pos hshort, if_pos hshort]
    have hfirst := first.toNat_lt
    exact below_loosens hlimit (by omega)
  · rw [if_neg hshort, if_neg hshort]
    by_cases hmarked : first = 0x80
    · rw [if_pos hmarked, if_pos hmarked]
      exact .refl _
    · rw [if_neg hmarked, if_neg hmarked]
      exact long_loosens hlimit _

end Length

namespace Decoder

open Ber.Action

variable {tight loose : Scope}

/-- What is done to the source is loosened if the source's action is. -/
theorem taking_loosens {α β : Type} {R : α → β → Prop} {tight : Taking α} {loose : Taking β}
    (h : Loosens R tight loose) : Loosens R (taking tight) (taking loose) := by
  intro decoder
  have hrun := h decoder.source
  unfold taking Action.on
  cases htight : tight decoder.source with
  | ok a after =>
    rw [htight] at hrun
    obtain ⟨b, hloose, hab⟩ := hrun
    rw [hloose]
    exact ⟨b, rfl, hab⟩
  | error failure after =>
    rw [htight] at hrun
    rcases hrun with hbound | hloose
    · exact .inl hbound
    · right
      rw [hloose]

/-- A container that may be entered may be entered in a looser scope. -/
theorem enter_loosens (h : tight.Loosens loose) (form : Form) (region : Region) :
    Loosens Container.Loosens (enter tight form region) (enter loose form region) := by
  by_cases hdeep : tight.maxDepth ≤ tight.depth
  · refine .bound fun decoder => ⟨⟨.nestingTooDeep, decoder.source.position⟩, decoder, ?_, rfl⟩
    unfold enter
    rw [if_pos hdeep]
    rfl
  · have hloose : ¬ loose.maxDepth ≤ loose.depth := by
      have hdepth := h.depth
      have hmaxDepth := h.maxDepth
      omega
    unfold enter
    rw [if_neg hdeep, if_neg hloose]
    exact .bind_same fun _ => .pure ⟨rfl, h.inside region, rfl⟩

/-- Content is read alike, but for the scope of a container. -/
theorem item_loosens (h : tight.Loosens loose) (identifier : Identifier) (content : Content) :
    Loosens Item.Loosens (item tight identifier content) (item loose identifier content) := by
  cases content with
  | kept count => exact .bind_same fun _ => .pure (.uninterpreted _ _)
  | decoded count => exact .bind_same fun _ => .bind_same fun _ => .pure (.primitive _)
  | skipped =>
    exact .bind_same fun _ => .bind_same fun _ => .bind_same fun _ => .pure (.primitive _)
  | entered form region =>
    exact (enter_loosens h form region).bind fun _ _ hab => .pure (.container hab)
  | refused =>
    intro decoder
    exact .inr rfl

/-- The next value is the same, but for the scope of a container. -/
theorem next_loosens (h : tight.Loosens loose) :
    Loosens (Option.Rel Item.Loosens) (next tight) (next loose) := by
  refine .bind_same fun decoder => ?_
  have hscope := h.lower decoder.source.available
  refine .bind_same fun first => ?_
  cases first with
  | none => exact .bind_same fun _ => .bind_same fun _ => .pure .none
  | some first =>
    refine .bind_same fun identifier => (taking_loosens (Length.take_loosens hscope.limit)).bind ?_
    rintro length _ rfl
    refine .bind_same fun _ => .bind_same fun _ => ?_
    exact (item_loosens hscope identifier _).bind fun _ _ hab => .pure (.some hab)

/-- Segments are joined alike. -/
theorem joinedWithin_loosens (bound : Nat) (h : tight.Loosens loose) (pieces : List Octets) :
    Loosens Eq (joinedWithin bound tight pieces) (joinedWithin bound loose pieces) := by
  induction bound generalizing tight loose pieces with
  | zero => exact .refl _
  | succ bound ih =>
    refine .bind_same fun start => (next_loosens h).bind fun item other hitem => ?_
    cases hitem with
    | none => exact .refl _
    | some hitem =>
      cases hitem with
      | uninterpreted identifier content => exact .refl _
      | primitive value =>
        cases value with
        | octetString octets => exact ih h _
        | _ => exact .refl _
      | @container tight' loose' hcontainer =>
        obtain ⟨form, inner, isIndefinite⟩ := tight'
        obtain ⟨form', inner', isIndefinite'⟩ := loose'
        obtain ⟨rfl, hinner, rfl⟩ := hcontainer
        -- what is no octet string is refused in either scope
        cases form with
        | octetString =>
          refine ((ih hinner []).afterwards leave).bind ?_
          rintro octets _ rfl
          exact ih h _
        | _ => exact .refl _

/-- Containers are read alike if draining and joining are. -/
theorem contentsWith_loosens {drain : Scope → Decoding (List Element)}
    {join : Scope → Decoding Octets}
    (hdrain : ∀ {tight loose : Scope}, tight.Loosens loose → Loosens Eq (drain tight) (drain loose))
    (hjoin : ∀ {tight loose : Scope}, tight.Loosens loose → Loosens Eq (join tight) (join loose))
    {container other : Container} (h : container.Loosens other) :
    Loosens Eq (contentsWith drain join container) (contentsWith drain join other) := by
  obtain ⟨form, inner, isIndefinite⟩ := container
  obtain ⟨form', inner', isIndefinite'⟩ := other
  obtain ⟨rfl, hinner, rfl⟩ := h
  have hvalues : ∀ make : List Element → Element,
      Loosens Eq (do return make (← drain inner)) (do return make (← drain inner')) := by
    intro make
    refine (hdrain hinner).bind ?_
    rintro elements _ rfl
    exact .refl _
  unfold contentsWith
  cases form with
  | sequence => exact hvalues .sequence
  | set => exact hvalues .set
  | octetString =>
    refine (hjoin hinner).bind ?_
    rintro octets _ rfl
    exact .refl _
  | tagged identifier =>
    by_cases hconstructed : identifier.isConstructed
    · simp only [hconstructed, if_true]
      exact hvalues (.tagged identifier)
    · simp only [hconstructed]
      exact .refl _

/-- Values are drained alike. -/
theorem elementsWithin_loosens (bound : Nat) (h : tight.Loosens loose) (taken : List Element) :
    Loosens Eq (elementsWithin bound tight taken) (elementsWithin bound loose taken) := by
  induction bound generalizing tight loose taken with
  | zero => exact .refl _
  | succ bound ih =>
    refine (next_loosens h).bind fun item other hitem => ?_
    cases hitem with
    | none => exact .refl _
    | some hitem =>
      refine Loosens.bind (R := Eq) ?_ ?_
      · cases hitem with
        | uninterpreted identifier content => exact .refl _
        | primitive value => exact .refl _
        | container hcontainer =>
          refine .afterwards leave (contentsWith_loosens (fun h => ih h []) ?_ hcontainer)
          exact fun h => joinedWithin_loosens bound h []
      · rintro element _ rfl
        exact ih h _

/-- Draining is the same in a looser scope, unless it fails at a bound. -/
theorem drain_loosens (h : tight.Loosens loose) : Loosens Eq (drain tight) (drain loose) :=
  .bind_same fun bound => elementsWithin_loosens bound h []

/-- Larger limits and greater depths only ever take failures away. Whatever is drained with a limit
and a greatest depth is drained with larger ones, with the same elements, remarks and position; and
draining that fails, but neither for a length out of bounds nor for containers nested too deeply,
fails with larger ones at the same place in the same way. What is drained with the number of octets
as the limit is drained without a limit. -/
theorem drain_of_looser {limit limit' maxDepth maxDepth' : Nat} (hlimit : limit ≤ limit')
    (hmaxDepth : maxDepth ≤ maxDepth') (decoder : Decoder) :
    (∀ elements after, drain (Scope.top limit maxDepth) decoder = .ok elements after →
      drain (Scope.top limit' maxDepth') decoder = .ok elements after) ∧
    (∀ failure after, drain (Scope.top limit maxDepth) decoder = .error failure after →
      failure.cause ≠ .outOfBounds → failure.cause ≠ .nestingTooDeep →
      drain (Scope.top limit' maxDepth') decoder = .error failure after) ∧
    ∀ data journal elements after,
      drain (Scope.top data.length maxDepth) ⟨.ofData data, journal⟩ = .ok elements after →
      drain (Scope.top Scope.noLimit maxDepth) ⟨.ofData data, journal⟩ = .ok elements after := by
  have hscope : (Scope.top limit maxDepth).Loosens (Scope.top limit' maxDepth') :=
    ⟨.inl hlimit, rfl, hmaxDepth⟩
  refine ⟨?_, ?_, ?_⟩
  · intro elements after hdrain
    have hrun := drain_loosens hscope decoder
    rw [hdrain] at hrun
    obtain ⟨other, hloose, rfl⟩ := hrun
    exact hloose
  · intro failure after hdrain hlength hdepth
    have hrun := drain_loosens hscope decoder
    rw [hdrain] at hrun
    rcases hrun with hbound | hloose
    · cases hcause : failure.cause <;> simp_all [Cause.isBound]
    · exact hloose
  · intro data journal elements after hdrain
    -- the number of octets may exceed every limit, but no length can
    have hnone : (Scope.top data.length maxDepth).Loosens (Scope.top Scope.noLimit maxDepth) :=
      ⟨.inr (show 0x80000000 ≤ Scope.noLimit by decide), rfl, Nat.le_refl _⟩
    have hrun := drain_loosens hnone ⟨.ofData data, journal⟩
    rw [hdrain] at hrun
    obtain ⟨other, hloose, rfl⟩ := hrun
    exact hloose

/-- A sequence is drained with the least limit and depth that allow it and with the greatest ones,
and so is what is left of it when it is cut off. -/
theorem drain_of_looser_sequence :
    1 ≤ Scope.noLimit ∧ 1 ≤ Scope.defaultMaxDepth ∧
      (∃ after, drain Scope.top ⟨.ofData [0x30, 0x80, 0x05, 0x00, 0x00, 0x00], []⟩ =
        .ok [.sequence [.primitive .null]] after ∧ after.source.position = 6) ∧
      ∃ after, drain Scope.top ⟨.ofData [0x30, 0x80, 0x05, 0x00, 0x00], []⟩ =
        .error ⟨.truncated, 5⟩ after := by
  have hlimit : 1 ≤ Scope.noLimit := by decide
  have hmaxDepth : 1 ≤ Scope.defaultMaxDepth := by decide
  have hwhole := drain_of_looser hlimit hmaxDepth
    ⟨.ofData [0x30, 0x80, 0x05, 0x00, 0x00, 0x00], []⟩
  have hcut := drain_of_looser hlimit hmaxDepth ⟨.ofData [0x30, 0x80, 0x05, 0x00, 0x00], []⟩
  refine ⟨hlimit, hmaxDepth, ⟨_, hwhole.1 _ _ rfl, rfl⟩, _, hcut.2.1 _ _ rfl ?_ ?_⟩
  · intro h
    cases h
  · intro h
    cases h

end Decoder
end Ber
