import Ber.Proofs.Surroundings

/-!
# Ber.Proofs.Limits — limits along nested containers

The limit inside a definite container is its length, and that is below the limit around it and below
what is left there. An indefinite container passes the limit on, lowered to what is left. So the limits
never grow from a container to those inside it, and content that is read in one piece is shorter than
every limit around it.

`Session.limits_of_visits` says so of every session that operations lead to, failing ones included, and
of every moment on the way of its next operation.
-/

namespace Ber

open Source

/-! ## The limit of a container -/

/-- The limit of a container, from its length and from the scope it is found in, where so many octets are
left in front of it, if that is known. -/
def Container.LimitedBy (container : Container) (scope : Scope) (left? : Option Nat) : Length → Prop
  | .definite octets => container.isIndefinite = false ∧ container.scope.limit = octets ∧
      octets < scope.limit ∧ ∀ left, left? = some left → octets < left
  | .indefinite => container.isIndefinite = true ∧
      container.scope.limit = left?.elim scope.limit (min scope.limit)

/-- A container that is taken has the limit that its length gives. -/
theorem Source.limitedBy_of_next {scope : Scope} {container : Container} {s t : Source}
    (h : next scope s = .ok (some (.container container)) t) :
    ∃ identifier length behind, Accepts scope identifier length s behind ∧
      container.LimitedBy scope s.available length := by
  obtain ⟨identifier, length, behind, form, haccepts, -, -, -, rfl⟩ := next_container_iff.1 h
  refine ⟨identifier, length, behind, haccepts, ?_⟩
  cases length with
  | definite octets => exact ⟨rfl, rfl, Scope.lt_lower_limit_iff.1 haccepts.definite_lt⟩
  | indefinite =>
    refine ⟨rfl, ?_⟩
    show (scope.lower s.available).limit = _
    cases s.available <;> rfl

/-- Containers that are open inside one another have limits that do not grow. -/
def Scope.Narrows (top : Scope) (opened : List Container) : Prop :=
  ∀ container below, container :: below <:+ opened →
    container.scope.limit ≤ (top.innermost below).limit ∧
      (container.isIndefinite = false → container.scope.limit < (top.innermost below).limit)

theorem Scope.Chain.narrows {top : Scope} {opened : List Container} (h : top.Chain opened) :
    top.Narrows opened := fun _ _ hsuffix =>
  have hfound := (h.of_suffix hsuffix).1
  ⟨hfound.limit, hfound.shorter⟩

/-- A number of octets is below every limit: that outside of all containers, and those in them. -/
def Scope.Exceeds (top : Scope) (opened : List Container) (count : Nat) : Prop :=
  count < top.limit ∧ ∀ container ∈ opened, count < container.scope.limit

/-- What is below the innermost limit is below every limit. -/
theorem Scope.Chain.exceeds {top : Scope} {opened : List Container} {count : Nat}
    (h : top.Chain opened) (hcount : count < (top.innermost opened).limit) :
    top.Exceeds opened count :=
  ⟨Nat.lt_of_lt_of_le hcount h.limit_le.1,
    fun container hmem => Nat.lt_of_lt_of_le hcount (h.limit_le.2 container hmem)⟩

/-! ## Content in one piece -/

namespace Source

variable {s t : Source} {count : Nat} {c : Octets}

/-- As many octets are taken as asked for. -/
theorem length_of_octets (h : octets count s = .ok c t) : c.length = count := by
  have hafter : ∀ (count : Nat) (taken : Octets) (s : Source),
      octetsAfter taken count s = .ok c t → c.length = taken.length + count := by
    intro count
    induction count with
    | zero =>
      intro taken s h
      obtain ⟨rfl, -⟩ := Action.pure_eq_ok.1 h
      exact List.length_reverse
    | succ count ih =>
      intro taken s h
      obtain ⟨octet, m, -, hrest⟩ := Action.bind_eq_ok.1 h
      rw [ih _ _ hrest, List.length_cons]
      omega
  rw [hafter count [] s h]
  exact Nat.zero_add count

/-- What remains of a region is taken from a definite one, and is no more than it has left. -/
theorem remainder_eq_ok (h : remainder s = .ok c t) :
    ∃ regions, s.regions = .definite c.length :: regions := by
  unfold remainder at h
  split at h
  · next remaining regions hregions =>
    rw [length_of_octets h]
    exact ⟨regions, hregions⟩
  · cases h

end Source

/-- An item is made of content: it is the content itself, or decoded from it. -/
def Item.MadeOf (identifier : Identifier) (content : Octets) (item : Item) : Prop :=
  item = .uninterpreted identifier content ∨
    ∃ value, Primitive.ofContent identifier content = .ok value ∧ item = .primitive value

/-- A value of definite length that is no container is made of as many octets as its length says. -/
theorem Source.madeOf_of_item {scope : Scope} {identifier : Identifier} {count : Nat} {item : Item}
    {s t : Source} (hitem : item.isContainer = false)
    (h : Source.item scope identifier (.of identifier (.definite count)) s = .ok item t) :
    ∃ octets, octets.length = count ∧ item.MadeOf identifier octets := by
  have hallowed := Content.allowed_of identifier (.definite count)
  cases hcontent : Content.of identifier (.definite count) with
  | kept octets =>
    rw [hcontent] at h hallowed
    obtain ⟨c, m, hc, hpure⟩ := Action.bind_eq_ok.1 h
    obtain ⟨rfl, -⟩ := Action.pure_eq_ok.1 hpure
    cases hallowed.1
    exact ⟨c, length_of_octets hc, .inl rfl⟩
  | decoded octets =>
    rw [hcontent] at h hallowed
    obtain ⟨c, m, hc, hrest⟩ := Action.bind_eq_ok.1 h
    obtain ⟨value, m', hvalue, hpure⟩ := Action.bind_eq_ok.1 hrest
    obtain ⟨rfl, -⟩ := Action.pure_eq_ok.1 hpure
    cases hallowed.1
    exact ⟨c, length_of_octets hc, .inr ⟨value, (decode_eq_ok_iff.1 hvalue).1, rfl⟩⟩
  | entered form region =>
    rw [hcontent] at h
    obtain ⟨-, -, rfl⟩ := item_entered_eq_ok_iff.1 h
    cases hitem
  | skipped =>
    rw [hcontent] at hallowed
    cases hallowed.1
  | refused =>
    rw [hcontent] at h
    cases h

namespace Session

/-! ## Sessions -/

/-- Limits never grow from a container to those inside it, and everything that is taken in one piece is
shorter than every limit around it. -/
structure Limited (limit : Nat) (session : Session) : Prop where
  /-- The limit outside of all containers stays what it was. -/
  top : session.top.limit = limit
  /-- The limits of the open containers do not grow, and so it is of those that are opened on the way
  of an operation. -/
  opened : session.top.Narrows session.opened
  around : ∀ operation opened moment,
    session.Around operation opened moment → session.top.Narrows opened
  /-- A container that an operation hands out has the limit that its length gives, … -/
  handed : ∀ operation container after,
    perform operation session = .ok (.item (.container container)) after →
    ∃ identifier length behind,
      Accepts session.current identifier length session.decoder.source behind ∧
      container.LimitedBy session.current session.decoder.source.available length
  /-- … and so has one that is found on the way of an operation. -/
  found : ∀ operation opened scope decoder container after,
    session.Around operation opened (.next scope, decoder) →
    Decoder.next scope decoder = .ok (some (.container container)) after →
    scope = session.top.innermost opened ∧ ∃ identifier length behind,
      Accepts scope identifier length decoder.source behind ∧
      container.LimitedBy scope decoder.source.available length
  /-- A definite length that is accepted is below every limit around the value, and a value that is no
  container is made of as many octets. -/
  pieces : ∀ operation opened scope decoder identifier count behind,
    session.Around operation opened (.next scope, decoder) →
    Accepts scope identifier (.definite count) decoder.source behind →
    session.top.Exceeds opened count ∧
      ∀ item after, Decoder.next scope decoder = .ok (some item) after →
        item.isContainer = false →
        ∃ octets, octets.length = count ∧ item.MadeOf identifier octets
  /-- What is taken of a container as it is comes from a definite one. It is no longer than that, and
  shorter than every limit around the container. -/
  taken : ∀ operation opened decoder octets after,
    session.Around operation opened (.remainder, decoder) →
    (liftM Source.remainder : Decoding Octets) decoder = .ok octets after →
    ∃ container below, opened = container :: below ∧ container.isIndefinite = false ∧
      octets.length ≤ container.scope.limit ∧ session.top.Exceeds below octets.length
  /-- So is the content that an operation replies with. -/
  content : ∀ operation octets after,
    perform operation session = .ok (.content octets) after →
    ∃ container below, session.opened = container :: below ∧ container.isIndefinite = false ∧
      octets.length ≤ container.scope.limit ∧ session.top.Exceeds below octets.length
  /-- Whatever an operation does on its way, it does inside containers that are kept account of. -/
  throughout : ∀ operation moment, session.Includes operation moment →
    ∃ entered, session.Around operation (entered ++ session.opened) moment

variable {session : Session}

/-- What is taken as it is of the region of the innermost container. The container is definite, so it
is no longer than its limit, and that is below those around it. -/
theorem exceeds_of_remainder {top : Scope} {opened : List Container} {source after : Source}
    {octets : Octets} (hchain : top.Chain opened) (hfitted : Fitted opened source.regions)
    (hopened : opened ≠ []) (h : Source.remainder source = .ok octets after) :
    ∃ container below, opened = container :: below ∧ container.isIndefinite = false ∧
      octets.length ≤ container.scope.limit ∧ top.Exceeds below octets.length := by
  obtain ⟨regions, hregions⟩ := remainder_eq_ok h
  rw [hregions] at hfitted
  cases opened with
  | nil => exact absurd rfl hopened
  | cons container below =>
    have hdefinite : container.isIndefinite = false := hfitted.1.1
    have hle : octets.length ≤ container.scope.limit := hfitted.1.2 _ rfl
    have hlt := hchain.1.shorter hdefinite
    exact ⟨container, below, rfl, hdefinite, hle, hchain.2.exceeds (by omega)⟩

/-- Whatever operations have been carried out on a new session, failing ones included, from wherever
its source stood. -/
theorem limits_of_visits {decoder : Decoder} {limit maxDepth : Nat}
    (h : Visits ⟨decoder, Scope.top limit maxDepth, []⟩ session) : session.Limited limit := by
  have hrooted : session.Rooted limit := rooted_of_visits h
  -- where a value is taken, the scope is that of the innermost container
  have hscope : ∀ {operation opened scope decoder},
      session.Around operation opened (.next scope, decoder) →
      session.top.Chain opened ∧ scope = session.top.innermost opened := by
    intro operation opened scope decoder haround
    have hstands := stands_of_around hrooted haround
    exact ⟨hstands.chain, hstands.acts⟩
  constructor
  case top => exact hrooted.limit
  case opened => exact hrooted.chain.narrows
  case around =>
    intro operation opened moment haround
    exact (stands_of_around hrooted haround).chain.narrows
  case handed =>
    intro operation container after hhanded
    have hnext := (perform_moves hhanded).1.next_of_container rfl
    exact limitedBy_of_next hnext
  case found =>
    intro operation opened scope decoder container after haround hnext
    have hsource := (Decoder.silent_next scope).of_ok hnext
    exact ⟨(hscope haround).2, limitedBy_of_next hsource⟩
  case pieces =>
    intro operation opened scope decoder identifier count behind haround haccepts
    obtain ⟨hchain, rfl⟩ := hscope haround
    have hbelow := (Scope.lt_lower_limit_iff.1 haccepts.definite_lt).1
    refine ⟨hchain.exceeds hbelow, ?_⟩
    intro item after hnext hitem
    have hsource := (Decoder.silent_next _).of_ok hnext
    rw [haccepts.next_eq] at hsource
    split at hsource
    · next found t hfound =>
      cases hsource
      exact madeOf_of_item hitem hfound
    · cases hsource
  case taken =>
    intro operation opened decoder octets after haround htaken
    have hstands := stands_of_around hrooted haround
    have hsource := (Decoder.Silent.liftM Source.remainder).of_ok htaken
    exact exceeds_of_remainder hstands.chain hstands.fits hstands.acts hsource
  case content =>
    intro operation octets after hreplied
    obtain ⟨hopened, hsource⟩ := (perform_moves hreplied).1.remainder_of_content rfl
    exact exceeds_of_remainder hrooted.chain hrooted.fitted hopened hsource
  case throughout =>
    intro operation moment hincludes
    exact around_of_includes hincludes

/-- A tagged value in a sequence that ends with a marker: the limit is passed on, and the content is
below it. -/
theorem limits_of_visits_tagged :
    ∃ session,
      Visits ⟨⟨⟨[], .ofData [0x30, 0x80, 0x80, 0x01, 0x41, 0x00, 0x00]⟩, []⟩, Scope.top 7 128, []⟩
        session ∧ session.Limited 7 ∧ session.opened.map (·.scope.limit) = [1, 7] ∧
      ∃ after, perform .takeContent session = .ok (.content [0x41]) after := by
  have hfirst := @Visits.first
    ⟨⟨⟨[], .ofData [0x30, 0x80, 0x80, 0x01, 0x41, 0x00, 0x00]⟩, []⟩, Scope.top 7 128, []⟩
  have hinner := (hfirst.step .pull).step .pull
  exact ⟨_, hinner, limits_of_visits hinner, rfl, _, rfl⟩

end Session
end Ber
