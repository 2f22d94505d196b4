import Ber.Proofs.Budget
import Ber.Proofs.Marker

/-!
# Ber.Proofs.Retelling — readers that tell the same

All that decoding knows of its octets it is told by the reader, one octet at a time. So if two readers
tell the same, decoding does the same with either of them.

1. A `Retelling` says which readers tell the same as which others. The others may be at other places
   of their octets, and they may break off, with a failure that the retelling allows.
2. `Action.Retells` says of an action that it does with the others what it does with the ones. Regions
   retell what is told below them (`Region.take_retells`), so does taking an octet
   (`Retelling.octet?_retells`), and so does whatever is put together from that.
3. From there it holds of taking a value (`Retelling.next_retells`), of joining
   (`Retelling.joinedWithin_retells`) and of draining (`Retelling.drain_retells`), remarks included.
-/

namespace Ber

/-! ## Outcomes that are told again -/

/-- A failure found at another place. -/
def Failure.moved (place : Nat → Nat) (failure : Failure) : Failure :=
  ⟨failure.cause, place failure.position⟩

/-- A remark made at another place. -/
def Remark.moved (place : Nat → Nat) : Remark → Remark
  | .endOfContent position => .endOfContent (place position)
  | .header identifier length position => .header identifier length (place position)
  | .unknownTag identifier octets => .unknownTag identifier octets
  | .indefiniteNull position => .indefiniteNull (place position)
  | .drained elements position => .drained elements (place position)

namespace Action

variable {σ α β : Type} {related : σ → σ → Prop} {place : Nat → Nat} {breaks : Failure → Prop}

/-- An outcome is told again by another one, in a related state: the same value, or the same failure
at another place. The other one may break off instead. -/
def Told (related : σ → σ → Prop) (place : Nat → Nat) (breaks : Failure → Prop) :
    EStateM.Result Failure σ α → EStateM.Result Failure σ α → Prop
  | .ok a after, .ok b other => b = a ∧ related after other
  | .error failure after, .error told other =>
    (told = failure.moved place ∧ related after other) ∨ breaks told
  | .ok _ _, .error told _ => breaks told
  | .error _ _, .ok _ _ => False

/-- An outcome is told again as a value or as a failure, or the other one breaks off. -/
theorem Told.outcomes {result other : EStateM.Result Failure σ α}
    (h : Told related place breaks result other) :
    (∃ a s t, result = .ok a s ∧ other = .ok a t ∧ related s t) ∨
      (∃ failure s t, result = .error failure s ∧ other = .error (failure.moved place) t ∧
        related s t) ∨
      ∃ told t, other = .error told t ∧ breaks told := by
  cases result with
  | ok a s =>
    cases other with
    | ok b t =>
      obtain ⟨rfl, hrelated⟩ := h
      exact .inl ⟨b, s, t, rfl, rfl, hrelated⟩
    | error told t => exact .inr (.inr ⟨told, t, rfl, h⟩)
  | error failure s =>
    cases other with
    | ok b t => exact h.elim
    | error told t =>
      rcases h with ⟨rfl, hrelated⟩ | hbreaks
      · exact .inr (.inl ⟨failure, s, t, rfl, rfl, hrelated⟩)
      · exact .inr (.inr ⟨told, t, rfl, hbreaks⟩)

/-- Whatever the outcome, the other one may break off. -/
theorem Told.of_breaks {result : EStateM.Result Failure σ α} {told : Failure} {t : σ}
    (h : breaks told) : Told related place breaks result (.error told t) := by
  cases result with
  | ok a s => exact h
  | error failure s => exact .inr h

/-- From related states, an action is told again by another one. -/
def Retells (related : σ → σ → Prop) (place : Nat → Nat) (breaks : Failure → Prop)
    (action other : Action σ α) : Prop :=
  ∀ s t, related s t → Told related place breaks (action s) (other t)

namespace Retells

theorem pure (a : α) : Retells related place breaks (Pure.pure a : Action σ α) (Pure.pure a) :=
  fun _ _ h => ⟨rfl, h⟩

theorem throw (failure : Failure) :
    Retells related place breaks (MonadExcept.throw failure : Action σ α)
      (MonadExcept.throw (failure.moved place)) :=
  fun _ _ h => .inl ⟨rfl, h⟩

/-- Sequences are told again step by step. -/
theorem bind {action other : Action σ α} {rest otherRest : α → Action σ β}
    (haction : Retells related place breaks action other)
    (hrest : ∀ a, Retells related place breaks (rest a) (otherRest a)) :
    Retells related place breaks (action >>= rest) (other >>= otherRest) := by
  intro s t h
  simp only [Bind.bind, EStateM.bind]
  rcases (haction s t h).outcomes with ⟨a, s', t', hrun, htold, h'⟩ |
    ⟨failure, s', t', hrun, htold, h'⟩ | ⟨told, t', htold, hbreaks⟩
  · rw [hrun, htold]
    exact hrest a s' t' h'
  · rw [hrun, htold]
    exact .inl ⟨rfl, h'⟩
  · rw [htold]
    exact .of_breaks hbreaks

/-- A change afterwards that keeps states related. -/
theorem afterwards {change : σ → σ} {action other : Action σ α}
    (hchange : ∀ s t, related s t → related (change s) (change t))
    (haction : Retells related place breaks action other) :
    Retells related place breaks (Action.afterwards change action)
      (Action.afterwards change other) := by
  intro s t h
  unfold Action.afterwards
  rcases (haction s t h).outcomes with ⟨a, s', t', hrun, htold, h'⟩ |
    ⟨failure, s', t', hrun, htold, h'⟩ | ⟨told, t', htold, hbreaks⟩
  · rw [hrun, htold]
    exact ⟨rfl, hchange s' t' h'⟩
  · rw [hrun, htold]
    exact .inl ⟨rfl, hchange s' t' h'⟩
  · rw [htold]
    exact .of_breaks hbreaks

/-- An action on a part of the state, where related states have related parts. -/
theorem on {τ : Type} {relatedParts : τ → τ → Prop} {part : σ → τ} {put : τ → σ → σ}
    {action other : Action τ α} (hpart : ∀ s t, related s t → relatedParts (part s) (part t))
    (hput : ∀ s t p q, related s t → relatedParts p q → related (put p s) (put q t))
    (haction : Retells relatedParts place breaks action other) :
    Retells related place breaks (Action.on part put action) (Action.on part put other) := by
  intro s t h
  unfold Action.on
  rcases (haction _ _ (hpart s t h)).outcomes with ⟨a, p, q, hrun, htold, h'⟩ |
    ⟨failure, p, q, hrun, htold, h'⟩ | ⟨told, q, htold, hbreaks⟩
  · rw [hrun, htold]
    exact ⟨rfl, hput s t p q h h'⟩
  · rw [hrun, htold]
    exact .inl ⟨rfl, hput s t p q h h'⟩
  · rw [htold]
    exact .of_breaks hbreaks

end Retells
end Action

/-! ## Regions -/

section
variable {σ : Type} {supply : Supply σ} {related : σ → σ → Prop} {place : Nat → Nat}
  {breaks : Failure → Prop}

open Ber.Action

/-- Where an octet is told again, so is one that has to be there. -/
theorem Supply.require_retells
    (hposition : ∀ s t, related s t → supply.position t = place (supply.position s))
    (htake : Retells related place breaks supply.take supply.take) :
    Retells related place breaks supply.require supply.require := by
  intro s t h
  unfold Supply.require
  rcases (htake s t h).outcomes with ⟨octet, s', t', hrun, htold, h'⟩ |
    ⟨failure, s', t', hrun, htold, h'⟩ | ⟨told, t', htold, hbreaks⟩
  · rw [hrun, htold]
    cases octet with
    | some octet => exact ⟨rfl, h'⟩
    | none =>
      left
      refine ⟨?_, h'⟩
      rw [hposition s' t' h']
      rfl
  · rw [hrun, htold]
    exact .inl ⟨rfl, h'⟩
  · rw [htold]
    exact .of_breaks hbreaks

/-- A region tells again what it is told from below. -/
theorem Region.take_retells
    (hposition : ∀ s t, related s t → supply.position t = place (supply.position s))
    (htake : Retells related place breaks supply.take supply.take) :
    Retells (fun before other => other.1 = before.1 ∧ related before.2 other.2) place breaks
      (Region.take supply) (Region.take supply) := by
  have hrequire : Retells related place breaks supply.require supply.require :=
    Supply.require_retells hposition htake
  rintro ⟨region, s⟩ ⟨region', t⟩ ⟨hregion, h⟩
  obtain rfl : region' = region := hregion
  match region' with
  | .definite 0 => exact ⟨rfl, rfl, h⟩
  | .definite (remaining + 1) =>
    simp only [Region.take]
    rcases (hrequire s t h).outcomes with ⟨octet, s', t', hrun, htold, h'⟩ |
      ⟨failure, s', t', hrun, htold, h'⟩ | ⟨told, t', htold, hbreaks⟩
    · rw [hrun, htold]
      exact ⟨rfl, rfl, h'⟩
    · rw [hrun, htold]
      exact .inl ⟨rfl, rfl, h'⟩
    · rw [htold]
      exact .of_breaks hbreaks
  | .marked state =>
    have hpeeked : Retells related place breaks (Region.peeked supply state.ahead)
        (Region.peeked supply state.ahead) := by
      cases state.ahead with
      | none => exact hrequire
      | some octet => exact .pure octet
    simp only [Region.take]
    by_cases hclosed : state.closed
    · simp only [if_pos hclosed]
      exact ⟨rfl, rfl, h⟩
    simp only [if_neg hclosed]
    rcases (hpeeked s t h).outcomes with ⟨first, s', t', hrun, htold, h'⟩ |
      ⟨failure, s', t', hrun, htold, h'⟩ | ⟨told, t', htold, hbreaks⟩
    · rw [hrun, htold]
      by_cases hzero : (state.watching && first == 0) = true
      · -- a zero octet: the second octet decides
        simp only [if_pos hzero]
        rcases (hrequire s' t' h').outcomes with ⟨second, s'', t'', hrun', htold', h''⟩ |
          ⟨failure, s'', t'', hrun', htold', h''⟩ | ⟨told, t'', htold', hbreaks⟩
        · rw [hrun', htold']
          by_cases hmarker : (second == 0) = true
          · simp only [if_pos hmarker]
            exact ⟨rfl, rfl, h''⟩
          · simp only [if_neg hmarker]
            exact ⟨rfl, rfl, h''⟩
        · rw [hrun', htold']
          exact .inl ⟨rfl, rfl, h''⟩
        · rw [htold']
          exact .of_breaks hbreaks
      · simp only [if_neg hzero]
        exact ⟨rfl, rfl, h'⟩
    · rw [hrun, htold]
      exact .inl ⟨rfl, rfl, h'⟩
    · rw [htold]
      exact .of_breaks hbreaks

end

/-! ## Readers -/

/-- Which readers tell the same as which others. -/
structure Retelling where
  /-- The second reader tells what the first one does. -/
  alike : Reader → Reader → Prop
  /-- Where the second one is when the first one is at a place. -/
  place : Nat → Nat
  /-- The failures with which the second one may break off. -/
  breaks : Failure → Prop
  position : ∀ {reader other}, alike reader other → other.position = place reader.position
  /-- Neither has more octets left. -/
  left : ∀ {reader other}, alike reader other →
    other.octetsLeft.length = reader.octetsLeft.length
  next : Action.Retells alike place breaks Reader.next Reader.next

namespace Retelling

open Ber.Action Source

variable (retelling : Retelling) {s t : Source} {d e : Decoder} {scope : Scope} {α β : Type}

/-- Sources with the same regions, on readers that tell the same. -/
structure Sources (source other : Source) : Prop where
  regions : other.regions = source.regions
  reader : retelling.alike source.reader other.reader

/-- Decoders on such sources, with the same remarks. -/
structure Decoders (decoder other : Decoder) : Prop where
  source : retelling.Sources decoder.source other.source
  journal : other.journal = decoder.journal.map (·.moved retelling.place)

variable {retelling}

namespace Sources

theorem enter (h : retelling.Sources s t) (region : Region) :
    retelling.Sources (s.enter region) (t.enter region) :=
  ⟨congrArg (region :: ·) h.regions, h.reader⟩

theorem leave (h : retelling.Sources s t) : retelling.Sources s.leave t.leave :=
  ⟨congrArg List.tail h.regions, h.reader⟩

theorem watch (h : retelling.Sources s t) (enabled : Bool) :
    retelling.Sources (s.watch enabled) (t.watch enabled) :=
  ⟨congrArg (·.modifyHead (·.watch enabled)) h.regions, h.reader⟩

theorem position (h : retelling.Sources s t) : t.position = retelling.place s.position :=
  retelling.position h.reader

theorem available (h : retelling.Sources s t) : t.available = s.available :=
  congrArg (·.foldr Region.available none) h.regions

theorem left (h : retelling.Sources s t) : t.left = s.left := by
  unfold Source.left
  rw [h.regions, retelling.left h.reader]

end Sources

/-! ## Taking octets -/

variable (retelling)

/-- From sources that tell the same, an action does the same. -/
def Takes (action : Taking α) : Prop :=
  Retells retelling.Sources retelling.place retelling.breaks action action

theorem fail_retells (cause : Cause) : retelling.Takes (fail cause : Taking α) := by
  intro s t h
  left
  refine ⟨?_, h⟩
  rw [h.position]
  rfl

/-- Where no region is looked at, the reader is asked. -/
theorem reader_retells : retelling.Takes (takeThrough 0) := by
  intro s t h
  have hnext := retelling.next s.reader t.reader h.reader
  simp only [takeThrough]
  rcases hnext.outcomes with ⟨octet, r, r', hrun, htold, h'⟩ |
    ⟨failure, r, r', hrun, htold, h'⟩ | ⟨told, r', htold, hbreaks⟩
  · rw [hrun, htold]
    exact ⟨rfl, h.regions, h'⟩
  · rw [hrun, htold]
    exact .inl ⟨rfl, h.regions, h'⟩
  · rw [htold]
    exact .of_breaks hbreaks

/-- An octet is told again through any number of regions. -/
theorem takeThrough_retells (height : Nat) : retelling.Takes (takeThrough height) := by
  induction height with
  | zero => exact retelling.reader_retells
  | succ height ih =>
    rintro ⟨regions', reader⟩ ⟨regions, other⟩ ⟨hregions, h⟩
    obtain rfl : regions = regions' := hregions
    cases regions with
    | nil => exact retelling.reader_retells ⟨[], reader⟩ ⟨[], other⟩ ⟨rfl, h⟩
    | cons region below =>
      have htake := @Region.take_retells _ ⟨takeThrough height, Source.position⟩ _ _ _
        (fun s t h => h.position) ih (region, ⟨below, reader⟩) (region, ⟨below, other⟩)
        ⟨rfl, rfl, h⟩
      have henter : ∀ u v : Region × Source, v.1 = u.1 → retelling.Sources u.2 v.2 →
          retelling.Sources (u.2.enter u.1) (v.2.enter v.1) := by
        intro u v hregion h'
        rw [hregion]
        exact h'.enter u.1
      simp only [takeThrough]
      rcases htake.outcomes with ⟨octet, u, v, hrun, htold, hregion, h'⟩ |
        ⟨failure, u, v, hrun, htold, hregion, h'⟩ | ⟨told, v, htold, hbreaks⟩
      · rw [hrun, htold]
        exact ⟨rfl, henter u v hregion h'⟩
      · rw [hrun, htold]
        exact .inl ⟨rfl, henter u v hregion h'⟩
      · rw [htold]
        exact .of_breaks hbreaks

theorem octet?_retells : retelling.Takes octet? := by
  intro s t h
  have htake := retelling.takeThrough_retells s.regions.length s t h
  rw [show octet? t = takeThrough t.regions.length t from rfl, h.regions]
  exact htake

theorem octet_retells : retelling.Takes octet := by
  refine retelling.octet?_retells.bind fun found => ?_
  cases found with
  | none => exact retelling.fail_retells _
  | some octet => exact .pure octet

theorem firstOctet?_retells : retelling.Takes firstOctet? := by
  refine .afterwards (fun s t h => h.watch false) ?_
  intro s t h
  exact retelling.octet?_retells _ _ (h.watch true)

theorem exhaust_retells : retelling.Takes exhaust := by
  intro s t h
  generalize hleft : s.left = left
  induction left using Nat.strongRecOn generalizing s t with
  | ind left ih =>
    subst hleft
    rcases (retelling.octet?_retells s t h).outcomes with ⟨_ | octet, s', t', hrun, htold, h'⟩ |
      ⟨failure, s', t', hrun, htold, h'⟩ | ⟨told, t', htold, hbreaks⟩
    · rw [exhaust_of_none hrun, exhaust_of_none htold]
      exact ⟨rfl, h'⟩
    · rw [exhaust_of_some hrun, exhaust_of_some htold]
      have hless := left_of_octet?_eq_ok hrun
      exact ih _ (by omega) s' t' h' rfl
    · rw [exhaust_of_error hrun, exhaust_of_error htold]
      exact .inl ⟨rfl, h'⟩
    · rw [exhaust_of_error htold]
      exact .of_breaks hbreaks

theorem skipToEnd_retells : retelling.Takes skipToEnd :=
  fun _ _ h => retelling.exhaust_retells _ _ (h.watch true)

/-- What is put together from taking octets is told again. -/
theorem retells_of_scans {action : Taking α} (h : Scans action) : retelling.Takes action := by
  induction h with
  | pure a => exact .pure a
  | fail cause => exact retelling.fail_retells cause
  | octet => exact retelling.octet_retells
  | skip =>
    refine .afterwards (fun s t h => h.leave) ?_
    intro s t h
    exact retelling.skipToEnd_retells _ _ (h.enter _)
  | bind _ _ haction hrest => exact haction.bind hrest

theorem remainder_retells : retelling.Takes remainder := by
  rintro ⟨regions', reader⟩ ⟨regions, other⟩ ⟨hregions, h⟩
  obtain rfl : regions = regions' := hregions
  match regions with
  | [] => exact retelling.fail_retells _ _ _ ⟨rfl, h⟩
  | .marked state :: below => exact retelling.fail_retells _ _ _ ⟨rfl, h⟩
  | .definite remaining :: below =>
    exact retelling.retells_of_scans (octets_scans remaining) _ _ ⟨rfl, h⟩

/-! ## Decoding -/

/-- From decoders that tell the same, an action does what another one does. -/
def Decodes (action other : Decoding α) : Prop :=
  Retells retelling.Decoders retelling.place retelling.breaks action other

theorem taking_retells {action : Taking α} (h : retelling.Takes action) :
    retelling.Decodes (liftM action) (liftM action) :=
  .on (fun _ _ h => h.source) (fun _ _ _ _ h hsource => ⟨hsource, h.journal⟩) h

/-- What is done with a position is done with where that is told. -/
theorem position_bind {rest other : Nat → Decoding α}
    (h : ∀ position, retelling.Decodes (rest position) (other (retelling.place position))) :
    retelling.Decodes (Decoder.position >>= rest) (Decoder.position >>= other) := by
  intro d e hde
  have hrest := h d.source.position d e hde
  rw [← hde.source.position] at hrest
  exact hrest

theorem remark_retells (remark : Remark) :
    retelling.Decodes (Decoder.remark remark) (Decoder.remark (remark.moved retelling.place)) :=
  fun _ _ h => ⟨rfl, h.source, congrArg (_ :: ·) h.journal⟩

theorem leaving_retells {action other : Decoding α} (h : retelling.Decodes action other) :
    retelling.Decodes (Decoder.leaving action) (Decoder.leaving other) :=
  h.afterwards fun _ _ h => ⟨h.source.leave, h.journal⟩

theorem decode_retells (identifier : Identifier) (content : Octets) :
    retelling.Decodes (Decoder.decode identifier content) (Decoder.decode identifier content) := by
  unfold Decoder.decode
  cases Primitive.ofContent identifier content with
  | error reason => exact retelling.taking_retells (retelling.fail_retells _)
  | ok value =>
    cases value with
    | unknown named octets => exact (retelling.remark_retells _).bind fun _ => .pure _
    | _ => exact fun _ _ h => ⟨rfl, h⟩

theorem enter_retells (form : Form) (region : Region) :
    retelling.Decodes (Decoder.enter scope form region) (Decoder.enter scope form region) := by
  unfold Decoder.enter
  by_cases hdeep : scope.maxDepth ≤ scope.depth
  · simp only [if_pos hdeep]
    exact (retelling.taking_retells (retelling.fail_retells _)).bind fun _ _ _ h =>
      ⟨rfl, h.source.enter region, h.journal⟩
  · simp only [if_neg hdeep]
    exact fun _ _ h => ⟨rfl, h.source.enter region, h.journal⟩

/-- The content of a value is told again. -/
theorem item_retells (identifier : Identifier) (content : Content) :
    retelling.Decodes (Decoder.item scope identifier content)
      (Decoder.item scope identifier content) := by
  have hoctets : ∀ count, retelling.Takes (octets count) := fun count =>
    retelling.retells_of_scans (octets_scans count)
  cases content with
  | kept count => exact (retelling.taking_retells (hoctets count)).bind fun _ => .pure _
  | decoded count =>
    exact (retelling.taking_retells (hoctets count)).bind fun _ =>
      (retelling.decode_retells _ _).bind fun _ => .pure _
  | skipped =>
    exact (retelling.taking_retells (retelling.retells_of_scans .skip)).bind fun _ =>
      retelling.position_bind fun _ => (retelling.remark_retells _).bind fun _ => .pure _
  | entered form region => exact (retelling.enter_retells form region).bind fun _ => .pure _
  | refused => exact retelling.taking_retells (retelling.fail_retells _)

/-- The next value is told again. -/
theorem next_retells (scope : Scope) :
    retelling.Decodes (Decoder.next scope) (Decoder.next scope) := by
  intro d e hde
  refine ((retelling.taking_retells retelling.firstOctet?_retells).bind fun found => ?_) d e hde
  cases found with
  | none =>
    exact retelling.position_bind fun _ => (retelling.remark_retells _).bind fun _ => .pure _
  | some first =>
    -- as many octets are available in both
    rw [hde.source.available]
    refine (retelling.taking_retells
      (retelling.retells_of_scans (Identifier.after_scans first))).bind fun identifier => ?_
    refine (retelling.taking_retells
      (retelling.retells_of_scans (Length.take_scans _))).bind fun length => ?_
    refine retelling.position_bind fun _ => (retelling.remark_retells _).bind fun _ => ?_
    exact (retelling.item_retells identifier _).bind fun _ => .pure _

/-! ## Reading as a whole -/

/-- The joined segments are told again. -/
theorem joinedWithin_retells (bound : Nat) (scope : Scope) (pieces : List Octets) :
    retelling.Decodes (Decoder.joinedWithin bound scope pieces)
      (Decoder.joinedWithin bound scope pieces) := by
  induction bound generalizing scope pieces with
  | zero => exact retelling.taking_retells (retelling.fail_retells _)
  | succ bound ih =>
    -- a foreign segment is refused at its start, wherever that is
    refine retelling.position_bind fun start => (retelling.next_retells scope).bind fun item => ?_
    match item with
    | none => exact .pure _
    | some (.primitive value) =>
      cases value with
      | octetString octets => exact ih _ _
      | _ => exact .throw ⟨Decoder.foreignSegment, start⟩
    | some (.container ⟨form, inner, isIndefinite⟩) =>
      cases form with
      | octetString => exact (retelling.leaving_retells (ih _ _)).bind fun _ => ih _ _
      | _ => exact retelling.leaving_retells (.throw ⟨Decoder.foreignSegment, start⟩)
    | some (.uninterpreted identifier content) => exact .throw ⟨Decoder.foreignSegment, start⟩

/-- A container is told again if what is drained and joined is. -/
theorem contentsWith_retells {drain : Scope → Decoding (List Element)}
    {join : Scope → Decoding Octets} (hdrain : ∀ scope, retelling.Decodes (drain scope) (drain scope))
    (hjoin : ∀ scope, retelling.Decodes (join scope) (join scope)) (container : Container) :
    retelling.Decodes (Decoder.contentsWith drain join container)
      (Decoder.contentsWith drain join container) := by
  unfold Decoder.contentsWith
  cases container.form with
  | sequence => exact (hdrain _).bind fun _ => .pure _
  | set => exact (hdrain _).bind fun _ => .pure _
  | octetString => exact (hjoin _).bind fun _ => .pure _
  | tagged identifier =>
    by_cases hconstructed : identifier.isConstructed
    · simp only [hconstructed, if_true]
      exact (hdrain _).bind fun _ => .pure _
    · simp only [hconstructed]
      exact (retelling.taking_retells retelling.remainder_retells).bind fun _ => .pure _

theorem elementWith_retells {contents : Container → Decoding Element}
    (hcontents : ∀ container, retelling.Decodes (contents container) (contents container))
    (item : Item) :
    retelling.Decodes (Decoder.elementWith contents item) (Decoder.elementWith contents item) := by
  cases item with
  | uninterpreted identifier content => exact .pure _
  | primitive value => exact .pure _
  | container container => exact retelling.leaving_retells (hcontents container)

/-- The drained values are told again. -/
theorem elementsWithin_retells (bound : Nat) (scope : Scope) (taken : List Element) :
    retelling.Decodes (Decoder.elementsWithin bound scope taken)
      (Decoder.elementsWithin bound scope taken) := by
  induction bound generalizing scope taken with
  | zero => exact retelling.taking_retells (retelling.fail_retells _)
  | succ bound ih =>
    refine (retelling.next_retells scope).bind fun item => ?_
    cases item with
    | none =>
      exact retelling.position_bind fun _ => (retelling.remark_retells _).bind fun _ => .pure _
    | some item =>
      have helement := retelling.elementWith_retells
        (retelling.contentsWith_retells (ih · []) (retelling.joinedWithin_retells bound · [])) item
      exact helement.bind fun _ => ih _ _

/-- The same bound is set from sources that tell the same. -/
theorem bound_retells : retelling.Decodes Decoder.bound Decoder.bound :=
  fun _ _ h => ⟨congrArg (· + 1) h.source.left, h⟩

/-- Draining is told again. -/
theorem drain_retells (scope : Scope) :
    retelling.Decodes (Decoder.drain scope) (Decoder.drain scope) :=
  retelling.bound_retells.bind fun bound => retelling.elementsWithin_retells bound scope []

/-- So it is without remarks. -/
theorem elementsFrom_retells (scope : Scope) : retelling.Takes (elementsFrom scope []) := by
  intro s t h
  have hdrain := retelling.drain_retells scope ⟨s, []⟩ ⟨t, []⟩ ⟨h, rfl⟩
  rw [← Decoder.silent_drain scope s [], ← Decoder.silent_drain scope t []]
  rcases hdrain.outcomes with ⟨elements, d, e, hrun, htold, h'⟩ |
    ⟨failure, d, e, hrun, htold, h'⟩ | ⟨told, e, htold, hbreaks⟩
  · rw [hrun, htold]
    exact ⟨rfl, h'.source⟩
  · rw [hrun, htold]
    exact .inl ⟨rfl, h'.source⟩
  · rw [htold]
    exact .of_breaks hbreaks

theorem joined_retells (scope : Scope) :
    retelling.Decodes (Decoder.joined scope) (Decoder.joined scope) :=
  retelling.bound_retells.bind fun bound => retelling.joinedWithin_retells bound scope []

theorem contents_retells (container : Container) :
    retelling.Decodes (Decoder.contents container) (Decoder.contents container) :=
  retelling.contentsWith_retells retelling.drain_retells retelling.joined_retells container

theorem element_retells (item : Item) :
    retelling.Decodes (Decoder.element item) (Decoder.element item) :=
  retelling.elementWith_retells retelling.contents_retells item

end Retelling
end Ber
