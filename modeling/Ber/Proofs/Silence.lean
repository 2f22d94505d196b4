import Ber.Decoder.Drain

/-!
# Ber.Proofs.Silence — decoding without the journal

The remarks that a decoder has made never decide what it does next. So every decoding has a silent
counterpart that acts on the source alone.

1. `Silent action taking` says that `taking` is `action` with its remarks left out. Sequences of
   actions are silenced step by step (`Silent.bind`).
2. `Source.next`, `Source.joinedWithin` and `Source.elementsWithin` are the decoder without remarks
   (`silent_next`, `silent_joinedWithin`, `silent_elementsWithin`).
-/

namespace Ber

/-! ## Outcomes without the journal -/

namespace Decoder

variable {α β : Type}

/-- The outcome of a decoding as far as the source goes. -/
def forget : EStateM.Result Failure Decoder α → EStateM.Result Failure Source α
  | .ok value decoder => .ok value decoder.source
  | .error failure decoder => .error failure decoder.source

/-- A decoding does to the source what an action on the source does, whatever remarks were made
before. -/
def Silent (action : Decoding α) (taking : Taking α) : Prop :=
  ∀ source journal, forget (action ⟨source, journal⟩) = taking source

namespace Silent

variable {action : Decoding α} {taking : Taking α} {decoder : Decoder} {value : α}
  {after : Source}

/-- A decoding succeeds as it does on the source alone, and leaves some journal. -/
theorem eq_ok_iff (hsilent : Silent action taking) :
    taking decoder.source = .ok value after ↔
      ∃ journal, action decoder = .ok value ⟨after, journal⟩ := by
  rw [← hsilent decoder.source decoder.journal]
  constructor
  · intro hok
    cases hrun : action decoder with
    | ok a m =>
      rw [hrun] at hok
      simp only [forget, EStateM.Result.ok.injEq] at hok
      exact ⟨m.journal, by rw [← hok.1, ← hok.2]⟩
    | error cause m =>
      rw [hrun] at hok
      simp [forget] at hok
  · intro h
    rcases h with ⟨journal, hrun⟩
    rw [hrun]
    rfl

/-- A decoding fails as it does on the source alone. -/
theorem eq_error_iff {failure : Failure} (hsilent : Silent action taking) :
    taking decoder.source = .error failure after ↔
      ∃ journal, action decoder = .error failure ⟨after, journal⟩ := by
  rw [← hsilent decoder.source decoder.journal]
  constructor
  · intro herror
    cases hrun : action decoder with
    | ok a m =>
      rw [hrun] at herror
      simp [forget] at herror
    | error cause m =>
      rw [hrun] at herror
      simp only [forget, EStateM.Result.error.injEq] at herror
      exact ⟨m.journal, by rw [← herror.1, ← herror.2]⟩
  · intro h
    rcases h with ⟨journal, hrun⟩
    rw [hrun]
    rfl

/-- Decodings in sequence do to the source what each of them does. -/
theorem bind {rest : α → Decoding β} {takingRest : α → Taking β} (haction : Silent action taking)
    (hrest : ∀ a, Silent (rest a) (takingRest a)) :
    Silent (action >>= rest) (taking >>= takingRest) := by
  intro source journal
  have h := haction source journal
  simp only [Bind.bind, EStateM.bind]
  cases hrun : action ⟨source, journal⟩ with
  | ok a m =>
    rw [← h, hrun]
    exact hrest a m.source m.journal
  | error cause m =>
    rw [← h, hrun]
    rfl

/-- A remark goes unheard. -/
theorem remark_bind {rest : Unit → Decoding β} {taking : Taking β} (r : Remark)
    (hrest : Silent (rest ()) taking) : Silent (remark r >>= rest) taking :=
  fun source journal => hrest source (r :: journal)

/-- What is made of the position in remarks goes unheard. -/
theorem position_bind {rest : Nat → Decoding β} {taking : Taking β}
    (hrest : ∀ position, Silent (rest position) taking) :
    Silent (position >>= rest) taking :=
  fun source journal => hrest source.position source journal

theorem pure (a : α) : Silent (pure a) (pure a) := fun _ _ => rfl

theorem throw (failure : Failure) : Silent (throw failure : Decoding α) (throw failure) :=
  fun _ _ => rfl

/-- An action on the source is silent as it is. -/
theorem liftM (taking : Taking α) : Silent (liftM taking) taking := by
  intro source journal
  change forget (Decoder.taking taking ⟨source, journal⟩) = taking source
  simp only [Decoder.taking, Action.on]
  cases taking source <;> rfl

/-- Leaving the innermost region concerns the source only. -/
theorem leaving (haction : Silent action taking) :
    Silent (leaving action) (Action.afterwards Source.leave taking) := by
  intro source journal
  simp only [Decoder.leaving, Action.afterwards, ← haction source journal]
  cases action ⟨source, journal⟩ <;> rfl

end Silent
end Decoder

/-! ## The decoder without remarks -/

namespace Source

/-- Decodes a value without parts from its identifier and content. -/
def decode (identifier : Identifier) (content : Octets) : Taking Primitive :=
  match Primitive.ofContent identifier content with
  | .error reason => fail (.malformedContent reason)
  | .ok value => return value

/-- Enters a container, unless that is too deep. -/
def open? (scope : Scope) (form : Form) (region : Region) : Taking Container := fun source =>
  if scope.maxDepth ≤ scope.depth then fail .nestingTooDeep source
  else .ok ⟨form, scope.inside region, region.isMarked⟩ (source.enter region)

/-- Reads the content of a value. -/
def item (scope : Scope) (identifier : Identifier) : Content → Taking Item
  | .kept count => return .uninterpreted identifier (← octets count)
  | .decoded count => return .primitive (← decode identifier (← octets count))
  | .skipped => do
    within (.marked {}) skipToEnd
    return .primitive .null
  | .entered form region => return .container (← open? scope form region)
  | .refused => fail .unsupportedIndefiniteForm

/-- Takes the next value of the innermost region, or none at its end. -/
def next (scope : Scope) : Taking (Option Item) := fun source =>
  let scope := scope.lower source.available
  (do
    match ← firstOctet? with
    | none => return none
    | some first =>
      let identifier ← Identifier.after first
      let length ← Length.take scope.limit
      return some (← item scope identifier (.of identifier length)) : Taking (Option Item)) source

/-- Joins the segments of the innermost region behind the pieces taken so far, given how to join
those that follow and those inside a segment. -/
def joinedStep (join : Scope → List Octets → Taking Octets) (scope : Scope) (pieces : List Octets) :
    Taking Octets := fun source =>
  (do
    match ← next scope with
    | none => return pieces.reverse.flatten
    | some (.primitive (.octetString octets)) => join scope (octets :: pieces)
    | some (.container ⟨.octetString, inner, _⟩) =>
      let octets ← Action.afterwards leave (join inner [])
      join scope (octets :: pieces)
    | some (.container _) =>
      Action.afterwards leave (throw ⟨Decoder.foreignSegment, source.position⟩)
    | some _ => throw ⟨Decoder.foreignSegment, source.position⟩ : Taking Octets) source

/-- Joins the segments of the innermost region behind the pieces taken so far. -/
def joinedWithin : (bound : Nat) → (scope : Scope) → (pieces : List Octets) → Taking Octets
  | 0, _, _ => fail .truncated
  | bound + 1, scope, pieces => joinedStep (joinedWithin bound) scope pieces

/-- Reads all that remains of a container, given how to drain values and how to join segments. -/
def contentsWith (drain : Scope → Taking (List Element)) (join : Scope → Taking Octets)
    (container : Container) : Taking Element :=
  match container.form with
  | .sequence => return .sequence (← drain container.scope)
  | .set => return .set (← drain container.scope)
  | .octetString => return .primitive (.octetString (← join container.scope))
  | .tagged identifier =>
    if identifier.isConstructed then return .tagged identifier (← drain container.scope)
    else return .taggedContent identifier (← remainder)

/-- Reads a value as a whole, given how to read containers. -/
def elementWith (contents : Container → Taking Element) : Item → Taking Element
  | .uninterpreted identifier content => return .uninterpreted identifier content
  | .primitive value => return .primitive value
  | .container container => Action.afterwards leave (contents container)

/-- Takes the values of the innermost region as a whole behind those taken so far, given how to take
those that follow and how to join segments. -/
def elementsStep (elements : Scope → List Element → Taking (List Element))
    (join : Scope → List Octets → Taking Octets) (scope : Scope) (taken : List Element) :
    Taking (List Element) := do
  match ← next scope with
  | none => return taken.reverse
  | some item =>
    let element ← elementWith (contentsWith (elements · []) (join · [])) item
    elements scope (element :: taken)

/-- Takes the values of the innermost region as a whole behind those taken so far. -/
def elementsWithin : (bound : Nat) → (scope : Scope) → (taken : List Element) →
    Taking (List Element)
  | 0, _, _ => fail .truncated
  | bound + 1, scope, taken =>
    elementsStep (elementsWithin bound) (joinedWithin bound) scope taken

end Source

/-! ## They do the same -/

namespace Decoder

theorem silent_decode (identifier : Identifier) (content : Octets) :
    Silent (decode identifier content) (Source.decode identifier content) := by
  unfold decode Source.decode
  cases Primitive.ofContent identifier content with
  | error reason => exact .liftM _
  | ok value => cases value <;> exact fun _ _ => rfl

theorem silent_enter (scope : Scope) (form : Form) (region : Region) :
    Silent (enter scope form region) (Source.open? scope form region) := by
  intro source journal
  simp only [enter, Source.open?]
  split <;> rfl

theorem silent_item (scope : Scope) (identifier : Identifier) (content : Content) :
    Silent (item scope identifier content) (Source.item scope identifier content) := by
  cases content with
  | kept count => exact (Silent.liftM _).bind fun _ => .pure _
  | decoded count =>
    exact (Silent.liftM _).bind fun _ => (silent_decode _ _).bind fun _ => .pure _
  | skipped =>
    exact (Silent.liftM _).bind fun _ => .position_bind fun _ => .remark_bind _ (.pure _)
  | entered form region => exact (silent_enter _ _ _).bind fun _ => .pure _
  | refused => exact .liftM _

/-- Taking the next value, without the remarks. -/
theorem silent_next (scope : Scope) : Silent (next scope) (Source.next scope) := by
  intro source journal
  refine ((Silent.liftM Source.firstOctet?).bind fun first => ?_) source journal
  cases first with
  | none => exact .position_bind fun _ => .remark_bind _ (.pure _)
  | some first =>
    exact (Silent.liftM _).bind fun _ => (Silent.liftM _).bind fun _ =>
      .position_bind fun _ => .remark_bind _ ((silent_item _ _ _).bind fun _ => .pure _)

/-- Joining segments, without the remarks. -/
theorem silent_joinedWithin (bound : Nat) (scope : Scope) (pieces : List Octets) :
    Silent (joinedWithin bound scope pieces) (Source.joinedWithin bound scope pieces) := by
  induction bound generalizing scope pieces with
  | zero => exact .liftM _
  | succ bound ih =>
    intro source journal
    -- the position that both name in a foreign segment is that before the value
    refine ((silent_next scope).bind fun item => ?_) source journal
    match item with
    | none => exact .pure _
    | some (.primitive value) =>
      cases value with
      | octetString octets => exact ih _ _
      | _ => exact .throw _
    | some (.container ⟨form, inner, isIndefinite⟩) =>
      cases form with
      | octetString => exact (Silent.leaving (ih _ _)).bind fun _ => ih _ _
      | _ => exact .leaving (.throw _)
    | some (.uninterpreted identifier content) => exact .throw _

theorem silent_contentsWith {drain : Scope → Decoding (List Element)}
    {join : Scope → Decoding Octets} {drain' : Scope → Taking (List Element)}
    {join' : Scope → Taking Octets} (hdrain : ∀ scope, Silent (drain scope) (drain' scope))
    (hjoin : ∀ scope, Silent (join scope) (join' scope)) (container : Container) :
    Silent (contentsWith drain join container) (Source.contentsWith drain' join' container) := by
  unfold contentsWith Source.contentsWith
  cases container.form with
  | sequence => exact (hdrain _).bind fun _ => .pure _
  | set => exact (hdrain _).bind fun _ => .pure _
  | octetString => exact (hjoin _).bind fun _ => .pure _
  | tagged identifier =>
    by_cases hconstructed : identifier.isConstructed
    · simp only [hconstructed, if_true]
      exact (hdrain _).bind fun _ => .pure _
    · simp only [hconstructed]
      exact (Silent.liftM _).bind fun _ => .pure _

theorem silent_elementWith {contents : Container → Decoding Element}
    {contents' : Container → Taking Element} (hcontents : ∀ c, Silent (contents c) (contents' c))
    (item : Item) : Silent (elementWith contents item) (Source.elementWith contents' item) := by
  cases item with
  | uninterpreted identifier content => exact .pure _
  | primitive value => exact .pure _
  | container container => exact (hcontents container).leaving

/-- Draining, without the remarks. -/
theorem silent_elementsWithin (bound : Nat) (scope : Scope) (taken : List Element) :
    Silent (elementsWithin bound scope taken) (Source.elementsWithin bound scope taken) := by
  induction bound generalizing scope taken with
  | zero => exact .liftM _
  | succ bound ih =>
    refine (silent_next scope).bind fun item => ?_
    cases item with
    | none => exact .position_bind fun _ => .remark_bind _ (.pure _)
    | some item =>
      exact (silent_elementWith (fun container => silent_contentsWith (fun scope => ih scope [])
        (fun scope => silent_joinedWithin bound scope []) container) item).bind fun _ => ih _ _

end Decoder
end Ber
