import Ber.Proofs.Scanning

/-!
# Ber.Proofs.Budget — reading values spends octets

No action brings octets back (`Source.Sparing`), and taking a value spends some
(`left_of_next_eq_ok`). So the bound that decoding sets from the octets left is never reached, and
any larger one leads to the same outcome.

`Source.elementsFrom` and `Source.joinedFrom` are draining and joining without a bound. They are
what `Decoder.drain` and `Decoder.joined` do to the source, and `elementsFrom_eq` and
`joinedFrom_eq` unfold them by one value.
-/

namespace Ber

/-! ## Octets left -/

namespace Source

variable {α β : Type} {s t : Source}

/-- An action that leaves no more octets than there were. -/
def Sparing (action : Taking α) : Prop :=
  ∀ s a t, action s = .ok a t → t.left ≤ s.left

theorem left_watch (enabled : Bool) (s : Source) : (s.watch enabled).left = s.left := by
  obtain ⟨_ | ⟨_ | _, _⟩, _⟩ := s <;> rfl

theorem left_enter (region : Region) (s : Source) :
    (s.enter region).left = region.ahead + s.left := by
  simp [left, enter, Nat.add_assoc]

theorem left_leave (s : Source) : s.leave.left ≤ s.left := by
  rcases s with ⟨_ | ⟨region, below⟩, reader⟩
  · exact Nat.le_refl _
  · simp [left, leave]

namespace Sparing

theorem pure (a : α) : Sparing (pure a : Taking α) := by
  intro s b t h
  rcases Action.pure_eq_ok.1 h with ⟨rfl, rfl⟩
  exact Nat.le_refl _

theorem bind {action : Taking α} {rest : α → Taking β} (haction : Sparing action)
    (hrest : ∀ a, Sparing (rest a)) : Sparing (action >>= rest) := by
  intro s b t h
  rcases Action.bind_eq_ok.1 h with ⟨a, m, hrun, h⟩
  exact Nat.le_trans (hrest a _ _ _ h) (haction _ _ _ hrun)

theorem afterwards {change : Source → Source} {action : Taking α}
    (hchange : ∀ s, (change s).left ≤ s.left) (haction : Sparing action) :
    Sparing (Action.afterwards change action) := by
  intro s a t h
  rcases Action.afterwards_eq_ok.1 h with ⟨m, hrun, rfl⟩
  exact Nat.le_trans (hchange m) (haction _ _ _ hrun)

theorem fail (cause : Cause) : Sparing (fail cause : Taking α) :=
  fun _ _ _ h => nomatch h

theorem throw (failure : Failure) : Sparing (throw failure : Taking α) :=
  fun _ _ _ h => nomatch h

end Sparing

theorem octet?_sparing : Sparing octet? := by
  intro s found t h
  -- regions and reader together never gain octets, whatever is read ahead
  have spent := takeThrough_spends s.regions.length s
  rw [show takeThrough s.regions.length s = .ok found t from h] at spent
  cases found with
  | none => exact spent
  | some octet => exact Nat.le_of_lt (Nat.lt_of_succ_le (Nat.le_of_eq spent))

theorem octet_sparing : Sparing octet := by
  refine octet?_sparing.bind fun found => ?_
  cases found with
  | none => exact .fail _
  | some octet => exact .pure _

theorem firstOctet?_sparing : Sparing firstOctet? := by
  refine .afterwards (fun s => Nat.le_of_eq (left_watch false s)) ?_
  intro s found t h
  rw [← left_watch true s]
  exact octet?_sparing _ _ _ h

/-- The first octet of a value is spent. -/
theorem left_of_firstOctet? {b : UInt8} (h : firstOctet? s = .ok (some b) t) :
    t.left < s.left := by
  rcases Action.afterwards_eq_ok.1 h with ⟨m, hrun, rfl⟩
  have hless := left_of_octet?_eq_ok hrun
  rw [left_watch] at hless ⊢
  omega

theorem exhaust_sparing : Sparing exhaust := by
  intro s a t h
  generalize hleft : s.left = left at *
  induction left using Nat.strongRecOn generalizing s with
  | ind left ih =>
    subst hleft
    rw [exhaust] at h
    split at h
    · rename_i hrun
      have hless := left_of_octet?_eq_ok hrun
      have hrest := ih _ (by omega) _ h rfl
      omega
    · rename_i hrun
      cases h
      exact octet?_sparing _ _ _ hrun
    · cases h

theorem within_skipToEnd_sparing : Sparing (within (.marked {}) skipToEnd) := by
  refine .afterwards left_leave ?_
  intro s a t h
  have hspent := exhaust_sparing _ _ _ h
  rw [left_watch, left_enter] at hspent
  simpa [Region.ahead] using hspent

/-- What is put together from taking octets brings none back. -/
theorem Sparing.of_scans {action : Taking α} (h : Scans action) : Sparing action := by
  induction h with
  | pure a => exact .pure a
  | fail cause => exact .fail cause
  | octet => exact octet_sparing
  | skip => exact within_skipToEnd_sparing
  | bind _ _ haction hrest => exact haction.bind hrest

theorem remainder_sparing : Sparing remainder := by
  intro s c t h
  unfold remainder at h
  split at h
  · exact Sparing.of_scans (octets_scans _) _ _ _ h
  · cases h

end Source

/-! ## Items -/

/-- Whatever region is entered for the content of a value, nothing is read ahead in it. -/
theorem Content.ahead_eq_zero {identifier : Identifier} {length : Length} {form : Form}
    {region : Region} (h : Content.of identifier length = .entered form region) :
    region.ahead = 0 := by
  cases length with
  | definite octets =>
    simp only [Content.of, Content.ofDefinite] at h
    repeat' split at h
    all_goals cases h <;> rfl
  | indefinite =>
    simp only [Content.of, Content.ofIndefinite] at h
    repeat' split at h
    all_goals cases h <;> rfl

namespace Source

variable {s t : Source}

theorem item_sparing {scope : Scope} {identifier : Identifier} {length : Length} :
    Sparing (item scope identifier (.of identifier length)) := by
  by_cases hentered : ∃ form region, Content.of identifier length = .entered form region
  · obtain ⟨form, region, hcontent⟩ := hentered
    rw [hcontent]
    refine .bind ?_ fun _ => .pure _
    intro s container t h
    unfold open? at h
    split at h
    · cases h
    · cases h
      rw [left_enter, Content.ahead_eq_zero hcontent]
      exact Nat.le_of_eq (Nat.zero_add _)
  · exact .of_scans (item_scans fun form region h => hentered ⟨form, region, h⟩)

/-- Taking a value spends octets. -/
theorem left_of_next_eq_ok {scope : Scope} {item : Item} (h : next scope s = .ok (some item) t) :
    t.left < s.left := by
  rcases Action.bind_eq_ok.1 h with ⟨found, m, hfirst, h⟩
  cases found with
  | none => cases (Action.pure_eq_ok.1 h).1
  | some first =>
    -- the first octet is spent, and what follows brings none back
    have hrest : Sparing (do
        let identifier ← Identifier.after first
        let length ← Length.take (scope.lower s.available).limit
        return some (← Source.item (scope.lower s.available) identifier (.of identifier length)) :
          Taking (Option Item)) :=
      (Sparing.of_scans (Identifier.after_scans first)).bind fun _ =>
        (Sparing.of_scans (Length.take_scans _)).bind fun _ => item_sparing.bind fun _ => .pure _
    exact Nat.lt_of_le_of_lt (hrest _ _ _ h) (left_of_firstOctet? hfirst)

theorem next_sparing (scope : Scope) : Sparing (next scope) := by
  intro s found t h
  cases found with
  | none =>
    rcases Action.bind_eq_ok.1 h with ⟨found, m, hfirst, h⟩
    cases found with
    | none =>
      rcases Action.pure_eq_ok.1 h with ⟨-, rfl⟩
      exact firstOctet?_sparing _ _ _ hfirst
    | some first =>
      simp only [Action.bind_eq_ok, Action.pure_eq_ok, reduceCtorEq, false_and, and_false,
        exists_false] at h
  | some item => exact Nat.le_of_lt (left_of_next_eq_ok h)

/-! ## Joining and draining -/

theorem joinedStep_sparing {join : Scope → List Octets → Taking Octets}
    (hjoin : ∀ scope pieces, Sparing (join scope pieces)) (scope : Scope) (pieces : List Octets) :
    Sparing (joinedStep join scope pieces) := by
  intro s octets t h
  refine (next_sparing scope).bind (fun item => ?_) _ _ _ h
  match item with
  | none => exact .pure _
  | some (.primitive value) =>
    cases value with
    | octetString octets => exact hjoin _ _
    | _ => exact .throw _
  | some (.container ⟨form, inner, _⟩) =>
    cases form with
    | octetString => exact (Sparing.afterwards left_leave (hjoin _ _)).bind fun _ => hjoin _ _
    | _ => exact .afterwards left_leave (.throw _)
  | some (.uninterpreted identifier content) => exact .throw _

theorem joinedWithin_sparing (bound : Nat) (scope : Scope) (pieces : List Octets) :
    Sparing (joinedWithin bound scope pieces) := by
  induction bound generalizing scope pieces with
  | zero => exact .fail _
  | succ bound ih => exact joinedStep_sparing ih scope pieces

theorem contentsWith_sparing {drain : Scope → Taking (List Element)} {join : Scope → Taking Octets}
    (hdrain : ∀ scope, Sparing (drain scope)) (hjoin : ∀ scope, Sparing (join scope))
    (container : Container) : Sparing (contentsWith drain join container) := by
  unfold contentsWith
  cases container.form with
  | sequence => exact (hdrain _).bind fun _ => .pure _
  | set => exact (hdrain _).bind fun _ => .pure _
  | octetString => exact (hjoin _).bind fun _ => .pure _
  | tagged identifier =>
    by_cases hconstructed : identifier.isConstructed
    · simp only [hconstructed, if_true]
      exact (hdrain _).bind fun _ => .pure _
    · simp only [hconstructed]
      exact remainder_sparing.bind fun _ => .pure _

theorem elementWith_sparing {contents : Container → Taking Element}
    (hcontents : ∀ container, Sparing (contents container)) (item : Item) :
    Sparing (elementWith contents item) := by
  cases item with
  | uninterpreted identifier content => exact .pure _
  | primitive value => exact .pure _
  | container container => exact .afterwards left_leave (hcontents container)

theorem elementsWithin_sparing (bound : Nat) (scope : Scope) (taken : List Element) :
    Sparing (elementsWithin bound scope taken) := by
  induction bound generalizing scope taken with
  | zero => exact .fail _
  | succ bound ih =>
    refine (next_sparing scope).bind fun item => ?_
    cases item with
    | none => exact .pure _
    | some item =>
      exact (elementWith_sparing (contentsWith_sparing (fun scope => ih scope [])
        fun scope => joinedWithin_sparing bound scope []) item).bind fun _ => ih _ _

/-! ## The bound does not matter -/

section
variable {join other : Scope → List Octets → Taking Octets}

/-- Joining goes on only where fewer octets are left. -/
theorem joinedStep_congr {scope : Scope} {pieces : List Octets}
    (hsparing : ∀ scope pieces, Sparing (join scope pieces))
    (h : ∀ scope pieces m, m.left < s.left → join scope pieces m = other scope pieces m) :
    joinedStep join scope pieces s = joinedStep other scope pieces s := by
  refine Action.bind_congr fun item m hnext => ?_
  match item with
  | none => rfl
  | some (.primitive value) =>
    cases value with
    | octetString octets => exact h _ _ m (left_of_next_eq_ok hnext)
    | _ => rfl
  | some (.container ⟨form, inner, _⟩) =>
    cases form with
    | octetString =>
      -- inside the segment and behind it there are fewer octets left
      have hless := left_of_next_eq_ok hnext
      have hinner : Action.afterwards leave (join inner []) m =
          Action.afterwards leave (other inner []) m := by
        simp only [Action.afterwards, h inner [] m hless]
      simp only [bind, EStateM.bind, ← hinner]
      cases hrun : Action.afterwards leave (join inner []) m with
      | ok octets t =>
        have hspent := Sparing.afterwards left_leave (hsparing inner []) _ _ _ hrun
        exact h _ _ t (by omega)
      | error failure t => rfl
    | _ => rfl
  | some (.uninterpreted identifier content) => rfl

/-- Bounds above the number of octets left lead to the same outcome of joining. -/
theorem joinedWithin_congr {bound bound' : Nat} {scope : Scope} {pieces : List Octets}
    (hbound : s.left < bound) (hbound' : s.left < bound') :
    joinedWithin bound scope pieces s = joinedWithin bound' scope pieces s := by
  induction bound generalizing bound' scope pieces s with
  | zero => omega
  | succ bound ih =>
    obtain ⟨bound', rfl⟩ : ∃ n, bound' = n + 1 := ⟨bound' - 1, by omega⟩
    exact joinedStep_congr (joinedWithin_sparing bound) fun scope pieces m hm =>
      ih (by omega) (by omega)

variable {elements others : Scope → List Element → Taking (List Element)}

/-- Reading a container alike needs draining and joining alike. -/
theorem contentsWith_congr {drain drain' : Scope → Taking (List Element)}
    {join join' : Scope → Taking Octets} (hdrain : ∀ scope, drain scope s = drain' scope s)
    (hjoin : ∀ scope, join scope s = join' scope s) (container : Container) :
    contentsWith drain join container s = contentsWith drain' join' container s := by
  unfold contentsWith
  cases container.form with
  | sequence => simp only [bind, EStateM.bind, hdrain]
  | set => simp only [bind, EStateM.bind, hdrain]
  | octetString => simp only [bind, EStateM.bind, hjoin]
  | tagged identifier =>
    by_cases hconstructed : identifier.isConstructed
    · simp only [hconstructed, if_true, bind, EStateM.bind, hdrain]
    · simp only [hconstructed]
      rfl

/-- Draining goes on only where fewer octets are left. -/
theorem elementsStep_congr {scope : Scope} {taken : List Element}
    (hsparing : ∀ scope taken, Sparing (elements scope taken))
    (hjoinSparing : ∀ scope pieces, Sparing (join scope pieces))
    (h : ∀ scope taken m, m.left < s.left → elements scope taken m = others scope taken m)
    (hjoin : ∀ scope pieces m, m.left < s.left → join scope pieces m = other scope pieces m) :
    elementsStep elements join scope taken s = elementsStep others other scope taken s := by
  refine Action.bind_congr fun item m hnext => ?_
  cases item with
  | none => rfl
  | some item =>
    -- inside the value and behind it there are fewer octets left
    have hless := left_of_next_eq_ok hnext
    have hcontents : ∀ container, contentsWith (elements · []) (join · []) container m =
        contentsWith (others · []) (other · []) container m :=
      contentsWith_congr (fun scope => h scope [] m hless) fun scope => hjoin scope [] m hless
    have hitem : elementWith (contentsWith (elements · []) (join · [])) item m =
        elementWith (contentsWith (others · []) (other · [])) item m := by
      cases item with
      | container container => simp only [elementWith, Action.afterwards, hcontents container]
      | _ => rfl
    simp only [bind, EStateM.bind, ← hitem]
    cases hrun : elementWith (contentsWith (elements · []) (join · [])) item m with
    | ok element t =>
      have hspent := elementWith_sparing (contentsWith_sparing (fun scope => hsparing scope [])
        fun scope => hjoinSparing scope []) item _ _ _ hrun
      exact h _ _ t (by omega)
    | error failure t => rfl

/-- Bounds above the number of octets left lead to the same outcome of draining. -/
theorem elementsWithin_congr {bound bound' : Nat} {scope : Scope} {taken : List Element}
    (hbound : s.left < bound) (hbound' : s.left < bound') :
    elementsWithin bound scope taken s = elementsWithin bound' scope taken s := by
  induction bound generalizing bound' scope taken s with
  | zero => omega
  | succ bound ih =>
    obtain ⟨bound', rfl⟩ : ∃ n, bound' = n + 1 := ⟨bound' - 1, by omega⟩
    exact elementsStep_congr (elementsWithin_sparing bound) (joinedWithin_sparing bound)
      (fun scope taken m hm => ih (by omega) (by omega))
      fun scope pieces m hm => joinedWithin_congr (by omega) (by omega)

end

/-! ## Without a bound -/

/-- Joins the segments of the innermost region behind the pieces taken so far. -/
def joinedFrom (scope : Scope) (pieces : List Octets) : Taking Octets := fun source =>
  joinedWithin (source.left + 1) scope pieces source

/-- Takes the values of the innermost region as a whole behind those taken so far. -/
def elementsFrom (scope : Scope) (taken : List Element) : Taking (List Element) := fun source =>
  elementsWithin (source.left + 1) scope taken source

/-- Reads all that remains of the container whose region is the innermost one. -/
def contents : Container → Taking Element := contentsWith (elementsFrom · []) (joinedFrom · [])

/-- Reads a value as a whole. -/
def element : Item → Taking Element := elementWith contents

/-- Joining takes the next segment and goes on. -/
theorem joinedFrom_eq (scope : Scope) (pieces : List Octets) (s : Source) :
    joinedFrom scope pieces s = joinedStep joinedFrom scope pieces s :=
  joinedStep_congr (joinedWithin_sparing s.left) fun _ _ _ hm =>
    joinedWithin_congr hm (Nat.lt_succ_self _)

/-- Draining takes the next value as a whole and goes on. -/
theorem elementsFrom_eq (scope : Scope) (taken : List Element) (s : Source) :
    elementsFrom scope taken s = elementsStep elementsFrom joinedFrom scope taken s :=
  elementsStep_congr (elementsWithin_sparing s.left) (joinedWithin_sparing s.left)
    (fun _ _ _ hm => elementsWithin_congr hm (Nat.lt_succ_self _)) fun _ _ _ hm =>
    joinedWithin_congr hm (Nat.lt_succ_self _)

theorem joinedFrom_sparing (scope : Scope) (pieces : List Octets) :
    Sparing (joinedFrom scope pieces) := fun s =>
  joinedWithin_sparing (s.left + 1) scope pieces s

theorem elementsFrom_sparing (scope : Scope) (taken : List Element) :
    Sparing (elementsFrom scope taken) := fun s =>
  elementsWithin_sparing (s.left + 1) scope taken s

theorem contents_sparing (container : Container) : Sparing (contents container) :=
  contentsWith_sparing (elementsFrom_sparing · []) (joinedFrom_sparing · []) container

theorem element_sparing (item : Item) : Sparing (element item) :=
  elementWith_sparing contents_sparing item

end Source

/-! ## What the decoder does to the source -/

namespace Decoder

theorem silent_joined (scope : Scope) : Silent (joined scope) (Source.joinedFrom scope []) :=
  fun source journal => silent_joinedWithin (source.left + 1) scope [] source journal

/-- Draining, without the remarks. -/
theorem silent_drain (scope : Scope) : Silent (drain scope) (Source.elementsFrom scope []) :=
  fun source journal => silent_elementsWithin (source.left + 1) scope [] source journal

theorem silent_contents (container : Container) :
    Silent (contents container) (Source.contents container) :=
  silent_contentsWith silent_drain silent_joined container

/-- Reading a value as a whole, without the remarks. -/
theorem silent_element (item : Item) : Silent (element item) (Source.element item) :=
  silent_elementWith silent_contents item

end Decoder
end Ber
