import Ber.Proofs.Delivery

/-!
# Ber.Proofs.Exchange — what one call of a region takes and gives

A region stands over a supply, which may be anything that octets can be taken from. This module says
once what a single call does, for a region in any state:

1. `Supply.Yields octets before after`: the supply hands out the octets one after the other.
2. `Region.Gives found taken before after`: having taken `taken` from below, the region answers with
   `found`. A call succeeds in one of these ways and in no other (`Region.take_eq_ok_iff`).
3. `Region.Wants taken region`: having taken `taken`, the region needs one octet more. A call fails
   where that octet is not handed out, and nowhere else (`Region.take_eq_error_iff`).

No octet is lost on the way (`Region.Gives.octets`): what a region has taken and not handed out is
`Region.withheld`.
-/

namespace Ber

/-! ## Supplies -/

namespace Supply

variable {σ : Type} {supply : Supply σ} {below mid after : σ} {c e : Octets}

/-- A supply hands out octets, one after the other. -/
def Yields (supply : Supply σ) : Octets → σ → σ → Prop
  | [], before, after => before = after
  | octet :: octets, before, after =>
    ∃ between, supply.take before = .ok (some octet) between ∧ Yields supply octets between after

theorem yields_append :
    supply.Yields (c ++ e) below after ↔
      ∃ mid, supply.Yields c below mid ∧ supply.Yields e mid after := by
  induction c generalizing below with
  | nil => simp [Yields]
  | cons octet c ih =>
    simp only [List.cons_append, Yields, ih]
    constructor
    · intro h
      obtain ⟨between, htake, mid, hmid, hafter⟩ := h
      exact ⟨mid, ⟨between, htake, hmid⟩, hafter⟩
    · intro h
      obtain ⟨mid, ⟨between, htake, hmid⟩, hafter⟩ := h
      exact ⟨between, htake, mid, hmid, hafter⟩

theorem Yields.append (hc : supply.Yields c below mid) (he : supply.Yields e mid after) :
    supply.Yields (c ++ e) below after := yields_append.2 ⟨mid, hc, he⟩

/-- What a supply becomes is determined by the octets it hands out. -/
theorem Yields.unique (h : supply.Yields c below mid) (h' : supply.Yields c below after) :
    mid = after := by
  induction c generalizing below with
  | nil => exact h.symm.trans h'
  | cons octet c ih =>
    obtain ⟨between, htake, hrest⟩ := h
    obtain ⟨between', htake', hrest'⟩ := h'
    cases htake.symm.trans htake'
    exact ih hrest hrest'

/-- An octet that is required is yielded. -/
theorem yields_singleton {octet : UInt8} :
    supply.Yields [octet] below after ↔ supply.require below = .ok octet after := by
  rw [require_eq_ok]
  constructor
  · intro h
    obtain ⟨between, htake, rfl⟩ := h
    exact htake
  · intro h
    exact ⟨after, h, rfl⟩

end Supply

/-! ## Regions -/

namespace Region

variable {found : Option UInt8} {taken : Octets} {region region' : Region}

/-- The octets that a region has taken from below and not handed out: the one read ahead, and the
marker. -/
def withheld : Region → Octets
  | .definite _ => []
  | .marked state => state.ahead.toList ++ if state.closed then [0, 0] else []

/-- A region that has handed out all it will. -/
def HasEnded : Region → Prop
  | .definite remaining => remaining = 0
  | .marked state => state.closed = true

/-- A region that has not read a zero octet ahead. -/
def Prudent : Region → Prop
  | .definite _ => True
  | .marked state => state.ahead ≠ some 0

/-- A region with nothing read ahead any more. -/
def forget : Region → Region
  | .definite remaining => .definite remaining
  | .marked state => .marked { state with ahead := none }

/-- How a region answers a call with an octet, or with none, having taken octets from below. -/
inductive Gives : Option UInt8 → Octets → Region → Region → Prop where
  /-- A definite region counts the octets it passes on. -/
  | counted (octet : UInt8) (remaining : Nat) :
    Gives (some octet) [octet] (.definite (remaining + 1)) (.definite remaining)
  /-- All octets of a definite region have been handed out. -/
  | spent : Gives none [] (.definite 0) (.definite 0)
  /-- An octet that does not begin a marker is passed on. -/
  | passed {state : Marked} {octet : UInt8} {taken : Octets} (hopen : state.closed = false)
    (hoctets : state.ahead.toList ++ taken = [octet]) (hplain : state.watching = true → octet ≠ 0) :
    Gives (some octet) taken (.marked state) (.marked { state with ahead := none })
  /-- A zero octet without a second one is passed on, and the octet behind it is read ahead. -/
  | single {state : Marked} {octet : UInt8} {taken : Octets} (hopen : state.closed = false)
    (hwatching : state.watching = true) (hoctets : state.ahead.toList ++ taken = [0, octet])
    (hoctet : octet ≠ 0) :
    Gives (some 0) taken (.marked state) (.marked { state with ahead := some octet })
  /-- Two zero octets are the marker. -/
  | marker {state : Marked} {taken : Octets} (hopen : state.closed = false)
    (hwatching : state.watching = true) (hoctets : state.ahead.toList ++ taken = [0, 0]) :
    Gives none taken (.marked state) (.marked { state with ahead := none, closed := true })
  /-- The marker has been read before. -/
  | closed {state : Marked} (hclosed : state.closed = true) :
    Gives none [] (.marked state) (.marked state)

/-- Having taken octets from below, a region needs one more to answer a call. -/
inductive Wants : Octets → Region → Prop where
  /-- A definite region passes the next octet on. -/
  | counted (remaining : Nat) : Wants [] (.definite (remaining + 1))
  /-- Without an octet read ahead, a marked region looks at the next one. -/
  | first {state : Marked} (hopen : state.closed = false) (hahead : state.ahead = none) :
    Wants [] (.marked state)
  /-- Behind a zero octet, the second one decides. -/
  | second {state : Marked} {taken : Octets} (hopen : state.closed = false)
    (hwatching : state.watching = true) (hoctets : state.ahead.toList ++ taken = [0]) :
    Wants taken (.marked state)

namespace Gives

/-- No octet is lost and none is made up: what was withheld and what is taken is what is handed out
and what is withheld then. -/
theorem octets (h : Gives found taken region region') :
    region.withheld ++ taken = found.toList ++ region'.withheld := by
  cases h with
  | counted octet remaining => rfl
  | spent => rfl
  | passed hopen hoctets hplain => simp [withheld, hopen, hoctets]
  | single hopen hwatching hoctets hoctet => simp [withheld, hopen, hoctets]
  | marker hopen hwatching hoctets => simp [withheld, hopen, hoctets]
  | closed hclosed => simp

/-- What is read ahead is never a zero octet: only behind a zero octet is anything read ahead, and
a second zero octet would have been the marker. -/
theorem prudent (h : Gives found taken region region') (hregion : region.Prudent) :
    region'.Prudent := by
  cases h with
  | counted octet remaining => trivial
  | spent => trivial
  | passed hopen hoctets hplain =>
    intro hnone
    cases hnone
  | single hopen hwatching hoctets hoctet =>
    intro hzero
    exact hoctet (Option.some.inj hzero)
  | marker hopen hwatching hoctets =>
    intro hnone
    cases hnone
  | closed hclosed => exact hregion

/-- A region that has ended answers with none and takes nothing. -/
theorem of_hasEnded (h : Gives found taken region region') (hended : region.HasEnded) :
    found = none ∧ taken = [] ∧ region' = region := by
  cases h with
  | counted octet remaining => exact absurd hended (Nat.succ_ne_zero remaining)
  | spent => exact ⟨rfl, rfl, rfl⟩
  | closed hclosed => exact ⟨rfl, rfl, rfl⟩
  | passed hopen | single hopen | marker hopen =>
    have hclosed : _ = true := hended
    rw [hopen] at hclosed
    cases hclosed

/-- Having answered with none, a region has ended. -/
theorem hasEnded (h : Gives none taken region region') : region'.HasEnded := by
  cases h with
  | spent => rfl
  | marker hopen hwatching hoctets => rfl
  | closed hclosed => exact hclosed

/-- A definite region counts what it takes, and takes no more than it has left. -/
theorem definite {remaining : Nat} (h : Gives found taken (.definite remaining) region') :
    taken = found.toList ∧ ∃ left, region' = .definite left ∧ left + taken.length = remaining := by
  cases h with
  | counted octet left => exact ⟨rfl, left, rfl, rfl⟩
  | spent => exact ⟨rfl, 0, rfl, rfl⟩

end Gives

/-! ## What a call does -/

section
variable {σ : Type} {supply : Supply σ} {below below' : σ}

/-- The octet looked at is the one read ahead, or else the next one below. -/
theorem peeked_eq_ok_iff {ahead : Option UInt8} {octet : UInt8} :
    peeked supply ahead below = .ok octet below' ↔
      ∃ taken, ahead.toList ++ taken = [octet] ∧ supply.Yields taken below below' := by
  cases ahead with
  | none => simp [peeked, Supply.yields_singleton]
  | some octet' =>
    simp only [peeked, Action.pure_eq_ok, Option.toList_some, List.cons_append, List.nil_append,
      List.cons.injEq]
    constructor
    · intro h
      obtain ⟨rfl, rfl⟩ := h
      exact ⟨[], ⟨rfl, rfl⟩, rfl⟩
    · intro h
      obtain ⟨taken, ⟨rfl, rfl⟩, hyields⟩ := h
      exact ⟨rfl, hyields⟩

/-- A pair of octets is looked at one after the other. -/
theorem peeked_require_iff {ahead : Option UInt8} {first second : UInt8} :
    (∃ mid, peeked supply ahead below = .ok first mid ∧ supply.require mid = .ok second below') ↔
      ∃ taken, ahead.toList ++ taken = [first, second] ∧ supply.Yields taken below below' := by
  constructor
  · intro h
    obtain ⟨mid, hfirst, hsecond⟩ := h
    obtain ⟨taken, hahead, htaken⟩ := peeked_eq_ok_iff.1 hfirst
    refine ⟨taken ++ [second], ?_, htaken.append (Supply.yields_singleton.2 hsecond)⟩
    rw [← List.append_assoc, hahead]
    rfl
  · intro h
    obtain ⟨taken, hahead, htaken⟩ := h
    -- whatever was read ahead, the second octet is the last one taken
    have hsplit : ∃ front, ahead.toList ++ front = [first] ∧ taken = front ++ [second] := by
      cases ahead with
      | none => exact ⟨[first], rfl, hahead⟩
      | some octet =>
        simp only [Option.toList_some, List.cons_append, List.nil_append, List.cons.injEq] at hahead
        exact ⟨[], by simp [hahead.1], hahead.2⟩
    obtain ⟨front, hfront, rfl⟩ := hsplit
    obtain ⟨mid, hmid, hlast⟩ := Supply.yields_append.1 htaken
    exact ⟨mid, peeked_eq_ok_iff.2 ⟨front, hfront, hmid⟩, Supply.yields_singleton.1 hlast⟩

/-- A call that succeeds gives its answer for octets that the supply yields. -/
theorem gives_of_take (h : take supply (region, below) = .ok found (region', below')) :
    ∃ taken, region.Gives found taken region' ∧ supply.Yields taken below below' := by
  match region with
  | .definite 0 =>
    cases h
    exact ⟨[], .spent, rfl⟩
  | .definite (remaining + 1) =>
    simp only [take] at h
    cases hrun : supply.require below with
    | error failure mid => simp [hrun] at h
    | ok octet mid =>
      rw [hrun] at h
      cases h
      exact ⟨[octet], .counted octet remaining, Supply.yields_singleton.2 hrun⟩
  | .marked state =>
    simp only [take] at h
    by_cases hclosed : state.closed = true
    · rw [if_pos hclosed] at h
      cases h
      exact ⟨[], .closed hclosed, rfl⟩
    rw [if_neg hclosed] at h
    have hopen : state.closed = false := eq_false_of_ne_true hclosed
    cases hpeek : peeked supply state.ahead below with
    | error failure mid => simp [hpeek] at h
    | ok first mid =>
      simp only [hpeek] at h
      by_cases hzero : (state.watching && first == 0) = true
      · -- a zero octet: the second octet decides
        rw [if_pos hzero] at h
        simp only [Bool.and_eq_true, beq_iff_eq] at hzero
        obtain ⟨hwatching, rfl⟩ := hzero
        cases hrun : supply.require mid with
        | error failure last => simp [hrun] at h
        | ok second last =>
          obtain ⟨taken, htaken, hyields⟩ := peeked_require_iff.1 ⟨mid, hpeek, hrun⟩
          simp only [hrun, beq_iff_eq] at h
          by_cases hsecond : second = 0
          · subst hsecond
            cases h
            exact ⟨taken, .marker hopen hwatching htaken, hyields⟩
          · rw [if_neg hsecond] at h
            cases h
            exact ⟨taken, .single hopen hwatching htaken hsecond, hyields⟩
      · rw [if_neg hzero] at h
        cases h
        obtain ⟨taken, htaken, hyields⟩ := peeked_eq_ok_iff.1 hpeek
        refine ⟨taken, .passed hopen htaken ?_, hyields⟩
        rintro hwatching rfl
        simp [hwatching] at hzero

/-- Whatever a region gives for octets that the supply yields is the answer of a call. -/
theorem take_of_gives (hgives : region.Gives found taken region')
    (hyields : supply.Yields taken below below') :
    take supply (region, below) = .ok found (region', below') := by
  cases hgives with
  | counted octet remaining => simp [take, Supply.yields_singleton.1 hyields]
  | spent =>
    cases hyields
    rfl
  | closed hclosed =>
    cases hyields
    simp [take, hclosed]
  | @passed state octet _ hopen hoctets hplain =>
    have hpeek := peeked_eq_ok_iff.2 ⟨taken, hoctets, hyields⟩
    have hnot : ¬ (state.watching && octet == 0) = true := by
      intro hzero
      simp only [Bool.and_eq_true, beq_iff_eq] at hzero
      exact hplain hzero.1 hzero.2
    simp [take, hopen, hpeek, hnot]
  | single hopen hwatching hoctets hoctet =>
    obtain ⟨mid, hpeek, hrun⟩ := peeked_require_iff.2 ⟨taken, hoctets, hyields⟩
    simp [take, hopen, hwatching, hpeek, hrun, hoctet]
  | marker hopen hwatching hoctets =>
    obtain ⟨mid, hpeek, hrun⟩ := peeked_require_iff.2 ⟨taken, hoctets, hyields⟩
    simp [take, hopen, hwatching, hpeek, hrun]

/-- A call succeeds exactly if the region gives its answer for octets that the supply yields. -/
theorem take_eq_ok_iff :
    take supply (region, below) = .ok found (region', below') ↔
      ∃ taken, region.Gives found taken region' ∧ supply.Yields taken below below' := by
  constructor
  · exact gives_of_take
  · rintro ⟨taken, hgives, hyields⟩
    exact take_of_gives hgives hyields

/-- A call that fails wants an octet that is not handed out. -/
theorem wants_of_take {failure : Failure}
    (h : take supply (region, below) = .error failure (region', below')) :
    ∃ taken mid, region.Wants taken ∧ supply.Yields taken below mid ∧
      supply.require mid = .error failure below' ∧ region' = region.forget := by
  match region with
  | .definite 0 => cases h
  | .definite (remaining + 1) =>
    simp only [take] at h
    cases hrun : supply.require below with
    | ok octet mid => simp [hrun] at h
    | error failure' mid =>
      rw [hrun] at h
      cases h
      exact ⟨[], below, .counted remaining, rfl, hrun, rfl⟩
  | .marked state =>
    simp only [take] at h
    by_cases hclosed : state.closed = true
    · rw [if_pos hclosed] at h
      cases h
    rw [if_neg hclosed] at h
    have hopen : state.closed = false := eq_false_of_ne_true hclosed
    cases hpeek : peeked supply state.ahead below with
    | error failure' mid =>
      rw [hpeek] at h
      cases h
      -- an octet that was read ahead is looked at without asking for one
      cases hahead : state.ahead with
      | some octet => simp [hahead, peeked, pure, EStateM.pure] at hpeek
      | none =>
        rw [hahead] at hpeek
        exact ⟨[], below, .first hopen hahead, rfl, hpeek, rfl⟩
    | ok first mid =>
      simp only [hpeek] at h
      by_cases hzero : (state.watching && first == 0) = true
      · rw [if_pos hzero] at h
        simp only [Bool.and_eq_true, beq_iff_eq] at hzero
        obtain ⟨hwatching, rfl⟩ := hzero
        obtain ⟨taken, htaken, hyields⟩ := peeked_eq_ok_iff.1 hpeek
        cases hrun : supply.require mid with
        | error failure' last =>
          rw [hrun] at h
          cases h
          exact ⟨taken, mid, .second hopen hwatching htaken, hyields, hrun, rfl⟩
        | ok second last =>
          simp only [hrun] at h
          split at h <;> cases h
      · rw [if_neg hzero] at h
        cases h

/-- Where an octet that a region wants is not handed out, the call fails. -/
theorem take_of_wants {failure : Failure} {mid : σ} (hwants : region.Wants taken)
    (hyields : supply.Yields taken below mid) (hrun : supply.require mid = .error failure below') :
    take supply (region, below) = .error failure (region.forget, below') := by
  cases hwants with
  | counted remaining =>
    cases hyields
    simp [take, forget, hrun]
  | first hopen hahead =>
    cases hyields
    simp [take, forget, hopen, hahead, peeked, hrun]
  | second hopen hwatching hoctets =>
    have hpeek := peeked_eq_ok_iff.2 ⟨taken, hoctets, hyields⟩
    simp [take, forget, hopen, hwatching, hpeek, hrun]

/-- A call fails exactly if an octet that the region needs is not handed out. What was read ahead is
gone then. -/
theorem take_eq_error_iff {failure : Failure} :
    take supply (region, below) = .error failure (region', below') ↔
      ∃ taken mid, region.Wants taken ∧ supply.Yields taken below mid ∧
        supply.require mid = .error failure below' ∧ region' = region.forget := by
  constructor
  · exact wants_of_take
  · rintro ⟨taken, mid, hwants, hyields, hrun, rfl⟩
    exact take_of_wants hwants hyields hrun

end

end Region

/-! ## Sources -/

namespace Source

/-- A source as what a region may stand over. -/
def supply : Supply Source := ⟨octet?, position⟩

/-- What a call of an opened region does, in terms of the octets below it. -/
theorem octet?_enter_eq_ok_iff {region : Region} {found : Option UInt8} {s t : Source} :
    octet? (s.enter region) = .ok found t ↔
      ∃ taken region' u, region.Gives found taken region' ∧ supply.Yields taken s u ∧
        t = u.enter region' := by
  rw [octet?_enter]
  constructor
  · intro h
    cases hrun : Region.take ⟨octet?, position⟩ (region, s) with
    | error failure after => simp [hrun] at h
    | ok found' after =>
      rw [hrun] at h
      cases h
      obtain ⟨taken, hgives, hyields⟩ := Region.take_eq_ok_iff.1 hrun
      exact ⟨taken, _, _, hgives, hyields, rfl⟩
  · intro h
    obtain ⟨taken, region', u, hgives, hyields, rfl⟩ := h
    have hrun : Region.take ⟨octet?, position⟩ (region, s) = .ok found (region', u) :=
      Region.take_eq_ok_iff.2 ⟨taken, hgives, hyields⟩
    rw [hrun]

/-- Where a call of an opened region fails, in terms of the octets below it. -/
theorem octet?_enter_eq_error_iff {region : Region} {failure : Failure} {s t : Source} :
    octet? (s.enter region) = .error failure t ↔
      ∃ taken mid u, region.Wants taken ∧ supply.Yields taken s mid ∧
        supply.require mid = .error failure u ∧ t = u.enter region.forget := by
  rw [octet?_enter]
  constructor
  · intro h
    cases hrun : Region.take ⟨octet?, position⟩ (region, s) with
    | ok found after => simp [hrun] at h
    | error failure' after =>
      rw [hrun] at h
      cases h
      obtain ⟨taken, mid, hwants, hyields, hrequire, hforget⟩ := Region.take_eq_error_iff.1 hrun
      exact ⟨taken, mid, _, hwants, hyields, hrequire, by rw [hforget]⟩
  · intro h
    obtain ⟨taken, mid, u, hwants, hyields, hrequire, rfl⟩ := h
    have hrun : Region.take ⟨octet?, position⟩ (region, s) = .error failure (region.forget, u) :=
      Region.take_eq_error_iff.2 ⟨taken, mid, hwants, hyields, hrequire, rfl⟩
    rw [hrun]

end Source
end Ber
