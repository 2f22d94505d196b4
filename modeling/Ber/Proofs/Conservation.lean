import Ber.Header.Length
import Ber.Proofs.Exchange

/-!
# Ber.Proofs.Conservation — octets pass through regions without loss

A region stands between a supply of octets and its caller. The caller may ask for octets and switch
the lookout for the marker in any order (`Call`). As long as no call fails, the octets taken from the
supply are, in order, those handed out to the caller, the octet read ahead if there is one, and the
marker if it has been read.

1. `Call.answers` makes calls one after the other; `Supply.recorded` keeps a record of what is taken
   from a supply, and changes nothing else (`Region.answers_recorded`).
2. `Region.Exchanged` is what one call says of a region (`Region.Gives.exchanged`), and what a
   sequence of calls says of it (`Region.exchanged_of_answers`).
3. `Source.Stacked` opens, reads and gives up regions on a source in any order; what has come out and
   what is withheld in all open regions, is what has been taken from the source
   (`Source.Stacked.yields`).
-/

namespace Ber

/-! ## Calls -/

/-- What a caller may do: ask for the next octet, or switch the lookout for the marker. -/
inductive Call where
  | take
  | watch (enabled : Bool)
deriving DecidableEq, Repr

namespace Call

/-- What a caller that asks for an octet is answered. -/
abbrev Answer := Except Failure (Option UInt8)

variable {τ υ : Type}

/-- Answers calls in order. A failure is an answer like any other: the next call is made of the state
that the failure left. -/
def answers (take : Action τ (Option UInt8)) (watch : Bool → τ → τ) :
    List Call → τ → List Answer × τ
  | [], state => ([], state)
  | .watch enabled :: calls, state => answers take watch calls (watch enabled state)
  | .take :: calls, state =>
    match take state with
    | .ok found state =>
      let (later, state) := answers take watch calls state
      (.ok found :: later, state)
    | .error failure state =>
      let (later, state) := answers take watch calls state
      (.error failure :: later, state)

/-- The octet handed out with an answer. -/
def Answer.octet? : Answer → Option UInt8
  | .ok found => found
  | .error _ => none

/-- The octets handed out, in order. -/
def handed (answers : List Answer) : Octets := answers.filterMap Answer.octet?

/-- Where states correspond call by call, they correspond for any sequence of calls. -/
theorem answers_of_step {take : Action τ (Option UInt8)} {watch : Bool → τ → τ}
    {take' : Action υ (Option UInt8)} {watch' : Bool → υ → υ} (view : τ → υ)
    (htake : ∀ state, take' (view state) =
      match take state with
      | .ok found after => .ok found (view after)
      | .error failure after => .error failure (view after))
    (hwatch : ∀ enabled state, watch' enabled (view state) = view (watch enabled state))
    (calls : List Call) (state : τ) :
    answers take' watch' calls (view state) =
      ((answers take watch calls state).1, view (answers take watch calls state).2) := by
  induction calls generalizing state with
  | nil => rfl
  | cons call calls ih =>
    cases call with
    | watch enabled =>
      simp only [answers, hwatch]
      exact ih _
    | take =>
      simp only [answers, htake]
      cases take state with
      | ok found after => simp only [ih]
      | error failure after => simp only [ih]

end Call

/-! ## Keeping a record -/

namespace Supply

variable {σ : Type} {supply : Supply σ}

/-- A supply that keeps a record of the octets taken from it. -/
def recorded (supply : Supply σ) : Supply (σ × Octets) where
  take := fun (below, record) =>
    match supply.take below with
    | .ok found below => .ok found (below, record ++ found.toList)
    | .error failure below => .error failure (below, record)
  position := fun (below, _) => supply.position below

theorem recorded_take_eq_ok {found : Option UInt8} {state after : σ × Octets} :
    supply.recorded.take state = .ok found after ↔
      supply.take state.1 = .ok found after.1 ∧ after.2 = state.2 ++ found.toList := by
  rcases state with ⟨below, record⟩
  rcases after with ⟨below', record'⟩
  simp only [recorded]
  cases supply.take below with
  | ok found' between =>
    simp only [EStateM.Result.ok.injEq, Prod.mk.injEq]
    constructor
    · rintro ⟨rfl, rfl, rfl⟩
      exact ⟨⟨rfl, rfl⟩, rfl⟩
    · rintro ⟨⟨rfl, rfl⟩, rfl⟩
      exact ⟨rfl, rfl, rfl⟩
  | error failure between => simp

theorem recorded_require_eq_error {failure : Failure} {state after : σ × Octets} :
    supply.recorded.require state = .error failure after ↔
      supply.require state.1 = .error failure after.1 ∧ after.2 = state.2 := by
  rcases state with ⟨below, record⟩
  rcases after with ⟨below', record'⟩
  simp only [require, recorded]
  rcases supply.take below with (_ | octet) | _ <;> simp [and_assoc, eq_comm]

/-- The record grows by the octets yielded. -/
theorem recorded_yields {c : Octets} {state after : σ × Octets} :
    supply.recorded.Yields c state after ↔
      supply.Yields c state.1 after.1 ∧ after.2 = state.2 ++ c := by
  induction c generalizing state with
  | nil =>
    simp only [Yields, List.append_nil]
    constructor
    · rintro rfl
      exact ⟨rfl, rfl⟩
    · intro h
      exact Prod.ext h.1 h.2.symm
  | cons octet c ih =>
    simp only [Yields, ih, recorded_take_eq_ok]
    constructor
    · intro h
      obtain ⟨between, ⟨htake, hbetween⟩, hyields, hafter⟩ := h
      refine ⟨⟨between.1, htake, hyields⟩, ?_⟩
      rw [hafter, hbetween, List.append_assoc]
      rfl
    · intro h
      obtain ⟨⟨between, htake, hyields⟩, hafter⟩ := h
      refine ⟨(between, state.2 ++ [octet]), ⟨htake, rfl⟩, hyields, ?_⟩
      rw [hafter, List.append_assoc]
      rfl

end Supply

namespace Region

variable {σ : Type} {supply : Supply σ} {r r' r'' : Region} {below : σ} {c e : Octets}
  {earlier later : List Call.Answer}

/-- Calls made of a region over a supply. -/
def answers (supply : Supply σ) : List Call → Region × σ → List Call.Answer × Region × σ :=
  Call.answers (take supply) fun enabled (region, below) => (region.watch enabled, below)

/-- Keeping a record changes no answer, and leaves the region and the supply the same. -/
theorem answers_recorded (supply : Supply σ) (calls : List Call) (region : Region) (below : σ)
    (record : Octets) :
    answers supply calls (region, below) =
      let run := answers supply.recorded calls (region, below, record)
      (run.1, run.2.1, run.2.2.1) := by
  refine Call.answers_of_step (fun state : Region × σ × Octets => (state.1, state.2.1)) ?_
    (fun _ _ => rfl) calls (region, below, record)
  rintro ⟨region, below, record⟩
  cases hrun : take supply.recorded (region, below, record) with
  | ok found after =>
    obtain ⟨taken, hgives, hyields⟩ := take_eq_ok_iff.1 hrun
    exact take_eq_ok_iff.2 ⟨taken, hgives, (Supply.recorded_yields.1 hyields).1⟩
  | error failure after =>
    obtain ⟨taken, mid, hwants, hyields, hrequire, hforget⟩ := take_eq_error_iff.1 hrun
    exact take_eq_error_iff.2 ⟨taken, mid.1, hwants, (Supply.recorded_yields.1 hyields).1,
      (Supply.recorded_require_eq_error.1 hrequire).1, hforget⟩

/-! ## One call, and any number of them -/

/-- What has become of a region by calls with these answers, none of them a failure, that have taken
these octets from below. -/
structure Exchanged (answers : List Call.Answer) (taken : Octets) (before after : Region) :
    Prop where
  octets : before.withheld ++ taken = Call.handed answers ++ after.withheld
  prudent : before.Prudent → after.Prudent
  /-- A definite region counts what it takes. -/
  counts : ∀ remaining, before = .definite remaining →
    ∃ left, after = .definite left ∧ left + taken.length = remaining
  /-- A marked region closes only by answering with none. -/
  closes : ∀ state, before = .marked state →
    ∃ state', after = .marked state' ∧
      (state'.closed = true → state.closed = true ∨ .ok none ∈ answers)
  /-- Having answered with none, a region has ended. -/
  ends : .ok none ∈ answers → after.HasEnded
  stays : before.HasEnded → after.HasEnded

/-- Switching the lookout exchanges nothing. -/
theorem exchanged_watch (region : Region) (enabled : Bool) :
    Exchanged [] [] region (region.watch enabled) where
  octets := by
    cases region <;> simp [withheld, watch, Call.handed]
  prudent := by
    intro h
    cases region <;> exact h
  counts := by
    rintro remaining rfl
    exact ⟨remaining, rfl, rfl⟩
  closes := by
    rintro state rfl
    exact ⟨_, rfl, .inl⟩
  ends := by
    intro h
    cases h
  stays := by
    intro h
    cases region <;> exact h

/-- One call is an exchange. -/
theorem Gives.exchanged {found : Option UInt8} (h : Gives found c r r') :
    Exchanged [.ok found] c r r' where
  octets := by
    rw [h.octets]
    cases found <;> rfl
  prudent := h.prudent
  counts := by
    rintro remaining rfl
    exact h.definite.2
  closes := by
    rintro state rfl
    cases h with
    | passed hopen | single hopen => exact ⟨_, rfl, .inl⟩
    | marker hopen => exact ⟨_, rfl, fun _ => .inr List.mem_cons_self⟩
    | closed hclosed => exact ⟨_, rfl, .inl⟩
  ends := by
    intro hnone
    obtain rfl : none = found := Except.ok.inj (List.mem_singleton.1 hnone)
    exact h.hasEnded
  stays := by
    intro hended
    rw [(h.of_hasEnded hended).2.2]
    exact hended

/-- Calls are made one after the other. -/
theorem Exchanged.append (h : Exchanged earlier c r r') (h' : Exchanged later e r' r'') :
    Exchanged (earlier ++ later) (c ++ e) r r'' where
  octets := by
    calc r.withheld ++ (c ++ e)
        = Call.handed earlier ++ (r'.withheld ++ e) := by
          rw [← List.append_assoc, h.octets, List.append_assoc]
      _ = Call.handed earlier ++ (Call.handed later ++ r''.withheld) := by rw [h'.octets]
      _ = Call.handed (earlier ++ later) ++ r''.withheld := by simp [Call.handed]
  prudent hr := h'.prudent (h.prudent hr)
  counts := by
    intro remaining hr
    obtain ⟨between, hbetween, hc⟩ := h.counts remaining hr
    obtain ⟨left, hleft, he⟩ := h'.counts between hbetween
    refine ⟨left, hleft, ?_⟩
    rw [List.length_append]
    omega
  closes := by
    intro state hr
    obtain ⟨between, hbetween, hc⟩ := h.closes state hr
    obtain ⟨last, hlast, he⟩ := h'.closes between hbetween
    refine ⟨last, hlast, fun hclosed => ?_⟩
    rw [List.mem_append]
    rcases he hclosed with hclosed | hnone
    · rcases hc hclosed with hclosed | hnone
      · exact .inl hclosed
      · exact .inr (.inl hnone)
    · exact .inr (.inr hnone)
  ends := by
    intro hnone
    rcases List.mem_append.1 hnone with hnone | hnone
    · exact h'.stays (h.ends hnone)
    · exact h'.ends hnone
  stays hr := h'.stays (h.stays hr)

/-- What calls that do not fail exchange, the supply yields. -/
theorem exchanged_of_answers (calls : List Call) (region : Region) (below : σ)
    (hok : ∀ failure, .error failure ∉ (answers supply calls (region, below)).1) :
    ∃ taken, supply.Yields taken below (answers supply calls (region, below)).2.2 ∧
      Exchanged (answers supply calls (region, below)).1 taken region
        (answers supply calls (region, below)).2.1 := by
  induction calls generalizing region below with
  | nil =>
    refine ⟨[], rfl, ?_⟩
    exact {
      octets := by simp [answers, Call.answers, Call.handed]
      prudent := id
      counts := fun remaining h => ⟨remaining, h, rfl⟩
      closes := fun state h => ⟨state, h, .inl⟩
      ends := fun h => absurd h List.not_mem_nil
      stays := id }
  | cons call calls ih =>
    cases call with
    | watch enabled =>
      obtain ⟨taken, hyields, hexchanged⟩ := ih (region.watch enabled) below hok
      exact ⟨taken, hyields, (exchanged_watch region enabled).append hexchanged⟩
    | take =>
      simp only [answers, Call.answers] at hok ⊢
      cases hrun : take supply (region, below) with
      | error failure after =>
        rw [hrun] at hok
        exact absurd List.mem_cons_self (hok failure)
      | ok found after =>
        simp only [hrun] at hok
        obtain ⟨taken, hgives, hyields⟩ := take_eq_ok_iff.1 hrun
        obtain ⟨later, hlater, hexchanged⟩ := ih after.1 after.2 fun failure hmem =>
          hok failure (List.mem_cons_of_mem _ hmem)
        exact ⟨taken ++ later, hyields.append hlater, hgives.exchanged.append hexchanged⟩

/-- A region that has ended answers every call with none, and leaves the supply alone. -/
theorem answers_of_hasEnded (calls : List Call) (region : Region) (below : σ)
    (hended : region.HasEnded) :
    (∀ answer ∈ (answers supply calls (region, below)).1, answer = .ok none) ∧
      (answers supply calls (region, below)).2.2 = below := by
  induction calls generalizing region with
  | nil => exact ⟨fun _ h => absurd h List.not_mem_nil, rfl⟩
  | cons call calls ih =>
    cases call with
    | watch enabled => exact ih (region.watch enabled) ((exchanged_watch region enabled).stays hended)
    | take =>
      have hrun : take supply (region, below) = .ok none (region, below) := by
        refine take_eq_ok_iff.2 ⟨[], ?_, rfl⟩
        cases region with
        | definite remaining =>
          obtain rfl : remaining = 0 := hended
          exact .spent
        | marked state => exact .closed hended
      obtain ⟨hnone, hbelow⟩ := ih region hended
      simp only [answers, Call.answers, hrun]
      refine ⟨?_, hbelow⟩
      intro answer hmem
      rcases List.mem_cons.1 hmem with rfl | hmem
      · rfl
      · exact hnone answer hmem

/-! ## Conservation -/

/-- What is true of a region of some length, opened on a supply with an empty record, after calls
that have been answered without failure. The state is that of the region and of the supply, with the
record of the octets taken from it. -/
structure Conserves (supply : Supply σ) (length : Length) (answers : List Call.Answer)
    (state : Region × σ × Octets) : Prop where
  /-- What has been taken is what was handed out, the octet read ahead, and the marker. -/
  octets : state.2.2 = Call.handed answers ++ state.1.withheld
  /-- The octet read ahead is not zero. -/
  prudent : state.1.Prudent
  /-- A definite region takes no more octets than its length, and ends with the last of them. -/
  definite : ∀ count, length = .definite count →
    state.2.2.length ≤ count ∧
      ∀ after, take supply.recorded state = .ok none after ↔
        (Call.handed answers).length = count ∧ after = state
  /-- A marked region ends with the marker, if it looks for it at its first octet. -/
  indefinite : length = .indefinite → ∃ marked, state.1 = .marked marked ∧
    (marked.closed = true ↔ .ok none ∈ answers) ∧
      ∀ after, take supply.recorded state = .ok none after ↔
        (.ok none ∈ answers ∧ after = state) ∨
          (.ok none ∉ answers ∧ marked.watching = true ∧ marked.ahead = none ∧
            supply.recorded.Yields [0, 0] state.2 after.2 ∧
            after.1 = .marked { marked with ahead := none, closed := true })
  /-- Once a call has been answered with none, every further one is, and nothing is taken. -/
  ended : .ok none ∈ answers → ∀ calls,
    (∀ answer ∈ (Region.answers supply.recorded calls state).1, answer = .ok none) ∧
      (Region.answers supply.recorded calls state).2.2 = state.2
  /-- Where the supply ends before the call is answered, the content is truncated. -/
  truncated : ∀ taken mid last, state.1.Wants taken → supply.recorded.Yields taken state.2 mid →
    supply.take mid.1 = .ok none last →
      ∃ after, take supply.recorded state = .error ⟨.truncated, supply.position last⟩ after

/-- A definite region answers with none exactly if it has nothing left. -/
theorem take_definite_eq_none_iff {left : Nat} {after : Region × σ} :
    take supply (.definite left, below) = .ok none after ↔
      left = 0 ∧ after = (.definite left, below) := by
  constructor
  · intro h
    obtain ⟨taken, hgives, hyields⟩ := take_eq_ok_iff.1 h
    rcases after with ⟨region, below'⟩
    cases hgives
    cases hyields
    exact ⟨rfl, rfl⟩
  · rintro ⟨rfl, rfl⟩
    rfl

/-- An open region that has read no zero octet ahead answers with none exactly if the marker comes
and it looks for it. -/
theorem take_marked_eq_none_iff {marked : Marked} {after : Region × σ}
    (hprudent : (Region.marked marked).Prudent) :
    take supply (.marked marked, below) = .ok none after ↔
      (marked.closed = true ∧ after = (.marked marked, below)) ∨
        (marked.closed = false ∧ marked.watching = true ∧ marked.ahead = none ∧
          supply.Yields [0, 0] below after.2 ∧
          after.1 = .marked { marked with ahead := none, closed := true }) := by
  rcases after with ⟨region, below'⟩
  rw [take_eq_ok_iff]
  constructor
  · intro h
    obtain ⟨taken, hgives, hyields⟩ := h
    cases hgives with
    | closed hclosed =>
      cases hyields
      exact .inl ⟨hclosed, rfl⟩
    | marker hopen hwatching hoctets =>
      have hahead : marked.ahead = none := by
        cases hahead : marked.ahead with
        | none => rfl
        | some octet =>
          -- the first zero octet would have been read ahead
          rw [hahead] at hoctets
          obtain rfl : octet = 0 := (List.cons.inj hoctets).1
          exact absurd hahead hprudent
      rw [hahead] at hoctets
      obtain rfl : taken = [0, 0] := hoctets
      exact .inr ⟨hopen, hwatching, hahead, hyields, rfl⟩
  · intro h
    rcases h with ⟨hclosed, hafter⟩ | ⟨hopen, hwatching, hahead, hyields, hregion⟩
    · cases hafter
      exact ⟨[], .closed hclosed, rfl⟩
    · obtain rfl : region = _ := hregion
      refine ⟨[0, 0], ?_, hyields⟩
      exact .marker hopen hwatching (by rw [hahead]; rfl)

/-- A region opened on a supply conserves its octets. -/
theorem conserves_of_answers (supply : Supply σ) (length : Length) (below : σ) (calls : List Call)
    (hok : ∀ failure, .error failure ∉ (answers supply calls (length.region, below)).1) :
    Conserves supply length (answers supply calls (length.region, below)).1
      (answers supply.recorded calls (length.region, below, [])).2 := by
  have hsame : (answers supply calls (length.region, below)).1 =
      (answers supply.recorded calls (length.region, below, [])).1 :=
    congrArg Prod.fst (answers_recorded supply calls length.region below [])
  rw [hsame] at hok ⊢
  obtain ⟨taken, hyields, hexchanged⟩ := exchanged_of_answers calls length.region (below, []) hok
  generalize (answers supply.recorded calls (length.region, below, [])).1 = given at *
  generalize (answers supply.recorded calls (length.region, below, [])).2 = state at *
  rcases state with ⟨region, state⟩
  -- the record was empty, and a region that is opened withholds nothing
  have hrecord : state.2 = taken := (Supply.recorded_yields.1 hyields).2
  have hnothing : length.region.withheld = [] := by
    cases length <;> rfl
  have hoctets := hexchanged.octets
  rw [hnothing, List.nil_append] at hoctets
  have hprudent : region.Prudent := by
    refine hexchanged.prudent ?_
    cases length with
    | definite count => trivial
    | indefinite =>
      intro hzero
      cases hzero
  refine ⟨hrecord.trans hoctets, hprudent, ?_, ?_, ?_, ?_⟩
  · rintro count rfl
    obtain ⟨left, rfl, hleft⟩ := hexchanged.counts count rfl
    have hhanded : (Call.handed given).length = taken.length := by
      rw [hoctets, withheld, List.append_nil]
    refine ⟨?_, fun after => ?_⟩
    · rw [hrecord]
      omega
    · rw [take_definite_eq_none_iff]
      have hzero : left = 0 ↔ (Call.handed given).length = count := by omega
      rw [hzero]
  · rintro rfl
    obtain ⟨marked, rfl, hcloses⟩ := hexchanged.closes {} rfl
    have hclosed : marked.closed = true ↔ .ok none ∈ given := by
      constructor
      · intro h
        rcases hcloses h with h | h
        · cases h
        · exact h
      · exact hexchanged.ends
    refine ⟨marked, rfl, hclosed, fun after => ?_⟩
    have hopen : marked.closed = false ↔ .ok none ∉ given := by
      rw [← hclosed, Bool.not_eq_true]
    rw [take_marked_eq_none_iff hprudent, hclosed, hopen]
  · intro hnone calls
    exact answers_of_hasEnded calls region state (hexchanged.ends hnone)
  · intro taken mid last hwants hyields hend
    have hrequire : supply.recorded.require mid =
        .error ⟨.truncated, supply.position last⟩ (last, mid.2) := by
      refine Supply.recorded_require_eq_error.2 ⟨?_, rfl⟩
      simp [Supply.require, hend]
    exact ⟨_, take_eq_error_iff.2 ⟨taken, mid, hwants, hyields, hrequire, rfl⟩⟩

end Region

/-! ## Stacks of regions -/

namespace Source

variable {base below below' s t u : Source} {layers layers' : List Region} {region : Region}
  {out c : Octets} {found : Option UInt8}

/-- Calls made of a source. -/
def answers : List Call → Source → List Call.Answer × Source := Call.answers octet? watch

/-- Calls of an opened region are calls of a region over the octets of the source below it. -/
theorem answers_enter (calls : List Call) (region : Region) (s : Source) :
    answers calls (s.enter region) =
      let run := Region.answers supply calls (region, s)
      (run.1, run.2.2.enter run.2.1) := by
  refine Call.answers_of_step (fun state : Region × Source => state.2.enter state.1) ?_
    (fun _ _ => rfl) calls (region, s)
  rintro ⟨region, s⟩
  rw [octet?_enter, supply]
  cases Region.take ⟨octet?, position⟩ (region, s) <;> rfl

/-- A source with regions open on it, the innermost first. -/
def stack (layers : List Region) (below : Source) : Source := layers.foldr enter below

/-- What layers have taken in and not handed out. The innermost one took its octets first. -/
def withheld (layers : List Region) : Octets := layers.flatMap Region.withheld

/-- Regions are opened on a source, asked for octets, told to look for their markers or not, and given
up, in any order and without a failure. What has come out of them are the octets handed out at the
top, and what the regions given up had withheld. -/
inductive Stacked (base : Source) : Octets → List Region → Source → Prop where
  | base : Stacked base [] [] base
  | enter {out : Octets} {layers : List Region} {below : Source} (length : Length)
    (h : Stacked base out layers below) : Stacked base out (length.region :: layers) below
  | watch {out : Octets} {layers : List Region} {below : Source} (enabled : Bool)
    (h : Stacked base out layers below) :
    Stacked base out (layers.modifyHead (·.watch enabled)) below
  | octet? {out : Octets} {region : Region} {layers layers' : List Region} {below below' : Source}
    {found : Option UInt8} (h : Stacked base out (region :: layers) below)
    (hrun : octet? (below.stack (region :: layers)) = .ok found (below'.stack layers'))
    (hlength : layers'.length = layers.length + 1) :
    Stacked base (out ++ found.toList) layers' below'
  | leave {out : Octets} {region : Region} {layers : List Region} {below : Source}
    (h : Stacked base out (region :: layers) below) :
    Stacked base (out ++ region.withheld) layers below

/-- What becomes of layers over a source while octets come out of them: what they had withheld and what
they take from below is what comes out and what they withhold then. -/
def Carries (out : Octets) (layers : List Region) (below : Source) (layers' : List Region)
    (below' : Source) : Prop :=
  ∃ taken, supply.Yields taken below below' ∧ layers'.length = layers.length ∧
    withheld layers ++ taken = out ++ withheld layers' ∧
      ((∀ layer ∈ layers, layer.Prudent) → ∀ layer ∈ layers', layer.Prudent)

namespace Carries

theorem refl (layers : List Region) (below : Source) : Carries [] layers below layers below :=
  ⟨[], rfl, rfl, by simp, id⟩

theorem append {e : Octets} {layers'' : List Region} {below'' : Source}
    (h : Carries c layers below layers' below') (h' : Carries e layers' below' layers'' below'') :
    Carries (c ++ e) layers below layers'' below'' := by
  obtain ⟨taken, hyields, hlength, hoctets, hprudent⟩ := h
  obtain ⟨taken', hyields', hlength', hoctets', hprudent'⟩ := h'
  refine ⟨taken ++ taken', hyields.append hyields', hlength'.trans hlength, ?_,
    fun hlayers => hprudent' (hprudent hlayers)⟩
  rw [← List.append_assoc, hoctets, List.append_assoc, hoctets', List.append_assoc]

/-- A region over layers answers with what comes out of them. -/
theorem cons {region' : Region} {taken : Octets} (h : Carries taken layers below layers' below')
    (hgives : region.Gives found taken region') :
    Carries found.toList (region :: layers) below (region' :: layers') below' := by
  obtain ⟨lower, hyields, hlength, hoctets, hprudent⟩ := h
  refine ⟨lower, hyields, congrArg (· + 1) hlength, ?_, ?_⟩
  · show (region.withheld ++ withheld layers) ++ lower =
      found.toList ++ (region'.withheld ++ withheld layers')
    rw [List.append_assoc, hoctets, ← List.append_assoc, hgives.octets, List.append_assoc]
  · intro hlayers layer hmem
    obtain ⟨hregion, hbelow⟩ := List.forall_mem_cons.1 hlayers
    rcases List.mem_cons.1 hmem with rfl | hmem
    · exact hgives.prudent hregion
    · exact hprudent hbelow layer hmem

end Carries

/-- Whatever octets come out of layers, no octet is lost in any of them. -/
theorem carries_of_yields (h : supply.Yields c (below.stack layers) t) :
    ∃ layers' below', t = below'.stack layers' ∧ Carries c layers below layers' below' := by
  generalize hheight : layers.length = height
  -- on the number of layers, and for the innermost one along the octets
  induction height generalizing c t layers below with
  | zero =>
    obtain rfl : layers = [] := List.length_eq_zero_iff.1 hheight
    exact ⟨[], t, rfl, c, h, rfl, by simp [withheld], id⟩
  | succ height ih =>
    induction c generalizing layers below with
    | nil =>
      obtain rfl : below.stack layers = t := h
      exact ⟨layers, below, rfl, .refl _ _⟩
    | cons octet c ih' =>
      obtain ⟨between, htake, hrest⟩ := h
      cases layers with
      | nil => cases hheight
      | cons region layers =>
        obtain ⟨taken, region', v, hgives, hyields, rfl⟩ := octet?_enter_eq_ok_iff.1 htake
        obtain ⟨layers', below', rfl, hcarries⟩ := ih hyields (Nat.succ.inj hheight)
        have hnow := hcarries.cons hgives
        have hheight' : (region' :: layers').length = height + 1 := by
          obtain ⟨-, -, hlength, -⟩ := hnow
          rw [hlength, hheight]
        have hrest' : supply.Yields c (below'.stack (region' :: layers')) t := hrest
        obtain ⟨layers'', below'', rfl, hlater⟩ := ih' hrest' hheight'
        exact ⟨layers'', below'', rfl, hnow.append hlater⟩

/-- One call of a region over layers. -/
theorem carries_of_octet? (h : octet? (below.stack (region :: layers)) = .ok found t) :
    ∃ layers' below', t = below'.stack layers' ∧
      Carries found.toList (region :: layers) below layers' below' := by
  obtain ⟨taken, region', v, hgives, hyields, rfl⟩ := octet?_enter_eq_ok_iff.1 h
  obtain ⟨layers', below', rfl, hcarries⟩ := carries_of_yields hyields
  exact ⟨region' :: layers', below', rfl, hcarries.cons hgives⟩

/-- As many regions over a source can only be told apart by what they are. -/
theorem stack_inj (hlength : layers'.length = layers.length)
    (h : below'.stack layers' = below.stack layers) : layers' = layers ∧ below' = below := by
  induction layers generalizing layers' with
  | nil =>
    obtain rfl : layers' = [] := List.length_eq_zero_iff.1 hlength
    exact ⟨rfl, h⟩
  | cons region layers ih =>
    cases layers' with
    | nil => cases hlength
    | cons region' layers' =>
      have hregions : region' :: (below'.stack layers').regions =
          region :: (below.stack layers).regions := congrArg Source.regions h
      have hreader : ((below'.stack layers').enter region').reader =
          ((below.stack layers).enter region).reader := congrArg Source.reader h
      obtain ⟨rfl, hlower⟩ := List.cons.inj hregions
      have hstack : below'.stack layers' = below.stack layers := by
        cases hleft : below'.stack layers'
        cases hright : below.stack layers
        simp_all [enter]
      obtain ⟨rfl, rfl⟩ := ih (Nat.succ.inj hlength) hstack
      exact ⟨rfl, rfl⟩

/-- What has come out of layers, and what they withhold, is what has been taken from the source below
them. No layer has read a zero octet ahead. -/
theorem Stacked.yields (h : Stacked base out layers below) :
    supply.Yields (out ++ withheld layers) base below ∧ ∀ layer ∈ layers, layer.Prudent := by
  induction h with
  | base => exact ⟨rfl, fun _ hmem => absurd hmem List.not_mem_nil⟩
  | enter length h ih =>
    -- a region that is opened has taken nothing yet
    refine ⟨?_, List.forall_mem_cons.2 ⟨?_, ih.2⟩⟩
    · cases length <;> exact ih.1
    · cases length with
      | definite count => trivial
      | indefinite =>
        intro hzero
        cases hzero
  | @watch out layers below enabled h ih =>
    cases layers with
    | nil => exact ih
    | cons region layers =>
      have hwatch := region.exchanged_watch enabled
      have hwithheld : (region.watch enabled).withheld = region.withheld := by
        have hoctets := hwatch.octets
        rw [List.append_nil] at hoctets
        exact hoctets.symm
      obtain ⟨hregion, hlayers⟩ := List.forall_mem_cons.1 ih.2
      refine ⟨?_, List.forall_mem_cons.2 ⟨hwatch.prudent hregion, hlayers⟩⟩
      show supply.Yields (_ ++ ((region.watch enabled).withheld ++ withheld layers)) _ _
      rw [hwithheld]
      exact ih.1
  | octet? h hrun hlength ih =>
    obtain ⟨layers'', below'', hstack, taken, hyields, hlength', hoctets, hprudent⟩ :=
      carries_of_octet? hrun
    obtain ⟨rfl, rfl⟩ := stack_inj (hlength'.trans hlength.symm) hstack.symm
    refine ⟨?_, hprudent ih.2⟩
    rw [List.append_assoc, ← hoctets, ← List.append_assoc]
    exact ih.1.append hyields
  | leave h ih =>
    refine ⟨?_, fun layer hmem => ih.2 layer (List.mem_cons_of_mem _ hmem)⟩
    rw [List.append_assoc]
    exact ih.1

/-! ## Taking what remains -/

/-- Taking octets of a definite region one by one takes them from below. -/
theorem octet_enter_definite (remaining : Nat) (s : Source) :
    octet (s.enter (.definite (remaining + 1))) =
      match supply.require s with
      | .ok octet u => .ok octet (u.enter (.definite remaining))
      | .error failure u => .error failure (u.enter (.definite (remaining + 1))) := by
  cases hrun : supply.require s with
  | ok octet u =>
    refine octet_eq_ok.2 (octet?_enter_eq_ok_iff.2 ?_)
    exact ⟨[octet], _, u, .counted octet remaining, Supply.yields_singleton.2 hrun, rfl⟩
  | error failure u =>
    have hfailed : octet? (s.enter (.definite (remaining + 1))) =
        .error failure (u.enter (.definite (remaining + 1))) :=
      octet?_enter_eq_error_iff.2 ⟨[], s, u, .counted remaining, rfl, hrun, rfl⟩
    simp only [octet, Bind.bind, EStateM.bind, hfailed]

/-- What remains of a definite region is taken as a whole, unless an octet of it is not handed out. -/
theorem remainder_enter (remaining : Nat) (s : Source) :
    (∃ c u, c.length = remaining ∧ supply.Yields c s u ∧
      remainder (s.enter (.definite remaining)) = .ok c (u.enter (.definite 0))) ∨
    (∃ c mid failure u, c.length < remaining ∧ supply.Yields c s mid ∧
      supply.require mid = .error failure u ∧
      remainder (s.enter (.definite remaining)) =
        .error failure (u.enter (.definite (remaining - c.length)))) := by
  suffices h : ∀ taken : Octets,
      (∃ c u, c.length = remaining ∧ supply.Yields c s u ∧
        octetsAfter taken remaining (s.enter (.definite remaining)) =
          .ok (taken.reverse ++ c) (u.enter (.definite 0))) ∨
      (∃ c mid failure u, c.length < remaining ∧ supply.Yields c s mid ∧
        supply.require mid = .error failure u ∧
        octetsAfter taken remaining (s.enter (.definite remaining)) =
          .error failure (u.enter (.definite (remaining - c.length)))) from h []
  induction remaining generalizing s with
  | zero =>
    intro taken
    exact .inl ⟨[], s, rfl, rfl, by simp [octetsAfter, pure, EStateM.pure]⟩
  | succ remaining ih =>
    intro taken
    have hoctet := octet_enter_definite remaining s
    cases hrun : supply.require s with
    | error failure u =>
      rw [hrun] at hoctet
      refine .inr ⟨[], s, failure, u, Nat.succ_pos remaining, rfl, hrun, ?_⟩
      simp only [octetsAfter, Bind.bind, EStateM.bind, hoctet, List.length_nil, Nat.sub_zero]
    | ok octet between =>
      rw [hrun] at hoctet
      have hstep : octetsAfter taken (remaining + 1) (s.enter (.definite (remaining + 1))) =
          octetsAfter (octet :: taken) remaining (between.enter (.definite remaining)) := by
        simp only [octetsAfter, Bind.bind, EStateM.bind, hoctet]
      have hfirst : supply.Yields [octet] s between := Supply.yields_singleton.2 hrun
      rcases ih between (octet :: taken) with ⟨c, u, hlength, hyields, hrest⟩ |
        ⟨c, mid, failure, u, hlength, hyields, hrequire, hrest⟩
      · refine .inl ⟨octet :: c, u, congrArg (· + 1) hlength, hfirst.append hyields, ?_⟩
        rw [hstep, hrest]
        simp
      · refine .inr ⟨octet :: c, mid, failure, u, Nat.succ_lt_succ hlength,
          hfirst.append hyields, hrequire, ?_⟩
        rw [hstep, hrest, List.length_cons, Nat.add_sub_add_right]

/-- Octets pass through regions without loss: through a single region over any supply and for any
sequence of calls that do not fail, through any stack of regions over a source, and when all that
remains of a definite region is taken. -/
theorem octets_conserved :
    (∀ (σ : Type) (supply : Supply σ) (length : Length) (below : σ) (calls : List Call),
      (∀ failure, .error failure ∉ (Region.answers supply calls (length.region, below)).1) →
        let run := Region.answers supply.recorded calls (length.region, below, [])
        Region.answers supply calls (length.region, below) = (run.1, run.2.1, run.2.2.1) ∧
          Region.Conserves supply length run.1 run.2) ∧
    (∀ (base : Source) (out : Octets) (layers : List Region) (below : Source),
      Stacked base out layers below →
        supply.Yields (out ++ withheld layers) base below ∧ ∀ layer ∈ layers, layer.Prudent) ∧
    (∀ (calls : List Call) (region : Region) (s : Source),
      answers calls (s.enter region) =
        let run := Region.answers supply calls (region, s)
        (run.1, run.2.2.enter run.2.1)) ∧
    ∀ (remaining : Nat) (s : Source),
      (∃ c u, c.length = remaining ∧ supply.Yields c s u ∧
        remainder (s.enter (.definite remaining)) = .ok c (u.enter (.definite 0))) ∨
      (∃ c mid failure u, c.length < remaining ∧ supply.Yields c s mid ∧
        supply.require mid = .error failure u ∧
        remainder (s.enter (.definite remaining)) =
          .error failure (u.enter (.definite (remaining - c.length)))) := by
  refine ⟨?_, ?_, answers_enter, remainder_enter⟩
  · intro σ supply length below calls hok
    have hsame := Region.answers_recorded supply calls length.region below []
    have hconserves := Region.conserves_of_answers supply length below calls hok
    refine ⟨hsame, ?_⟩
    rw [congrArg Prod.fst hsame] at hconserves
    exact hconserves
  · intro base out layers below h
    exact h.yields

/-- A zero octet without a second one, and the marker: the octet read ahead is handed out after the
lookout has been switched off, and what follows the marker is left alone. In a stack, the octet read
ahead by the inner region is the one withheld. -/
theorem octets_conserved_marker :
    let calls : List Call := [.take, .watch false, .take, .watch true, .take, .take]
    let run := Region.answers supply.recorded calls
      (Length.indefinite.region, ofData [0, 5, 0, 0, 9], [])
    run.1 = [.ok (some 0), .ok (some 5), .ok none, .ok none] ∧ run.2.2.2 = [0, 5, 0, 0] ∧
      Region.Conserves supply .indefinite run.1 run.2 ∧
      supply.Yields [0, 5] (ofData [0, 5, 7]) ⟨[], ⟨[.octet 7], 2⟩⟩ := by
  intro calls run
  have hok : ∀ failure, .error failure ∉ (Region.answers supply calls
      (Length.indefinite.region, ofData [0, 5, 0, 0, 9])).1 := by
    intro failure hmem
    have hrun : (Region.answers supply calls
        (Length.indefinite.region, ofData [0, 5, 0, 0, 9])).1 =
        [.ok (some 0), .ok (some 5), .ok none, .ok none] := rfl
    rw [hrun] at hmem
    simp at hmem
  have hstacked : Stacked (ofData [0, 5, 7]) ([] ++ (some (0 : UInt8)).toList)
      [.marked { ahead := some 5 }, .definite 2] ⟨[], ⟨[.octet 7], 2⟩⟩ :=
    .octet? (.enter .indefinite (.enter (.definite 4) .base)) rfl rfl
  exact ⟨rfl, rfl, (octets_conserved.1 _ supply .indefinite _ calls hok).2,
    (octets_conserved.2.1 _ _ _ _ hstacked).1⟩

end Source
end Ber
