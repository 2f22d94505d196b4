import Ber.Source

/-!
# Ber.Proofs.Delivery — octets that pass through open regions

Between values no region holds an octet back. A region that is *passing* hands out every octet that
it takes from below, and a definite one counts it.

* `Reader.Delivers octets before after`: the reader hands out the octets and becomes `after`.
* `Source.Delivers octets before after`: the same through all open regions. It says what taking
  octets does: `octet?_eq_some_iff`, `octet_eq_ok_iff`, and `octets_eq_ok_iff`.
-/

namespace Ber

/-! ## Readers -/

namespace Reader

/-- A reader delivers octets, one after the other. -/
def Delivers : Octets → Reader → Reader → Prop
  | [], before, after => before = after
  | octet :: octets, before, after =>
    ∃ between, before.next = .ok (some octet) between ∧ Delivers octets between after

/-- An octet that is delivered was the next one, and is counted. -/
theorem nextFrom_eq_some {position : Nat} {arrivals : List Arrival} {octet : UInt8}
    {after : Reader} (h : nextFrom position arrivals = .ok (some octet) after) :
    arrivals.filterMap Arrival.octet? = octet :: after.octetsLeft ∧
      after.position = position + 1 := by
  fun_induction nextFrom position arrivals with
  | case1 => simp at h
  | case2 value rest =>
    simp only [EStateM.Result.ok.injEq, Option.some.injEq] at h
    rcases h with ⟨rfl, rfl⟩
    exact ⟨rfl, rfl⟩
  | case3 rest ih => exact ih h
  | case4 reason rest => simp at h

/-- At the end of a reader there is nothing left. -/
theorem nextFrom_eq_none {position : Nat} {arrivals : List Arrival} {after : Reader}
    (h : nextFrom position arrivals = .ok none after) :
    arrivals.filterMap Arrival.octet? = [] ∧ after = ⟨[], position⟩ := by
  fun_induction nextFrom position arrivals with
  | case1 =>
    simp only [EStateM.Result.ok.injEq, true_and] at h
    exact ⟨rfl, h.symm⟩
  | case2 value rest => simp at h
  | case3 rest ih => exact ih h
  | case4 reason rest => simp at h

theorem delivers_append {c e : Octets} {r t : Reader} :
    Delivers (c ++ e) r t ↔ ∃ m, Delivers c r m ∧ Delivers e m t := by
  induction c generalizing r with
  | nil => simp [Delivers]
  | cons octet c ih =>
    simp only [List.cons_append, Delivers, ih]
    constructor
    · intro h
      rcases h with ⟨b, hb, m, hm, ht⟩
      exact ⟨m, ⟨b, hb, hm⟩, ht⟩
    · intro h
      rcases h with ⟨m, ⟨b, hb, hm⟩, ht⟩
      exact ⟨b, hb, m, hm, ht⟩

/-- Delivered octets come off the front of those that are left. -/
theorem Delivers.octetsLeft {c : Octets} {r t : Reader} (h : Delivers c r t) :
    r.octetsLeft = c ++ t.octetsLeft := by
  induction c generalizing r with
  | nil =>
    cases h
    rfl
  | cons octet c ih =>
    rcases h with ⟨m, hnext, hrest⟩
    rw [List.cons_append, ← ih hrest]
    exact (nextFrom_eq_some hnext).1

/-- Delivered octets are counted. -/
theorem Delivers.position {c : Octets} {r t : Reader} (h : Delivers c r t) :
    t.position = r.position + c.length := by
  induction c generalizing r with
  | nil =>
    cases h
    rfl
  | cons octet c ih =>
    rcases h with ⟨m, hnext, hrest⟩
    have hm : m.position = r.position + 1 := (nextFrom_eq_some hnext).2
    have ht := ih hrest
    simp only [List.length_cons]
    omega

/-- What a reader becomes is determined by the octets it delivers. -/
theorem Delivers.unique {c : Octets} {r t u : Reader} (ht : Delivers c r t)
    (hu : Delivers c r u) : t = u := by
  induction c generalizing r with
  | nil => exact ht.symm.trans hu
  | cons octet c ih =>
    rcases ht with ⟨m, hm, ht⟩
    rcases hu with ⟨n, hn, hu⟩
    rw [hm] at hn
    cases hn
    exact ih ht hu

/-- A reader over data without faults delivers the data. -/
theorem delivers_ofData (c rest : Octets) (position : Nat) :
    Delivers c ⟨(c ++ rest).map .octet, position⟩ ⟨rest.map .octet, position + c.length⟩ := by
  induction c generalizing position with
  | nil => rfl
  | cons octet c ih =>
    -- the first octet is handed out at once: there are no faults in between
    refine ⟨⟨(c ++ rest).map .octet, position + 1⟩, rfl, ?_⟩
    have h := ih (position + 1)
    rwa [List.length_cons, Nat.add_comm c.length 1, ← Nat.add_assoc]

end Reader

/-! ## Regions -/

namespace Region

/-- A region after so many octets have been taken through it. -/
def spend (count : Nat) : Region → Region
  | .definite remaining => .definite (remaining - count)
  | .marked state => .marked state

/-- A region that so many octets can be taken through. Only a definite one may be too small. -/
def HasRoom (count : Nat) : Region → Prop
  | .definite remaining => count ≤ remaining
  | .marked _ => True

/-- A region that lets octets pass: it has read nothing ahead, is not closed, and does not look for
its marker. -/
def Passing : Region → Prop
  | .definite _ => True
  | .marked state => state = { watching := false }

@[simp] theorem spend_zero (region : Region) : region.spend 0 = region := by
  cases region <;> rfl

theorem spend_add (a b : Nat) (region : Region) :
    region.spend (a + b) = (region.spend a).spend b := by
  cases region <;> simp [spend, Nat.sub_sub]

theorem hasRoom_add {a b : Nat} {region : Region} :
    region.HasRoom (a + b) ↔ region.HasRoom a ∧ (region.spend a).HasRoom b := by
  cases region <;> simp [spend, HasRoom]
  omega

theorem Passing.spend {region : Region} (h : region.Passing) (count : Nat) :
    (region.spend count).Passing := by
  cases region with
  | definite remaining => trivial
  | marked state => exact h

end Region

/-! ## Sources -/

namespace Source

/-- Every open region lets octets pass. -/
def Passing (source : Source) : Prop := ∀ region ∈ source.regions, region.Passing

/-- A source delivers octets: the reader does, and every open region has room for them. -/
structure Delivers (octets : Octets) (before after : Source) : Prop where
  reader : before.reader.Delivers octets after.reader
  regions : after.regions = before.regions.map (·.spend octets.length)
  room : ∀ region ∈ before.regions, region.HasRoom octets.length

theorem delivers_nil {s t : Source} : Delivers [] s t ↔ s = t := by
  constructor
  · intro h
    rcases h with ⟨hreader, hregions, -⟩
    have hspend : s.regions.map (·.spend 0) = s.regions := by simp
    cases s
    cases t
    simp_all [Reader.Delivers]
  · rintro rfl
    refine ⟨rfl, by simp, fun region _ => ?_⟩
    cases region <;> simp [Region.HasRoom]

theorem delivers_append {c e : Octets} {s t : Source} :
    Delivers (c ++ e) s t ↔ ∃ m, Delivers c s m ∧ Delivers e m t := by
  constructor
  · intro h
    rcases h with ⟨hreader, hregions, hroom⟩
    rcases Reader.delivers_append.1 hreader with ⟨m, hc, he⟩
    simp only [List.length_append] at hregions hroom
    refine ⟨⟨s.regions.map (·.spend c.length), m⟩, ⟨hc, rfl, ?_⟩, he, ?_, ?_⟩
    · intro region hmem
      exact (Region.hasRoom_add.1 (hroom region hmem)).1
    · simp [hregions, Region.spend_add]
    · intro region hmem
      rcases List.mem_map.1 hmem with ⟨origin, horigin, rfl⟩
      exact (Region.hasRoom_add.1 (hroom origin horigin)).2
  · intro h
    rcases h with ⟨m, ⟨hc, hcregions, hcroom⟩, he, heregions, heroom⟩
    refine ⟨Reader.delivers_append.2 ⟨_, hc, he⟩, ?_, ?_⟩
    · simp [heregions, hcregions, Region.spend_add]
    · intro region hmem
      rw [List.length_append]
      refine Region.hasRoom_add.2 ⟨hcroom region hmem, heroom _ ?_⟩
      rw [hcregions]
      exact List.mem_map_of_mem hmem

/-- An open region passes on what is delivered below it. -/
theorem delivers_enter {c : Octets} {region : Region} {s t : Source} :
    Delivers c (s.enter region) t ↔
      region.HasRoom c.length ∧ ∃ u, Delivers c s u ∧ t = u.enter (region.spend c.length) := by
  constructor
  · intro h
    rcases h with ⟨hreader, hregions, hroom⟩
    simp only [enter, List.map_cons] at hreader hregions hroom
    refine ⟨hroom region (by simp), ⟨s.regions.map (·.spend c.length), t.reader⟩,
      ⟨hreader, rfl, fun r hr => hroom r (by simp [hr])⟩, ?_⟩
    cases t
    simp_all [enter]
  · intro h
    rcases h with ⟨hhead, u, ⟨hreader, hregions, hroom⟩, rfl⟩
    refine ⟨hreader, by simp [enter, hregions], fun r hr => ?_⟩
    rcases List.mem_cons.1 hr with rfl | hr
    · exact hhead
    · exact hroom r hr

theorem Passing.enter {s : Source} {region : Region} (hs : s.Passing) (hregion : region.Passing) :
    (s.enter region).Passing := by
  intro r hr
  rcases List.mem_cons.1 hr with rfl | hr
  · exact hregion
  · exact hs r hr

namespace Delivers

variable {c : Octets} {s t u : Source}

theorem passing (h : Delivers c s t) (hs : s.Passing) : t.Passing := by
  intro region hmem
  rw [h.regions] at hmem
  rcases List.mem_map.1 hmem with ⟨origin, horigin, rfl⟩
  exact (hs origin horigin).spend _

theorem position (h : Delivers c s t) : t.position = s.position + c.length := h.reader.position

theorem rest (h : Delivers c s t) : s.rest = c ++ t.rest := h.reader.octetsLeft

theorem unique (ht : Delivers c s t) (hu : Delivers c s u) : t = u := by
  have hreader := ht.reader.unique hu.reader
  have hregions := ht.regions.trans hu.regions.symm
  cases t
  cases u
  simp_all

theorem append {e : Octets} (hc : Delivers c s t) (he : Delivers e t u) : Delivers (c ++ e) s u :=
  delivers_append.2 ⟨t, hc, he⟩

end Delivers

/-! ## Taking octets -/

end Source

section
variable {σ : Type} {P : σ → Prop} {supply other : Supply σ}

/-- An octet that is required is the next one. -/
theorem Supply.require_eq_ok {octet : UInt8} {below after : σ} :
    supply.require below = .ok octet after ↔ supply.take below = .ok (some octet) after := by
  unfold Supply.require
  rcases supply.take below with (_ | found) | _ <;> simp

/-- What a supply keeps, requiring an octet keeps. -/
theorem Supply.require_keeps (hkeep : Action.Keeps P supply.take) :
    Action.Keeps P supply.require := by
  intro below hbelow
  have h := hkeep below hbelow
  unfold Supply.require
  rcases hrun : supply.take below with (_ | octet) | _ <;> rw [hrun] at h <;> exact h

/-- What a supply keeps, looking at an octet keeps, wherever it comes from. -/
theorem Region.peeked_keeps (hkeep : Action.Keeps P supply.take) (ahead : Option UInt8) :
    Action.Keeps P (peeked supply ahead) := by
  cases ahead with
  | none => exact Supply.require_keeps hkeep
  | some octet => exact fun _ hbelow => hbelow

/-- What a supply keeps, a region over it keeps. -/
theorem Region.take_keeps (hkeep : Action.Keeps P supply.take) :
    Action.Keeps (fun state => P state.2) (Region.take supply) := by
  have hrequire := Supply.require_keeps hkeep
  intro ⟨region, below⟩ hbelow
  match region with
  | .definite 0 => exact hbelow
  | .definite (remaining + 1) =>
    have h := hrequire below hbelow
    simp only [Region.take]
    cases hrun : supply.require below <;> rw [hrun] at h <;> exact h
  | .marked state =>
    simp only [Region.take]
    split
    · exact hbelow
    -- at most two octets are taken: the one looked at and, behind a zero octet, the next
    have hfirst := Region.peeked_keeps hkeep state.ahead below hbelow
    cases hpeek : peeked supply state.ahead below with
    | error failure between =>
      rw [hpeek] at hfirst
      exact hfirst
    | ok first between =>
      rw [hpeek] at hfirst
      by_cases hzero : (state.watching && first == 0) = true
      · -- a zero octet: the second octet decides
        have hsecond := hrequire between hfirst
        simp only [hzero, if_true]
        cases hrun : supply.require between with
        | error failure below =>
          rw [hrun] at hsecond
          exact hsecond
        | ok second below =>
          rw [hrun] at hsecond
          by_cases hmarker : (second == 0) = true
          · simp only [hmarker, if_true]
            exact hsecond
          · simp only [hmarker]
            exact hsecond
      · simp only [hzero]
        exact hfirst

/-- A passing region with room hands out the next octet below it. -/
theorem Region.take_of_passing {region : Region} (hpassing : region.Passing)
    (hroom : region.HasRoom 1) (below : σ) :
    Region.take supply (region, below) =
      match supply.require below with
      | .ok octet below => .ok (some octet) (region.spend 1, below)
      | .error failure below => .error failure (region, below) := by
  match region with
  | .definite 0 => exact absurd hroom (Nat.not_succ_le_zero 0)
  | .definite (remaining + 1) => rfl
  | .marked state =>
    have hstate : state = { watching := false } := hpassing
    subst hstate
    simp only [Region.take, Region.peeked, Region.spend, Bool.false_and, Bool.false_eq_true,
      if_false]
    cases supply.require below <;> rfl

/-- Two supplies that agree on the states met serve a region alike. -/
theorem Region.take_congr (hkeep : Action.Keeps P supply.take)
    (htake : ∀ s, P s → supply.take s = other.take s) (hposition : supply.position = other.position)
    (region : Region) {below : σ} (hbelow : P below) :
    Region.take supply (region, below) = Region.take other (region, below) := by
  have hrequire : ∀ s, P s → supply.require s = other.require s := by
    intro s hs
    simp only [Supply.require, htake s hs, hposition]
  match region with
  | .definite 0 => rfl
  | .definite (remaining + 1) => simp only [Region.take, hrequire below hbelow]
  | .marked state =>
    have hpeek : Region.peeked supply state.ahead below =
        Region.peeked other state.ahead below := by
      cases state.ahead with
      | none => exact hrequire below hbelow
      | some octet => rfl
    -- the second octet is taken from a state that the first one led to, so `P` has to be kept
    have hbetween := Region.peeked_keeps hkeep state.ahead below hbelow
    simp only [Region.take, ← hpeek]
    cases hrun : Region.peeked supply state.ahead below with
    | error failure between => rfl
    | ok first between =>
      rw [hrun] at hbetween
      simp only [hrequire between hbetween]

end

namespace Source

/-- Taking an octet neither opens nor closes a region. -/
theorem takeThrough_keeps_length (height count : Nat) :
    Action.Keeps (fun source => source.regions.length = count) (takeThrough height) := by
  induction height generalizing count with
  | zero =>
    -- below all regions the reader is asked, which leaves the regions alone
    intro source hsource
    simp only [takeThrough]
    cases source.reader.next <;> exact hsource
  | succ height ih =>
    intro source hsource
    rcases source with ⟨_ | ⟨region, below⟩, reader⟩
    · simp only [takeThrough]
      cases reader.next <;> exact hsource
    · have h := @Region.take_keeps _ _ ⟨takeThrough height, position⟩ (ih below.length)
        (region, ⟨below, reader⟩) rfl
      simp only [takeThrough]
      cases hrun : Region.take ⟨takeThrough height, position⟩ (region, ⟨below, reader⟩) <;>
        rw [hrun] at h <;> exact (congrArg (· + 1) h).trans hsource

/-- Octets of a source without open regions are those of its reader. -/
theorem octet?_nil (reader : Reader) :
    octet? ⟨[], reader⟩ =
      match reader.next with
      | .ok octet reader => .ok octet ⟨[], reader⟩
      | .error failure reader => .error failure ⟨[], reader⟩ := rfl

/-- Octets of an open region are taken from those below it. -/
theorem octet?_enter (region : Region) (source : Source) :
    octet? (source.enter region) =
      match Region.take ⟨octet?, position⟩ (region, source) with
      | .ok octet (region, source) => .ok octet (source.enter region)
      | .error failure (region, source) => .error failure (source.enter region) := by
  -- `octet?` counts the regions anew at each level, and their number stays the same
  have h := @Region.take_congr _ (fun s => s.regions.length = source.regions.length)
    ⟨takeThrough source.regions.length, position⟩ ⟨octet?, position⟩
    (takeThrough_keeps_length _ _) (fun s hs => by simp only [octet?, hs]) rfl region source rfl
  rw [← h]
  rfl

/-- An octet that has to be there is the next one. -/
theorem octet_eq_ok {b : UInt8} {s t : Source} : octet s = .ok b t ↔ octet? s = .ok (some b) t := by
  unfold octet
  rw [Action.bind_eq_ok]
  constructor
  · intro h
    rcases h with ⟨found, m, hrun, h⟩
    cases found with
    | none => simp [fail] at h
    | some found =>
      rcases Action.pure_eq_ok.1 h with ⟨rfl, rfl⟩
      exact hrun
  · intro hrun
    exact ⟨some b, t, hrun, Action.pure_eq_ok.2 ⟨rfl, rfl⟩⟩

/-- A definite region of no more octets is at its end. -/
theorem octet?_enter_definite_zero (s : Source) :
    octet? (s.enter (.definite 0)) = .ok none (s.enter (.definite 0)) := by
  rw [octet?_enter]
  rfl

/-- A passing region with room hands out the next octet below it, and never ends there. -/
theorem octet?_enter_passing {region : Region} (hpassing : region.Passing)
    (hroom : region.HasRoom 1) {found : Option UInt8} {s t : Source} :
    octet? (s.enter region) = .ok found t ↔
      ∃ b u, octet? s = .ok (some b) u ∧ found = some b ∧ t = u.enter (region.spend 1) := by
  rw [octet?_enter, Region.take_of_passing hpassing hroom]
  have hrequire : ∀ b u, Supply.require ⟨octet?, position⟩ s = .ok b u ↔
      octet? s = .ok (some b) u := fun b u => Supply.require_eq_ok
  cases hrun : Supply.require ⟨octet?, position⟩ s with
  | ok b u =>
    constructor
    · intro h
      cases h
      exact ⟨b, u, (hrequire b u).1 hrun, rfl, rfl⟩
    · intro h
      rcases h with ⟨c, v, hc, rfl, rfl⟩
      cases hrun.symm.trans ((hrequire c v).2 hc)
      rfl
  | error failure u =>
    constructor
    · intro h
      cases h
    · intro h
      rcases h with ⟨c, v, hc, -, -⟩
      cases hrun.symm.trans ((hrequire c v).2 hc)

/-- Through passing regions, taking an octet is having it delivered. -/
theorem octet?_eq_some_iff {b : UInt8} {s t : Source} (hs : s.Passing) :
    octet? s = .ok (some b) t ↔ Delivers [b] s t := by
  rcases s with ⟨regions, reader⟩
  induction regions generalizing t with
  | nil =>
    rw [octet?_nil]
    constructor
    · intro h
      cases hrun : reader.next with
      | ok found after =>
        rw [hrun] at h
        cases h
        exact ⟨⟨after, hrun, rfl⟩, rfl, by simp⟩
      | error failure after =>
        rw [hrun] at h
        cases h
    · intro h
      rcases h with ⟨⟨m, hnext, hm⟩, hregions, -⟩
      rw [hnext]
      cases t
      simp_all [Reader.Delivers]
  | cons region below ih =>
    -- a region with room counts the octet and leaves it to those below
    have hbelow : Passing ⟨below, reader⟩ := fun r hr => hs r (List.mem_cons_of_mem _ hr)
    have hentered : (⟨region :: below, reader⟩ : Source) = enter region ⟨below, reader⟩ := rfl
    rw [hentered, delivers_enter]
    by_cases hroom : region.HasRoom 1
    · rw [octet?_enter_passing (hs region (by simp)) hroom]
      constructor
      · intro h
        rcases h with ⟨c, u, hc, hbc, rfl⟩
        cases hbc
        exact ⟨hroom, u, (ih hbelow).1 hc, rfl⟩
      · intro h
        rcases h with ⟨-, u, hb, rfl⟩
        exact ⟨b, u, (ih hbelow).2 hb, rfl, rfl⟩
    -- only a definite region that has ended has no room for one octet
    · match region with
      | .definite 0 => simp [octet?_enter_definite_zero, Region.HasRoom]
      | .definite (remaining + 1) => exact absurd (Nat.le_add_left 1 remaining) hroom
      | .marked state => exact absurd trivial hroom

/-- The same for an octet that has to be there. -/
theorem octet_eq_ok_iff {b : UInt8} {s t : Source} (hs : s.Passing) :
    octet s = .ok b t ↔ Delivers [b] s t := octet_eq_ok.trans (octet?_eq_some_iff hs)

/-- Through passing regions, taking octets is having that many delivered. -/
theorem octetsAfter_eq_ok_iff {count : Nat} {taken c : Octets} {s t : Source} (hs : s.Passing) :
    octetsAfter taken count s = .ok c t ↔
      ∃ e, c = taken.reverse ++ e ∧ e.length = count ∧ Delivers e s t := by
  induction count generalizing taken s with
  | zero =>
    simp only [octetsAfter, Action.pure_eq_ok, List.length_eq_zero_iff]
    constructor
    · intro h
      rcases h with ⟨rfl, rfl⟩
      exact ⟨[], by simp, rfl, delivers_nil.2 rfl⟩
    · intro h
      rcases h with ⟨e, rfl, rfl, h⟩
      exact ⟨by simp, delivers_nil.1 h⟩
  | succ count ih =>
    simp only [octetsAfter, Action.bind_eq_ok, octet_eq_ok_iff hs]
    constructor
    · intro h
      rcases h with ⟨b, m, hb, h⟩
      rcases (ih (hb.passing hs)).1 h with ⟨e, rfl, hlength, he⟩
      exact ⟨b :: e, by simp, by simp [hlength], hb.append he⟩
    · intro h
      rcases h with ⟨e, rfl, hlength, he⟩
      cases e with
      | nil => cases hlength
      | cons b e =>
        rcases delivers_append.1 (show Delivers ([b] ++ e) s t from he) with ⟨m, hb, he⟩
        exact ⟨b, m, hb, (ih (hb.passing hs)).2 ⟨e, by simp, by simpa using hlength, he⟩⟩

/-- Through passing regions, taking octets is having that many delivered. -/
theorem octets_eq_ok_iff {count : Nat} {c : Octets} {s t : Source} (hs : s.Passing) :
    octets count s = .ok c t ↔ c.length = count ∧ Delivers c s t := by
  simp [octets, octetsAfter_eq_ok_iff hs]

end Source
end Ber
