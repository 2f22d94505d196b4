import Ber.Proofs.Delivery

/-!
# Ber.Proofs.Marker — where a marked region looks for its end

Only in front of a value does a marked region look for the end-of-contents marker. A source is
*ready* for a value if nothing is read ahead and no region is closed: once the innermost region
stops looking for its marker, all regions are passing.

* `firstOctet?_eq_some_iff` and `firstOctet?_eq_none_iff` say when a value starts and when a region
  ends. A zero octet that starts a value leaves the octet behind it read ahead.
* `within_skipToEnd_eq_ok_iff`: skipping ends behind the first pair of zero octets (`EndsAtMarker`).
-/

namespace Ber

/-- The first pair of zero octets stands at the very end. -/
def EndsAtMarker : Octets → Prop
  | first :: second :: rest =>
    if first = 0 ∧ second = 0 then rest = [] else EndsAtMarker (second :: rest)
  | _ => False

namespace EndsAtMarker

variable {c : Octets} {b : UInt8}

/-- An octet other than zero in front changes nothing. -/
theorem cons (h : EndsAtMarker c) (hb : b ≠ 0) : EndsAtMarker (b :: c) := by
  match c with
  | [] => exact h.elim
  | second :: rest => simpa [EndsAtMarker, hb] using h

/-- Nor does a single zero octet. -/
theorem zero_cons (h : EndsAtMarker (b :: c)) (hb : b ≠ 0) : EndsAtMarker (0 :: b :: c) := by
  simpa [EndsAtMarker, hb] using h

end EndsAtMarker

namespace Source

/-- Keeps an octet read ahead in the innermost region. -/
def keepAhead (octet : UInt8) (source : Source) : Source :=
  { source with regions := source.regions.modifyHead fun
      | .definite remaining => .definite remaining
      | .marked state => .marked { state with ahead := some octet } }

/-- Closes the innermost region. -/
def close (source : Source) : Source :=
  { source with regions := source.regions.modifyHead fun
      | .definite remaining => .definite remaining
      | .marked state => .marked { state with closed := true } }

/-- Whether the end of the innermost region is given by a marker. -/
def isMarked (source : Source) : Bool := source.regions.head?.any Region.isMarked

/-- Ready for a value: nothing is read ahead and no region is closed. -/
def Ready (source : Source) : Prop := (source.watch false).Passing

/-- A source that passes octets anyway is ready for a value. -/
theorem Passing.ready {s : Source} (hs : s.Passing) : s.Ready := by
  rcases s with ⟨regions, reader⟩
  match regions with
  | [] => exact hs
  | .definite remaining :: below => exact hs
  | .marked state :: below =>
    have hstate : state = { watching := false } := hs (.marked state) (by simp)
    subst hstate
    exact hs

/-- A region entered for content is ready for the first value in it. -/
theorem Passing.ready_enter {s : Source} {region : Region} (hs : s.Passing)
    (hregion : (region.watch false).Passing) : (s.enter region).Ready := hs.enter hregion

/-! ## Looking at an octet -/

section
variable {s t u : Source} {ahead : Option UInt8} {b : UInt8}

/-- Octets that begin with the one read ahead go on with the next ones below. -/
theorem ahead_append_eq_append {c p rest : Octets} (hp : p ≠ [])
    (h : ahead.toList ++ c = p ++ rest) : ∃ d, c = d ++ rest ∧ ahead.toList ++ d = p := by
  cases ahead with
  | none => exact ⟨p, h, rfl⟩
  | some octet =>
    match p with
    | first :: p =>
      simp only [Option.toList_some, List.cons_append, List.nil_append, List.cons.injEq] at h
      exact ⟨p, h.2, by simp [h.1]⟩

/-- The octet looked at is the one read ahead, or else the next one below. -/
theorem peeked_eq_ok_iff (hs : s.Passing) :
    Region.peeked ⟨octet?, position⟩ ahead s = .ok b u ↔
      ∃ c, ahead.toList ++ c = [b] ∧ Delivers c s u := by
  cases ahead with
  | none =>
    simp only [Region.peeked, Option.toList_none, List.nil_append, exists_eq_left]
    exact Supply.require_eq_ok.trans (octet?_eq_some_iff hs)
  | some octet =>
    simp only [Region.peeked, Option.toList_some, List.cons_append, List.nil_append,
      Action.pure_eq_ok, List.cons.injEq]
    constructor
    · intro h
      rcases h with ⟨rfl, rfl⟩
      exact ⟨[], ⟨rfl, rfl⟩, delivers_nil.2 rfl⟩
    · intro h
      rcases h with ⟨c, ⟨rfl, rfl⟩, hc⟩
      exact ⟨rfl, delivers_nil.1 hc⟩

/-- What a region that looks for its marker makes of the octets in front of it: an octet other than
zero is handed out, a zero octet is handed out if another octet follows, and a pair of zero octets
closes the region. -/
theorem octet?_enter_watching (hs : s.Passing) {found : Option UInt8} :
    octet? (s.enter (.marked { ahead })) = .ok found t ↔
      (∃ b c u, b ≠ 0 ∧ ahead.toList ++ c = [b] ∧ Delivers c s u ∧ found = some b ∧
        t = u.enter (.marked {})) ∨
      (∃ b c u, b ≠ 0 ∧ ahead.toList ++ c = [0, b] ∧ Delivers c s u ∧ found = some 0 ∧
        t = u.enter (.marked { ahead := some b })) ∨
      (∃ c u, ahead.toList ++ c = [0, 0] ∧ Delivers c s u ∧ found = none ∧
        t = u.enter (.marked { closed := true })) := by
  have hsecond : ∀ {c : Octets} {u : Source} (b : UInt8) (v : Source), Delivers c s u →
      (Supply.require ⟨octet?, position⟩ u = .ok b v ↔ Delivers [b] u v) :=
    fun b v hc => Supply.require_eq_ok.trans (octet?_eq_some_iff (hc.passing hs))
  rw [octet?_enter]
  constructor
  · intro h
    simp only [Region.take, Bool.false_eq_true, if_false] at h
    cases hpeek : Region.peeked ⟨octet?, position⟩ ahead s with
    | error failure u =>
      rw [hpeek] at h
      cases h
    | ok first u =>
      rw [hpeek] at h
      -- whether the octet was read ahead is behind `ahead.toList ++ c` from here on
      rcases (peeked_eq_ok_iff hs).1 hpeek with ⟨c, hfirst, hc⟩
      by_cases hzero : first = 0
      · subst hzero
        simp only [Bool.true_and, beq_self_eq_true, if_true] at h
        cases hrun : Supply.require ⟨octet?, position⟩ u with
        | error failure v =>
          rw [hrun] at h
          cases h
        | ok second v =>
          rw [hrun] at h
          have hd : Delivers (c ++ [second]) s v := hc.append ((hsecond second v hc).1 hrun)
          have hahead : ahead.toList ++ (c ++ [second]) = [0, second] := by
            rw [← List.append_assoc, hfirst, List.cons_append, List.nil_append]
          by_cases hmarker : second = 0
          · subst hmarker
            cases h
            exact .inr (.inr ⟨_, v, hahead, hd, rfl, rfl⟩)
          · simp only [beq_iff_eq, hmarker, if_false] at h
            cases h
            exact .inr (.inl ⟨second, _, v, hmarker, hahead, hd, rfl, rfl⟩)
      · simp only [Bool.true_and, beq_iff_eq, hzero, if_false] at h
        cases h
        exact .inl ⟨first, c, u, hzero, hfirst, hc, rfl, rfl⟩
  -- both a zero octet that is handed out and the marker take a pair of octets
  · have hpair : ∀ {b : UInt8} {c : Octets} {u : Source}, ahead.toList ++ c = [0, b] →
        Delivers c s u → ∃ m, Region.peeked ⟨octet?, position⟩ ahead s = .ok 0 m ∧
          Supply.require ⟨octet?, position⟩ m = .ok b u := by
      intro b c u hahead hc
      rcases ahead_append_eq_append (p := [0]) (by simp) hahead with ⟨d, rfl, hd⟩
      rcases delivers_append.1 hc with ⟨m, hm, hb⟩
      exact ⟨m, (peeked_eq_ok_iff hs).2 ⟨d, hd, hm⟩, (hsecond b u hm).2 hb⟩
    intro h
    rcases h with ⟨b, c, u, hb, hahead, hc, rfl, rfl⟩ | ⟨b, c, u, hb, hahead, hc, rfl, rfl⟩ |
        ⟨c, u, hahead, hc, rfl, rfl⟩
    · have hpeek := (peeked_eq_ok_iff hs).2 ⟨c, hahead, hc⟩
      simp [Region.take, hpeek, hb]
    · rcases hpair hahead hc with ⟨m, hpeek, hrequire⟩
      simp [Region.take, hpeek, hrequire, hb]
    · rcases hpair hahead hc with ⟨m, hpeek, hrequire⟩
      simp [Region.take, hpeek, hrequire]

end

/-! ## The first octet of a value -/

section
variable {s t u : Source}

/-- A source is ready in one of two ways: octets pass anyway, or its innermost region is marked. -/
theorem Ready.cases (hs : s.Ready) :
    (s.isMarked = false ∧ s.watch true = s ∧ s.watch false = s ∧ s.Passing) ∨
    (s.isMarked = true ∧ ∃ below : Source, below.Passing ∧ s.watch true = below.enter (.marked {}) ∧
      s.watch false = below.enter (.marked { watching := false })) := by
  rcases s with ⟨regions, reader⟩
  match regions with
  | [] => exact .inl ⟨rfl, rfl, rfl, hs⟩
  | .definite remaining :: below => exact .inl ⟨rfl, rfl, rfl, hs⟩
  | .marked state :: below =>
    have hstate : ({ state with watching := false } : Marked) = { watching := false } :=
      hs (.marked { state with watching := false }) (by simp [watch, Region.watch])
    refine .inr ⟨rfl, ⟨below, reader⟩, fun r hr => hs r ?_, ?_, ?_⟩
    · simp [watch, hr]
    · cases state
      simp_all [watch, Region.watch, enter]
    · simp [watch, Region.watch, enter, hstate]

/-- Where a source that passes octets ends: at the end of the reader, or of a definite region. -/
theorem octet?_eq_none_iff (hs : s.Passing) :
    octet? s = .ok none t ↔
      (s.regions = [] ∧ t.regions = [] ∧ s.reader.next = .ok none t.reader) ∨
      (s.regions.head? = some (.definite 0) ∧ t = s) := by
  rcases s with ⟨regions, reader⟩
  cases regions with
  | nil =>
    rw [octet?_nil]
    constructor
    · intro h
      cases hrun : reader.next with
      | ok found after =>
        rw [hrun] at h
        cases h
        exact .inl ⟨rfl, rfl, rfl⟩
      | error failure after =>
        rw [hrun] at h
        cases h
    · intro h
      rcases h with ⟨-, hregions, hrun⟩ | ⟨hhead, -⟩
      · rw [show reader.next = _ from hrun]
        cases t
        simp_all
      · simp at hhead
  | cons region below =>
    have hentered : (⟨region :: below, reader⟩ : Source) = enter region ⟨below, reader⟩ := rfl
    rw [hentered]
    by_cases hroom : region.HasRoom 1
    · rw [octet?_enter_passing (hs region (by simp)) hroom]
      constructor
      · intro h
        rcases h with ⟨b, u, -, hfound, -⟩
        cases hfound
      · intro h
        rcases h with ⟨hregions, -⟩ | ⟨hhead, -⟩
        · simp [enter] at hregions
        · simp only [enter, List.head?_cons, Option.some.injEq] at hhead
          subst hhead
          exact absurd hroom (Nat.not_succ_le_zero 0)
    · cases region with
      | marked state => exact absurd trivial hroom
      | definite remaining =>
        have hzero : remaining = 0 := Nat.lt_one_iff.1 (Nat.lt_of_not_le hroom)
        subst hzero
        simp only [octet?_enter_definite_zero, EStateM.Result.ok.injEq, true_and]
        constructor
        · rintro rfl
          exact .inr ⟨rfl, rfl⟩
        · intro h
          rcases h with ⟨hregions, -⟩ | ⟨-, rfl⟩
          · simp [enter] at hregions
          · rfl

/-- Delivery does not depend on the lookout for a marker. -/
theorem Delivers.watch {c : Octets} (h : Delivers c s t) (enabled : Bool) :
    Delivers c (s.watch enabled) (t.watch enabled) := by
  rcases h with ⟨hreader, hregions, hroom⟩
  refine ⟨hreader, ?_, ?_⟩
  · simp only [Source.watch, hregions]
    cases s.regions with
    | nil => rfl
    | cons region below => cases region <;> rfl
  · intro region hmem
    simp only [Source.watch] at hmem
    cases hs : s.regions with
    | nil => simp [hs] at hmem
    | cons head below =>
      rw [hs] at hmem hroom
      rcases List.mem_cons.1 hmem with rfl | hmem
      · have hhead := hroom head (by simp)
        cases head <;> exact hhead
      · exact hroom region (by simp [hmem])

theorem firstOctet?_eq_ok {found : Option UInt8} :
    firstOctet? s = .ok found t ↔ ∃ m, octet? (s.watch true) = .ok found m ∧ m.watch false = t :=
  Action.afterwards_eq_ok

/-- What is delivered to a source that does not look for a marker does not make it look. -/
theorem Delivers.watch_eq {c : Octets} (h : Delivers c s t) (hs : s.watch false = s) :
    t.watch false = t := by
  have hwatch := h.watch false
  rw [hs] at hwatch
  exact hwatch.unique h

/-- A marked region hands out the first octet of a value unless its marker stands there. If the
octet is zero, the one behind it has been read ahead. -/
theorem firstOctet?_eq_some_iff (hs : s.Ready) {b : UInt8} :
    firstOctet? s = .ok (some b) t ↔
      ((s.isMarked → b ≠ 0) ∧ Delivers [b] (s.watch false) t) ∨
      (s.isMarked ∧ b = 0 ∧ ∃ c u, c ≠ 0 ∧ Delivers [0, c] (s.watch false) u ∧
        t = u.keepAhead c) := by
  rw [firstOctet?_eq_ok]
  rcases hs.cases with ⟨hmarked, htrue, hfalse, hpassing⟩ |
    ⟨hmarked, below, hbelow, htrue, hfalse⟩
  · simp only [htrue, hfalse, hmarked, Bool.false_eq_true, false_implies, true_and, false_and,
      or_false, octet?_eq_some_iff hpassing]
    constructor
    · intro h
      rcases h with ⟨m, hm, rfl⟩
      rwa [hm.watch_eq hfalse]
    · intro ht
      exact ⟨t, ht, ht.watch_eq hfalse⟩
  · simp only [htrue, hfalse, hmarked, true_implies, true_and]
    constructor
    · intro h
      rcases h with ⟨m, hm, rfl⟩
      rcases (octet?_enter_watching hbelow).1 hm with ⟨b', c, u, hb, rfl, hc, hfound, rfl⟩ |
        ⟨b', c, u, hb, rfl, hc, hfound, rfl⟩ | ⟨c, u, rfl, hc, hfound, rfl⟩
      · cases hfound
        exact .inl ⟨hb, delivers_enter.2 ⟨trivial, u, hc, rfl⟩⟩
      · cases hfound
        exact .inr ⟨rfl, b', _, hb, delivers_enter.2 ⟨trivial, u, hc, rfl⟩, rfl⟩
      · cases hfound
    · intro h
      rcases h with ⟨hb, ht⟩ | ⟨rfl, c, u, hc, hu, rfl⟩
      · rcases delivers_enter.1 ht with ⟨-, u, hu, rfl⟩
        exact ⟨_, (octet?_enter_watching hbelow).2 (.inl ⟨b, [b], u, hb, rfl, hu, rfl, rfl⟩), rfl⟩
      · rcases delivers_enter.1 hu with ⟨-, v, hv, rfl⟩
        exact ⟨_, (octet?_enter_watching hbelow).2
          (.inr (.inl ⟨c, [0, c], v, hc, rfl, hv, rfl, rfl⟩)), rfl⟩

/-- A marked region ends where its marker stands in front of a value; other regions end where they
have no more octets. -/
theorem firstOctet?_eq_none_iff (hs : s.Ready) :
    firstOctet? s = .ok none t ↔
      (s.isMarked = false ∧ octet? s = .ok none t) ∨
      (s.isMarked ∧ ∃ u, Delivers [0, 0] (s.watch false) u ∧ t = u.close) := by
  rw [firstOctet?_eq_ok]
  rcases hs.cases with ⟨hmarked, htrue, hfalse, hpassing⟩ |
    ⟨hmarked, below, hbelow, htrue, hfalse⟩
  · simp only [htrue, hmarked, Bool.false_eq_true, true_and, false_and, or_false,
      octet?_eq_none_iff hpassing]
    -- at the end nothing is looked for, so nothing has to be switched off
    have hwatch : ∀ m : Source,
        (s.regions = [] ∧ m.regions = [] ∧ s.reader.next = .ok none m.reader) ∨
          (s.regions.head? = some (.definite 0) ∧ m = s) → m.watch false = m := by
      rintro m (⟨-, hm, -⟩ | ⟨-, rfl⟩)
      · cases m
        simp_all [watch]
      · exact hfalse
    constructor
    · intro h
      rcases h with ⟨m, hm, rfl⟩
      rwa [hwatch m hm]
    · intro ht
      exact ⟨t, ht, hwatch t ht⟩
  · simp only [htrue, hfalse, hmarked, Bool.true_eq_false, false_and, false_or, true_and]
    constructor
    · intro h
      rcases h with ⟨m, hm, rfl⟩
      rcases (octet?_enter_watching hbelow).1 hm with ⟨b, c, u, hb, rfl, hc, hfound, rfl⟩ |
        ⟨b, c, u, hb, rfl, hc, hfound, rfl⟩ | ⟨c, u, rfl, hc, -, rfl⟩
      · cases hfound
      · cases hfound
      · exact ⟨_, delivers_enter.2 ⟨trivial, u, hc, rfl⟩, rfl⟩
    · intro h
      rcases h with ⟨u, hu, rfl⟩
      rcases delivers_enter.1 hu with ⟨-, v, hv, rfl⟩
      exact ⟨_, (octet?_enter_watching hbelow).2 (.inr (.inr ⟨[0, 0], v, rfl, hv, rfl, rfl⟩)), rfl⟩

end

/-! ## Skipping -/

theorem exhaust_of_some {s t : Source} {b : UInt8} (h : octet? s = .ok (some b) t) :
    exhaust s = exhaust t := by
  rw [exhaust]
  split <;> rename_i hrun <;> cases hrun.symm.trans h
  rfl

theorem exhaust_of_none {s t : Source} (h : octet? s = .ok none t) : exhaust s = .ok () t := by
  rw [exhaust]
  split <;> rename_i hrun <;> cases hrun.symm.trans h
  rfl

theorem exhaust_of_error {s t : Source} {failure : Failure} (h : octet? s = .error failure t) :
    exhaust s = .error failure t := by
  rw [exhaust]
  split <;> rename_i hrun <;> cases hrun.symm.trans h
  rfl

section
variable {s t u : Source} {ahead : Option UInt8}

/-- What is skipped ends with a pair of zero octets, counting the octet read ahead. -/
theorem endsAtMarker_of_exhaust (hs : s.Passing)
    (h : exhaust (s.enter (.marked { ahead })) = .ok () t) :
    ∃ c u, EndsAtMarker (ahead.toList ++ c) ∧ Delivers c s u ∧
      t = u.enter (.marked { closed := true }) := by
  generalize hleft : (s.enter (.marked { ahead })).left = left
  induction left using Nat.strongRecOn generalizing s ahead with
  | ind left ih =>
    subst hleft
    cases hrun : octet? (s.enter (.marked { ahead })) with
    | error failure m =>
      rw [exhaust] at h
      split at h <;> rename_i hagain <;> cases hagain.symm.trans hrun
      cases h
    | ok found m =>
      -- the octet read ahead counts as the first one that is skipped
      rcases (octet?_enter_watching hs).1 hrun with ⟨b, c, u, hb, hahead, hc, rfl, rfl⟩ |
        ⟨b, c, u, hb, hahead, hc, rfl, rfl⟩ | ⟨c, u, hahead, hc, rfl, rfl⟩
      · -- an octet other than zero cannot begin the marker
        rw [exhaust_of_some hrun] at h
        have hless := left_of_octet?_eq_ok hrun
        rcases ih _ (by omega) (hc.passing hs) h rfl with ⟨d, v, hd, hdelivers, rfl⟩
        refine ⟨c ++ d, v, ?_, hc.append hdelivers, rfl⟩
        rw [← List.append_assoc, hahead]
        exact hd.cons hb
      · -- a zero octet without a second one: that one is looked at next
        rw [exhaust_of_some hrun] at h
        have hless := left_of_octet?_eq_ok hrun
        rcases ih _ (by omega) (hc.passing hs) h rfl with ⟨d, v, hd, hdelivers, rfl⟩
        refine ⟨c ++ d, v, ?_, hc.append hdelivers, rfl⟩
        rw [← List.append_assoc, hahead]
        exact hd.zero_cons hb
      · rw [exhaust_of_none hrun] at h
        cases h
        exact ⟨c, u, by simp [hahead, EndsAtMarker], hc, rfl⟩

/-- Octets that end with their first pair of zero octets are skipped. -/
theorem exhaust_of_endsAtMarker (hs : s.Passing) {c : Octets}
    (hends : EndsAtMarker (ahead.toList ++ c)) (hc : Delivers c s u) :
    exhaust (s.enter (.marked { ahead })) = .ok () (u.enter (.marked { closed := true })) := by
  generalize hoctets : ahead.toList ++ c = octets at hends
  -- along the octets, with the one read ahead in front
  fun_induction EndsAtMarker octets generalizing s ahead c with
  | case1 first second rest hzero =>
    rcases hzero with ⟨rfl, rfl⟩
    subst hends
    exact exhaust_of_none
      ((octet?_enter_watching hs).2 (.inr (.inr ⟨c, u, hoctets, hc, rfl, rfl⟩)))
  | case2 first second rest hzero ih =>
    by_cases hfirst : first = 0
    · subst hfirst
      have hsecond : second ≠ 0 := fun h => hzero ⟨rfl, h⟩
      rcases ahead_append_eq_append (p := [0, second]) (by simp) hoctets with ⟨c, rfl, hahead⟩
      rcases delivers_append.1 hc with ⟨m, hm, hrest⟩
      rw [exhaust_of_some ((octet?_enter_watching hs).2
        (.inr (.inl ⟨second, c, m, hsecond, hahead, hm, rfl, rfl⟩)))]
      exact ih (hm.passing hs) hrest rfl hends
    · rcases ahead_append_eq_append (p := [first]) (by simp) hoctets with ⟨c, rfl, hahead⟩
      rcases delivers_append.1 hc with ⟨m, hm, hrest⟩
      rw [exhaust_of_some ((octet?_enter_watching hs).2
        (.inl ⟨first, c, m, hfirst, hahead, hm, rfl, rfl⟩))]
      exact ih (hm.passing hs) hrest rfl hends
  | case3 => exact hends.elim

/-- Skipping a value reads up to and including the first pair of zero octets. -/
theorem within_skipToEnd_eq_ok_iff (hs : s.Passing) :
    within (.marked {}) skipToEnd s = .ok () t ↔ ∃ c, EndsAtMarker c ∧ Delivers c s t := by
  have hrun : ∀ m, skipToEnd (s.enter (.marked {})) = .ok () m ↔
      exhaust (s.enter (.marked { ahead := none })) = .ok () m := fun m => Iff.rfl
  refine Action.afterwards_eq_ok.trans ⟨?_, ?_⟩
  · intro h
    rcases h with ⟨m, hm, rfl⟩
    rcases endsAtMarker_of_exhaust hs ((hrun m).1 hm) with ⟨c, u, hends, hc, rfl⟩
    exact ⟨c, hends, hc⟩
  · intro h
    rcases h with ⟨c, hends, hc⟩
    exact ⟨_, (hrun _).2 (exhaust_of_endsAtMarker hs hends hc), rfl⟩

end

end Source
end Ber
