import Ber.Proofs.Conservation
import Ber.Proofs.Lookout

/-!
# Ber.Proofs.Availability — how many octets are left at most

A source tells how many octets it has left at most if one of its regions is definite. Each marked
region adds the octet that it has read ahead to what the regions below it tell.

1. What taking an octet does to that number is said once, outcome by outcome
   (`Source.octet?_exact_or_closes`, `Source.octet?_coarse`): it goes down by the octet handed out,
   or it falls to zero because a marker has been read, or the call fails and it does not go up.
2. `Source.Tells` says the same of any sequence of calls, failures included.
3. `Source.Built` are the sources that come from a reader by opening, reading and giving up regions.
   What is told in them stays below the largest definite length, so that it can be counted in any word
   that can hold that length (`Source.Built.capped`).
-/

namespace Ber.Source

variable {s t u : Source} {region region' : Region} {found : Option UInt8} {taken c : Octets}
  {handed handed' : Nat}

/-- How many regions have read their marker. -/
def closings (source : Source) : Nat := source.regions.countP (·.closed? == some true)

theorem available_enter (region : Region) (s : Source) :
    (s.enter region).available = region.available s.available := rfl

theorem closings_enter (region : Region) (s : Source) :
    (s.enter region).closings = s.closings + if region.closed? == some true then 1 else 0 :=
  List.countP_cons

/-! ## One call -/

/-- So many octets have been handed out, and what is left is known exactly if it was known before. -/
structure Exact (handed : Nat) (before after : Source) : Prop where
  available : after.available.map (· + handed) = before.available
  closings : after.closings = before.closings

/-- A region has read its marker, so nothing is left. -/
structure Shuts (before after : Source) : Prop where
  available : after.available = some 0
  closings : after.closings = before.closings + 1

/-- What is left has not become more. If it was not known before, then only of a region that has ended
is it known now. -/
structure Coarse (before after : Source) : Prop where
  known : ∀ a, before.available = some a → ∃ b, after.available = some b ∧ b ≤ a
  unknown : before.available = none → after.available = none ∨ after.available = some 0
  closings : before.closings ≤ after.closings

namespace Exact

theorem refl (s : Source) : Exact 0 s s := ⟨by simp, rfl⟩

theorem trans (h : Exact handed s t) (h' : Exact handed' t u) : Exact (handed + handed') s u where
  available := by
    rw [← h.available, ← h'.available, Option.map_map]
    congr 1
    funext left
    show left + (handed + handed') = left + handed' + handed
    omega
  closings := h'.closings.trans h.closings

/-- What was known before is known now. -/
theorem known {a : Nat} (h : Exact handed s t) (ha : s.available = some a) :
    ∃ b, t.available = some b ∧ b + handed = a := by
  have hmap := h.available
  rw [ha] at hmap
  exact Option.map_eq_some_iff.1 hmap

theorem unknown (h : Exact handed s t) (hs : s.available = none) : t.available = none := by
  have hmap := h.available
  rw [hs] at hmap
  exact Option.map_eq_none_iff.1 hmap

theorem coarse (h : Exact handed s t) : Coarse s t where
  known := by
    intro a ha
    obtain ⟨b, hb, hsum⟩ := h.known ha
    exact ⟨b, hb, by omega⟩
  unknown hs := .inl (h.unknown hs)
  closings := Nat.le_of_eq h.closings.symm

/-- A region over a source whose octets are counted exactly counts exactly too, unless it closes. -/
theorem enter (h : Exact taken.length s u) (hgives : region.Gives found taken region') :
    Exact found.toList.length (s.enter region) (u.enter region') ∨
      found = none ∧ Shuts (s.enter region) (u.enter region') := by
  have hsame : region'.closed? = region.closed? →
      (u.enter region').closings = (s.enter region).closings := by
    intro hclosed
    rw [closings_enter, closings_enter, h.closings, hclosed]
  -- an open region adds what it has read ahead to what is below, whether that is known or not
  have hopen : ∀ {state state' : Marked}, state.closed = false → state'.closed = false →
      state.ahead.toList.length + taken.length =
        found.toList.length + state'.ahead.toList.length →
      Exact found.toList.length (s.enter (.marked state)) (u.enter (.marked state')) ∨
        found = none ∧ Shuts (s.enter (.marked state)) (u.enter (.marked state')) := by
    intro state state' hclosed hclosed' hcount
    refine .inl ⟨?_, ?_⟩
    · simp only [available_enter, Region.available, hclosed, hclosed', Bool.false_eq_true, if_false,
        ← h.available, Option.map_map]
      congr 1
      funext left
      show left + state'.ahead.toList.length + found.toList.length =
        left + taken.length + state.ahead.toList.length
      omega
    · rw [closings_enter, closings_enter, h.closings, Region.closed?, Region.closed?, hclosed,
        hclosed']
  cases hgives with
  | counted octet remaining => exact .inl ⟨rfl, hsame rfl⟩
  | spent => exact .inl ⟨rfl, hsame rfl⟩
  | passed hclosed hoctets hplain =>
    refine hopen hclosed hclosed ?_
    have hlength := congrArg List.length hoctets
    simpa using hlength
  | single hclosed hwatching hoctets hoctet =>
    refine hopen hclosed hclosed ?_
    have hlength := congrArg List.length hoctets
    simpa using hlength
  | marker hclosed hwatching hoctets =>
    refine .inr ⟨rfl, rfl, ?_⟩
    rw [closings_enter, closings_enter, h.closings]
    simp [Region.closed?, hclosed]
  | closed hclosed =>
    refine .inl ⟨?_, hsame rfl⟩
    simp [available_enter, Region.available, hclosed]

end Exact

theorem Shuts.coarse (h : Shuts s t) : Coarse s t where
  known a _ := ⟨0, h.available, Nat.zero_le a⟩
  unknown _ := .inr h.available
  closings := by
    have hclosings := h.closings
    omega

namespace Coarse

theorem trans (h : Coarse s t) (h' : Coarse t u) : Coarse s u where
  known := by
    intro a ha
    obtain ⟨b, hb, hle⟩ := h.known a ha
    obtain ⟨b', hb', hle'⟩ := h'.known b hb
    exact ⟨b', hb', Nat.le_trans hle' hle⟩
  unknown := by
    intro hs
    rcases h.unknown hs with ht | ht
    · exact h'.unknown ht
    · obtain ⟨b, hb, hle⟩ := h'.known 0 ht
      obtain rfl : b = 0 := Nat.le_zero.1 hle
      exact .inr hb
  closings := Nat.le_trans h.closings h'.closings

/-- A region that fails has nothing read ahead any more. -/
theorem enter_forget (h : Coarse s u) (hwants : region.Wants taken) :
    Coarse (s.enter region) (u.enter region.forget) := by
  have hmarked : ∀ {state : Marked}, state.closed = false →
      Coarse (s.enter (.marked state)) (u.enter (Region.marked state).forget) := by
    intro state hopen
    have hbefore : (s.enter (.marked state)).available =
        s.available.map (· + state.ahead.toList.length) := by
      simp [available_enter, Region.available, hopen]
    have hafter : (u.enter (Region.marked state).forget).available = u.available := by
      simp [available_enter, Region.available, Region.forget, hopen]
    refine ⟨?_, ?_, ?_⟩
    · intro a ha
      rw [hbefore] at ha
      obtain ⟨left, hleft, rfl⟩ := Option.map_eq_some_iff.1 ha
      obtain ⟨b, hb, hle⟩ := h.known left hleft
      exact ⟨b, hafter.trans hb, Nat.le_trans hle (Nat.le_add_right _ _)⟩
    · intro hs
      rw [hbefore] at hs
      rw [hafter]
      exact h.unknown (Option.map_eq_none_iff.1 hs)
    · rw [closings_enter, closings_enter]
      exact Nat.add_le_add_right h.closings _
  cases hwants with
  | counted remaining =>
    refine ⟨fun a ha => ⟨a, ha, Nat.le_refl a⟩, ?_, ?_⟩
    · intro hs
      cases hs
    · rw [closings_enter, closings_enter]
      exact Nat.add_le_add_right h.closings _
  | first hopen => exact hmarked hopen
  | second hopen => exact hmarked hopen

end Coarse

theorem octet?_keeps_length (count : Nat) :
    Action.Keeps (fun source : Source => source.regions.length = count) octet? := by
  intro source hsource
  exact takeThrough_keeps_length source.regions.length count source hsource

/-- What one call of a source does to the number of octets that it tells, if it tells any. -/
structure Outcome (s : Source) : Prop where
  some : ∀ octet t, octet? s = .ok (some octet) t → Exact 1 s t
  none : ∀ t, octet? s = .ok none t → Exact 0 s t ∨ Shuts s t
  error : ∀ failure t, octet? s = .error failure t → Coarse s t

theorem exact_of_yields {height : Nat}
    (houtcome : ∀ s : Source, s.regions.length = height → Outcome s)
    (hs : s.regions.length = height) (h : supply.Yields c s t) :
    Exact c.length s t ∧ t.regions.length = height := by
  induction c generalizing s with
  | nil =>
    obtain rfl : s = t := h
    exact ⟨.refl s, hs⟩
  | cons octet c ih =>
    obtain ⟨between, htake, hrest⟩ := h
    have hlength : between.regions.length = height := by
      have hkept := octet?_keeps_length height s hs
      rwa [show octet? s = .ok (some octet) between from htake] at hkept
    obtain ⟨hexact, ht⟩ := ih hlength hrest
    refine ⟨?_, ht⟩
    rw [List.length_cons, Nat.add_comm]
    exact ((houtcome s hs).some octet between htake).trans hexact

/-- An octet that is required and not handed out. -/
theorem Outcome.require_error {failure : Failure} (h : Outcome s)
    (hrun : supply.require s = .error failure t) : Coarse s t := by
  have htake : supply.take s = octet? s := rfl
  simp only [Supply.require, htake] at hrun
  rcases hoctet : octet? s with (_ | octet) | failure'
  · rw [hoctet] at hrun
    cases hrun
    rcases h.none _ hoctet with hexact | hcloses
    · exact hexact.coarse
    · exact hcloses.coarse
  · rw [hoctet] at hrun
    cases hrun
  · rw [hoctet] at hrun
    cases hrun
    exact h.error _ _ hoctet

/-- Every call has such an outcome, whatever the regions are. -/
theorem outcome (s : Source) : Outcome s := by
  generalize hheight : s.regions.length = height
  induction height generalizing s with
  | zero =>
    -- a reader does not tell, before or after
    rcases s with ⟨regions, reader⟩
    obtain rfl : regions = [] := List.length_eq_zero_iff.1 hheight
    have hreader : ∀ reader' : Reader, Exact 0 ⟨[], reader⟩ ⟨[], reader'⟩ := fun _ => ⟨rfl, rfl⟩
    refine ⟨?_, ?_, ?_⟩
    · intro octet t hrun
      rw [octet?_nil] at hrun
      cases hnext : reader.next <;> rw [hnext] at hrun <;> cases hrun
      exact ⟨rfl, rfl⟩
    · intro t hrun
      rw [octet?_nil] at hrun
      cases hnext : reader.next <;> rw [hnext] at hrun <;> cases hrun
      exact .inl (hreader _)
    · intro failure t hrun
      rw [octet?_nil] at hrun
      cases hnext : reader.next <;> rw [hnext] at hrun <;> cases hrun
      exact (hreader _).coarse
  | succ height ih =>
    rcases s with ⟨_ | ⟨region, below⟩, reader⟩
    · cases hheight
    have hbelow : (⟨below, reader⟩ : Source).regions.length = height := Nat.succ.inj hheight
    have hok : ∀ found t, octet? (enter region ⟨below, reader⟩) = .ok found t →
        Exact found.toList.length (enter region ⟨below, reader⟩) t ∨
          found = none ∧ Shuts (enter region ⟨below, reader⟩) t := by
      intro found t hrun
      obtain ⟨taken, region', u, hgives, hyields, rfl⟩ := octet?_enter_eq_ok_iff.1 hrun
      exact (exact_of_yields ih hbelow hyields).1.enter hgives
    refine ⟨?_, ?_, ?_⟩
    · intro octet t hrun
      rcases hok _ t hrun with hexact | ⟨hnone, -⟩
      · exact hexact
      · cases hnone
    · intro t hrun
      rcases hok _ t hrun with hexact | ⟨-, hcloses⟩
      · exact .inl hexact
      · exact .inr hcloses
    · intro failure t hrun
      obtain ⟨taken, mid, u, hwants, hyields, hrequire, rfl⟩ := octet?_enter_eq_error_iff.1
        (show octet? (enter region ⟨below, reader⟩) = .error failure t from hrun)
      obtain ⟨hexact, hmid⟩ := exact_of_yields ih hbelow hyields
      have hfailed : Coarse mid u := (ih mid hmid).require_error hrequire
      exact (hexact.coarse.trans hfailed).enter_forget hwants

/-! ## Any number of calls -/

/-- What a source tells before and after calls that have been answered. -/
structure Tells (answers : List Call.Answer) (before after : Source) : Prop where
  /-- What was told once bounds what is handed out and what is told from then on. -/
  sound : ∀ a, before.available = some a →
    ∃ b, after.available = some b ∧ b + (Call.handed answers).length ≤ a
  /-- A marker that has been read stays read. -/
  closings : before.closings ≤ after.closings
  /-- If no call has failed and no marker has been read, it is exact. -/
  exact : (∀ failure, .error failure ∉ answers) → after.closings = before.closings →
    after.available.map (· + (Call.handed answers).length) = before.available

namespace Tells

variable {earlier later : List Call.Answer}

theorem append (h : Tells earlier s t) (h' : Tells later t u) : Tells (earlier ++ later) s u := by
  have hhanded : (Call.handed (earlier ++ later)).length =
      (Call.handed earlier).length + (Call.handed later).length := by
    simp [Call.handed]
  refine ⟨?_, Nat.le_trans h.closings h'.closings, ?_⟩
  · intro a ha
    obtain ⟨b, hb, hle⟩ := h.sound a ha
    obtain ⟨b', hb', hle'⟩ := h'.sound b hb
    exact ⟨b', hb', by omega⟩
  · intro hok hclosings
    have hst := h.closings
    have htu := h'.closings
    -- no marker has been read in either part
    have hfirst := h.exact (fun failure hmem => hok failure (List.mem_append_left _ hmem)) (by omega)
    have hsecond := h'.exact (fun failure hmem => hok failure (List.mem_append_right _ hmem))
      (by omega)
    rw [← hfirst, ← hsecond, Option.map_map, hhanded]
    congr 1
    funext left
    show left + (_ + _) = left + _ + _
    omega

theorem of_exact (h : Exact found.toList.length s t) : Tells [.ok found] s t := by
  have hhanded : Call.handed [.ok found] = found.toList := by
    cases found <;> rfl
  refine ⟨?_, Nat.le_of_eq h.closings.symm, ?_⟩
  · intro a ha
    obtain ⟨b, hb, hsum⟩ := h.known ha
    rw [hhanded]
    exact ⟨b, hb, Nat.le_of_eq hsum⟩
  · intro _ _
    rw [hhanded]
    exact h.available

/-- One call. -/
theorem of_octet?_ok (h : octet? s = .ok found t) : Tells [.ok found] s t := by
  cases found with
  | some octet => exact .of_exact ((outcome s).some octet t h)
  | none =>
    rcases (outcome s).none t h with hexact | hcloses
    · exact .of_exact hexact
    · refine ⟨fun a _ => ⟨0, hcloses.available, Nat.zero_le a⟩, hcloses.coarse.closings, ?_⟩
      intro _ hclosings
      have hone := hcloses.closings
      omega

theorem of_octet?_error {failure : Failure} (h : octet? s = .error failure t) :
    Tells [.error failure] s t := by
  have hcoarse := (outcome s).error failure t h
  refine ⟨hcoarse.known, hcoarse.closings, ?_⟩
  intro hok
  exact absurd List.mem_cons_self (hok failure)

theorem of_watch (enabled : Bool) (s : Source) : Tells [] s (s.watch enabled) := by
  have havailable : (s.watch enabled).available = s.available := by
    rcases s with ⟨_ | ⟨region, below⟩, reader⟩
    · rfl
    · cases region <;> rfl
  have hclosings : (s.watch enabled).closings = s.closings := by
    rcases s with ⟨_ | ⟨region, below⟩, reader⟩
    · rfl
    · show (enter (region.watch enabled) ⟨below, reader⟩).closings =
        (enter region ⟨below, reader⟩).closings
      rw [closings_enter, closings_enter]
      cases region <;> rfl
  refine ⟨fun a ha => ⟨a, havailable.trans ha, Nat.le_refl a⟩, Nat.le_of_eq hclosings.symm, ?_⟩
  intro _ _
  simp [havailable, Call.handed]

end Tells

/-- What a source tells is kept by any calls made of it, failing ones included. -/
theorem tells_of_answers (calls : List Call) (s : Source) :
    Tells (answers calls s).1 s (answers calls s).2 := by
  induction calls generalizing s with
  | nil =>
    refine ⟨fun a ha => ⟨a, ha, Nat.le_refl a⟩, Nat.le_refl _, ?_⟩
    intro _ _
    simp [answers, Call.answers, Call.handed]
  | cons call calls ih =>
    cases call with
    | watch enabled => exact (Tells.of_watch enabled s).append (ih (s.watch enabled))
    | take =>
      simp only [answers, Call.answers]
      cases hrun : octet? s with
      | ok found after => exact (Tells.of_octet?_ok hrun).append (ih after)
      | error failure after => exact (Tells.of_octet?_error hrun).append (ih after)

/-! ## Counting in words -/

/-- A source made from a reader by opening regions, none of a larger definite length than a word can
hold, by taking octets, also where that fails, by switching the lookout and by giving up regions. -/
inductive Built (largest : Nat) : Source → Prop where
  | reader (reader : Reader) : Built largest ⟨[], reader⟩
  | enter {s : Source} (length : Length) (hlength : ∀ count, length = .definite count → count ≤ largest)
    (h : Built largest s) : Built largest (s.enter length.region)
  | octet? {s : Source} (h : Built largest s) : Built largest (Action.final (octet? s))
  | watch {s : Source} (enabled : Bool) (h : Built largest s) : Built largest (s.watch enabled)
  | leave {s : Source} (h : Built largest s) : Built largest s.leave

/-- What a source tells is at most so much. -/
def AtMost (largest : Nat) (source : Source) : Prop := ∀ a, source.available = some a → a ≤ largest

/-- So is what the regions below the innermost one tell, and those below the next one, and so on. -/
def Capped (largest : Nat) (source : Source) : Prop :=
  ∀ above below, source.regions = above ++ below → AtMost largest ⟨below, source.reader⟩

variable {largest : Nat}

theorem capped_enter :
    Capped largest (s.enter region) ↔ AtMost largest (s.enter region) ∧ Capped largest s := by
  constructor
  · intro h
    refine ⟨h [] _ rfl, fun above below hregions => h (region :: above) below ?_⟩
    exact congrArg (region :: ·) hregions
  · rintro ⟨hwhole, hbelow⟩ above below hregions
    cases above with
    | nil =>
      obtain rfl : region :: s.regions = below := hregions
      exact hwhole
    | cons head above => exact hbelow above below (List.cons.inj hregions).2

/-- What is not told to be more than before is at most what it was. -/
theorem Coarse.atMost (h : Coarse s t) (hs : AtMost largest s) : AtMost largest t := by
  intro b hb
  cases ha : s.available with
  | some a =>
    obtain ⟨b', hb', hle⟩ := h.known a ha
    rw [hb] at hb'
    cases hb'
    exact Nat.le_trans hle (hs a ha)
  | none =>
    rcases h.unknown ha with hnone | hzero
    · rw [hb] at hnone
      cases hnone
    · rw [hb] at hzero
      cases hzero
      exact Nat.zero_le largest

theorem octet?_coarse (s : Source) : Coarse s (Action.final (octet? s)) := by
  rcases hrun : octet? s with (_ | octet) | failure
  · rcases (outcome s).none _ hrun with hexact | hcloses
    · exact hexact.coarse
    · exact hcloses.coarse
  · exact ((outcome s).some octet _ hrun).coarse
  · exact (outcome s).error failure _ hrun

/-- Taking an octet keeps every region within its bound. -/
theorem octet?_keeps_capped : Action.Keeps (Capped largest) octet? := by
  intro s hs
  generalize hheight : s.regions.length = height
  induction height generalizing s with
  | zero =>
    rcases s with ⟨regions, reader⟩
    obtain rfl : regions = [] := List.length_eq_zero_iff.1 hheight
    intro above below hregions
    have hempty : (Action.final (octet? ⟨[], reader⟩)).regions = [] := by
      rw [octet?_nil]
      cases reader.next <;> rfl
    rw [hempty] at hregions
    obtain ⟨-, rfl⟩ := List.append_eq_nil_iff.1 hregions.symm
    intro a ha
    cases ha
  | succ height ih =>
    rcases s with ⟨_ | ⟨region, below⟩, reader⟩
    · cases hheight
    obtain ⟨hwhole, hbelow⟩ := capped_enter.1 (show Capped largest (enter region ⟨below, reader⟩) from hs)
    -- below the region octets are taken too, any number of them
    have hkeep : Action.Keeps (fun s : Source => s.regions.length = height ∧ Capped largest s)
        octet? := by
      rintro s ⟨hlength, hcapped⟩
      exact ⟨octet?_keeps_length height s hlength, ih s hcapped hlength⟩
    obtain ⟨region', u, hfinal, -, hu⟩ :=
      octet?_keeps_below hkeep (enter region ⟨below, reader⟩)
        ⟨region, ⟨below, reader⟩, rfl, Nat.succ.inj hheight, hbelow⟩
    have htop : AtMost largest (Action.final (octet? (enter region ⟨below, reader⟩))) :=
      (octet?_coarse _).atMost hwhole
    have hcapped : Capped largest (Action.final (octet? (enter region ⟨below, reader⟩))) := by
      rw [hfinal] at htop ⊢
      exact capped_enter.2 ⟨htop, hu⟩
    exact hcapped

theorem Built.capped (h : Built largest s) : Capped largest s := by
  induction h with
  | reader reader =>
    intro above below hregions a ha
    obtain ⟨-, rfl⟩ := List.append_eq_nil_iff.1 hregions.symm
    cases ha
  | enter length hlength h ih =>
    refine capped_enter.2 ⟨?_, ih⟩
    intro a ha
    cases length with
    | definite remaining =>
      cases ha
      exact hlength _ rfl
    | indefinite =>
      -- nothing has been read ahead yet
      rw [available_enter, Length.region, Region.available] at ha
      simp only [Bool.false_eq_true, if_false, Option.toList_none, List.length_nil, Nat.add_zero,
        Option.map_id'] at ha
      exact ih [] _ rfl a ha
  | octet? h ih => exact octet?_keeps_capped _ ih
  | @watch s enabled h ih =>
    rcases s with ⟨_ | ⟨region, below⟩, reader⟩
    · exact ih
    · obtain ⟨hwhole, hbelow⟩ :=
        capped_enter.1 (show Capped largest (Source.enter region ⟨below, reader⟩) from ih)
      have hwatch : Capped largest (Source.enter (region.watch enabled) ⟨below, reader⟩) := by
        refine capped_enter.2 ⟨?_, hbelow⟩
        cases region <;> exact hwhole
      exact hwatch
  | @leave s h ih =>
    rcases s with ⟨_ | ⟨region, below⟩, reader⟩
    · exact ih
    · exact (capped_enter.1 (show Capped largest (Source.enter region ⟨below, reader⟩) from ih)).2

/-- What a source tells is a bound on the octets that can still be taken, which never goes up, and is
exact until a marker is read or a call fails. Adding the octet read ahead by an open region to what the
regions below it tell never exceeds the largest length of a definite region. -/
theorem available_bounds :
    (∀ (s : Source) (calls : List Call), Tells (answers calls s).1 s (answers calls s).2) ∧
    ∀ (largest : Nat) (s : Source), Built largest s →
      ∀ (above below : List Region) (state : Marked),
        s.regions = above ++ .marked state :: below → state.closed = false →
          ∀ a, available ⟨below, s.reader⟩ = some a → a + state.ahead.toList.length ≤ largest := by
  refine ⟨fun s calls => tells_of_answers calls s, ?_⟩
  intro largest s hbuilt above below state hregions hopen a ha
  have hatMost := hbuilt.capped above (.marked state :: below) hregions
  refine hatMost _ ?_
  have henter : available ⟨.marked state :: below, s.reader⟩ =
      (Region.marked state).available (available ⟨below, s.reader⟩) := rfl
  rw [henter, ha, Region.available, if_neg (by simp [hopen])]
  rfl

/-- Four octets are told in front of a zero octet. Behind it three are, one of which has been read
ahead. -/
theorem available_bounds_ahead :
    let s : Source := enter Length.indefinite.region (enter (Length.definite 4).region (ofData [0, 5]))
    s.available = some 4 ∧
      (answers [.take] s).2 = ⟨[.marked { ahead := some 5 }, .definite 2], ⟨[], 2⟩⟩ ∧
      Tells (answers [.take] s).1 s (answers [.take] s).2 ∧ 2 + (some (5 : UInt8)).toList.length ≤ 4 := by
  intro s
  have hbuilt : Built 4 s := by
    refine .enter .indefinite ?_ (.enter (.definite 4) ?_ (.reader _))
    · intro count h
      cases h
    · intro count h
      cases h
      exact Nat.le_refl 4
  exact ⟨rfl, rfl, available_bounds.1 s [.take],
    available_bounds.2 4 (Action.final (octet? s)) (.octet? hbuilt) [] [.definite 2]
      { ahead := some 5 } rfl rfl 2 rfl⟩

end Ber.Source
