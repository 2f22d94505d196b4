import Ber.Proofs.Availability
import Ber.Proofs.Conservation
import Ber.Proofs.Faults
import Ber.Proofs.Lookout
import Ber.Proofs.Skipping

/-!
# Ber.Proofs.Retrying — asking again after a fault

A fault of the reader is reported once and then gone, so a caller may ask again. Whether nothing is
lost by that depends on what the open regions have taken in the meantime:

1. Each fault is told once, in order, by one failed call each (`Source.reports`).
2. A call that succeeds, or that fails because the data ends, does the same without any faults
   (`Source.octet?_faultless`).
3. A call that fails because the reader does leaves the source as it was, unless a region had taken
   a zero octet and was looking for the second one of its marker (`Source.FailsBehindZero`): then
   the zero octet is lost (`Source.kept_or_lost`).

`Source.faults_retried` puts it together for any number of calls.
-/

namespace Ber

/-- The reason of a fault, if an arrival is one. -/
def Arrival.fault? : Arrival → Option String
  | .fault reason => some reason
  | _ => none

/-- The reason of the reader, if it is the reader that has failed. -/
def Failure.fault? (failure : Failure) : Option String := failure.cause.underlying?

/-- The reason of the reader, if it is the reader that has failed a call. -/
def Call.Answer.fault? : Call.Answer → Option String
  | .ok _ => none
  | .error failure => failure.fault?

/-! ## Readers -/

namespace Reader

/-- The reasons of the faults that a reader has not reported yet. -/
def faultsLeft (reader : Reader) : List String := reader.arrivals.filterMap Arrival.fault?

/-- A reader at the same place that only meets the octets. -/
def faultless (reader : Reader) : Reader := ⟨reader.octetsLeft.map .octet, reader.position⟩

@[simp] theorem octetsLeft_faultless (reader : Reader) :
    reader.faultless.octetsLeft = reader.octetsLeft := by
  show (reader.octetsLeft.map Arrival.octet).filterMap Arrival.octet? = _
  rw [List.filterMap_map]
  exact List.filterMap_some

/-- Without its faults, a reader tells the same, but for the next fault if that comes first. -/
theorem next_faultless (reader : Reader) :
    match reader.next with
    | .ok found after =>
      reader.faultless.next = .ok found after.faultless ∧ after.faultsLeft = reader.faultsLeft
    | .error failure after =>
      after.faultless = reader.faultless ∧
        reader.faultsLeft = failure.fault?.toList ++ after.faultsLeft ∧ failure.fault?.isSome := by
  rcases reader with ⟨arrivals, position⟩
  show match nextFrom position arrivals with
    | .ok found after => nextFrom position ((arrivals.filterMap Arrival.octet?).map .octet) = _ ∧ _
    | .error failure after => _
  fun_induction nextFrom position arrivals with
  | case1 => exact ⟨rfl, rfl⟩
  | case2 value rest => exact ⟨rfl, rfl⟩
  | case3 rest ih => exact ih
  | case4 reason rest => exact ⟨rfl, rfl, rfl⟩

end Reader

/-- A reader tells the same as without its faults, until it reports one. -/
def Retelling.faultless : Retelling where
  alike reader other := reader = other.faultless
  place := id
  breaks told := told.fault?.isSome
  position := by
    rintro reader other rfl
    rfl
  left := by
    rintro reader other rfl
    rw [Reader.octetsLeft_faultless]
  next := by
    rintro reader other rfl
    have hnext := other.next_faultless
    cases hrun : other.next with
    | ok found after =>
      rw [hrun] at hnext
      rw [hnext.1]
      exact ⟨rfl, rfl⟩
    | error failure after =>
      rw [hrun] at hnext
      exact .of_breaks hnext.2.2

namespace Source

variable {s t u mid : Source} {region : Region} {taken : Octets} {failure : Failure}

/-! ## Regions on regions -/

/-- An octet that is handed out leaves as many regions open. -/
theorem length_of_octet? {octet : UInt8} (h : octet? s = .ok (some octet) t) :
    t.regions.length = s.regions.length := by
  have hkept := octet?_keeps_length _ s rfl
  rwa [h] at hkept

theorem length_of_yields (h : supply.Yields taken s t) : t.regions.length = s.regions.length :=
  keeps_of_yields (P := fun u => u.regions.length = s.regions.length)
    (fun _ _ _ hrun hu => (length_of_octet? hrun).trans hu) h rfl

/-- What holds of readers, and of a region if it holds of any source with as many regions as there
are below it, holds of all sources. -/
theorem height_induction {motive : Source → Prop} (reader : ∀ reader, motive ⟨[], reader⟩)
    (enter : ∀ region below,
      (∀ mid : Source, mid.regions.length = below.regions.length → motive mid) →
        motive (Source.enter region below))
    (s : Source) : motive s := by
  generalize hheight : s.regions.length = height
  induction height generalizing s with
  | zero =>
    rcases s with ⟨regions, arrivals⟩
    obtain rfl : regions = [] := List.length_eq_zero_iff.1 hheight
    exact reader arrivals
  | succ height ih =>
    rcases s with ⟨_ | ⟨region, regions⟩, arrivals⟩
    · cases hheight
    · have hbelow : regions.length = height := Nat.succ.inj hheight
      exact enter region ⟨regions, arrivals⟩ fun mid hmid => ih mid (hmid.trans hbelow)

/-- An opened region and what is below it can be told apart. -/
theorem enter_inj {region region' : Region} (h : s.enter region = t.enter region') :
    region = region' ∧ s = t := by
  rcases s with ⟨regions, reader⟩
  rcases t with ⟨regions', reader'⟩
  simp only [enter, Source.mk.injEq, List.cons.injEq] at h
  obtain ⟨⟨rfl, rfl⟩, rfl⟩ := h
  exact ⟨rfl, rfl⟩

/-- Octets that are handed out are spent. -/
theorem left_of_yields (h : supply.Yields taken s t) : t.left + taken.length = s.left := by
  induction taken generalizing s with
  | nil =>
    cases h
    rfl
  | cons octet taken ih =>
    obtain ⟨between, htake, hrest⟩ := h
    have hless : between.left + 1 = s.left := left_of_octet?_eq_ok htake
    rw [← hless, ← ih hrest, List.length_cons]
    rfl

/-! ## Faults that are told -/

/-- A source on a reader without faults. -/
def faultless (source : Source) : Source := { source with reader := source.reader.faultless }

/-- The reasons of the faults that the reader of a source has not reported yet. -/
def faultsLeft (source : Source) : List String := source.reader.faultsLeft

@[simp] theorem faultsLeft_enter (region : Region) (s : Source) :
    (s.enter region).faultsLeft = s.faultsLeft := rfl

@[simp] theorem rest_faultless (s : Source) : s.faultless.rest = s.rest :=
  s.reader.octetsLeft_faultless

@[simp] theorem left_faultless (s : Source) : s.faultless.left = s.left := by
  simp [left, faultless]

/-- A call does the same without faults, unless the reader fails it. -/
theorem octet?_faultless (s : Source) :
    match octet? s with
    | .ok found t => octet? s.faultless = .ok found t.faultless
    | .error failure t =>
      failure.fault? = none → octet? s.faultless = .error failure t.faultless := by
  have hsame : ∀ {v t : Source}, Retelling.faultless.Sources v t → v = t.faultless := by
    intro v t h
    rcases v with ⟨regions, reader⟩
    obtain rfl : t.regions = regions := h.regions
    obtain rfl : reader = t.reader.faultless := h.reader
    rfl
  rcases (Retelling.faultless.octet?_retells s.faultless s ⟨rfl, rfl⟩).outcomes with
    ⟨found, v, t, hrun, htold, h⟩ | ⟨failure, v, t, hrun, htold, h⟩ | ⟨told, t, htold, hbreaks⟩
  · rw [htold, hrun, hsame h]
  · rw [htold, hrun, hsame h]
    intro _
    rfl
  · rw [htold]
    intro hnone
    have hfault : told.fault?.isSome = true := hbreaks
    rw [hnone] at hfault
    cases hfault

/-- A call takes the fault that it tells off those left, and no other one. -/
structure Reports (s : Source) : Prop where
  ok : ∀ found t, octet? s = .ok found t → t.faultsLeft = s.faultsLeft
  error : ∀ failure t, octet? s = .error failure t →
    s.faultsLeft = failure.fault?.toList ++ t.faultsLeft

/-- So does an octet that has to be there. -/
theorem Reports.require (h : Reports s) (hrun : supply.require s = .error failure t) :
    s.faultsLeft = failure.fault?.toList ++ t.faultsLeft := by
  have htake : supply.take s = octet? s := rfl
  simp only [Supply.require, htake] at hrun
  rcases hoctet : octet? s with (_ | octet) | failure'
  · rw [hoctet] at hrun
    cases hrun
    exact (h.ok _ _ hoctet).symm
  · rw [hoctet] at hrun
    cases hrun
  · rw [hoctet] at hrun
    cases hrun
    exact h.error _ _ hoctet

/-- Each fault is told by the call that it fails, through whatever regions it is made. -/
theorem reports (s : Source) : Reports s := by
  induction s using height_induction with
  | reader reader =>
    have hnext := reader.next_faultless
    constructor
    · intro found t hrun
      rw [octet?_nil] at hrun
      cases hasked : reader.next <;> rw [hasked] at hrun hnext <;> cases hrun
      exact hnext.2
    · intro failure t hrun
      rw [octet?_nil] at hrun
      cases hasked : reader.next <;> rw [hasked] at hrun hnext <;> cases hrun
      exact hnext.2.1
  | enter region below ih =>
    -- the octets that the region takes are handed out, so no fault is told by them
    have hyielded : ∀ {c : Octets} {v : Source}, supply.Yields c below v →
        v.faultsLeft = below.faultsLeft := by
      intro c v hyields
      refine (keeps_of_yields (P := fun v => v.regions.length = below.regions.length ∧
        v.faultsLeft = below.faultsLeft) ?_ hyields ⟨rfl, rfl⟩).2
      intro octet v w hrun hv
      exact ⟨(length_of_octet? hrun).trans hv.1, ((ih v hv.1).ok _ _ hrun).trans hv.2⟩
    constructor
    · intro found t hrun
      obtain ⟨taken, region', u, hgives, hyields, rfl⟩ := octet?_enter_eq_ok_iff.1 hrun
      rw [faultsLeft_enter, faultsLeft_enter, hyielded hyields]
    · intro failure t hrun
      obtain ⟨taken, mid, u, hwants, hyields, hrequire, rfl⟩ := octet?_enter_eq_error_iff.1 hrun
      rw [faultsLeft_enter, faultsLeft_enter, ← hyielded hyields]
      exact (ih mid (length_of_yields hyields)).require hrequire

/-! ## What a failed call leaves -/

/-- A call fails because the reader does, and behind a zero octet that a region has just taken: the
region looks for its marker, and the octet that the reader fails for is the one behind the zero
octet. The region is the one that is called, or one below it that it takes octets from. -/
inductive FailsBehindZero : Source → Prop where
  | here {state : Marked} {taken : Octets} {below mid after : Source} {failure : Failure}
    (hopen : state.closed = false) (hwatching : state.watching = true)
    (hzero : state.ahead.toList ++ taken = [0]) (hyields : supply.Yields taken below mid)
    (hfails : octet? mid = .error failure after) (hfault : failure.fault?.isSome) :
    FailsBehindZero (below.enter (.marked state))
  | deeper {region : Region} {taken : Octets} {below mid : Source} (hwants : region.Wants taken)
    (hyields : supply.Yields taken below mid) (h : FailsBehindZero mid) :
    FailsBehindZero (below.enter region)

/-- Through a region, the reader fails a call after the octets that the region has taken. -/
theorem octet?_enter_of_fault (h : octet? (s.enter region) = .error failure t)
    (hfault : failure.fault?.isSome) :
    ∃ taken mid u, region.Wants taken ∧ supply.Yields taken s mid ∧ octet? mid = .error failure u ∧
      t = u.enter region.forget := by
  obtain ⟨taken, mid, u, hwants, hyields, hrequire, rfl⟩ := octet?_enter_eq_error_iff.1 h
  rcases Supply.require_eq_error hrequire with htruncated | hfails
  · rw [Failure.fault?, htruncated] at hfault
    cases hfault
  · exact ⟨taken, mid, u, hwants, hyields, hfails, rfl⟩

/-- A region that wants an octet has taken none and holds none, or it has a zero octet that may
begin its marker. -/
theorem untouched_or_behindZero (h : region.Wants taken) :
    (taken = [] ∧ region.ahead = 0 ∧ region.forget = region) ∨
      ∃ state, region = .marked state ∧ state.closed = false ∧ state.watching = true ∧
        state.ahead.toList ++ taken = [0] := by
  cases h with
  | counted remaining => exact .inl ⟨rfl, rfl, rfl⟩
  | @first state hopen hahead =>
    left
    refine ⟨rfl, ?_, ?_⟩
    · rw [Region.ahead, hahead]
      rfl
    · rw [Region.forget, ← hahead]
  | @second state _ hopen hwatching hzero => exact .inr ⟨state, rfl, hopen, hwatching, hzero⟩

/-- A source that fails its next call has yielded nothing. -/
theorem yields_of_error (hfails : octet? s = .error failure t) (h : supply.Yields taken s mid) :
    taken = [] ∧ s = mid := by
  cases taken with
  | nil => exact ⟨rfl, h⟩
  | cons octet taken =>
    obtain ⟨between, htake, -⟩ := h
    cases hfails.symm.trans htake

/-- A region that holds no octet has not taken a zero octet if the source below it fails at once. -/
theorem not_failsBehindZero_enter (hahead : region.ahead = 0)
    (hfails : octet? s = .error failure t) (hkept : ¬ FailsBehindZero s) :
    ¬ FailsBehindZero (s.enter region) := by
  intro hbehind
  generalize hsource : s.enter region = v at hbehind
  cases hbehind with
  | here hopen hwatching hzero hyields _ _ =>
    obtain ⟨rfl, rfl⟩ := enter_inj hsource
    obtain ⟨rfl, -⟩ := yields_of_error hfails hyields
    rw [List.append_nil] at hzero
    rw [Region.ahead, hzero] at hahead
    cases hahead
  | deeper hwants hyields h =>
    obtain ⟨rfl, rfl⟩ := enter_inj hsource
    obtain ⟨-, rfl⟩ := yields_of_error hfails hyields
    exact hkept h

/-- A region that wants an octet and fails gives up what it holds. -/
theorem left_enter_forget (region : Region) (s : Source) :
    (s.enter region.forget).left = s.left := by
  rw [left_enter]
  cases region <;> exact Nat.zero_add _

/-- Having no regions, a source has not taken a zero octet. -/
theorem not_failsBehindZero_nil (reader : Reader) : ¬ FailsBehindZero ⟨[], reader⟩ := by
  intro hbehind
  generalize hsource : (⟨[], reader⟩ : Source) = s at hbehind
  cases hbehind <;> cases hsource

/-- A call that the reader fails leaves the source as it was, or a zero octet is lost. -/
theorem kept_or_lost (h : octet? s = .error failure t) (hfault : failure.fault?.isSome) :
    (¬ FailsBehindZero s ∧ t.faultless = s.faultless) ∨
      (FailsBehindZero s ∧ t.left < s.left) := by
  induction s using height_induction generalizing t with
  | reader reader =>
    left
    refine ⟨not_failsBehindZero_nil reader, ?_⟩
    have hnext := reader.next_faultless
    rw [octet?_nil] at h
    cases hasked : reader.next <;> rw [hasked] at h hnext <;> cases h
    exact congrArg (Source.mk []) hnext.1
  | enter region below ih =>
    obtain ⟨taken, mid, u, hwants, hyields, hfails, rfl⟩ := octet?_enter_of_fault h hfault
    have hspent := left_of_yields hyields
    have hheld := left_enter region below
    rw [left_enter_forget]
    rcases ih mid (length_of_yields hyields) hfails with ⟨hkept, hsame⟩ | ⟨hlost, hless⟩
    · rcases untouched_or_behindZero hwants with ⟨rfl, hahead, hforget⟩ |
        ⟨state, rfl, hopen, hwatching, hzero⟩
      · -- neither the region nor those below it have changed
        cases hyields
        left
        rw [hforget]
        exact ⟨not_failsBehindZero_enter hahead hfails hkept, congrArg (enter region) hsame⟩
      · -- the zero octet is among those spent, whether it was held or has just been taken
        right
        refine ⟨.here hopen hwatching hzero hyields hfails hfault, ?_⟩
        have hleft : u.left = mid.left := by rw [← left_faultless u, hsame, left_faultless]
        have hone := congrArg List.length hzero
        rw [List.length_append, List.length_singleton] at hone
        rw [Region.ahead] at hheld
        omega
    · -- lost below, whatever this region has taken
      right
      refine ⟨.deeper hwants hyields hlost, ?_⟩
      omega

/-- Where no region looks for its marker, none has taken a zero octet in vain. -/
theorem Quiet.not_failsBehindZero (hs : s.Quiet) : ¬ FailsBehindZero s := by
  intro hbehind
  induction hbehind with
  | here hopen hwatching hzero hyields hfails hfault =>
    have hquiet : _ = false := hs (.marked _) List.mem_cons_self
    rw [Region.isWatching, hwatching] at hquiet
    cases hquiet
  | deeper hwants hyields h ih =>
    have hbelow : Quiet _ := fun region hmem => hs region (List.mem_cons_of_mem _ hmem)
    refine ih (keeps_of_yields (P := Quiet) ?_ hyields hbelow)
    intro octet v w hrun hv
    exact Octetwise.quiet_of_ok (fun _ hkeep => hkeep) hv hrun

/-! ## Any number of calls -/

/-- So many calls of a source, without anything in between. -/
def takes (count : Nat) (source : Source) : List Call.Answer × Source :=
  answers (List.replicate count .take) source

/-- What has become of a source by so many calls. -/
structure Repeats (count : Nat) (source : Source) : Prop where
  /-- Faults aside, the answers are those of as many calls without faults, and the source is left in
  the same state. -/
  settled : takes ((takes count source).1.filter (·.fault?.isNone)).length source.faultless =
    ((takes count source).1.filter (·.fault?.isNone), (takes count source).2.faultless)
  /-- Faults are told in order, each of them once. -/
  told : source.faultsLeft =
    (takes count source).1.filterMap Call.Answer.fault? ++ (takes count source).2.faultsLeft
  /-- So no more calls fail than there are faults. -/
  enough : count ≤
    ((takes count source).1.filter (·.fault?.isNone)).length + source.faultsLeft.length

theorem takes_of_ok {found : Option UInt8} (h : octet? s = .ok found t) (count : Nat) :
    takes (count + 1) s = (.ok found :: (takes count t).1, (takes count t).2) := by
  simp only [takes, answers, List.replicate_succ, Call.answers, h]

theorem takes_of_error (h : octet? s = .error failure t) (count : Nat) :
    takes (count + 1) s = (.error failure :: (takes count t).1, (takes count t).2) := by
  simp only [takes, answers, List.replicate_succ, Call.answers, h]

section
variable {count : Nat} {answer : Call.Answer}
  (hcall : ∀ count, takes (count + 1) s = (answer :: (takes count t).1, (takes count t).2))
include hcall

/-- A call that is answered alike with and without faults comes first. -/
theorem Repeats.cons (hfault : answer.fault? = none)
    (hfaultless : ∀ count, takes (count + 1) s.faultless =
      (answer :: (takes count t.faultless).1, (takes count t.faultless).2))
    (hfaults : t.faultsLeft = s.faultsLeft) (h : Repeats count t) : Repeats (count + 1) s := by
  have hsettled : (takes (count + 1) s).1.filter (·.fault?.isNone) =
      answer :: (takes count t).1.filter (·.fault?.isNone) := by
    rw [hcall, List.filter_cons_of_pos (by rw [hfault]; rfl)]
  constructor
  · rw [hsettled, List.length_cons, hfaultless, h.settled, hcall]
  · rw [hcall, List.filterMap_cons_none hfault, ← hfaults]
    exact h.told
  · have henough := h.enough
    rw [hsettled, List.length_cons, ← hfaults]
    omega

/-- A call that the reader has failed may be made again. -/
theorem Repeats.again {reason : String} (hfault : answer.fault? = some reason)
    (hfaultless : t.faultless = s.faultless) (hfaults : s.faultsLeft = reason :: t.faultsLeft)
    (h : Repeats count t) : Repeats (count + 1) s := by
  have hsettled : (takes (count + 1) s).1.filter (·.fault?.isNone) =
      (takes count t).1.filter (·.fault?.isNone) := by
    rw [hcall, List.filter_cons_of_neg (by simp [hfault])]
  constructor
  · rw [hsettled, ← hfaultless, h.settled, hcall]
  · rw [hcall, List.filterMap_cons_some hfault, hfaults, List.cons_append, ← h.told]
  · have henough := h.enough
    rw [hsettled, hfaults, List.length_cons]
    omega

end

/-- As long as no zero octet is lost, failed calls may be repeated. -/
theorem repeats (count : Nat) (s : Source)
    (h : ∀ earlier < count, ¬ FailsBehindZero (takes earlier s).2) : Repeats count s := by
  induction count generalizing s with
  | zero => exact ⟨rfl, rfl, Nat.zero_le _⟩
  | succ count ih =>
    have hcall := octet?_faultless s
    have hlater : ∀ t, (∀ earlier, (takes (earlier + 1) s).2 = (takes earlier t).2) →
        Repeats count t := by
      intro t ht
      refine ih t fun earlier hless => ?_
      rw [← ht]
      exact h (earlier + 1) (Nat.succ_lt_succ hless)
    cases hrun : octet? s with
    | ok found t =>
      rw [hrun] at hcall
      refine .cons (takes_of_ok hrun) rfl (takes_of_ok hcall) ((reports s).ok _ _ hrun) ?_
      exact hlater t fun earlier => by rw [takes_of_ok hrun]
    | error failure t =>
      rw [hrun] at hcall
      have hrest := hlater t fun earlier => by rw [takes_of_error hrun]
      have hfaults := (reports s).error _ _ hrun
      cases hfault : failure.fault? with
      | none =>
        -- the data has ended, which it does without faults as well
        rw [hfault] at hfaults
        exact .cons (takes_of_error hrun) hfault (takes_of_error (hcall hfault)) hfaults.symm hrest
      | some reason =>
        rw [hfault] at hfaults
        have hkept : ¬ FailsBehindZero s := h 0 (Nat.succ_pos count)
        rcases kept_or_lost hrun (by rw [hfault]; rfl) with ⟨-, hsame⟩ | ⟨hlost, -⟩
        · exact .again (takes_of_error hrun) hfault hsame hfaults hrest
        · exact absurd hlost hkept

/-- Calls start no search for a marker. -/
theorem Quiet.takes (hs : s.Quiet) (count : Nat) : (takes count s).2.Quiet := by
  induction count generalizing s with
  | zero => exact hs
  | succ count ih =>
    have hafter : (Action.final (octet? s)).Quiet := Octetwise.quiet (fun _ hkeep => hkeep) hs
    cases hrun : octet? s with
    | ok found t =>
      rw [hrun] at hafter
      rw [takes_of_ok hrun]
      exact ih hafter
    | error failure t =>
      rw [hrun] at hafter
      rw [takes_of_error hrun]
      exact ih hafter

/-- Sources that are the same without their faults have the same regions open at the same place. -/
theorem matches_of_faultless (h : t.faultless = s.faultless) : s.Matches t where
  regions := by
    show t.faultless.regions = s.faultless.regions
    rw [h]
  position := by
    show t.faultless.position = s.faultless.position
    rw [h]
  rest := by
    rw [← rest_faultless t, h, rest_faultless]

theorem Matches.left (h : s.Matches t) : t.left = s.left := by
  have hrest : t.reader.octetsLeft = s.reader.octetsLeft := h.rest
  rw [Source.left, h.regions, hrest, Source.left]

/-- A call that the reader fails leaves the regions, the position and the octets to come as they
were, except where a region that looks for its marker has taken a zero octet and the reader fails
for the octet behind it. With that exception, calls may be made again: faults aside, any number of
them has the answers of a reader without faults. Where no region looks for its marker, there is no
exception. -/
theorem faults_retried (s : Source) :
    (∀ failure t, octet? s = .error failure t → failure.fault?.isSome →
      (s.Matches t ↔ ¬ FailsBehindZero s)) ∧
    (∀ count, (∀ earlier < count, ¬ FailsBehindZero (takes earlier s).2) → Repeats count s) ∧
    (s.Quiet → (∀ failure t, octet? s = .error failure t → failure.fault?.isSome → s.Matches t) ∧
      ∀ count, Repeats count s) := by
  have hkept : ∀ failure t, octet? s = .error failure t → failure.fault?.isSome →
      (s.Matches t ↔ ¬ FailsBehindZero s) := by
    intro failure t hrun hfault
    rcases kept_or_lost hrun hfault with ⟨hkept, hsame⟩ | ⟨hlost, hless⟩
    · exact ⟨fun _ => hkept, fun _ => matches_of_faultless hsame⟩
    · constructor
      · intro hmatches
        exact absurd hmatches.left (Nat.ne_of_lt hless)
      · intro hkept
        exact absurd hlost hkept
  refine ⟨hkept, fun count => repeats count s, fun hs => ⟨?_, ?_⟩⟩
  · intro failure t hrun hfault
    exact (hkept failure t hrun hfault).2 hs.not_failsBehindZero
  · intro count
    exact repeats count s fun earlier _ => (hs.takes earlier).not_failsBehindZero

/-- Four calls through a region that does not look for its marker, one of which is failed, and a
call that loses a zero octet. -/
theorem faults_retried_reset :
    let quiet : Source :=
      ⟨[.marked { watching := false }, .definite 3], ⟨[.octet 7, .fault "reset", .octet 0], 0⟩⟩
    let looking : Source := ⟨[.marked {}], ⟨[.octet 0, .fault "reset", .octet 0], 0⟩⟩
    let after : Source := ⟨[.marked {}], ⟨[.octet 0], 1⟩⟩
    quiet.Quiet ∧ Repeats 4 quiet ∧
      (takes 4 quiet).1 = [.ok (some 7), .error ⟨.unreadable "reset", 1⟩, .ok (some 0),
        .error ⟨.truncated, 2⟩] ∧
      octet? looking = .error ⟨.unreadable "reset", 1⟩ after ∧ FailsBehindZero looking ∧
      ¬ looking.Matches after := by
  intro quiet looking after
  have hquiet : ∀ region ∈ quiet.regions, region.isWatching = false := by decide
  have hfails : octet? looking = .error ⟨.unreadable "reset", 1⟩ after := rfl
  have hbehind : FailsBehindZero looking :=
    @FailsBehindZero.here {} [0] ⟨[], looking.reader⟩ _ _ _ rfl rfl rfl ⟨_, rfl, rfl⟩ rfl rfl
  exact ⟨hquiet, ((faults_retried quiet).2.2 hquiet).2 4, rfl, hfails, hbehind,
    fun hmatches => ((faults_retried looking).1 _ _ hfails rfl).1 hmatches hbehind⟩

end Source
end Ber
