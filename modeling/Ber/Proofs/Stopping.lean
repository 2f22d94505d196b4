import Ber.Proofs.Exchange
import Ber.Proofs.Opening

/-!
# Ber.Proofs.Stopping — where reading a value stops

Where a source lets octets pass and its reader has no faults (`Source.Calm`), reading a value fails in
one of two ways, and the octets delivered until then tell which:

1. The octets are all there is, and more would be needed: they are cut off (`Source.RunsOut`) within a
   value that is `Unfinished`.
2. The octets themselves are `Refused`: reading fails right behind them (`Source.FailsBehind`).

Both are said first for an octet, then for identifiers (`Identifier.after_error`), lengths
(`Length.take_error`) and content (`Source.item_error`), and put together for the next value
(`Source.next_stops`).
-/

namespace Ber

/-! ## Octets of values that cannot be read -/

/-- Octets of a length that goes on behind them. -/
inductive Length.Unfinished : Octets → Prop where
  | nothing : Unfinished []
  | announced {first : UInt8} {octets : Octets} (hfirst : first.toNat ≤ 0x84)
    (hcount : 0x80 + octets.length < first.toNat) : Unfinished (first :: octets)

/-- Octets that write no length: more than four octets are announced, or those announced write a number
of more than 31 bits. -/
inductive Length.Malformed : Octets → Prop where
  | tooMany {first : UInt8} (hfirst : 0x84 < first.toNat) : Malformed [first]
  | tooLarge {first : UInt8} {octets : Octets} (hfirst : first.toNat = 0x80 + octets.length)
    (hne : octets ≠ []) (hcount : octets.length ≤ 4) (hlength : 0x80000000 ≤ octets.bigEndian) :
    Malformed (first :: octets)

/-- A value of so many content octets is accepted, and its content is taken as it is, not as values. -/
structure Identifier.TakesContent (scope : Scope) (identifier : Identifier) (count : Nat) : Prop where
  below : count < scope.limit
  takes : ∀ form region, Content.of identifier (.definite count) = .entered form region →
    form = .tagged identifier ∧ ¬ identifier.isConstructed ∧ scope.depth < scope.maxDepth

/-- Octets of a value that goes on behind them in a scope, and the number of octets up to the end of its
content if its length has been read. No value inside it has been begun. -/
inductive Unfinished (scope : Scope) : Octets → Option Nat → Prop where
  | nothing : Unfinished scope [] none
  | identifier {first : UInt8} {following : Octets} (hlow : ¬ first &&& 0x1f < 0x1f)
    (hfollowing : ∀ octet ∈ following, 0x80 ≤ octet) (hcount : following.length < 5) :
    Unfinished scope (first :: following) none
  | length {identifier : Identifier} {lengthOctets : Octets} (hidentifier : identifier.Written)
    (hlength : Length.Unfinished lengthOctets) :
    Unfinished scope (identifier.octets ++ lengthOctets) none
  | content {identifier : Identifier} {lengthOctets content : Octets} {count : Nat}
    (hidentifier : identifier.Written) (hlength : Length.Written lengthOctets (.definite count))
    (htakes : identifier.TakesContent scope count) (hcount : content.length < count) :
    Unfinished scope (identifier.octets ++ lengthOctets ++ content)
      (some (identifier.octets.length + lengthOctets.length + count))
  | skipped {identifier : Identifier} {content : Octets} (hidentifier : identifier.Written)
    (htag : identifier.tag = .universal .null)
    (hopen : ∀ skipped, EndsAtMarker skipped → ¬ skipped <+: content) :
    Unfinished scope (identifier.octets ++ [0x80] ++ content) none

/-- A value that does not allow an indefinite length: one that is neither a container nor NULL, or a
tagged value that is not constructed, where it is not too deep. -/
def Identifier.RefusesMarked (scope : Scope) (identifier : Identifier) : Prop :=
  Content.of identifier .indefinite = .refused ∨
    Content.of identifier .indefinite = .entered (.tagged identifier) (.marked {}) ∧
      ¬ identifier.isConstructed ∧ scope.depth < scope.maxDepth

/-- Octets for which a value is refused in a scope, up to the last one that is read for it. -/
inductive Refused (scope : Scope) : Cause → Octets → Prop where
  /-- The number of a long tag does not end in five octets, or does not fit 32 bits. -/
  | identifier {first : UInt8} {following : Octets} (hlow : ¬ first &&& 0x1f < 0x1f)
    (hcount : following.length = 5)
    (hwritten : ∀ identifier : Identifier, identifier.Written →
      ¬ identifier.octets <+: first :: following) :
    Refused scope .malformedTag (first :: following)
  | length {identifier : Identifier} {lengthOctets : Octets} (hidentifier : identifier.Written)
    (hlength : Length.Malformed lengthOctets) :
    Refused scope .malformedLength (identifier.octets ++ lengthOctets)
  | bounds {identifier : Identifier} {lengthOctets : Octets} {count : Nat}
    (hidentifier : identifier.Written) (hlength : Length.Written lengthOctets (.definite count))
    (hlimit : scope.limit ≤ count) :
    Refused scope .outOfBounds (identifier.octets ++ lengthOctets)
  | depth {identifier : Identifier} {lengthOctets : Octets} {length : Length}
    (hidentifier : identifier.Written) (hlength : Length.Written lengthOctets length)
    (hbelow : length.Below scope.limit) (hopens : identifier.OpensContainer length)
    (hdeep : scope.maxDepth ≤ scope.depth) :
    Refused scope .nestingTooDeep (identifier.octets ++ lengthOctets)
  | form {identifier : Identifier} (hidentifier : identifier.Written)
    (hrefuses : identifier.RefusesMarked scope) :
    Refused scope .unsupportedIndefiniteForm (identifier.octets ++ [0x80])
  /-- NULL has content, or a bit string does not say how many bits of its last octet are unused. -/
  | content {identifier : Identifier} {lengthOctets content : Octets} {reason : String}
    (hidentifier : identifier.Written)
    (hlength : Length.Written lengthOctets (.definite content.length))
    (hbelow : content.length < scope.limit)
    (htag : identifier.tag = .universal .null ∨ identifier.tag = .universal .bitString)
    (hreason : Primitive.ofContent identifier content = .error reason) :
    Refused scope (.malformedContent reason) (identifier.octets ++ lengthOctets ++ content)

/-- Only the content of NULL and of bit strings is refused. -/
theorem Primitive.tag_of_ofContent_eq_error {identifier : Identifier} {c : Octets}
    {reason : String} (h : ofContent identifier c = .error reason) :
    identifier.tag = .universal .null ∨ identifier.tag = .universal .bitString := by
  cases ofContent_eq_error_iff.1 h with
  | bitString htag => exact .inr htag
  | null htag => exact .inl htag

/-- No value of definite length is refused for its form. -/
theorem Content.indefinite_of_refused {identifier : Identifier} {length : Length}
    (h : of identifier length = .refused) : length = .indefinite := by
  cases length with
  | indefinite => rfl
  | definite count =>
    simp only [of, ofDefinite] at h
    repeat' split at h
    all_goals cases h

namespace Source

variable {c e : Octets} {s t m : Source} {failure : Failure} {cause : Cause}

/-! ## Readers without faults -/

/-- Nothing but octets will arrive. -/
def Calm (source : Source) : Prop := source.reader.arrivals = source.rest.map .octet

/-- No octet can be delivered any more: the data has ended, or a definite region has. -/
def Exhausted (source : Source) : Prop := source.rest = [] ∨ .definite 0 ∈ source.regions

/-- The octets are delivered, and then there are no more. -/
def RunsOut (c : Octets) (s : Source) (failure : Failure) : Prop :=
  ∃ m, Delivers c s m ∧ m.Exhausted ∧ failure = ⟨.truncated, m.position⟩

/-- The octets are delivered, and reading fails right behind them. -/
def FailsBehind (cause : Cause) (c : Octets) (s : Source) (failure : Failure) : Prop :=
  ∃ m, Delivers c s m ∧ failure = ⟨cause, m.position⟩

theorem Delivers.calm (h : Delivers c s t) (hs : s.Calm) : t.Calm := by
  have hreader : s.reader = ⟨(c ++ t.rest).map .octet, s.reader.position⟩ := by
    have harrivals : s.reader.arrivals = (c ++ t.rest).map .octet := by
      rw [← h.rest]
      exact hs
    rw [← harrivals]
  have hdelivers := h.reader
  rw [hreader] at hdelivers
  have hafter := hdelivers.unique (Reader.delivers_ofData c t.rest s.reader.position)
  show t.reader.arrivals = t.rest.map .octet
  rw [hafter]

theorem RunsOut.behind (hc : Delivers c s m) (h : RunsOut e m failure) :
    RunsOut (c ++ e) s failure := by
  obtain ⟨m', he, hexhausted, hfailure⟩ := h
  exact ⟨m', hc.append he, hexhausted, hfailure⟩

theorem FailsBehind.behind (hc : Delivers c s m) (h : FailsBehind cause e m failure) :
    FailsBehind cause (c ++ e) s failure := by
  obtain ⟨m', he, hfailure⟩ := h
  exact ⟨m', hc.append he, hfailure⟩

theorem FailsBehind.here (s : Source) : FailsBehind cause [] s ⟨cause, s.position⟩ :=
  ⟨s, delivers_nil.2 rfl, rfl⟩

/-- What fails inside an opened region with octets left to it fails below it. -/
theorem RunsOut.of_enter {region : Region} (h : RunsOut c (s.enter region) failure)
    (hroom : region.spend c.length ≠ .definite 0) : RunsOut c s failure := by
  obtain ⟨m, hm, hexhausted, hfailure⟩ := h
  obtain ⟨-, u, hu, rfl⟩ := delivers_enter.1 hm
  refine ⟨u, hu, ?_, hfailure⟩
  rcases hexhausted with hrest | hmem
  · exact .inl hrest
  · rcases List.mem_cons.1 hmem with heq | hmem
    · exact absurd heq.symm hroom
    · exact .inr hmem

/-- What is cut off below a marked region is cut off in it. -/
theorem RunsOut.enter_marked {state : Marked} (h : RunsOut c s failure) :
    RunsOut c (s.enter (.marked state)) failure := by
  obtain ⟨m, hm, hexhausted, hfailure⟩ := h
  refine ⟨m.enter (.marked state), delivers_enter.2 ⟨trivial, m, hm, rfl⟩, ?_, hfailure⟩
  rcases hexhausted with hrest | hmem
  · exact .inl hrest
  · exact .inr (List.mem_cons_of_mem _ hmem)

/-! ## Octets -/

theorem octet_eq_require (s : Source) : octet s = supply.require s := by
  have htake : supply.take s = octet? s := rfl
  simp only [octet, Bind.bind, EStateM.bind, Supply.require, htake]
  rcases octet? s with (_ | b) | _ <;> rfl

/-- Where octets pass, what is yielded is what is delivered. -/
theorem yields_iff_delivers (hs : s.Passing) : supply.Yields c s t ↔ Delivers c s t := by
  induction c generalizing s with
  | nil => exact delivers_nil.symm
  | cons octet c ih =>
    have hsplit : Delivers ([octet] ++ c) s t ↔ ∃ m, Delivers [octet] s m ∧ Delivers c m t :=
      delivers_append
    rw [List.singleton_append] at hsplit
    rw [hsplit]
    constructor
    · intro h
      obtain ⟨m, htake, hrest⟩ := h
      have hm : Delivers [octet] s m := (octet?_eq_some_iff hs).1 htake
      exact ⟨m, hm, (ih (hm.passing hs)).1 hrest⟩
    · intro h
      obtain ⟨m, hm, hrest⟩ := h
      exact ⟨m, (octet?_eq_some_iff hs).2 hm, (ih (hm.passing hs)).2 hrest⟩

/-- An octet is missing only where there are no more. -/
theorem octet_error (hs : s.Passing) (hcalm : s.Calm) (h : octet s = .error failure t) :
    RunsOut [] s failure := by
  suffices hend : s.Exhausted ∧ failure = ⟨.truncated, s.position⟩ from
    ⟨s, delivers_nil.2 rfl, hend.1, hend.2⟩
  rw [octet_eq_require] at h
  rcases s with ⟨regions, reader⟩
  induction regions generalizing t with
  | nil =>
    -- the reader alone: it has no fault, so it must be at its end
    have harrivals : reader.arrivals = reader.octetsLeft.map .octet := hcalm
    have htake : supply.take ⟨[], reader⟩ = octet? ⟨[], reader⟩ := rfl
    rcases reader with ⟨arrivals, position⟩
    cases hleft : Reader.octetsLeft ⟨arrivals, position⟩ with
    | nil =>
      rw [hleft] at harrivals
      obtain rfl : arrivals = [] := harrivals
      cases h
      exact ⟨.inl rfl, rfl⟩
    | cons b rest =>
      rw [hleft] at harrivals
      obtain rfl : arrivals = .octet b :: rest.map .octet := harrivals
      cases h
  | cons region below ih =>
    have hbelow : Passing ⟨below, reader⟩ := fun r hr => hs r (List.mem_cons_of_mem _ hr)
    have hpassing : region.Passing := hs region List.mem_cons_self
    have htake : supply.take ⟨region :: below, reader⟩ =
        octet? (enter region ⟨below, reader⟩) := rfl
    by_cases hroom : region.HasRoom 1
    · rw [Supply.require, htake, octet?_enter, Region.take_of_passing hpassing hroom] at h
      have hsupply : (⟨octet?, position⟩ : Supply Source) = supply := rfl
      rw [hsupply] at h
      cases hrun : supply.require ⟨below, reader⟩ with
      | ok b u => simp [hrun] at h
      | error failure' u =>
        rw [hrun] at h
        cases h
        obtain ⟨hexhausted, rfl⟩ := ih hbelow hcalm hrun
        refine ⟨?_, rfl⟩
        rcases hexhausted with hrest | hmem
        · exact .inl hrest
        · exact .inr (List.mem_cons_of_mem _ hmem)
    · cases region with
      | marked state => exact absurd trivial hroom
      | definite remaining =>
        have hzero : remaining = 0 := Nat.lt_one_iff.1 (Nat.lt_of_not_le hroom)
        subst hzero
        rw [Supply.require, htake, octet?_enter_definite_zero] at h
        cases h
        exact ⟨.inr List.mem_cons_self, rfl⟩

/-- So many octets are missing only where there are fewer. -/
theorem octets_error {count : Nat} (hs : s.Passing) (hcalm : s.Calm)
    (h : octets count s = .error failure t) : ∃ c, c.length < count ∧ RunsOut c s failure := by
  suffices hafter : ∀ taken, octetsAfter taken count s = .error failure t →
      ∃ c, c.length < count ∧ RunsOut c s failure from hafter [] h
  clear h
  induction count generalizing s with
  | zero =>
    intro taken h
    cases h
  | succ count ih =>
    intro taken h
    rcases Action.bind_eq_error.1 h with hfailed | ⟨b, m, hb, hrest⟩
    · exact ⟨[], Nat.succ_pos count, octet_error hs hcalm hfailed⟩
    · have hm : Delivers [b] s m := (octet_eq_ok_iff hs).1 hb
      obtain ⟨c, hlength, hcut⟩ := ih (hm.passing hs) (hm.calm hcalm) (b :: taken) hrest
      exact ⟨b :: c, Nat.succ_lt_succ hlength, hcut.behind hm⟩

/-! ## Marked regions -/

/-- A marked region fails where an octet that it needs is missing below it. -/
theorem octet?_enter_error {region : Region} (hs : s.Passing) (hcalm : s.Calm)
    (h : octet? (s.enter region) = .error failure t) :
    ∃ c, region.Wants c ∧ RunsOut c s failure := by
  obtain ⟨c, m, u, hwants, hyields, hrequire, -⟩ := octet?_enter_eq_error_iff.1 h
  have hm : Delivers c s m := (yields_iff_delivers hs).1 hyields
  rw [← octet_eq_require] at hrequire
  have hcut := (octet_error (hm.passing hs) (hm.calm hcalm) hrequire).behind hm
  rw [List.append_nil] at hcut
  exact ⟨c, hwants, hcut⟩

/-- The first octet of a value is missing where there are no more octets, or where only a zero octet is
left to a marked region. -/
theorem firstOctet?_error (hs : s.Ready) (hcalm : s.Calm)
    (h : firstOctet? s = .error failure t) :
    RunsOut [] (s.watch false) failure ∨ RunsOut [0] (s.watch false) failure := by
  have hrun : ∃ m, octet? (s.watch true) = .error failure m := Action.afterwards_eq_error
    (show Action.afterwards (watch false) (fun source => (source.watch true).octet?) s =
      .error failure t from h)
  obtain ⟨m, hm⟩ := hrun
  rcases hs.cases with ⟨-, htrue, hfalse, hpassing⟩ | ⟨-, below, hbelow, htrue, hfalse⟩
  · have hfailed : octet s = .error failure m := by
      rw [htrue] at hm
      simp only [octet, Bind.bind, EStateM.bind, hm]
    rw [hfalse]
    exact .inl (octet_error hpassing hcalm hfailed)
  · have hcalmBelow : below.Calm := by
      have hreader : (s.watch true).Calm := hcalm
      rwa [htrue] at hreader
    rw [htrue] at hm
    rw [hfalse]
    obtain ⟨c, hwants, hcut⟩ := octet?_enter_error hbelow hcalmBelow hm
    cases hwants with
    | first hopen hahead => exact .inl hcut.enter_marked
    | second hopen hwatching hoctets =>
      obtain rfl : c = [0] := hoctets
      exact .inr hcut.enter_marked

theorem exhaust_error {ahead : Option UInt8} (hs : s.Passing) (hcalm : s.Calm)
    (h : exhaust (s.enter (.marked { ahead })) = .error failure t) :
    ∃ c, RunsOut c s failure := by
  generalize hleft : (s.enter (.marked { ahead })).left = left
  induction left using Nat.strongRecOn generalizing s ahead with
  | ind left ih =>
    subst hleft
    cases hrun : octet? (s.enter (.marked { ahead })) with
    | error failure' m =>
      rw [exhaust_of_error hrun] at h
      cases h
      obtain ⟨c, -, hcut⟩ := octet?_enter_error hs hcalm hrun
      exact ⟨c, hcut⟩
    | ok found m =>
      rcases (octet?_enter_watching hs).1 hrun with ⟨b, c, u, -, -, hc, rfl, rfl⟩ |
        ⟨b, c, u, -, -, hc, rfl, rfl⟩ | ⟨c, u, -, -, rfl, -⟩
      · rw [exhaust_of_some hrun] at h
        have hless := left_of_octet?_eq_ok hrun
        obtain ⟨d, hcut⟩ := ih _ (by omega) (hc.passing hs) (hc.calm hcalm) h rfl
        exact ⟨c ++ d, hcut.behind hc⟩
      · rw [exhaust_of_some hrun] at h
        have hless := left_of_octet?_eq_ok hrun
        obtain ⟨d, hcut⟩ := ih _ (by omega) (hc.passing hs) (hc.calm hcalm) h rfl
        exact ⟨c ++ d, hcut.behind hc⟩
      · rw [exhaust_of_none hrun] at h
        cases h

/-- Skipping fails only where there is no marker. -/
theorem skip_error (hs : s.Passing) (hcalm : s.Calm)
    (h : within (.marked {}) skipToEnd s = .error failure t) : ∃ c, RunsOut c s failure := by
  obtain ⟨m, hm⟩ := Action.afterwards_eq_error
    (show Action.afterwards leave (fun source => skipToEnd (source.enter (.marked {}))) s =
      .error failure t from h)
  have hexhaust : exhaust (s.enter (.marked { ahead := none })) = .error failure m := hm
  exact exhaust_error hs hcalm hexhaust

end Source

/-! ## Identifiers and lengths -/

open Source

variable {s t : Source} {failure : Failure}

/-- A long tag number is cut off, or fails behind the last octet that it may have: four octets write
less than 32 bits. -/
theorem Identifier.longNumber_error {room number : Nat} (hs : s.Passing) (hcalm : s.Calm)
    (hroom : room ≤ 5) (hnumber : number < Nat.pow 128 (5 - room))
    (h : longNumber room number s = .error failure t) :
    (∃ c, (∀ octet ∈ c, 0x80 ≤ octet) ∧ c.length < room ∧ RunsOut c s failure) ∨
      ∃ c, c.length = room ∧ FailsBehind .malformedTag c s failure := by
  -- on the octets that may still come; each of them adds seven bits to the number
  induction room generalizing number s with
  | zero =>
    cases h
    exact .inr ⟨[], rfl, .here _⟩
  | succ room ih =>
    rcases Action.bind_eq_error.1 h with hfailed | ⟨b, m, hb, hrest⟩
    · exact .inl ⟨[], fun _ hmem => absurd hmem List.not_mem_nil, Nat.succ_pos room,
        octet_error hs hcalm hfailed⟩
    have hm : Delivers [b] s m := (octet_eq_ok_iff hs).1 hb
    cases hbits : sevenBits? number b with
    | none =>
      -- the number has more than 25 bits, so this is the fifth octet
      have hlarge : ¬ number * 128 < 0x100000000 := by
        intro hlt
        simp [sevenBits?, hlt] at hbits
      have hlast : room = 0 := by
        by_cases hzero : room = 0
        · exact hzero
        · have hpower : Nat.pow 128 (5 - (room + 1)) ≤ Nat.pow 128 3 :=
            Nat.pow_le_pow_right (by decide) (by omega)
          have hvalue : Nat.pow 128 3 = 2097152 := rfl
          omega
      subst hlast
      simp only [hbits] at hrest
      cases hrest
      exact .inr ⟨[b], rfl, _, hm, rfl⟩
    | some next =>
      obtain ⟨rfl, -⟩ := sevenBits?_eq_some_iff.1 hbits
      simp only [hbits] at hrest
      by_cases hlast : b < 0x80
      · rw [if_pos hlast] at hrest
        cases hrest
      · rw [if_neg hlast] at hrest
        have hnext : number * 128 + b.toNat % 128 < Nat.pow 128 (5 - room) := by
          have hpower : Nat.pow 128 (5 - room) = Nat.pow 128 (5 - (room + 1)) * 128 := by
            rw [show 5 - room = 5 - (room + 1) + 1 by omega]
            rfl
          have hbit : b.toNat % 128 < 128 := Nat.mod_lt _ (by omega)
          omega
        rcases Action.bind_eq_error.1 hrest with hfailed | ⟨result, m', -, hpure⟩
        · rcases ih (hm.passing hs) (hm.calm hcalm) (by omega) hnext hfailed with
            ⟨c, hhigh, hlength, hcut⟩ | ⟨c, hlength, hfails⟩
          · refine .inl ⟨b :: c, List.forall_mem_cons.2 ⟨UInt8.not_lt.1 hlast, hhigh⟩,
              Nat.succ_lt_succ hlength, hcut.behind hm⟩
          · exact .inr ⟨b :: c, congrArg (· + 1) hlength, hfails.behind hm⟩
        · cases hpure

/-- Behind its first octet, an identifier is cut off, or fails behind five more octets. -/
theorem Identifier.after_error {first : UInt8} (hs : s.Passing) (hcalm : s.Calm)
    (h : after first s = .error failure t) :
    (∃ c, (∀ scope, Unfinished scope (first :: c) none) ∧ RunsOut c s failure) ∨
      ∃ c, (∀ scope, Refused scope .malformedTag (first :: c)) ∧
        FailsBehind .malformedTag c s failure := by
  have hrun := h
  unfold after at h
  split at h
  · cases h
  · rename_i hlow
    rcases Action.bind_eq_error.1 h with hfailed | ⟨result, m, -, hpure⟩
    · rcases longNumber_error hs hcalm (Nat.le_refl 5) (by decide) hfailed with
        ⟨c, hhigh, hlength, hcut⟩ | ⟨c, hlength, hfails⟩
      · exact .inl ⟨c, fun scope => .identifier hlow hhigh hlength, hcut⟩
      · refine .inr ⟨c, fun scope => .identifier hlow hlength ?_, hfails⟩
        -- an identifier that was written here would have been read
        rintro identifier hwritten ⟨rest, hrest⟩
        obtain ⟨hfirst, hfollowing⟩ := List.cons.inj hrest
        obtain ⟨m, hm, -⟩ := hfails
        have hsplit : identifier.following ++ rest = c := hfollowing
        rw [← hsplit] at hm
        obtain ⟨m', hm', -⟩ := delivers_append.1 hm
        have hok := (after_eq_ok_iff hs).2 ⟨hwritten, hfirst, hm'⟩
        rw [hrun] at hok
        cases hok
    · cases hpure

/-- How octets of a length make a value fail: they are cut off, write no length, or write one that is not
below the limit. -/
inductive Length.Stops (limit : Nat) (c : Octets) (s : Source) (failure : Failure) : Prop where
  | runsOut (hunfinished : Unfinished c) (h : RunsOut c s failure)
  | malformed (hmalformed : Malformed c) (h : FailsBehind .malformedLength c s failure)
  | bounds {count : Nat} (hwritten : Written c (.definite count)) (hlimit : limit ≤ count)
    (h : FailsBehind .outOfBounds c s failure)

/-- A number is refused only if it is not below the limit. -/
theorem Length.below_error {limit count : Nat} (h : below limit count s = .error failure t) :
    limit ≤ count ∧ failure = ⟨.outOfBounds, s.position⟩ := by
  unfold below at h
  split at h
  · cases h
  · rename_i hlimit
    cases h
    exact ⟨Nat.le_of_not_lt hlimit, rfl⟩

/-- Behind an octet that announces others, a length is cut off, or is refused at once or behind them. -/
theorem Length.long_error {limit : Nat} {first : UInt8} (hs : s.Passing) (hcalm : s.Calm)
    (hfirst : Delivers [first] s m) (hhigh : 0x80 < first.toNat)
    (h : long (first.toNat - 0x80) limit m = .error failure t) :
    ∃ c, Stops limit c s failure := by
  rw [long_eq] at h
  split at h
  · -- too many octets are announced, and none of them is read
    rename_i hcount
    cases h
    have hmany : 0x84 < first.toNat := by
      simp only [maxOctets] at hcount
      omega
    exact ⟨[first], .malformed (.tooMany hmany) ⟨_, hfirst, rfl⟩⟩
  rename_i hcount
  have hfew : first.toNat ≤ 0x84 := by
    simp only [maxOctets] at hcount
    omega
  rcases Action.bind_eq_error.1 h with hfailed | ⟨octets, m', hoctets, hchecked⟩
  · obtain ⟨c, hlength, hcut⟩ := octets_error (hfirst.passing hs) (hfirst.calm hcalm) hfailed
    exact ⟨first :: c, .runsOut (.announced hfew (by omega)) (hcut.behind hfirst)⟩
  obtain ⟨hlength, hm'⟩ := (octets_eq_ok_iff (hfirst.passing hs)).1 hoctets
  have hdelivers : Delivers (first :: octets) s m' := hfirst.append hm'
  have hannounced : first.toNat = 0x80 + octets.length := by omega
  have hne : octets ≠ [] := by
    rintro rfl
    rw [List.length_nil] at hlength
    omega
  split at hchecked
  · rename_i hlt
    obtain ⟨hlimit, hfailure⟩ := below_error hchecked
    exact ⟨first :: octets, .bounds (.long hannounced hne (by omega) hlt) hlimit
      ⟨m', hdelivers, hfailure⟩⟩
  · rename_i hlt
    cases hchecked
    exact ⟨first :: octets, .malformed
      (.tooLarge hannounced hne (by omega) (Nat.le_of_not_lt hlt)) ⟨_, hdelivers, rfl⟩⟩

/-- A length is cut off, or is refused behind the octets read for it. -/
theorem Length.take_error {limit : Nat} (hs : s.Passing) (hcalm : s.Calm)
    (h : take limit s = .error failure t) : ∃ c, Stops limit c s failure := by
  rcases Action.bind_eq_error.1 h with hfailed | ⟨first, m, hfirst, hrest⟩
  · exact ⟨[], .runsOut .nothing (octet_error hs hcalm hfailed)⟩
  have hm : Delivers [first] s m := (octet_eq_ok_iff hs).1 hfirst
  split at hrest
  · rename_i hshort
    obtain ⟨hlimit, hfailure⟩ := below_error hrest
    exact ⟨[first], .bounds (.short hshort) hlimit ⟨m, hm, hfailure⟩⟩
  split at hrest
  · cases hrest
  rename_i hshort hmarked
  have hhigh : 0x80 < first.toNat := by
    have hge : (0x80 : UInt8).toNat ≤ first.toNat := UInt8.le_iff_toNat_le.1 (UInt8.not_lt.1 hshort)
    have hne : first.toNat ≠ (0x80 : UInt8).toNat := fun h => hmarked (UInt8.toNat_inj.1 h)
    simp only [UInt8.reduceToNat] at hge hne
    omega
  exact long_error hs hcalm hm hhigh hrest

/-! ## Content -/

namespace Source

variable {scope : Scope} {identifier : Identifier} {lengthOctets : Octets} {length : Length}

/-- Reading a value stops behind these octets of it: they are cut off, or refused. -/
inductive Stops (scope : Scope) (c : Octets) (s : Source) : Failure → Prop where
  | runsOut {failure : Failure} {reach : Option Nat} (hunfinished : Unfinished scope c reach)
    (h : RunsOut c s failure) : Stops scope c s failure
  | refused {failure : Failure} (hrefused : Refused scope failure.cause c)
    (h : FailsBehind failure.cause c s failure) : Stops scope c s failure

/-- Content that is taken as it is fails only where it is cut off. -/
theorem content_error {count : Nat} (hs : s.Passing) (hcalm : s.Calm)
    (hidentifier : identifier.Written) (hlength : Length.Written lengthOctets (.definite count))
    (hbelow : count < scope.limit)
    (hother : ∀ form region, Content.of identifier (.definite count) ≠ .entered form region)
    (h : octets count s = .error failure t) :
    ∃ c reach, Unfinished scope (identifier.octets ++ lengthOctets ++ c) reach ∧
      RunsOut c s failure := by
  have htakes : identifier.TakesContent scope count :=
    ⟨hbelow, fun form region hentered => absurd hentered (hother form region)⟩
  obtain ⟨c, hless, hcut⟩ := octets_error hs hcalm h
  exact ⟨c, _, .content hidentifier hlength htakes hless, hcut⟩

/-- Content is cut off, or is refused behind its last octet, or at once. -/
theorem item_error {header : Octets} (hs : s.Passing) (hcalm : s.Calm)
    (hidentifier : identifier.Written) (hlength : Length.Written lengthOctets length)
    (hbelow : length.Below scope.limit) (hheader : header = identifier.octets ++ lengthOctets)
    (h : item scope identifier (.of identifier length) s = .error failure t) :
    ∃ c, (∃ reach, Unfinished scope (header ++ c) reach ∧ RunsOut c s failure) ∨
      Refused scope failure.cause (header ++ c) ∧ FailsBehind failure.cause c s failure := by
  subst hheader
  have hallowed := Content.allowed_of identifier length
  cases hcontent : Content.of identifier length with
  | kept count =>
    rw [hcontent] at h hallowed
    obtain ⟨rfl, -⟩ := hallowed
    rcases Action.bind_eq_error.1 h with hfailed | ⟨c, m, -, hpure⟩
    · obtain ⟨c, hcut⟩ := content_error hs hcalm hidentifier hlength hbelow
        (by simp [hcontent]) hfailed
      exact ⟨c, .inl hcut⟩
    · cases hpure
  | decoded count =>
    rw [hcontent] at h hallowed
    obtain ⟨rfl, -⟩ := hallowed
    rcases Action.bind_eq_error.1 h with hfailed | ⟨c, m, hc, hrest⟩
    · obtain ⟨c, hcut⟩ := content_error hs hcalm hidentifier hlength hbelow
        (by simp [hcontent]) hfailed
      exact ⟨c, .inl hcut⟩
    · obtain ⟨rfl, hdelivers⟩ := (octets_eq_ok_iff hs).1 hc
      rcases Action.bind_eq_error.1 hrest with hfailed | ⟨value, m', -, hpure⟩
      · unfold decode at hfailed
        cases hvalue : Primitive.ofContent identifier c with
        | ok value =>
          rw [hvalue] at hfailed
          cases hfailed
        | error reason =>
          rw [hvalue] at hfailed
          cases hfailed
          exact ⟨c, .inr ⟨.content hidentifier hlength hbelow
            (Primitive.tag_of_ofContent_eq_error hvalue) hvalue, _, hdelivers, rfl⟩⟩
      · cases hpure
  | skipped =>
    rw [hcontent] at h hallowed
    obtain ⟨rfl, htag⟩ := hallowed
    cases hlength
    rcases Action.bind_eq_error.1 h with hfailed | ⟨⟨⟩, m, -, hpure⟩
    · obtain ⟨c, hcut⟩ := skip_error hs hcalm hfailed
      refine ⟨c, .inl ⟨none, .skipped hidentifier htag ?_, hcut⟩⟩
      -- behind a marker, skipping would have ended
      rintro skipped hends ⟨rest, rfl⟩
      obtain ⟨m, hm, -⟩ := hcut
      obtain ⟨m', hm', -⟩ := delivers_append.1 hm
      have hok := (within_skipToEnd_eq_ok_iff hs).2 ⟨skipped, hends, hm'⟩
      rw [hfailed] at hok
      cases hok
    · cases hpure
  | entered form region =>
    rw [hcontent] at h
    obtain rfl := Content.region_of_entered hcontent
    have hopens : identifier.OpensContainer length :=
      Content.exists_entered_iff.1 ⟨form, hcontent⟩
    by_cases hdeep : scope.maxDepth ≤ scope.depth
    · rw [item_entered_too_deep hdeep] at h
      cases h
      refine ⟨[], .inr ⟨?_, .here s⟩⟩
      rw [List.append_nil]
      exact .depth hidentifier hlength hbelow hopens hdeep
    · rw [item_entered hdeep] at h
      cases h
  | refused =>
    rw [hcontent] at h
    obtain rfl := Content.indefinite_of_refused hcontent
    cases hlength
    cases h
    refine ⟨[], .inr ⟨?_, .here s⟩⟩
    rw [List.append_nil]
    exact .form hidentifier (.inl hcontent)

/-! ## The next value -/

/-- Behind its first octet, a value is cut off or refused. -/
theorem behindFirst_error {first : UInt8} (hs : s.Passing) (hcalm : s.Calm)
    (h : behindFirst scope first s = .error failure t) :
    ∃ c, (∃ reach, Unfinished scope (first :: c) reach ∧ RunsOut c s failure) ∨
      Refused scope failure.cause (first :: c) ∧ FailsBehind failure.cause c s failure := by
  have hcause : ∀ {cause : Cause} {c : Octets}, FailsBehind cause c s failure →
      failure.cause = cause := by
    rintro cause c ⟨m, -, rfl⟩
    rfl
  rcases Action.bind_eq_error.1 h with hfailed | ⟨identifier, m, hafter, hrest⟩
  · rcases Identifier.after_error hs hcalm hfailed with ⟨c, hunfinished, hcut⟩ |
      ⟨c, hrefused, hfails⟩
    · exact ⟨c, .inl ⟨none, hunfinished scope, hcut⟩⟩
    · refine ⟨c, .inr ?_⟩
      rw [hcause hfails]
      exact ⟨hrefused scope, hfails⟩
  obtain ⟨hidentifier, rfl, hm⟩ := (Identifier.after_eq_ok_iff hs).1 hafter
  have hmpassing := hm.passing hs
  have hmcalm := hm.calm hcalm
  rcases Action.bind_eq_error.1 hrest with hfailed | ⟨length, m', htake, hitem⟩
  · obtain ⟨c, hstop⟩ := Length.take_error hmpassing hmcalm hfailed
    refine ⟨identifier.following ++ c, ?_⟩
    cases hstop with
    | runsOut hunfinished hcut =>
      exact .inl ⟨none, .length hidentifier hunfinished, hcut.behind hm⟩
    | malformed hmalformed hfails =>
      have hbehind := hfails.behind hm
      rw [hcause hbehind]
      exact .inr ⟨.length hidentifier hmalformed, hbehind⟩
    | bounds hwritten hlimit hfails =>
      have hbehind := hfails.behind hm
      rw [hcause hbehind]
      exact .inr ⟨.bounds hidentifier hwritten hlimit, hbehind⟩
  obtain ⟨hbelow, lengthOctets, hwritten, hm'⟩ := (Length.take_eq_ok_iff hmpassing).1 htake
  have hheader : Delivers (identifier.following ++ lengthOctets) s m' := hm.append hm'
  have hsame : ∀ c, identifier.first :: (identifier.following ++ lengthOctets ++ c) =
      identifier.octets ++ lengthOctets ++ c := fun _ => rfl
  obtain ⟨c, hstop⟩ := item_error (hm'.passing hmpassing) (hm'.calm hmcalm) hidentifier hwritten
    hbelow rfl hitem
  refine ⟨identifier.following ++ lengthOctets ++ c, ?_⟩
  rw [hsame]
  rcases hstop with ⟨reach, hunfinished, hcut⟩ | ⟨hrefused, hfails⟩
  · exact .inl ⟨reach, hunfinished, hcut.behind hheader⟩
  · exact .inr ⟨hrefused, hfails.behind hheader⟩

/-- Reading the next value fails only where it is cut off or refused. -/
theorem next_stops (hs : s.Ready) (hcalm : s.Calm) (h : next scope s = .error failure t) :
    ∃ c, Stops (scope.lower s.available) c (s.watch false) failure := by
  rw [next_eq] at h
  rcases hfirst : firstOctet? s with (_ | first) | failure'
  · rw [hfirst] at h
    cases h
  · rw [hfirst] at h
    obtain ⟨m, hm, hsame⟩ := exists_delivers_of_first hs hfirst
    dsimp only at h
    rw [hsame] at h
    cases hbehind : behindFirst (scope.lower s.available) first m with
    | ok found u =>
      rw [hbehind] at h
      cases h
    | error failure' u =>
      rw [hbehind] at h
      cases h
      have hcalm' : (s.watch false).Calm := hcalm
      obtain ⟨c, hstop⟩ := behindFirst_error (hm.passing hs) (hm.calm hcalm') hbehind
      rcases hstop with ⟨reach, hunfinished, hcut⟩ | ⟨hrefused, hfails⟩
      · exact ⟨first :: c, .runsOut hunfinished (hcut.behind hm)⟩
      · exact ⟨first :: c, .refused hrefused (hfails.behind hm)⟩
  · rw [hfirst] at h
    cases h
    rcases firstOctet?_error hs hcalm hfirst with hcut | hcut
    · exact ⟨[], .runsOut .nothing hcut⟩
    · -- a zero octet is the identifier of a value, or begins a marker
      have hzero : Identifier.Written ⟨0, [], (0 &&& 0x1f : UInt8).toUInt32⟩ := .short (by decide)
      exact ⟨[0], .runsOut (.length hzero .nothing) hcut⟩

end Source
end Ber
