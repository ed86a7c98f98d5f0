import ControlVoltage.Proofs.Voice.Stretch

/-!
# Timing of the steady run

In the steady run every sample is followed by a resumption, so that a segment is followed by the next
one without a gap: each takes exactly as many samples as it has ticks.

* `Flight` : a segment that takes time, and where it starts.
* `Flight.Recorded` : samples that are those of flights, without a gap between them.
* `Deed.flights` : the flights that deeds launch; a pause is a flight of one tick.
* `Ramp.Flies`, `Voice.Position` : how far a flight, and a walk, has come.
* `Voice.ends` : whether the walk of a move comes to its end.
* `Position.round` : the invariant. One round leads from one position to the next.
* `Launched.steadySample`, `Launched.ends_iff` : the samples of the steady run, and when it ends.
-/

namespace ControlVoltage

/-- A segment that takes time, from the voltage where it starts. -/
structure Flight where
  start : Float32
  segment : Segment

namespace Flight

def ticks (f : Flight) : Nat := f.segment.ticks.toNat

def ramp (f : Flight) : Ramp := (Ramp.rest f.start).toward f.segment

/-- The voltage of each sample, counted from zero. The last one is on the target. -/
def volts (table : CurveTable) (f : Flight) (j : Nat) : Float32 :=
  if j + 1 < f.ticks then f.ramp.between table (UInt32.ofNat (f.ticks - (j + 1)))
  else f.segment.target

/-- How many samples flights take one after the other. -/
def span (flights : List Flight) : Nat := (flights.map ticks).sum

@[simp] theorem span_nil : span [] = 0 := rfl

theorem span_append (fs gs : List Flight) : span (fs ++ gs) = span fs + span gs := by
  simp [span]

@[simp] theorem span_singleton (f : Flight) : span [f] = f.ticks := by
  simp [span]

/-- The voltage of sample `n` when flights follow each other without a gap; after the last one it is
`final`. -/
def timeline (table : CurveTable) (final : Float32) : List Flight → Nat → Float32
  | [], _ => final
  | f :: fs, n => if n < f.ticks then f.volts table n else timeline table final fs (n - f.ticks)

theorem timeline_flying (table : CurveTable) (final : Float32) (before : List Flight) (f : Flight)
    (after : List Flight) {j : Nat} (h : j < f.ticks) :
    timeline table final (before ++ f :: after) (span before + j) = f.volts table j := by
  induction before with
  | nil => simp [timeline, h]
  | cons first before ih =>
    have past : ¬ span (first :: before) + j < first.ticks := by
      simp only [span, List.map_cons, List.sum_cons]
      omega
    have rest : span (first :: before) + j - first.ticks = span before + j := by
      simp only [span, List.map_cons, List.sum_cons]
      omega
    rw [List.cons_append, timeline, if_neg past, rest]
    exact ih

theorem timeline_landed (table : CurveTable) (final : Float32) {flights : List Flight} {n : Nat}
    (h : span flights ≤ n) : timeline table final flights n = final := by
  induction flights generalizing n with
  | nil => rfl
  | cons f flights ih =>
    simp only [span, List.map_cons, List.sum_cons] at h ih
    rw [timeline, if_neg (by omega)]
    exact ih (by omega)

theorem volts_last (table : CurveTable) (f : Flight) {j : Nat} (h : j + 1 = f.ticks) :
    f.volts table j = f.segment.target := by
  simp [volts, h]

/-- The samples are those of flights without a gap between them, as far as they go; each voltage is
brought into the form in which it is `written`. -/
structure Recorded (table : CurveTable) (written : Float32 → Float32) (flights : List Flight)
    (final : Float32) (samples : Array Float32) : Prop where
  /-- Sample `j` of a flight comes `j` samples after all flights before it. -/
  flying : ∀ before f after j, flights = before ++ f :: after → j < f.ticks →
    span before + j < samples.size → samples[span before + j]? = some (written (f.volts table j))
  /-- The last sample of a flight is on its target. -/
  last : ∀ before f after j, flights = before ++ f :: after → j + 1 = f.ticks →
    span before + j < samples.size → samples[span before + j]? = some (written f.segment.target)
  /-- After the last flight the voltage stays where it is. -/
  landed : ∀ i, span flights ≤ i → i < samples.size → samples[i]? = some (written final)

theorem recorded_of_timeline {table : CurveTable} {written : Float32 → Float32}
    {flights : List Flight} {final : Float32} {samples : Array Float32}
    (h : ∀ i < samples.size, samples[i]? = some (written (timeline table final flights i))) :
    Recorded table written flights final samples := by
  have flying : ∀ before f after j, flights = before ++ f :: after → j < f.ticks →
      span before + j < samples.size →
      samples[span before + j]? = some (written (f.volts table j)) := by
    intro before f after j hflights hj hsize
    rw [h _ hsize, hflights, timeline_flying _ _ _ _ _ hj]
  refine ⟨flying, fun before f after j hflights hj hsize => ?_, fun i hspan hsize => ?_⟩
  · rw [flying before f after j hflights (by omega) hsize, volts_last table f hj]
  · rw [h i hsize, timeline_landed _ _ hspan]

end Flight

namespace Deed

/-- Where a deed leaves a ramp that has landed. -/
def landing (volts : Float32) : Deed → Float32
  | .ramp segment => segment.target
  | _ => volts

/-- The flight that a deed launches. -/
def flight? (volts : Float32) : Deed → Option Flight
  | .ramp segment => if segment.ticks = 0 then none else some ⟨volts, segment⟩
  | .pause => some ⟨volts, ⟨volts, 1, .linear⟩⟩
  | _ => none

/-- The flights that deeds launch, each from where the one before it lands. -/
def flights (volts : Float32) : List Deed → List Flight
  | [] => []
  | deed :: deeds => (deed.flight? volts).toList ++ flights (deed.landing volts) deeds

def destination (volts : Float32) (deeds : List Deed) : Float32 := deeds.foldl landing volts

theorem flights_append (volts : Float32) (deeds deeds' : List Deed) :
    flights volts (deeds ++ deeds') =
      flights volts deeds ++ flights (destination volts deeds) deeds' := by
  induction deeds generalizing volts with
  | nil => rfl
  | cons deed deeds ih =>
    rw [List.cons_append, flights, flights, ih, List.append_assoc]
    rfl

theorem destination_append (volts : Float32) (deeds deeds' : List Deed) :
    destination volts (deeds ++ deeds') = destination (destination volts deeds) deeds' :=
  List.foldl_append

theorem of_mem_flights {range : Range} {volts : Float32} (hvolts : range.Holds volts)
    {deeds : List Deed} (hdeeds : ∀ segment, .ramp segment ∈ deeds → range.Holds segment.target)
    {f : Flight} (hf : f ∈ flights volts deeds) :
    0 < f.ticks ∧ range.Holds f.start ∧ range.Holds f.segment.target := by
  induction deeds generalizing volts with
  | nil => cases hf
  | cons deed deeds ih =>
    have hlater : ∀ segment, .ramp segment ∈ deeds → range.Holds segment.target :=
      fun segment hmem => hdeeds segment (List.mem_cons_of_mem deed hmem)
    rcases List.mem_append.1 hf with hfirst | hrest
    · cases deed with
      | ramp segment =>
        by_cases instant : segment.ticks = 0
        · simp [flight?, instant] at hfirst
        · obtain rfl : f = ⟨volts, segment⟩ := by simpa [flight?, instant] using hfirst
          have takes : segment.ticks.toNat ≠ 0 := fun hzero => instant (UInt32.toNat_inj.1 hzero)
          exact ⟨Nat.pos_of_ne_zero takes, hvolts, hdeeds segment List.mem_cons_self⟩
      | pause =>
        obtain rfl : f = ⟨volts, ⟨volts, 1, .linear⟩⟩ := by simpa [flight?] using hfirst
        exact ⟨Nat.one_pos, hvolts, hvolts⟩
      | _ => cases hfirst
    · refine ih ?_ hlater hrest
      cases deed with
      | ramp segment => exact hdeeds segment List.mem_cons_self
      | _ => exact hvolts

end Deed

namespace Ramp

/-- Sample number `j` of the flight is the next one. -/
structure Flies (ramp : Ramp) (f : Flight) (j : Nat) : Prop where
  phase : ramp.phase = .ramping
  start : ramp.start = f.start
  target : ramp.target = f.segment.target
  total : ramp.total = f.segment.ticks
  curve : ramp.curve = f.segment.curve
  remaining : ramp.remaining.toNat + j = f.ticks
  flying : j < f.ticks

structure Rests (ramp : Ramp) (volts : Float32) : Prop where
  phase : ramp.phase ≠ .ramping
  current : ramp.current = volts
  target : ramp.target = volts

variable {ramp : Ramp} {f : Flight} {j : Nat} {volts : Float32}

theorem Flies.launch (ramp : Ramp) {segment : Segment} (h : segment.ticks ≠ 0) :
    (ramp.toward segment).Flies ⟨ramp.current, segment⟩ 0 := by
  refine ⟨by simp [toward, h], rfl, rfl, rfl, rfl, rfl, ?_⟩
  exact Nat.pos_of_ne_zero fun hzero => h (UInt32.toNat_inj.1 hzero)

theorem Flies.step (table : CurveTable) (h : ramp.Flies f j) (hmore : j + 1 < f.ticks) :
    (ramp.step table).2.Flies f (j + 1) ∧ (ramp.step table).2.current = f.volts table j ∧
      (ramp.step table).1 = .moving := by
  have hremaining := h.remaining
  have hleft : (ramp.remaining - 1).toNat = f.ticks - (j + 1) := by
    rw [UInt32.toNat_sub_of_le _ _ (UInt32.le_iff_toNat_le.2 (by
      show 1 ≤ ramp.remaining.toNat
      omega))]
    show ramp.remaining.toNat - 1 = _
    omega
  have hne : ramp.remaining ≠ 0 := by
    intro hzero
    rw [hzero] at hremaining
    simp at hremaining
    omega
  have hsome : ramp.remaining - 1 ≠ 0 := by
    intro hzero
    rw [hzero] at hleft
    simp at hleft
    omega
  have hstep : ramp.step table = (.moving, { ramp with
      current := ramp.between table (ramp.remaining - 1), remaining := ramp.remaining - 1 }) := by
    simp only [Ramp.step, h.phase, if_neg hne, if_neg hsome]
  rw [hstep]
  refine ⟨⟨h.phase, h.start, h.target, h.total, h.curve, ?_, hmore⟩, ?_, rfl⟩
  · rw [hleft]
    omega
  · have hcount : ramp.remaining - 1 = UInt32.ofNat (f.ticks - (j + 1)) := by
      rw [← hleft, UInt32.ofNat_toNat]
    rw [Flight.volts, if_pos hmore, hcount]
    simp only [between, h.start, h.target, h.total, h.curve]
    rfl

theorem Flies.land (table : CurveTable) (h : ramp.Flies f j) (hlast : j + 1 = f.ticks) :
    (ramp.step table).2.Rests f.segment.target ∧
      (ramp.step table).1 = .completed ramp.generation := by
  have hremaining := h.remaining
  have hone : ramp.remaining = 1 := UInt32.toNat_inj.1 (by
    show ramp.remaining.toNat = 1
    omega)
  have hstep : ramp.step table = (.completed ramp.generation,
      { ramp with current := ramp.target, remaining := 0, phase := .arrived }) := by
    simp only [Ramp.step, h.phase, hone]
    rfl
  rw [hstep]
  exact ⟨⟨by simp, h.target, h.target⟩, rfl⟩

theorem Rests.step (table : CurveTable) (h : ramp.Rests volts) :
    (ramp.step table).2.Rests volts ∧ (ramp.step table).1 = .holding := by
  rcases step_cases table ramp with ⟨hphase, -⟩ | ⟨hphase, -⟩ | ⟨-, houtcome, hstep⟩
  · exact absurd hphase h.phase
  · exact absurd hphase h.phase
  · rw [hstep]
    exact ⟨⟨by simp, h.current, h.target⟩, houtcome⟩

end Ramp

namespace Player

variable {rate : Rate} {range : Range}

theorem flights_run (budget : Nat) (p : Player) {ramp : Ramp} {volts : Float32}
    (h : ramp.Rests volts) :
    let deeds := deeds rate range budget p
    ((run rate range budget p ramp).1 = .ok .waiting → ∃ f, Deed.flights volts deeds = [f] ∧
        (deeds.foldl Deed.obey ramp).Flies f 0 ∧ Deed.destination volts deeds = f.segment.target) ∧
      ((run rate range budget p ramp).1 ≠ .ok .waiting → Deed.flights volts deeds = [] ∧
        (deeds.foldl Deed.obey ramp).Rests (Deed.destination volts deeds)) := by
  intro deeds
  induction budget generalizing p ramp volts with
  | zero =>
    refine ⟨fun _ => ⟨⟨volts, ⟨volts, 1, .linear⟩⟩, rfl, ?_, rfl⟩, fun hnot => absurd rfl hnot⟩
    have takes : (1 : UInt32) ≠ 0 := by decide
    have flies : (ramp.toward ⟨volts, 1, .linear⟩).Flies ⟨ramp.current, ⟨volts, 1, .linear⟩⟩ 0 :=
      .launch ramp takes
    rw [h.current] at flies
    show (ramp.toward ⟨ramp.target, 1, .linear⟩).Flies _ 0
    rw [h.target]
    exact flies
  | succ budget ih =>
    simp only [deeds, Player.deeds, Player.run]
    cases hstep : p.step rate range with
    | ramp segment q =>
      by_cases instant : segment.ticks = 0
      · -- An instant segment is landed on at once, and takes no sample.
        have hlanded : (ramp.toward segment).Rests segment.target :=
          ⟨by simp [Ramp.toward, instant], by simp [Ramp.toward, instant], rfl⟩
        have hflight : Deed.flight? volts (.ramp segment) = none := by simp [Deed.flight?, instant]
        have hrest := ih q hlanded
        simp only [instant, if_true, Deed.flights, hflight, List.foldl_cons, Deed.destination]
        exact hrest
      · have flies := Ramp.Flies.launch ramp instant
        rw [h.current] at flies
        have hflight : Deed.flight? volts (.ramp segment) = some ⟨volts, segment⟩ := by
          simp [Deed.flight?, instant]
        simp only [instant, if_false]
        refine ⟨fun _ => ⟨⟨volts, segment⟩, ?_, flies, rfl⟩, fun hnot => absurd rfl hnot⟩
        simp [Deed.flights, hflight]
    | moved q => exact ih q h
    | parked | ended | corrupt _ => exact ⟨(by simp), fun _ => ⟨rfl, h⟩⟩

end Player

namespace Voice

variable {rig : Rig} {v : Voice} {p : Player} {ramp : Ramp} {volts : Float32}

/-- Not on the way and not waiting: at the end of a held block or off the end of the program. -/
def AtRest (v : Voice) : Prop := ∃ q, v.player = some q ∧ q.awaiting = none

/-- Off the end of the program. -/
def Ended (v : Voice) : Prop := ∃ q, v.player = some q ∧ q.awaiting = none ∧ q.stack = []

/-- Whether the walk of a move comes to the end of the program. -/
def ends (rig : Rig) (v : Voice) (move : Move) : Bool :=
  match move with
  | .resume => v.ready?.any fun p => comesToEnd (v.walk rig p v.ramp).1
  | .trigger action => (v.triggered? action).any fun p => comesToEnd (v.walk rig p v.ramp.hold).1
  | _ => false
where
  comesToEnd : Except Corruption Player.Progress → Bool
    | .ok .done => true
    | _ => false

/-- The flights that `deeds` launch from `volts` are under way: the last one has come as far as
sample `j`, or all have landed and the walk is at rest. -/
inductive Position (volts : Float32) (deeds : List Deed) (n : Nat) (v : Voice) : Prop
  | flying (before : List Flight) (f : Flight) (j : Nat) (q : Player)
      (hflights : Deed.flights volts deeds = before ++ [f]) (hcount : Flight.span before + j = n)
      (hflies : v.ramp.Flies f j) (hdestination : Deed.destination volts deeds = f.segment.target)
      (hplayer : v.player = some q) (hwaits : q.awaiting = some v.ramp.generation)
  | resting (hspan : Flight.span (Deed.flights volts deeds) ≤ n)
      (hrests : v.ramp.Rests (Deed.destination volts deeds)) (hplayer : v.AtRest)

theorem not_atRest {q : Player} {g : UInt32} (hq : v.player = some q) (hwaits : q.awaiting = some g) :
    ¬ v.AtRest := by
  rintro ⟨q', hq', hnone⟩
  cases hq.symm.trans hq'
  cases hwaits.symm.trans hnone

theorem Ended.atRest (h : v.Ended) : v.AtRest := by
  obtain ⟨q, hq, hnone, -⟩ := h
  exact ⟨q, hq, hnone⟩

theorem position_walk (rig : Rig) (v : Voice) (hp : p.Sound) {deeds : List Deed} {n : Nat}
    (hspan : Flight.span (Deed.flights volts deeds) = n)
    (hrests : ramp.Rests (Deed.destination volts deeds)) :
    Position volts (deeds ++ p.walkDeeds rig) n (v.walk rig p ramp).2 ∧
      (ends.comesToEnd (v.walk rig p ramp).1 = true ↔
        (v.walk rig p ramp).2.Ended ∧
          Flight.span (Deed.flights volts (deeds ++ p.walkDeeds rig)) = n) := by
  obtain ⟨progress, q, hwalk, -, hprogress⟩ := walk_of_sound rig v hp ramp
  have hresult : (Player.run rig.rate rig.range Player.moveBudget (p.await none) ramp).1 =
      .ok progress := congrArg Prod.fst hwalk
  obtain ⟨waits, stops⟩ : _ ∧ _ :=
    Player.flights_run Player.moveBudget (p.await none) hrests
  rw [hwalk, Deed.flights_append]
  -- A walk that waits has launched one flight more; any other one leaves all flights landed.
  by_cases hwaiting : progress = .waiting
  · subst hwaiting
    obtain ⟨f, hflights, hflies, hdestination⟩ := waits hresult
    obtain ⟨hawaiting, -⟩ := hprogress
    constructor
    · refine .flying (Deed.flights volts deeds) f 0 q ?_ hspan hflies ?_ rfl hawaiting
      · rw [Deed.flights_append]
        exact congrArg (Deed.flights volts deeds ++ ·) hflights
      · rw [Deed.destination_append]
        exact hdestination
    · refine ⟨(by simp [ends.comesToEnd]), ?_⟩
      rintro ⟨⟨q', hq', hnone, -⟩, -⟩
      cases hq'
      cases hawaiting.symm.trans hnone
  · have hstops := stops (by rw [hresult]; simpa using hwaiting)
    obtain ⟨hflights, hlanded⟩ := hstops
    have hnone : q.awaiting = none := by
      cases progress with
      | waiting => exact absurd rfl hwaiting
      | suspended => exact hprogress.1
      | done => exact hprogress.1
    have hspan' : Flight.span (Deed.flights volts deeds ++
        Deed.flights (Deed.destination volts deeds) (p.walkDeeds rig)) = n := by
      rw [Flight.span_append, hspan]
      rw [show Deed.flights (Deed.destination volts deeds) (p.walkDeeds rig) = [] from hflights]
      rfl
    constructor
    · refine .resting ?_ ?_ ⟨q, rfl, hnone⟩
      · rw [Deed.flights_append]
        exact Nat.le_of_eq hspan'
      · rw [Deed.destination_append]
        exact hlanded
    · cases progress with
      | waiting => exact absurd rfl hwaiting
      | suspended =>
        obtain ⟨-, -, mark, rest, ops, hstack, -⟩ := hprogress
        refine ⟨(by simp [ends.comesToEnd]), ?_⟩
        rintro ⟨⟨q', hq', -, hempty⟩, -⟩
        cases hq'
        cases hstack.symm.trans hempty
      | done => exact ⟨fun _ => ⟨⟨q, rfl, hnone, hprogress.2⟩, hspan'⟩, fun _ => rfl⟩

/-! ## Rounds -/

theorem deeds_of_not_ready (h : v.ready? = none) : v.deeds rig .resume = [] := by
  simp [deeds, h]

theorem AtRest.ready? (h : v.AtRest) : v.ready? = none := by
  obtain ⟨q, hq, hnone⟩ := h
  simp [Voice.ready?, hq, hnone]

theorem written_sample (rig : Rig) (v : Voice) : (v.after rig .sample).written =
    rig.range.clamp (v.quantizer.quantize (v.ramp.step rig.table).2.current) := rfl

variable {deeds : List Deed} {n : Nat}

/-- One round from a position: what it writes, the position after it, and whether the walk comes to
its end in it. -/
theorem Position.round (h : Position volts deeds n v) (timely : v.Timely) :
    let w := v.after rig .sample
    let deeds' := deeds ++ w.deeds rig .resume
    Position volts deeds' (n + 1) (w.after rig .resume) ∧
      w.written = rig.range.clamp (v.quantizer.quantize (Flight.timeline rig.table
        (Deed.destination volts deeds) (Deed.flights volts deeds) n)) ∧
      (w.ends rig .resume = true ↔
        (w.after rig .resume).Ended ∧ Flight.span (Deed.flights volts deeds') = n + 1) := by
  intro w deeds'
  have hw : w.Timely := timely.sample
  have hramp : w.ramp = (v.ramp.step rig.table).2 := rfl
  -- Unless a segment has just landed, nothing is resumed in the round.
  have quiet : w.ready? = none → Position volts deeds (n + 1) w →
      (w.AtRest → Flight.span (Deed.flights volts deeds) ≤ n) →
      Position volts deeds' (n + 1) (w.after rig .resume) ∧
        (w.ends rig .resume = true ↔
          (w.after rig .resume).Ended ∧ Flight.span (Deed.flights volts deeds') = n + 1) := by
    intro hready hposition hearly
    have hdeeds : deeds' = deeds := by simp [deeds', deeds_of_not_ready hready]
    rw [hdeeds, after_resume_of_not_ready hready]
    refine ⟨hposition, by simp [ends, hready], ?_⟩
    rintro ⟨hended, hspan⟩
    have := hearly hended.atRest
    omega
  cases h with
  | flying before f j q hflights hcount hflies hdestination hq hwaits =>
    have hvolts : Flight.timeline rig.table (Deed.destination volts deeds)
        (Deed.flights volts deeds) n = f.volts rig.table j := by
      rw [hflights, ← hcount]
      exact Flight.timeline_flying _ _ before f [] hflies.flying
    have hgeneration : w.ramp.generation = v.ramp.generation :=
      (hw.awaited q v.ramp.generation hq hwaits).1
    rw [written_sample, hvolts]
    by_cases hmore : j + 1 < f.ticks
    · obtain ⟨hnext, hcurrent, -⟩ := hflies.step rig.table hmore
      have hready : w.ready? = none := by
        cases hready : w.ready? with
        | none => rfl
        | some p => exact absurd hnext.phase (hw.landed hready).2.1
      have hposition : Position volts deeds (n + 1) w :=
        .flying before f (j + 1) q hflights (by omega) hnext hdestination hq
          (by rw [hgeneration]; exact hwaits)
      obtain ⟨hround, hends⟩ := quiet hready hposition fun hrest => absurd hrest (not_atRest hq hwaits)
      exact ⟨hround, by rw [hcurrent], hends⟩
    · have hlast : j + 1 = f.ticks := by
        have := hflies.flying
        omega
      obtain ⟨hrests, houtcome⟩ := hflies.land rig.table hlast
      have hcompleted : w.completed = v.ramp.generation := by
        simp only [w, Voice.after, Voice.sample, houtcome]
      have hready : w.ready? = some q := by
        simp [Voice.ready?, show w.player = some q from hq, hcompleted, hwaits]
      have hspan : Flight.span (Deed.flights volts deeds) = n + 1 := by
        rw [hflights, Flight.span_append, Flight.span_singleton]
        omega
      rw [← hdestination, ← hramp] at hrests
      obtain ⟨hposition, hends⟩ := position_walk rig w (hw.sound.player q hq) hspan hrests
      have hdeeds : deeds' = deeds ++ q.walkDeeds rig := by
        simp only [deeds', Voice.deeds, hready]
      have hafter : w.after rig .resume = (w.walk rig q w.ramp).2 := by
        obtain ⟨progress, q', hwalk, -⟩ := walk_of_sound rig w (hw.sound.player q hq) w.ramp
        simp only [Voice.after, hready, hwalk]
      rw [hdeeds, hafter]
      refine ⟨hposition, ?_, ?_⟩
      · rw [← hramp, hrests.current, hdestination, Flight.volts_last _ _ hlast]
      · simp only [ends, hready, Option.any_some]
        exact hends
  | resting hspan hrests hrest =>
    have hwrest : w.AtRest := hrest
    obtain ⟨hstill, -⟩ := hrests.step rig.table
    have hposition : Position volts deeds (n + 1) w := .resting (by omega) hstill hwrest
    obtain ⟨hround, hends⟩ := quiet hwrest.ready? hposition fun _ => hspan
    refine ⟨hround, ?_, hends⟩
    rw [written_sample, hstill.current, Flight.timeline_landed _ _ hspan]

/-! ## The steady run -/

/-- The deeds of the walk up to the end of round `n`, after those that it started with. -/
def course (rig : Rig) (v : Voice) (deeds : List Deed) (n : Nat) : List Deed :=
  deeds ++ log rig v (steady n)

theorem course_zero (rig : Rig) (v : Voice) (deeds : List Deed) : course rig v deeds 0 = deeds :=
  List.append_nil deeds

theorem course_succ (rig : Rig) (v : Voice) (deeds : List Deed) (n : Nat) :
    course rig v deeds (n + 1) =
      course rig v deeds n ++ ((v.rounds rig n).after rig .sample).deeds rig .resume := by
  rw [course, steady_succ, log_append, ← List.append_assoc]
  simp [log, Voice.deeds, rounds, course]

theorem quantizer_after {move : Move} (h : ∀ q, move ≠ .setQuantizer q) :
    (v.after rig move).quantizer = v.quantizer := by
  rcases after_cases rig v move with rfl | ⟨seconds, curve, rfl⟩ | ⟨q, rfl⟩ | ⟨player, ramp, hafter⟩
  · rfl
  · rfl
  · exact absurd rfl (h q)
  · rw [hafter]

theorem AtRest.rounds_add {n : Nat} (hrest : (v.rounds rig n).AtRest) (deeds : List Deed) (k : Nat) :
    course rig v deeds (n + k) = course rig v deeds n ∧
      (v.rounds rig (n + k)).player = (v.rounds rig n).player := by
  induction k with
  | zero => exact ⟨rfl, rfl⟩
  | succ k ih =>
    obtain ⟨hcourse, hplayer⟩ := ih
    have hstill : ((v.rounds rig (n + k)).after rig .sample).AtRest := by
      obtain ⟨q, hq, hnone⟩ := hrest
      exact ⟨q, hplayer.trans hq, hnone⟩
    rw [← Nat.add_assoc, course_succ, rounds_succ, deeds_of_not_ready hstill.ready?,
      after_resume_of_not_ready hstill.ready?, List.append_nil]
    exact ⟨hcourse, hplayer⟩

theorem flights_course_add (volts : Float32) (rig : Rig) (v : Voice) (deeds : List Deed) (n k : Nat) :
    Deed.flights volts (course rig v deeds n) <+: Deed.flights volts (course rig v deeds (n + k)) := by
  induction k with
  | zero => exact List.prefix_refl _
  | succ k ih =>
    rw [← Nat.add_assoc, course_succ, Deed.flights_append]
    exact ih.trans (List.prefix_append _ _)

/-- A voice that is let go with the flights of `deeds` launched. -/
structure Launched (volts : Float32) (deeds : List Deed) (v : Voice) : Prop where
  timely : v.Timely
  position : Position volts deeds 0 v

namespace Launched

theorem ready? (h : Launched volts deeds v) : v.ready? = none := by
  cases h.position with
  | flying before f j q hflights hcount hflies =>
    cases hready : v.ready? with
    | none => rfl
    | some p => exact absurd hflies.phase (h.timely.landed hready).2.1
  | resting hspan hrests hrest => exact hrest.ready?

theorem rounds (h : Launched volts deeds v) (rig : Rig) (n : Nat) :
    (v.rounds rig n).Timely ∧ (v.rounds rig n).quantizer = v.quantizer ∧
      Position volts (course rig v deeds n) n (v.rounds rig n) := by
  induction n with
  | zero =>
    rw [course_zero]
    exact ⟨h.timely, rfl, h.position⟩
  | succ n ih =>
    obtain ⟨timely, hquantizer, hposition⟩ := ih
    rw [rounds_succ, course_succ]
    refine ⟨timely.sample.resume, ?_, (hposition.round timely).1⟩
    rw [quantizer_after (by simp), quantizer_after (by simp), hquantizer]

theorem steadySample (h : Launched volts deeds v) (rig : Rig) {i n : Nat} (hin : i ≤ n) :
    v.steadySample rig i = rig.range.clamp (v.quantizer.quantize (Flight.timeline rig.table
      (Deed.destination volts (course rig v deeds n)) (Deed.flights volts (course rig v deeds n)) i)) := by
  obtain ⟨timely, hquantizer, hposition⟩ := h.rounds rig i
  obtain ⟨k, rfl⟩ := Nat.exists_eq_add_of_le hin
  obtain ⟨-, hwritten, -⟩ : _ ∧ ((v.rounds rig i).after rig .sample).written = _ ∧ _ :=
    hposition.round timely
  rw [Voice.steadySample, hwritten, hquantizer]
  cases hposition with
  | flying before f j q hflights hcount hflies =>
    obtain ⟨later, hlater⟩ := flights_course_add volts rig v deeds i k
    have hcourse : Deed.flights volts (course rig v deeds (i + k)) = before ++ f :: later := by
      rw [← hlater, hflights, List.append_assoc]
      rfl
    rw [hcourse, hflights, ← hcount, Flight.timeline_flying _ _ before f later hflies.flying,
      Flight.timeline_flying _ _ before f [] hflies.flying]
  | resting hspan hrests hrest =>
    rw [(hrest.rounds_add deeds k).1]

theorem span_le (h : Launched volts deeds v) (rig : Rig) {n : Nat} (hended : (v.rounds rig n).Ended) :
    Flight.span (Deed.flights volts (course rig v deeds n)) ≤ n := by
  obtain ⟨-, -, hposition⟩ := h.rounds rig n
  cases hposition with
  | flying before f j q hflights hcount hflies hdestination hq hwaits =>
    exact absurd hended.atRest (not_atRest hq hwaits)
  | resting hspan => exact hspan

theorem ended_iff (h : Launched volts deeds v) (rig : Rig) {m n : Nat} (hmn : m ≤ n) :
    ((v.rounds rig n).Ended ∧ Flight.span (Deed.flights volts (course rig v deeds n)) = m) ↔
      (v.rounds rig m).Ended ∧ Flight.span (Deed.flights volts (course rig v deeds m)) = m := by
  obtain ⟨k, rfl⟩ := Nat.exists_eq_add_of_le hmn
  obtain ⟨-, -, hposition⟩ := h.rounds rig m
  cases hposition with
  | flying before f j q hflights hcount hflies hdestination hq hwaits =>
    -- The last flight that has been launched is still on its way, so that there is more to come.
    have hspan : m < Flight.span (Deed.flights volts (course rig v deeds m)) := by
      have := hflies.flying
      rw [hflights, Flight.span_append, Flight.span_singleton]
      omega
    have hmore : Flight.span (Deed.flights volts (course rig v deeds m)) ≤
        Flight.span (Deed.flights volts (course rig v deeds (m + k))) := by
      obtain ⟨later, hlater⟩ := flights_course_add volts rig v deeds m k
      rw [← hlater, Flight.span_append]
      exact Nat.le_add_right _ _
    exact ⟨fun hafter => by omega, fun hbefore => by omega⟩
  | resting hspan hrests hrest =>
    obtain ⟨hcourse, hplayer⟩ := hrest.rounds_add deeds k
    rw [hcourse]
    exact and_congr_left fun _ => by simp only [Ended, hplayer]

theorem ends_iff (h : Launched volts deeds v) (rig : Rig) {m n : Nat} (hmn : m < n) :
    ((v.rounds rig m).after rig .sample).ends rig .resume = true ↔
      (v.rounds rig n).Ended ∧ Flight.span (Deed.flights volts (course rig v deeds n)) = m + 1 := by
  obtain ⟨timely, -, hposition⟩ := h.rounds rig m
  rw [h.ended_iff rig hmn, rounds_succ, course_succ]
  exact (hposition.round timely).2.2

end Launched

theorem triggered_restart (hp : v.player = some p) (unlocked : p.locked = false) :
    v.triggered? .restart = some p.restart := by
  simp [triggered?, hp, Engine.respond, unlocked, Engine.triggered, Option.filter]

theorem launched_restart (rig : Rig) (v : Voice) (hp : v.player = some p) (sound : p.Sound)
    (unlocked : p.locked = false) (timely : (v.after rig (.trigger .restart)).Timely) :
    Launched v.ramp.current (v.deeds rig (.trigger .restart)) (v.after rig (.trigger .restart)) ∧
      (v.ends rig (.trigger .restart) = true ↔ (v.after rig (.trigger .restart)).Ended ∧
        Flight.span (Deed.flights v.ramp.current (v.deeds rig (.trigger .restart))) = 0) := by
  have hq := triggered_restart hp unlocked
  have hdeeds : v.deeds rig (.trigger .restart) = [.hold] ++ p.restart.walkDeeds rig := by
    simp [deeds, deeds.lead, hq]
  have hafter : v.after rig (.trigger .restart) = (v.walk rig p.restart v.ramp.hold).2 := by
    simp only [Voice.after, hq]
  have hrests : v.ramp.hold.Rests (Deed.destination v.ramp.current [.hold]) :=
    ⟨by simp [Ramp.hold], rfl, rfl⟩
  obtain ⟨hposition, hends⟩ := position_walk rig v sound.restart rfl hrests
  rw [hafter] at timely ⊢
  rw [hdeeds]
  refine ⟨⟨timely, hposition⟩, ?_⟩
  simp only [ends, hq, Option.any_some]
  exact hends

end Voice

end ControlVoltage
