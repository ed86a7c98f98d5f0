import ControlVoltage.Proofs.Engine.Failure
import ControlVoltage.Proofs.Engine.Reports
import ControlVoltage.Proofs.Program.Layout
import ControlVoltage.Proofs.Voice.Completions
import ControlVoltage.Proofs.Voice.Timing

/-!
# Setting a voltage

To set a voltage is to play a program of a single ramp in place of whatever was there. It replaces the
player along with its locks and holds, and cancels the segment in flight, so that nothing is left of the
state before but the voltage where the ramp starts.

* `Program.oneStep` : the program of a single ramp.
* `Voice.HeadsFor` : the invariant. A voice has played `j` samples of the ramp, and its walk is off the
  end of the program or not.
* `HeadsFor.sample`, `HeadsFor.resume`, `HeadsFor.run` : what keeps it.
* `Voice.headsFor_override` : replacing a program by a single ramp establishes it, in any state.
* `Engine.setVolts_overrides` : what becomes of the channel.
-/

namespace ControlVoltage

/-! ## A single ramp -/

/-- The program of a single ramp, with its numbers written down. -/
def Program.oneStep (volts seconds : Float32) (curve : Curve) : Program :=
  ⟨#[⟨.plain, #[.ramp ⟨.lit volts, .lit seconds, curve⟩]⟩], .empty⟩

namespace Player

variable {rate : Rate} {range : Range} {volts seconds : Float32} {curve : Curve} {p : Player}

theorem step_oneStep (hprogram : p.program = .oneStep volts seconds curve)
    (hstack : p.stack = [⟨0, 0, 0⟩]) :
    p.step rate range = .ramp ⟨range.clamp volts, rate.ticks seconds, curve⟩
      { p with stack := [⟨0, 1, 0⟩] } := by
  simp [step, hprogram, hstack, Program.oneStep, rampTurn, Formula.eval]

theorem step_oneStep_past (rate : Rate) (range : Range)
    (hprogram : p.program = .oneStep volts seconds curve) (hstack : p.stack = [⟨0, 1, 0⟩]) :
    p.step rate range = .moved { p with stack := [] } := by
  simp [step, hprogram, hstack, Program.oneStep, finish]

theorem run_oneStep_past (rate : Rate) (range : Range)
    (hprogram : p.program = .oneStep volts seconds curve) (hstack : p.stack = [⟨0, 1, 0⟩])
    (budget : Nat) (ramp : Ramp) :
    run rate range (budget + 2) p ramp = (.ok .done, { p with stack := [] }, ramp) ∧
      deeds rate range (budget + 2) p = [.move] := by
  have hstep := step_oneStep_past rate range hprogram hstack
  have hended : ({ p with stack := [] } : Player).step rate range = .ended := rfl
  constructor
  · rw [run_succ, hstep]
    simp only
    rw [run_succ, hended]
  · simp only [deeds, hstep, hended]

def parting (off : Bool) : List Deed := if off then [.move] else []

theorem run_oneStep (rate : Rate) (range : Range)
    (hprogram : p.program = .oneStep volts seconds curve) (hstack : p.stack = [⟨0, 0, 0⟩])
    (budget : Nat) (ramp : Ramp) :
    let segment : Segment := ⟨range.clamp volts, rate.ticks seconds, curve⟩
    let off := decide (segment.ticks = 0)
    run rate range (budget + 3) p ramp = (.ok (if off then .done else .waiting),
        { p with
          stack := if off then [] else [⟨0, 1, 0⟩]
          awaiting := if off then p.awaiting else some (ramp.toward segment).generation },
        ramp.toward segment) ∧
      deeds rate range (budget + 3) p = .ramp segment :: parting off := by
  intro segment off
  have hstep : p.step rate range = .ramp segment { p with stack := [⟨0, 1, 0⟩] } :=
    step_oneStep hprogram hstack
  obtain ⟨hrun, hdeeds⟩ := run_oneStep_past rate range
    (p := { p with stack := [⟨0, 1, 0⟩] }) hprogram rfl budget (ramp.toward segment)
  rw [run_succ, hstep, deeds, hstep]
  by_cases instant : segment.ticks = 0
  · simp only [off, instant, if_true, decide_true, hrun, hdeeds, parting, and_self]
  · simp only [off, instant, if_false, decide_false, parting]
    exact ⟨rfl, rfl⟩

end Player

/-! ## Heading for a voltage -/

namespace Voice

variable {rig : Rig} {v : Voice} {p : Player} {f : Flight} {j : Nat} {off : Bool}
  {program : Program} {volts seconds : Float32} {curve : Curve}

def Move.isSample : Move → Bool
  | .sample => true
  | _ => false

/-- The voice has played `j` samples of the flight of a single ramp, and its walk, with the player `p`, is
off the end of the program or has only this left to do. -/
structure HeadsFor (program : Program) (f : Flight) (j : Nat) (off : Bool) (v : Voice) (p : Player) :
    Prop where
  player : v.player = some p
  program : p.program = program
  holding : p.holding = false
  locked : p.locked = false
  stack : p.stack = if off then [] else [⟨0, 1, 0⟩]
  awaiting : p.awaiting = if off then none else some v.ramp.generation
  completed : off = false → f.ticks ≤ j → v.completed = v.ramp.generation
  flies : j < f.ticks → v.ramp.Flies f j
  rests : f.ticks ≤ j → v.ramp.Rests f.segment.target

namespace HeadsFor

theorem sample (rig : Rig) (h : HeadsFor program f j off v p) :
    HeadsFor program f (j + 1) off (v.after rig .sample) p := by
  have hramp : (v.after rig .sample).ramp = (v.ramp.step rig.table).2 := rfl
  have hgeneration : (v.after rig .sample).ramp.generation = v.ramp.generation := by
    rw [hramp, Ramp.generation_step]
  have awaits : p.awaiting = if off then none else some (v.after rig .sample).ramp.generation := by
    rw [hgeneration]
    exact h.awaiting
  by_cases hflying : j < f.ticks
  · by_cases hmore : j + 1 < f.ticks
    · obtain ⟨hnext, -, -⟩ := (h.flies hflying).step rig.table hmore
      exact ⟨h.player, h.program, h.holding, h.locked, h.stack, awaits, fun _ hdone => by omega,
        fun _ => hnext, fun hdone => by omega⟩
    · obtain ⟨hrests, houtcome⟩ := (h.flies hflying).land rig.table (by omega)
      have hcompleted : (v.after rig .sample).completed = v.ramp.generation := by
        simp only [Voice.after, Voice.sample, houtcome]
      exact ⟨h.player, h.program, h.holding, h.locked, h.stack, awaits,
        fun _ _ => hcompleted.trans hgeneration.symm, fun hless => by omega, fun _ => hrests⟩
  · obtain ⟨hrests, houtcome⟩ := (h.rests (by omega)).step rig.table
    have hcompleted : (v.after rig .sample).completed = v.completed := by
      simp only [Voice.after, Voice.sample, houtcome]
    refine ⟨h.player, h.program, h.holding, h.locked, h.stack, awaits, fun hoff _ => ?_,
      fun hless => by omega, fun _ => hrests⟩
    rw [hcompleted, hgeneration]
    exact h.completed hoff (by omega)

theorem ready? (h : HeadsFor program f j off v p) :
    v.ready? = if off = false ∧ v.completed = v.ramp.generation then some p else none := by
  have hawaiting := h.awaiting
  cases off with
  | true => simp [Voice.ready?, h.player, hawaiting]
  | false =>
    by_cases hcompleted : v.completed = v.ramp.generation
    · simp [Voice.ready?, h.player, hawaiting, hcompleted]
    · simp [Voice.ready?, h.player, hawaiting, hcompleted, Ne.symm hcompleted]

theorem resume (rig : Rig) (h : HeadsFor (.oneStep volts seconds curve) f j off v p) :
    ∃ off' p', HeadsFor (.oneStep volts seconds curve) f j off' (v.after rig .resume) p' ∧
      off.toNat + (v.ends rig .resume).toNat = off'.toNat ∧
      Player.parting off ++ v.deeds rig .resume = Player.parting off' ∧
      (f.ticks ≤ j → off' = true) := by
  have hready := h.ready?
  by_cases hlanded : off = false ∧ v.completed = v.ramp.generation
  · rw [if_pos hlanded] at hready
    obtain ⟨rfl, -⟩ := hlanded
    have hstack : (p.await none).stack = [⟨0, 1, 0⟩] := h.stack
    obtain ⟨hrun, hdeeds⟩ := Player.run_oneStep_past rig.rate rig.range (p := p.await none)
      h.program hstack 62 v.ramp
    have hwalk : v.walk rig p v.ramp =
        (.ok .done, { v with player := some { p.await none with stack := [] } }) := by
      unfold walk
      rw [show p.advance rig.rate rig.range v.ramp = _ from hrun]
    refine ⟨true, { p.await none with stack := [] }, ?_, ?_, ?_, fun _ => rfl⟩
    · have hafter : v.after rig .resume =
          { v with player := some { p.await none with stack := [] } } := by
        simp only [Voice.after, hready, hwalk]
      rw [hafter]
      exact ⟨rfl, h.program, h.holding, h.locked, rfl, rfl, by simp, h.flies, h.rests⟩
    · simp [ends, hready, hwalk, ends.comesToEnd]
    · simp only [Voice.deeds, hready]
      exact hdeeds
  · rw [if_neg hlanded] at hready
    refine ⟨off, p, ?_, by simp [ends, hready], by simp [Voice.deeds, hready], fun hdone => ?_⟩
    · rw [after_resume_of_not_ready hready]
      exact h
    · cases off with
      | true => rfl
      | false => exact absurd ⟨rfl, h.completed rfl hdone⟩ hlanded

theorem run (rig : Rig) {moves : List Move} (hmoves : ∀ m ∈ moves, m = .sample ∨ m = .resume)
    (h : HeadsFor (.oneStep volts seconds curve) f j off v p) :
    ∃ off' p', HeadsFor (.oneStep volts seconds curve) f (j + moves.countP Move.isSample) off'
      (v.run rig moves) p' ∧
      off.toNat + v.endCount rig moves = off'.toNat ∧
      Player.parting off ++ v.log rig moves = Player.parting off' := by
  induction moves generalizing v p j off with
  | nil => exact ⟨off, p, h, rfl, List.append_nil _⟩
  | cons move moves ih =>
    obtain ⟨hmove, hrest⟩ := List.forall_mem_cons.1 hmoves
    rcases hmove with rfl | rfl
    · obtain ⟨off', p', h', hends, hdeeds⟩ := ih hrest (h.sample rig)
      refine ⟨off', p', ?_, ?_, hdeeds⟩
      · rw [List.countP_cons_of_pos rfl, Nat.add_comm _ 1, ← Nat.add_assoc]
        exact h'
      · rw [endCount, show v.ends rig .sample = false from rfl, Bool.toNat_false, Nat.zero_add]
        exact hends
    · obtain ⟨off₁, p₁, h₁, hends₁, hdeeds₁, -⟩ := h.resume rig
      obtain ⟨off', p', h', hends, hdeeds⟩ := ih hrest h₁
      refine ⟨off', p', ?_, ?_, ?_⟩
      · rw [List.countP_cons_of_neg (by simp [Move.isSample])]
        exact h'
      · rw [endCount, ← Nat.add_assoc, hends₁, hends]
      · rw [log, ← List.append_assoc, hdeeds₁, hdeeds]

theorem endCount_of_serviced (rig : Rig) {before after : List Move}
    (hmoves : ∀ m ∈ before ++ .resume :: after, m = .sample ∨ m = .resume)
    (h : HeadsFor (.oneStep volts seconds curve) f j off v p)
    (hlanded : f.ticks ≤ j + before.countP Move.isSample) :
    off.toNat + v.endCount rig (before ++ .resume :: after) = 1 := by
  obtain ⟨hbefore, hmoves⟩ := List.forall_mem_append.1 hmoves
  obtain ⟨-, hafter⟩ := List.forall_mem_cons.1 hmoves
  obtain ⟨off₁, p₁, h₁, hends₁, -⟩ := h.run rig hbefore
  obtain ⟨off₂, p₂, h₂, hends₂, -, hdone⟩ := h₁.resume rig
  obtain ⟨off₃, p₃, -, hends₃, -⟩ := h₂.run rig hafter
  rw [hdone hlanded, Bool.toNat_true] at hends₂ hends₃
  have hsmall := off₃.toNat_le
  rw [endCount_append, endCount]
  omega

end HeadsFor

theorem headsFor_restart (rig : Rig) (v : Voice) (volts seconds : Float32) (curve : Curve) :
    let program : Program := .oneStep volts seconds curve
    let segment : Segment := ⟨rig.range.clamp volts, rig.rate.ticks seconds, curve⟩
    let moves : List Move := [.load program, .trigger .restart]
    let off := decide (segment.ticks = 0)
    ∃ p, HeadsFor program ⟨v.ramp.current, segment⟩ 0 off (v.run rig moves) p ∧
      v.endCount rig moves = off.toNat ∧
      v.log rig moves = [.hold, .ramp segment] ++ Player.parting off := by
  intro program segment moves off
  let start : Player := (Player.load program).restart
  let past : Player := { start with
    stack := if off then [] else [⟨0, 1, 0⟩]
    awaiting := if off then none else some (v.ramp.hold.toward segment).generation }
  let loaded : Voice := { v with player := some (.load program) }
  have hq : loaded.triggered? .restart = some start := triggered_restart rfl rfl
  obtain ⟨hrun, hdeeds⟩ : _ ∧ start.walkDeeds rig = _ :=
    Player.run_oneStep rig.rate rig.range (p := start.await none) rfl rfl 61 v.ramp.hold
  have hwalk : loaded.walk rig start loaded.ramp.hold = (.ok (if off then .done else .waiting),
      { loaded with player := some past, ramp := v.ramp.hold.toward segment }) := by
    unfold walk
    rw [show start.advance rig.rate rig.range loaded.ramp.hold = _ from hrun]
    rfl
  have hvoice : v.run rig moves =
      { loaded with player := some past, ramp := v.ramp.hold.toward segment } := by
    show loaded.after rig (.trigger .restart) = _
    simp only [after, hq, hwalk]
  have takes : off = false → 0 < segment.ticks.toNat := by
    intro hoff
    exact Nat.pos_of_ne_zero fun hzero => of_decide_eq_false hoff (UInt32.toNat_inj.1 hzero)
  refine ⟨past, ?_, ?_, ?_⟩
  · rw [hvoice]
    refine ⟨rfl, rfl, rfl, rfl, rfl, rfl, fun hoff hdone => absurd (takes hoff) (Nat.not_lt.2 hdone),
      fun hflying => Ramp.Flies.launch v.ramp.hold fun hzero => ?_, fun hdone => ?_⟩
    · simp [Flight.ticks, hzero] at hflying
    · have instant : segment.ticks = 0 := UInt32.toNat_inj.1 (Nat.le_zero.1 hdone)
      exact ⟨by simp [Ramp.toward, instant], by simp [Ramp.toward, instant], rfl⟩
  · show 0 + ((loaded.ends rig (.trigger .restart)).toNat + 0) = _
    simp only [ends, hq, Option.any_some, hwalk]
    cases off <;> rfl
  · show [] ++ (loaded.deeds rig (.trigger .restart) ++ []) = _
    simp only [Voice.deeds, hq, hdeeds, List.append_nil, List.nil_append]
    rfl

/-- Of the moves, a resumption comes after so many samples. Where there are none to wait for, it is not
needed. -/
def Serviced (n : Nat) (moves : List Move) : Prop :=
  n = 0 ∨ ∃ before after, moves = before ++ .resume :: after ∧ n ≤ before.countP Move.isSample

/-- A single ramp that replaces whatever was there, with samples and resumptions after it: all that is
done, and when the walk is off the end. -/
theorem headsFor_override (rig : Rig) (v : Voice) (volts seconds : Float32) (curve : Curve)
    {moves : List Move} (hmoves : ∀ m ∈ moves, m = .sample ∨ m = .resume) :
    let program : Program := .oneStep volts seconds curve
    let segment : Segment := ⟨rig.range.clamp volts, rig.rate.ticks seconds, curve⟩
    let whole : List Move := [.load program, .trigger .restart] ++ moves
    ∃ off p, HeadsFor program ⟨v.ramp.current, segment⟩ (moves.countP Move.isSample) off
        (v.run rig whole) p ∧
      v.endCount rig whole = off.toNat ∧
      v.log rig whole = [.hold, .ramp segment] ++ Player.parting off ∧
      (Serviced segment.ticks.toNat moves → off = true) := by
  intro program segment whole
  obtain ⟨p, hstart, hends, hlog⟩ : ∃ p, HeadsFor program ⟨v.ramp.current, segment⟩ 0
      (decide (segment.ticks = 0)) (v.run rig [.load program, .trigger .restart]) p ∧ _ ∧ _ :=
    headsFor_restart rig v volts seconds curve
  obtain ⟨off, p', hnow, hcount, hdeeds⟩ := hstart.run rig hmoves
  rw [Nat.zero_add] at hnow
  refine ⟨off, p', ?_, ?_, ?_, fun hserviced => ?_⟩
  · rw [show v.run rig whole = _ from List.foldl_append]
    exact hnow
  · rw [endCount_append, hends]
    exact hcount
  · rw [log_append, hlog, List.append_assoc]
    exact congrArg ([.hold, .ramp segment] ++ ·) hdeeds
  · rcases hserviced with hnone | ⟨before, after, rfl, hlanded⟩
    · have instant : segment.ticks = 0 := UInt32.toNat_inj.1 hnone
      rw [decide_eq_true instant, Bool.toNat_true] at hcount
      cases off with
      | true => rfl
      | false => exact absurd hcount (by rw [Bool.toNat_false]; omega)
    · rw [hstart.endCount_of_serviced rig hmoves (by rwa [Nat.zero_add])] at hcount
      cases off with
      | true => rfl
      | false => cases hcount

end Voice

namespace Engine

variable {e : Engine} {c : Channel} {locks : Locks} {volts : Float32}

theorem grants_cooperative (hcontext : e.context = .cooperative) (locks : Locks) (c : Channel) :
    e.grants locks c = true := by
  rw [grants, hcontext]
  cases locks c <;> rfl

theorem shareOf_setVolts (locks : Locks) (c : Channel) (h : Reachable e)
    (hcontext : e.context = .cooperative) (hvolts : volts.isFinite = true) :
    Program.single volts (e.voice c).slew (e.voice c).slewCurve =
        .ok (.oneStep volts (e.voice c).slew (e.voice c).slewCurve) ∧
      e.shareOf c (.perform locks (.setVolts c volts)) =
        [.load (.oneStep volts (e.voice c).slew (e.voice c).slewCurve), .trigger .restart] := by
  have hsingle : Program.single volts (e.voice c).slew (e.voice c).slewCurve = _ :=
    Program.single_eq (h.sound c).slew
  rw [if_pos hvolts] at hsingle
  refine ⟨hsingle, ?_⟩
  simp only [shareOf, share, channel?, if_true, moves, hsingle, loadMoves, triggerMoves,
    grants_cooperative hcontext, or_true]
  rfl

theorem setVolts_ok (h : Reachable e) (hcontext : e.context = .cooperative)
    (hvolts : volts.isFinite = true) : (e.perform locks (.setVolts c volts)).1 = .ok .nothing := by
  obtain ⟨hsingle, -⟩ := shareOf_setVolts locks c h hcontext hvolts
  have hresult : (e.setVolts locks c volts).1 = .ok () := by
    simp only [setVolts, hsingle]
    exact trigger_restart_ok (h.install hsingle) (grants_cooperative hcontext locks c)
      (by simp [install])
  simp only [perform, perform.answer, hresult]
  rfl

/-- Setting a finite voltage from the cooperative side succeeds, whatever state the channel is in. Nothing
is played from then on but a single ramp of the channel's slew time to the voltage, brought into the
range; the channel is neither holding nor locked. While it is only sampled and serviced, the voltage is
reached after as many samples as the slew time has ticks, and stays; and as soon as the channel is
serviced after them, exactly one end has been reported of it since the call. -/
theorem setVolts_overrides (h : Reachable e) (hcontext : e.context = .cooperative)
    (hvolts : volts.isFinite = true) (locks : Locks) (c : Channel) :
    let v := e.voice c
    let call : Move := .perform locks (.setVolts c volts)
    let segment : Segment := ⟨e.range.clamp volts, e.rate.ticks v.slew, v.slewCurve⟩
    (e.perform locks (.setVolts c volts)).1 = .ok .nothing ∧
      ∃ program, Program.single volts v.slew v.slewCurve = .ok program ∧
        ∀ moves, (∀ m ∈ sharesOf c (e.after call) moves, m = .sample ∨ m = .resume) →
          let w := (e.run (call :: moves)).voice c
          let share := sharesOf c (e.after call) moves
          (w.player.map Player.program = some program ∧ w.isHolding = false ∧ w.isLocked = false) ∧
            ([.hold, .ramp segment] <+: e.log c (call :: moves) ∧
              e.log c (call :: moves) <+: [.hold, .ramp segment, .move]) ∧
            (segment.ticks.toNat ≤ share.countP Voice.Move.isSample →
              w.ramp.current = e.range.clamp volts) ∧
            (Voice.Serviced segment.ticks.toNat share →
              (e.reports (call :: moves)).count c = 1) := by
  intro v call segment
  obtain ⟨hsingle, hshare⟩ := shareOf_setVolts locks c h hcontext hvolts
  refine ⟨setVolts_ok h hcontext hvolts, _, hsingle, fun moves hmoves => ?_⟩
  intro w share
  obtain ⟨off, p, hnow, hends, hlog, hoff⟩ :=
    Voice.headsFor_override e.rig v volts v.slew v.slewCurve hmoves
  have hsplit : sharesOf c e (call :: moves) =
      [.load (.oneStep volts v.slew v.slewCurve), .trigger .restart] ++ share := by
    rw [sharesOf, hshare]
  have hw : w = v.run e.rig ([.load (.oneStep volts v.slew v.slewCurve), .trigger .restart] ++ share) := by
    rw [show w = _ from (e.voice_run c (call :: moves)).2, hsplit]
  rw [← hw] at hnow
  have hwhole : e.log c (call :: moves) = [.hold, .ramp segment] ++ Player.parting off := by
    rw [log, hsplit]
    exact hlog
  refine ⟨⟨?_, ?_, ?_⟩, ⟨?_, ?_⟩, fun hlanded => (hnow.rests hlanded).current, fun hserviced => ?_⟩
  · rw [hnow.player, Option.map_some, hnow.program]
  · rw [Voice.isHolding, hnow.player, Option.any_some, hnow.holding]
  · rw [Voice.isLocked, hnow.player, Option.any_some, hnow.locked]
  · rw [hwhole]
    exact List.prefix_append _ _
  · rw [hwhole]
    cases off with
    | true => exact List.prefix_rfl
    | false => exact ⟨[.move], rfl⟩
  · rw [count_reports, hsplit, show Voice.endCount _ _ _ = _ from hends, hoff hserviced,
      Bool.toNat_true]

/-- A locked and held ramp in flight gives way to a set voltage, also while the channel's lock is held:
after the three ticks of the slew time, with a service after each, the channel is there. -/
theorem setVolts_overrides_locked :
    let e := (fresh .standard .standard 1).run [.perform .free (.setSlew .first 0.002 .linear),
      .perform .free (.install .first [.lock [.held [.ramp (.lit 1) (.lit 1) "linear"]]]),
      .perform .free (.trigger .first .restart), .tick .free]
    let call : Move := .perform (fun _ => true) (.setVolts .first 2)
    let w := (e.run (call :: rounds 3)).voice .first
    (e.voice .first).isLocked = true ∧ (e.voice .first).isHolding = true ∧
      (e.voice .first).ramp.phase = .ramping ∧
      w.ramp.current = 2 ∧ w.isLocked = false ∧ w.isHolding = false ∧
      (e.reports (call :: rounds 3)).count .first = 1 := by
  intro e call w
  have reachable : Reachable e := ⟨.standard, .standard, 1, .standard, _, rfl⟩
  have hcontext : e.context = .cooperative := by decide +kernel
  have hvolts : (2 : Float32).isFinite = true := by decide +kernel
  have hticks : (e.rate.ticks (e.voice .first).slew).toNat = 3 := by decide +kernel
  have htarget : e.range.clamp 2 = 2 := by decide +kernel
  refine ⟨by decide +kernel, by decide +kernel, by decide +kernel, ?_⟩
  -- What has been computed is all that has to be known of the engine.
  clear_value e
  obtain ⟨-, program, -, hmoves⟩ :=
    setVolts_overrides reachable hcontext hvolts (fun _ => true) .first
  have hshares : sharesOf .first (e.after call) (rounds 3) = Voice.steady 3 := sharesOf_rounds _ _ _
  obtain ⟨⟨-, hholding, hlocked⟩, -, hcurrent, hcount⟩ :=
    hmoves (rounds 3) (by rw [hshares]; simp [Voice.steady])
  have hserviced : Voice.Serviced 3 (Voice.steady 3) :=
    .inr ⟨[.sample, .resume, .sample, .resume, .sample], [], rfl, by decide⟩
  rw [hshares, hticks] at hcurrent hcount
  dsimp only [w, call]
  exact ⟨(hcurrent (by decide)).trans htarget, hlocked, hholding, hcount hserviced⟩

end Engine

end ControlVoltage
