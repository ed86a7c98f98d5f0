import ControlVoltage.Proofs.Engine.Endings
import ControlVoltage.Proofs.Output.Recording
import ControlVoltage.Proofs.Session.Moves

/-!
# Timing of a rendering

A rendering ticks and services in turn, so that a channel whose commands are let alone is in its
steady run: the segments of its walk follow each other without a gap, and its end is reported in the
round in which the last of them lands.

* `Session.round_spares`, `Session.rendered` : one round, and the rounds of a rendering, are those of
  the steady run.
* `Session.renderFrames_eq` : what a rendering records.
* `Session.render_timing` : what a rendering after a restart writes, and when it reports the end.
-/

namespace ControlVoltage

namespace Session

open Engine (deliverAll deliveriesMoves deliverAll_eq sharesOf)

/-! ## Rounds of a spared channel -/

/-- The voltage that the next tick of a rendering writes on a channel. -/
def output (s : Session) (c : Channel) : Float32 :=
  (deliverAll .free false s.engine s.offered).output .free c

/-- The ends that the next round of a rendering reports. -/
def endings (s : Session) : List Channel :=
  (s.pulse .free false s.engine.lastFrame).1.engine.endings .free

theorem ticks_not_mem_deliveries (locks : Locks) (busy : Bool) (e : Engine)
    (events : List InputEvent) :
    ∀ move ∈ deliveriesMoves locks busy e events, ∀ locks', move ≠ .tick locks' := by
  have commands : ∀ visits : List (Engine × Command),
      ∀ move ∈ visits.map (fun visit => Engine.Move.perform locks visit.2),
        ∀ locks', move ≠ .tick locks' := by
    intro visits move hmove locks'
    obtain ⟨visit, -, rfl⟩ := List.mem_map.1 hmove
    simp
  induction events generalizing e with
  | nil => simp [deliveriesMoves]
  | cons event events ih =>
    refine List.forall_mem_append.2 ⟨?_, ih _⟩
    unfold Engine.deliveryMoves
    split
    · simp
    · refine List.forall_mem_append.2 ⟨?_, ?_⟩
      · unfold Engine.dispatchMoves
        split
        · exact List.forall_mem_append.2
            ⟨List.forall_mem_cons.2 ⟨by simp, commands _⟩, by simp⟩
        · simp
      · split <;> simp

theorem sharesOf_tick_free (e : Engine) (c : Channel) : sharesOf c e [.tick .free] = [.sample] := rfl

theorem sharesOf_serviceMoves (e : Engine) (c : Channel) : sharesOf c e serviceMoves = [.resume] := by
  simp [serviceMoves, sharesOf, Engine.shareOf, Engine.share, Engine.grants_free]

theorem round_spares {s : Session} {c : Channel} (hready : (s.engine.voice c).ready? = none)
    (spares : ∀ move ∈ s.roundMoves, move.spares c = true) (out : Frame) :
    let v := s.engine.voice c
    s.output c = (v.after s.engine.rig .sample).written ∧
      (c ∈ s.endings ↔ (v.after s.engine.rig .sample).ends s.engine.rig .resume = true) ∧
      (s.round out).1.engine.voice c =
        (v.after s.engine.rig .sample).after s.engine.rig .resume ∧
      s.engine.log c s.roundMoves = (v.after s.engine.rig .sample).deeds s.engine.rig .resume := by
  intro v
  obtain ⟨deliveries, hdeliveries⟩ :
      ∃ moves, deliveriesMoves .free false s.engine s.offered = moves := ⟨_, rfl⟩
  have hpulse : s.pulseMoves .free false = deliveries ++ [.tick .free] := by
    rw [pulseMoves, hdeliveries]
  have hround : s.roundMoves = deliveries ++ [.tick .free] ++ serviceMoves := by
    rw [roundMoves, hpulse]
  obtain ⟨hvoice, hlog⟩ : (s.engine.run deliveries).voice c = v ∧ s.engine.log c deliveries = [] := by
    refine Engine.run_spares hready (fun move hmove => spares move ?_) ?_
    · simp [hround, hmove]
    · rw [← hdeliveries]
      exact ticks_not_mem_deliveries .free false s.engine s.offered
  have hrig : (s.engine.run deliveries).rig = s.engine.rig := (Engine.voice_run _ c deliveries).1
  obtain ⟨hpulsed, hsampled⟩ : ((s.pulse .free false s.engine.lastFrame).1.engine).rig = s.engine.rig ∧
      ((s.pulse .free false s.engine.lastFrame).1.engine).voice c = v.after s.engine.rig .sample := by
    rw [engine_pulse, hpulse, Engine.run_append]
    obtain ⟨hrig', hvoice'⟩ := Engine.voice_run (s.engine.run deliveries) c [.tick .free]
    rw [hrig, hvoice, sharesOf_tick_free] at hvoice'
    exact ⟨hrig'.trans hrig, hvoice'⟩
  refine ⟨?_, ?_, ?_, ?_⟩
  · rw [output, deliverAll_eq, hdeliveries, Engine.output_congr hrig hvoice]
    rfl
  · rw [endings, Engine.mem_endings_free, hpulsed, hsampled]
  · have hengine : (s.round out).1.engine =
        (s.pulse .free false s.engine.lastFrame).1.engine.run serviceMoves := by
      rw [engine_round, engine_pulse, ← Engine.run_append, roundMoves]
    rw [hengine, (Engine.voice_run _ c serviceMoves).2, hpulsed, hsampled, sharesOf_serviceMoves]
    rfl
  · have hpulserun : s.engine.run (deliveries ++ [.tick .free]) =
        (s.pulse .free false s.engine.lastFrame).1.engine := by rw [engine_pulse, hpulse]
    rw [hround, Engine.log_append, Engine.log_append, hlog, hpulserun, Engine.log, Engine.log,
      sharesOf_tick_free, sharesOf_serviceMoves, hpulsed, hsampled]
    simp [Voice.log, Voice.deeds]

theorem rig_rounds (n : Nat) (s : Session) : (s.rounds n).engine.rig = s.engine.rig := by
  rw [engine_rounds]
  exact (Engine.voice_run _ Channel.first _).1

/-- In a rendering that spares a channel, the channel is in its steady run. -/
theorem rendered {s : Session} {c : Channel} (timely : (s.engine.voice c).Timely)
    (hready : (s.engine.voice c).ready? = none) {n : Nat}
    (spares : ∀ move ∈ s.renderMoves n, move.spares c = true) :
    (s.rounds n).engine.voice c = (s.engine.voice c).rounds s.engine.rig n ∧
      s.engine.log c (s.renderMoves n) =
        Voice.log s.engine.rig (s.engine.voice c) (Voice.steady n) := by
  induction n with
  | zero => exact ⟨rfl, rfl⟩
  | succ n ih =>
    rw [renderMoves_succ, List.forall_mem_append] at spares
    obtain ⟨hvoice, hlog⟩ := ih spares.1
    have hidle : ((s.rounds n).engine.voice c).ready? = none := by
      rw [hvoice]
      exact (timely.rounds hready n).2
    obtain ⟨-, -, hround, hdeeds⟩ := round_spares hidle spares.2 (s.rounds n).engine.lastFrame
    rw [rig_rounds, hvoice] at hround hdeeds
    constructor
    · rw [rounds_succ, hround, Voice.rounds_succ]
    · rw [renderMoves_succ, Engine.log_append, ← engine_rounds, hlog, hdeeds, Voice.steady_succ,
        Voice.log_append]
      simp [Voice.log, Voice.deeds, Voice.rounds]

theorem rendered_round {s : Session} {c : Channel} (timely : (s.engine.voice c).Timely)
    (hready : (s.engine.voice c).ready? = none) {n : Nat}
    (spares : ∀ move ∈ s.renderMoves n, move.spares c = true) {i : Nat} (hi : i < n) :
    let v := s.engine.voice c
    (s.rounds i).output c = v.steadySample s.engine.rig i ∧
      (c ∈ (s.rounds i).endings ↔
        ((v.rounds s.engine.rig i).after s.engine.rig .sample).ends s.engine.rig .resume = true) := by
  intro v
  obtain ⟨k, rfl⟩ := Nat.exists_eq_add_of_le hi
  rw [renderMoves_add, renderMoves_succ, List.forall_mem_append, List.forall_mem_append] at spares
  obtain ⟨⟨hbefore, hround⟩, -⟩ := spares
  have hvoice : (s.rounds i).engine.voice c = v.rounds s.engine.rig i :=
    (rendered timely hready hbefore).1
  have hidle : ((s.rounds i).engine.voice c).ready? = none := by
    rw [hvoice]
    exact (timely.rounds hready i).2
  obtain ⟨houtput, hends, -⟩ := round_spares hidle hround (s.rounds i).engine.lastFrame
  rw [rig_rounds, hvoice] at houtput hends
  exact ⟨houtput, hends⟩

theorem round_events (s : Session) (out : Frame) :
    (s.round out).1.engine.events =
      s.endings.foldl Fifo.pushEvicting (s.pulse .free false s.engine.lastFrame).1.engine.events := by
  rw [s.round_sink out s.engine.lastFrame, endings, ← Engine.service_events]
  simp only [round, service_eq, Engine.drainNotices]

/-! ## What is recorded -/

def outputs (s : Session) (n : Nat) : List Frame :=
  (List.range n).map fun i => .ofFn (s.rounds i).output

theorem length_outputs (s : Session) (n : Nat) : (s.outputs n).length = n := by
  rw [outputs, List.length_map, List.length_range]

theorem outputs_succ (s : Session) (n : Nat) :
    s.outputs (n + 1) = .ofFn s.output :: (s.round s.engine.lastFrame).1.outputs n := by
  rw [outputs, List.range_succ_eq_map, List.map_cons, List.map_map]
  rfl

theorem round_snd (s : Session) (r : Recording) :
    (s.round r).2 = r.run (Recording.frameMoves (.ofFn s.output)) := by
  simp only [round, pulse_eq, Engine.tick_writes, Recording.run_frameMoves, PerChannel.get_ofFn]
  rfl

theorem pulses_snd (n : Nat) (s : Session) (r : Recording) :
    (pulses n s r).2 = r.run ((s.outputs n).flatMap Recording.frameMoves) := by
  induction n generalizing s r with
  | zero => rfl
  | succ n ih =>
    rw [pulses_succ, s.round_sink r s.engine.lastFrame, ih, round_snd, ← Recording.run_append,
      outputs_succ, List.flatMap_cons]

theorem renderFrames_run {s : Session} (here : s.realtime = .here) (n : Nat) :
    s.renderFrames n = .ok (s.rounds n,
      (Recording.empty n).run ((s.outputs n).flatMap Recording.frameMoves)) := by
  rw [renderFrames, render, if_pos here, ← pulses_snd, ← pulses_fst n s (Recording.empty n)]

theorem renderFrames_eq {s : Session} (here : s.realtime = .here) (n : Nat) :
    ∃ recording, s.renderFrames n = .ok (s.rounds n, recording) ∧ ∀ c,
      recording.samples c = ((List.range n).map fun i => (s.rounds i).output c).toArray := by
  refine ⟨_, renderFrames_run here n, fun c => ?_⟩
  obtain ⟨hsamples, -⟩ := Recording.run_frames (s.outputs n)
  rw [length_outputs] at hsamples
  rw [← Array.toList_inj, hsamples, outputs, List.map_map]
  simp [Function.comp_def]

/-! ## From a restart on -/

theorem renderFrames_launched {s : Session} (here : s.realtime = .here) {c : Channel}
    {volts : Float32} {deeds : List Deed} (launched : Voice.Launched volts deeds (s.engine.voice c))
    {n : Nat} (spares : ∀ move ∈ s.renderMoves n, move.spares c = true) :
    let v := s.engine.voice c
    let rig := s.engine.rig
    let course := v.course rig deeds n
    let flights := Deed.flights volts course
    let ended := ((s.rounds n).engine.voice c).Ended
    (∃ recording, s.renderFrames n = .ok (s.rounds n, recording) ∧ (recording.samples c).size = n ∧
        Flight.Recorded rig.table (fun x => rig.range.clamp (v.quantizer.quantize x)) flights
          (Deed.destination volts course) (recording.samples c)) ∧
      (∀ m < n, c ∈ (s.rounds m).endings ↔ ended ∧ Flight.span flights = m + 1) ∧
      (ended → Flight.span flights ≤ n) := by
  intro v rig course flights ended
  have hready : v.ready? = none := launched.ready?
  have hvoice : (s.rounds n).engine.voice c = v.rounds rig n :=
    (rendered launched.timely hready spares).1
  refine ⟨?_, fun m hm => ?_, fun hended => ?_⟩
  · obtain ⟨recording, hrender, hsamples⟩ := renderFrames_eq here n
    have hsize : (recording.samples c).size = n := by simp [hsamples]
    refine ⟨recording, hrender, hsize, Flight.recorded_of_timeline fun i hi => ?_⟩
    rw [hsize] at hi
    rw [hsamples, ← launched.steadySample rig hi.le,
      ← (rendered_round launched.timely hready spares hi).1]
    simp [hi]
  · rw [(rendered_round launched.timely hready spares hm).2, launched.ends_iff rig hm, ← hvoice]
  · refine launched.span_le rig ?_
    rw [← hvoice]
    exact hended

section restart

variable (rate : Rate) (range : Range) (capacity : Nat) (f : Transcendental) (c : Channel)

/-- A channel that has started fewer than `2 ^ 32` segments and holds, in a range of finite width. A
restart that it accepts succeeds. In a rendering of `n` ticks after it, in which no command is for the
channel, and with the flights that its walk launches in this time,
* the samples of the channel are those of the flights, without a gap between them: each flight takes
  exactly its ticks, its last sample is on its target, and what takes no time takes no sample;
* every flight takes time, from a voltage in the range to a target in the range;
* if the walk ends, the end is reported by the service of the tick in which the last flight lands, or
  by the restart itself where there is none, and at no other time;
* no tick has to panic. -/
theorem render_timing (hspan : (range.max - range.min).isFinite = true) (moves : List Engine.Move)
    (locks : Locks)
    (few : ((Engine.fresh rate range capacity f).log c
      (moves ++ [.perform locks (.trigger c .restart)])).countP Deed.starts < 2 ^ 32)
    {e : Engine} (he : e = (Engine.fresh rate range capacity f).run moves) {p : Player}
    (hp : (e.voice c).player = some p) (unlocked : p.locked = false)
    (granted : e.grants locks c = true) {s : Session}
    (hs : s.engine = (e.trigger locks c .restart).2) (here : s.realtime = .here) {n : Nat}
    (spares : ∀ move ∈ s.renderMoves n, move.spares c = true) :
    let v := e.voice c
    let log := e.log c (.perform locks (.trigger c .restart) :: s.renderMoves n)
    let flights := Deed.flights v.ramp.current log
    let ended := ((s.rounds n).engine.voice c).Ended
    (∃ recording, s.renderFrames n = .ok (s.rounds n, recording) ∧ (recording.samples c).size = n ∧
        Flight.Recorded e.table (fun volts => range.clamp (v.quantizer.quantize volts)) flights
          (Deed.destination v.ramp.current log) (recording.samples c)) ∧
      (∀ f ∈ flights, 0 < f.ticks ∧ range.Holds f.start ∧ range.Holds f.segment.target) ∧
      ((e.trigger locks c .restart).1 = .ok () ∧
        (ended ∧ Flight.span flights = 0 → s.engine.events = e.events.pushEvicting c) ∧
        (¬(ended ∧ Flight.span flights = 0) → s.engine.events = e.events)) ∧
      (∀ m < n,
        (s.rounds (m + 1)).engine.events = (s.rounds m).endings.foldl Fifo.pushEvicting
          ((s.rounds m).pulse .free false (s.rounds m).engine.lastFrame).1.engine.events ∧
        (c ∈ (s.rounds m).endings ↔ ended ∧ Flight.span flights = m + 1)) ∧
      (ended → Flight.span flights ≤ n) ∧
      ∀ part, part <+: s.renderMoves n →
        ((s.engine.run part).voice c).ramp.Safe (s.engine.run part).table := by
  intro v log flights ended
  have reachable : Engine.Reachable e := ⟨rate, range, capacity, f, moves, he⟩
  have hrange : e.rig.range = range := by
    rw [he, (Engine.voice_run _ c moves).1]
    rfl
  have hrun : s.engine =
      (Engine.fresh rate range capacity f).run (moves ++ [.perform locks (.trigger c .restart)]) := by
    rw [Engine.run_append, ← he, hs]
    rfl
  have hrig : s.engine.rig = e.rig := by
    rw [hs]
    exact (Engine.voice_restart granted).1
  obtain ⟨hquantizer, launched, hends⟩ :=
    Engine.launched_restart rate range capacity f few he hp unlocked granted
  rw [← hs] at hquantizer launched hends
  have hlog : log = (s.engine.voice c).course e.rig (v.deeds e.rig (.trigger .restart)) n := by
    have hrest := Engine.log_restart granted (s.renderMoves n)
    rw [← hs, (rendered launched.timely launched.ready? spares).2, hrig] at hrest
    exact hrest
  obtain ⟨⟨recording, hrender, hsize, hrecorded⟩, hreports, hlanded⟩ :=
    renderFrames_launched here launched spares
  rw [hrig, ← hlog] at hrecorded hreports hlanded
  rw [hrange, hquantizer] at hrecorded
  refine ⟨⟨recording, hrender, hsize, hrecorded⟩, fun f hf => ?_, ?_, fun m hm => ⟨?_, hreports m hm⟩,
    hlanded, fun part _ => ?_⟩
  · have within := (reachable.kept c).within (by rw [hrange]; exact hspan)
    rw [hrange] at within
    refine Deed.of_mem_flights within.current (fun segment hmem => ?_) hf
    rw [← hrange]
    exact Voice.holds_of_mem_log hmem
  · obtain ⟨hok, hevents⟩ := Engine.restart_events hp (reachable.sound c) unlocked granted
    have hstart : (e.voice c).ends e.rig (.trigger .restart) = true ↔
        ended ∧ Flight.span flights = 0 := by
      have hzero := launched.ended_iff e.rig n.zero_le
      rw [← hlog, Voice.course_zero] at hzero
      have hvoices := (rendered launched.timely launched.ready? spares).1
      rw [hrig] at hvoices
      rw [hends, show ended = ((s.rounds n).engine.voice c).Ended from rfl, hvoices, hzero]
      rfl
    rw [hs, hevents]
    exact ⟨hok, fun h => if_pos (hstart.2 h), fun h => if_neg (mt hstart.1 h)⟩
  · rw [rounds_succ, round_events]
  · rw [hrun, ← Engine.run_append]
    exact Engine.safe_of_span rate range capacity f c _ hspan

end restart

/-- Two ramps of two ticks each: the end is reported by the service of the fourth tick. -/
theorem render_timing_two :
    let moves : List Engine.Move := [.perform .free (.install .first
      [.ramp (.lit 1) (.lit 0.001) "linear", .ramp (.lit 3) (.lit 0.001) "linear"])]
    let e := (Engine.fresh .standard .standard 1).run moves
    let s : Session := ⟨(e.trigger .free .first .restart).2, [], .here⟩
    let flights := Deed.flights (e.voice .first).ramp.current
      (e.log .first (.perform .free (.trigger .first .restart) :: s.renderMoves 4))
    (Range.standard.max - Range.standard.min).isFinite = true ∧
      ((Engine.fresh .standard .standard 1).log .first
        (moves ++ [.perform .free (.trigger .first .restart)])).countP Deed.starts < 2 ^ 32 ∧
      (∃ p, (e.voice .first).player = some p ∧ p.locked = false) ∧
      (∀ move ∈ s.renderMoves 4, move.spares .first = true) ∧
      flights.map Flight.ticks = [2, 2] ∧
      .first ∈ (s.rounds 3).endings ∧ ((s.rounds 4).engine.voice .first).Ended := by
  intro moves e s flights
  have hspan : (Range.standard.max - Range.standard.min).isFinite = true := by decide +kernel
  have few : ((Engine.fresh .standard .standard 1).log .first
      (moves ++ [.perform .free (.trigger .first .restart)])).countP Deed.starts < 2 ^ 32 := by
    decide +kernel
  obtain ⟨p, hp⟩ : ∃ p, (e.voice .first).player = some p :=
    Option.isSome_iff_exists.1 (by decide +kernel)
  have unlocked : p.locked = false := by
    have hlocked : (e.voice .first).player.map Player.locked = some false := by decide +kernel
    rw [hp] at hlocked
    exact Option.some.inj hlocked
  have spares : ∀ move ∈ s.renderMoves 4, move.spares .first = true := by decide +kernel
  have hticks : flights.map Flight.ticks = [2, 2] := by decide +kernel
  have hends : .first ∈ (s.rounds 3).endings := by decide +kernel
  obtain ⟨-, -, -, reports, -⟩ :=
    render_timing .standard .standard 1 .standard .first hspan moves .free few rfl
    hp unlocked (Engine.grants_free e .first) rfl rfl spares
  exact ⟨hspan, few, ⟨p, hp, unlocked⟩, spares, hticks, hends,
    ((reports 3 (by decide)).2.1 hends).1⟩

end Session

end ControlVoltage
