import ControlVoltage.Proofs.Session.Timing

/-!
# Renderings

A rendering runs its ticks into a recording that has room for exactly one frame of each. The tick hands
the same frame to its caller, from the frame that the real-time half keeps for itself.

* `Session.pulseKept`, `Session.returned` : the ticks of a rendering and the frames that they return.
* `Session.returned_eq` : they are the frames that are written.
* `Recording.lossless` : what a recording holds after any moves, and after a rendering.
-/

namespace ControlVoltage

namespace Session

open Engine (deliverAll)

variable {σ : Type} [Sink σ]

/-! ## Returned frames -/

/-- One tick of a real-time half that has kept a frame of its own: the frame that it returns, with the
session and the sink. -/
def pulseKept (s : Session) (last : Frame) (out : σ) : Frame × Session × σ :=
  let (e, sources) := pollSources .free false s.engine s.sources
  let (t, out) := (Ticker.mk e last).tick .free out
  (t.last, { s with engine := t.engine, sources }, out)

/-- The frames that the ticks of a rendering return, with a service after each. -/
def returned : Nat → Session → Frame → σ → List Frame
  | 0, _, _, _ => []
  | n + 1, s, last, out =>
    let (frame, s, out) := s.pulseKept last out
    frame :: returned n s.service.2 frame out

theorem pulseKept_eq (s : Session) (last : Frame) (out : σ) :
    s.pulseKept last out = (.ofFn s.output, s.pulse .free false out) := by
  have hlast : ((deliverAll .free false s.engine s.offered).tick .free out).1.lastFrame =
      .ofFn s.output :=
    PerChannel.ext_get fun c => by
      rw [Ticker.get_lastFrame, Engine.written_tick, PerChannel.get_ofFn, output]
  rw [← hlast, pulse_eq, pulseKept, pollSources_eq]
  simp only [Ticker.tick_free]
  rfl

theorem returned_eq (n : Nat) (s : Session) (last : Frame) (out : σ) :
    returned n s last out = s.outputs n := by
  induction n generalizing s last out with
  | zero => rfl
  | succ n ih =>
    have hround : (s.round s.engine.lastFrame).1 = (s.pulse .free false out).1.service.2 := by
      rw [s.round_sink s.engine.lastFrame out, round]
    simp only [returned, pulseKept_eq, ih, outputs_succ, hround]

end Session

/-! ## Recordings -/

/-- A recording is a log up to its capacity, and a rendering fills it exactly. After any moves, writes to
any channels in any order among them,
* a channel has the first of the voltages written to it since the last clear, as many as there is room
  for, in order, and all others since then have been counted;
* there are as many frames as the channel with the fewest samples has samples, and a frame has the
  samples of its tick.
A rendering whose real-time half is here gives a recording with one frame for every tick, the one that
the tick has returned, and no sample is discarded. -/
theorem Recording.lossless :
    (∀ (capacity : Nat) (moves : List Move),
      let r := (empty capacity).run moves
      (∀ c, (r.samples c).toList = (log moves c).take capacity) ∧
      r.overflow = (Channel.all.map fun c => (log moves c).length - capacity).sum ∧
      ((∀ c, r.size ≤ (r.samples c).size) ∧ ∃ c, (r.samples c).size = r.size) ∧
      (∀ t, (r.frame? t).isSome ↔ t < r.size) ∧
      (∀ t frame, r.frame? t = some frame ↔ ∀ c, (r.samples c)[t]? = some (frame.get c)) ∧
      r.frames.length = r.size ∧ ∀ t, r.frames[t]? = r.frame? t) ∧
    ∀ (s : Session) (n : Nat) (last : Frame),
      if s.realtime = .here then
        ∃ recording, s.renderFrames n = .ok (s.rounds n, recording) ∧
          recording.size = n ∧ recording.overflow = 0 ∧
          recording.frames = Session.returned n s last (empty n) ∧ recording.frames.length = n
      else s.renderFrames n = .error .running := by
  refine ⟨fun capacity moves => ?_, fun s n last => ?_⟩
  · intro r
    have keeps : Keeps capacity moves r := keeps_run capacity moves
    refine ⟨keeps.samples, keeps.overflow, ⟨r.size_le, r.exists_size_eq⟩, fun t => ?_,
      fun t frame => frame?_eq_some_iff, r.length_frames, r.getElem?_frames⟩
    by_cases h : t < r.size
    · simp [frame?_of_lt h, h]
    · simp [frame?_of_le (Nat.le_of_not_lt h), h]
  · split
    · rename_i here
      obtain ⟨-, hsize, hoverflow, hframes⟩ := run_frames (s.outputs n)
      rw [s.length_outputs] at hsize hoverflow hframes
      refine ⟨_, Session.renderFrames_run here n, hsize, hoverflow, ?_, ?_⟩
      · rw [hframes, Session.returned_eq]
      · rw [hframes, s.length_outputs]
    · rename_i away
      rw [Session.renderFrames, Session.render, if_neg away]

/-- The first channel is full before the others have a sample. -/
theorem Recording.lossless_uneven :
    let moves : List Move := [.write ⟨1⟩ 9, .clear, .write .first 1, .write .first 2, .write .first 3,
      .write ⟨3⟩ 7, .endTick, .write ⟨1⟩ 4, .write ⟨2⟩ 5]
    let r := (empty 2).run moves
    let s := Session.fresh .standard .standard 1
    (r.samples .first).toList = [1, 2] ∧ (r.samples ⟨1⟩).toList = [4] ∧ r.overflow = 1 ∧
      (r.frame? 0).isSome ∧ s.realtime = .here ∧
      ∃ recording, s.renderFrames 3 = .ok (s.rounds 3, recording) ∧ recording.frames.length = 3 := by
  intro moves r s
  obtain ⟨recordings, renderings⟩ := Recording.lossless
  obtain ⟨hsamples, hoverflow, -, hsome, -⟩ := recordings 2 moves
  obtain ⟨recording, hrender, -, -, -, hlength⟩ := renderings s 3 Frame.zero
  exact ⟨hsamples .first, hsamples ⟨1⟩, hoverflow, (hsome 0).2 (by decide), rfl,
    recording, hrender, hlength⟩

end ControlVoltage
