import ControlVoltage.Proofs.Engine.Schedule

/-!
# What a tick writes

A tick writes one sample on each channel, in panel order, and then ends. A channel whose lock is free
is written the quantized voltage after one step of its ramp, brought into the range; a channel whose
lock is held is written what was written on it last.

* `Quantizer.Gives` : what the quantizer makes of a voltage of the range.
* `Engine.output` : what a tick writes on a channel.
* `Ticker` : an engine whose real-time half keeps a frame of its own, apart from what it publishes.
* `Ticker.run_eq` : the kept frame is the published one, whatever happens.
* `Ticker.tick_free` : a tick that skips no channel does not depend on the kept frame.
* `Ticker.tick_output` : one tick, after any run.
-/

namespace ControlVoltage

open Single

/-! ## Quantized voltages -/

namespace Range

/-- The number of the range that is nearest to zero. -/
def nearestZero (range : Range) : Float32 :=
  if 0 < range.min then range.min else if range.max < 0 then range.max else 0

variable {range : Range} {volts : Float32}

theorem clamp_of_lt_min (h : volts < range.min) : range.clamp volts = range.min := by
  have number : volts.isNaN = false := by
    by_contra hnan
    exact not_lt_of_isNaN (.inl (by simpa using hnan)) h
  have inside : ¬ range.max < range.min := not_lt_of_le range.holds_min.2.2
  simp only [clamp, Single.clamp, number, h, if_true, inside, if_false, Bool.false_eq_true]

theorem clamp_of_max_lt (h : range.max < volts) : range.clamp volts = range.max := by
  have number : volts.isNaN = false := by
    by_contra hnan
    exact not_lt_of_isNaN (.inr (by simpa using hnan)) h
  have above : ¬ volts < range.min :=
    not_lt_of_le (le_trans_of_le range.holds_max.2.1 (Single.le_of_lt h))
  simp only [clamp, Single.clamp, number, h, above, if_true, if_false, Bool.false_eq_true]

theorem clamp_of_isNaN (h : volts.isNaN = true) : range.clamp volts = range.nearestZero := by
  have inside : ¬ range.max < range.min := not_lt_of_le range.holds_min.2.2
  simp only [clamp, Single.clamp, nearestZero, h, if_true]
  by_cases positive : 0 < range.min
  · simp only [positive, inside, if_true, if_false]
  · simp only [positive, if_false]

theorem nearestZero_spec (range : Range) :
    range.Holds range.nearestZero ∧ ∀ x, range.Holds x →
      0 ≤ range.nearestZero ∧ range.nearestZero ≤ x ∨
        x ≤ range.nearestZero ∧ range.nearestZero ≤ 0 := by
  have zero : (0 : Float32).isNaN = false := rfl
  have zero_le : (0 : Float32) ≤ 0 := le_refl_of_number zero
  unfold nearestZero
  by_cases positive : 0 < range.min
  · rw [if_pos positive]
    exact ⟨range.holds_min, fun x hx => .inl ⟨Single.le_of_lt positive, hx.2.1⟩⟩
  · rw [if_neg positive]
    by_cases negative : range.max < 0
    · rw [if_pos negative]
      exact ⟨range.holds_max, fun x hx => .inr ⟨hx.2.2, Single.le_of_lt negative⟩⟩
    · rw [if_neg negative]
      refine ⟨holds_of_le (le_of_not_lt zero range.holds_min.1 positive)
        (le_of_not_lt range.holds_max.1 zero negative), fun x hx => ?_⟩
      by_cases below : x ≤ 0
      · exact .inr ⟨below, zero_le⟩
      · exact .inl ⟨zero_le, le_of_not_le hx.1 zero below⟩

end Range

/-- What the quantizer makes of a voltage of the range. Without a scale it is the voltage itself. With
one it is the voltage of a degree in the octave of the voltage, or the end of the range that this is
beyond; where the scale gives no number at all it is the voltage nearest to zero. -/
def Quantizer.Gives (range : Range) (current volts : Float32) : Quantizer → Prop
  | .off => volts = current
  | .on scale => ∃ i, ∃ h : i < scale.degrees.size,
    let octave := Single.floor ((current + scale.offset) / scale.scaling)
    let snapped := scale.scaling * (octave + scale.degrees[i] / scale.modulo)
    (range.Holds snapped → volts = snapped) ∧
      (snapped < range.min → volts = range.min) ∧ (range.max < snapped → volts = range.max) ∧
      (snapped.isNaN = true → volts = range.nearestZero)

theorem Quantizer.gives_clamp {range : Range} {current : Float32} (h : range.Holds current)
    (q : Quantizer) : q.Gives range current (range.clamp (q.quantize current)) := by
  cases q with
  | off => exact range.clamp_of_holds h
  | on scale =>
    exact ⟨_, scale.degreeIndex_lt _, Range.clamp_of_holds, Range.clamp_of_lt_min,
      Range.clamp_of_max_lt, Range.clamp_of_isNaN⟩

/-! ## Voltages written last -/

namespace Voice

variable {rig : Rig} {v : Voice}

theorem written_run {moves : List Move} (h : Move.sample ∉ moves) :
    (v.run rig moves).written = v.written := by
  induction moves generalizing v with
  | nil => rfl
  | cons move moves ih =>
    rw [List.mem_cons, not_or] at h
    exact (ih h.2).trans (written_after (Ne.symm h.1))

theorem holds_written_after (h : rig.range.Holds v.written) (move : Move) :
    rig.range.Holds (v.after rig move).written := by
  by_cases hmove : move = .sample
  · subst hmove
    exact rig.range.holds_clamp _
  · rw [written_after hmove]
    exact h

end Voice

namespace Engine

theorem Reachable.holds_written {e : Engine} (h : Reachable e) (c : Channel) :
    e.range.Holds (e.voice c).written :=
  h.voice (P := fun rig v => rig.range.Holds v.written) (fun _ range _ => range.holds_clamp 0)
    (fun _ _ move _ holds => Voice.holds_written_after holds move) c

theorem asked_of_mem_moves {e : Engine} {locks : Locks} {command : Command} {m : Voice.Move}
    (h : m ∈ e.moves locks command) : m ≠ .sample ∧ m ≠ .resume := by
  have triggers : ∀ {c action}, m ∈ e.triggerMoves locks c action → m ≠ .sample ∧ m ≠ .resume := by
    intro c action hm
    unfold triggerMoves at hm
    split at hm
    · simp [List.mem_singleton.1 hm]
    · cases hm
  have quantizers : ∀ {c q}, m ∈ e.quantizerMoves locks c q → m ≠ .sample ∧ m ≠ .resume := by
    intro c q hm
    unfold quantizerMoves at hm
    split at hm
    · simp [List.mem_singleton.1 hm]
    · cases hm
  cases command with
  | install c score =>
    simp only [moves, loadMoves] at h
    split at h
    · simp [List.mem_singleton.1 h]
    · cases h
  | setVolts c volts =>
    simp only [moves, loadMoves] at h
    split at h
    · rcases List.mem_cons.1 h with rfl | h
      · simp
      · exact triggers h
    · cases h
  | trigger c action => exact triggers h
  | action c number =>
    simp only [moves] at h
    split at h
    · exact triggers h
    · cases h
  | setQuantizer c q => exact quantizers h
  | setScale c degrees modulo scaling =>
    simp only [moves] at h
    split at h
    · exact quantizers h
    · cases h
  | clear c | setSlew c seconds curve | setCell c name value =>
    simp only [moves] at h
    split at h
    · simp [List.mem_singleton.1 h]
    · cases h
  | _ => cases h

theorem sample_not_mem_shareOf (e : Engine) (c : Channel) {move : Move}
    (h : ∀ locks, move ≠ .tick locks) : Voice.Move.sample ∉ e.shareOf c move := by
  cases move with
  | tick locks => exact absurd rfl (h locks)
  | perform locks command =>
    intro hmem
    rcases mem_share hmem with hresume | hmem
    · cases hresume
    · exact (asked_of_mem_moves hmem).1 rfl
  | _ => simp [shareOf]

/-! ## One tick -/

/-- The voltage that a tick writes on a channel. -/
def output (e : Engine) (locks : Locks) (c : Channel) : Float32 :=
  if locks c then (e.voice c).written else ((e.voice c).sample e.table e.range).1

variable {σ : Type} [Sink σ]

/-- What a tick does to a sink: each channel is written once, in panel order, and then it ends. -/
def outputTo (e : Engine) (locks : Locks) (out : σ) : σ :=
  Sink.endTick (Channel.all.foldl (fun out c => Sink.write out c (e.output locks c)) out)

theorem output_congr {e e' : Engine} {locks : Locks} {c : Channel} (hrig : e'.rig = e.rig)
    (hvoice : e'.voice c = e.voice c) : e'.output locks c = e.output locks c := by
  have htable : e'.table = e.table := congrArg Rig.table hrig
  have hrange : e'.range = e.range := congrArg Rig.range hrig
  rw [output, output, hvoice, htable, hrange]

theorem tickChannel_writes (locks : Locks) (s : Engine × σ) (c : Channel) :
    (tickChannel locks s c).2 = Sink.write s.2 c (s.1.output locks c) := by
  unfold tickChannel output
  cases locks c <;> rfl

theorem tick_writes (e : Engine) (locks : Locks) (out : σ) :
    (e.tick locks out).2 = e.outputTo locks out := by
  have folds : ∀ (cs : List Channel) (s : Engine × σ), cs.Nodup → s.1.rig = e.rig →
      (∀ c ∈ cs, s.1.voice c = e.voice c) →
      (cs.foldl (tickChannel locks) s).2 =
        cs.foldl (fun out c => Sink.write out c (e.output locks c)) s.2 := by
    intro cs
    induction cs with
    | nil => exact fun _ _ _ _ => rfl
    | cons c cs ih =>
      intro s hnodup hrig hvoice
      obtain ⟨hc, hnodup⟩ := List.nodup_cons.1 hnodup
      have does := tickChannel_does locks s c
      rw [List.foldl_cons, List.foldl_cons, ih _ hnodup (does.rig.trans hrig) fun d hd => ?_,
        tickChannel_writes, output_congr hrig (hvoice c List.mem_cons_self)]
      have hne : c ≠ d := fun same => hc (same ▸ hd)
      rw [does.other d hne]
      exact hvoice d (List.mem_cons_of_mem c hd)
  exact congrArg Sink.endTick (folds Channel.all (e, out) (by decide) rfl fun _ _ => rfl)

theorem voice_tick (e : Engine) (locks : Locks) (out : σ) (c : Channel) :
    (e.tick locks out).1.voice c =
      if locks c then e.voice c else ((e.voice c).sample e.table e.range).2 := by
  rw [(tick_doesAll e locks out).voice c, tickMoves]
  cases locks c <;> rfl

theorem written_tick (e : Engine) (locks : Locks) (out : σ) (c : Channel) :
    ((e.tick locks out).1.voice c).written = e.output locks c := by
  rw [voice_tick, output]
  cases locks c <;> rfl

end Engine

/-! ## A frame of its own -/

/-- An engine whose real-time half keeps the frame that it has written last for itself: a channel that
is skipped is written from this frame, not from what has been published. -/
structure Ticker where
  engine : Engine
  last : Frame

namespace Ticker

open Engine (Move)

/-- The frame starts with what is published. -/
def start (e : Engine) : Ticker := ⟨e, e.lastFrame⟩

def publish (e : Engine) (c : Channel) (volts : Float32) : Engine :=
  e.setVoice c { e.voice c with written := volts }

variable {σ : Type} [Sink σ]

def tickChannel (locks : Locks) (state : Ticker × σ) (c : Channel) : Ticker × σ :=
  let (t, out) := state
  let (volts, e) :=
    if locks c then
      let e := { t.engine with
        counts := { t.engine.counts with skipped := t.engine.counts.skipped + 1 } }
      (t.last.get c, e.post (.channelSkipped c))
    else
      let (volts, v) := (t.engine.voice c).sample t.engine.table t.engine.range
      (volts, t.engine.setVoice c v)
  (⟨publish e c volts, t.last.set c volts⟩, Sink.write out c volts)

def tick (t : Ticker) (locks : Locks) (out : σ) : Ticker × σ :=
  let (t, out) := Channel.all.foldl (tickChannel locks) (t, out)
  let e := { t.engine with counts := { t.engine.counts with ticks := t.engine.counts.ticks + 1 } }
  (⟨e, t.last⟩, Sink.endTick out)

/-- Whatever is not a tick leaves the kept frame alone. -/
def after (t : Ticker) : Move → Ticker
  | .tick locks => (t.tick locks t.last).1
  | move => ⟨t.engine.after move, t.last⟩

def run (t : Ticker) (moves : List Move) : Ticker := moves.foldl after t

theorem get_lastFrame (e : Engine) (c : Channel) : e.lastFrame.get c = (e.voice c).written :=
  PerChannel.get_ofFn _ c

theorem setVoice_voice (e : Engine) (c : Channel) : e.setVoice c (e.voice c) = e := by
  have same : e.voices.set c (e.voice c) = e.voices := by
    refine PerChannel.ext_get fun d => ?_
    by_cases hd : c = d
    · subst hd
      exact PerChannel.get_set_self _ _ _
    · exact PerChannel.get_set_ne _ hd _
  rw [Engine.setVoice, same]

theorem publish_written (e : Engine) (c : Channel) : publish e c (e.voice c).written = e :=
  setVoice_voice e c

theorem publish_setVoice (e : Engine) (c : Channel) (v : Voice) :
    publish (e.setVoice c v) c v.written = e.setVoice c v := by
  have same : v.written = ((e.setVoice c v).voice c).written := by rw [Engine.voice_setVoice_self]
  rw [same]
  exact publish_written _ c

theorem lastFrame_tickChannel (locks : Locks) (e : Engine) (out : σ) (c : Channel) :
    (Engine.tickChannel locks (e, out) c).1.lastFrame = e.lastFrame.set c (e.output locks c) := by
  refine PerChannel.ext_get fun d => ?_
  have does := Engine.tickChannel_does locks (e, out) c
  rw [get_lastFrame]
  by_cases hd : c = d
  · subst hd
    rw [does.self, PerChannel.get_set_self, Engine.output, Engine.tickMoves]
    cases locks c <;> rfl
  · rw [does.other d hd, PerChannel.get_set_ne _ hd, get_lastFrame]

theorem tickChannel_of_free {locks : Locks} {c : Channel} (hfree : locks c = false) (t : Ticker)
    (out : σ) :
    tickChannel locks (t, out) c =
      (⟨(Engine.tickChannel locks (t.engine, out) c).1, t.last.set c (t.engine.output locks c)⟩,
        (Engine.tickChannel locks (t.engine, out) c).2) := by
  unfold tickChannel Engine.tickChannel Engine.output
  simp only [hfree, Bool.false_eq_true, if_false]
  exact congrArg (fun e' => (Ticker.mk e' _, _)) (publish_setVoice t.engine c _)

theorem tickChannel_start (locks : Locks) (e : Engine) (out : σ) (c : Channel) :
    tickChannel locks (start e, out) c =
      (start (Engine.tickChannel locks (e, out) c).1, (Engine.tickChannel locks (e, out) c).2) := by
  rw [show start (Engine.tickChannel locks (e, out) c).1 =
    ⟨(Engine.tickChannel locks (e, out) c).1, e.lastFrame.set c (e.output locks c)⟩ by
      rw [start, lastFrame_tickChannel]]
  cases hlock : locks c with
  | true =>
    have hkept : e.lastFrame.get c = (e.voice c).written := get_lastFrame e c
    unfold tickChannel Engine.tickChannel Engine.output start
    simp only [hlock, if_true, hkept]
    exact congrArg (fun e' => (Ticker.mk e' _, _)) (publish_written _ c)
  | false => exact tickChannel_of_free hlock (start e) out

theorem tick_start (locks : Locks) (e : Engine) (out : σ) :
    (start e).tick locks out = (start (e.tick locks out).1, (e.tick locks out).2) := by
  have folds : ∀ (cs : List Channel) (s : Engine × σ),
      cs.foldl (tickChannel locks) (start s.1, s.2) =
        (start (cs.foldl (Engine.tickChannel locks) s).1,
          (cs.foldl (Engine.tickChannel locks) s).2) := by
    intro cs
    induction cs with
    | nil => exact fun s => rfl
    | cons c cs ih =>
      intro s
      rw [List.foldl_cons, List.foldl_cons, tickChannel_start, ih]
  rw [tick, folds Channel.all (e, out)]
  rfl

theorem tick_free (t : Ticker) (out : σ) :
    t.tick .free out = (start (t.engine.tick .free out).1, (t.engine.tick .free out).2) := by
  -- The channels that are still to come are the only ones where the two frames can differ.
  have folds : ∀ (cs : List Channel) (t : Ticker) (out : σ),
      (∀ c, c ∉ cs → t.last.get c = t.engine.lastFrame.get c) →
        cs.foldl (tickChannel .free) (t, out) =
          (start (cs.foldl (Engine.tickChannel .free) (t.engine, out)).1,
            (cs.foldl (Engine.tickChannel .free) (t.engine, out)).2) := by
    intro cs
    induction cs with
    | nil =>
      intro t out same
      have hlast : t.last = t.engine.lastFrame :=
        PerChannel.ext_get fun c => same c List.not_mem_nil
      rw [List.foldl_nil, List.foldl_nil, start, ← hlast]
    | cons c cs ih =>
      intro t out same
      rw [List.foldl_cons, List.foldl_cons, tickChannel_of_free rfl, ih]
      intro d hd
      rw [lastFrame_tickChannel]
      by_cases hc : c = d
      · subst hc
        rw [PerChannel.get_set_self, PerChannel.get_set_self]
      · rw [PerChannel.get_set_ne _ hc, PerChannel.get_set_ne _ hc]
        exact same d (by simp [Ne.symm hc, hd])
  rw [tick, folds Channel.all t out fun c hc => absurd (Channel.mem_all c) hc]
  rfl

/-- Whatever happens, the kept frame is the published one. -/
theorem run_eq (e : Engine) (moves : List Move) : (start e).run moves = start (e.run moves) := by
  induction moves generalizing e with
  | nil => rfl
  | cons move moves ih =>
    have hafter : (start e).after move = start (e.after move) := by
      have quiet : (∀ locks, move ≠ .tick locks) → (e.after move).lastFrame = e.lastFrame := by
        intro hmove
        refine PerChannel.ext_get fun c => ?_
        rw [get_lastFrame, get_lastFrame, (Engine.after_voice e move).2 c,
          Voice.written_run (e.sample_not_mem_shareOf c hmove)]
      cases move with
      | tick locks => exact congrArg Prod.fst (tick_start locks e e.lastFrame)
      | _ => exact congrArg (Ticker.mk _) (quiet (by simp)).symm
    rw [run, List.foldl_cons, hafter]
    exact ih (e.after move)

/-- In a range of finite width, after any run, with any locks held by the host, a tick writes each
channel once, in panel order, and then ends. On a channel whose lock is free it writes the voltage
after exactly one step of the ramp, quantized and brought into the range; on any other one it writes
what it wrote last, and leaves the channel alone. Then the kept frame, the published voltages and a
frame that is written to are the same, and all their voltages are in the range. -/
theorem tick_output (rate : Rate) (range : Range) (capacity : Nat) (f : Transcendental)
    (hspan : (range.max - range.min).isFinite = true) (moves : List Move) (locks : Locks) (out : σ) :
    let t := (start (Engine.fresh rate range capacity f)).run moves
    let t' := (t.tick locks out).1
    let volts := t.engine.output locks
    t.engine = (Engine.fresh rate range capacity f).run moves ∧
      (t.tick locks out).2 =
        Sink.endTick (Channel.all.foldl (fun out c => Sink.write out c (volts c)) out) ∧
      (∀ c, locks c = false →
        let current := (t'.engine.voice c).ramp.current
        (t'.engine.voice c).ramp = ((t.engine.voice c).ramp.step t.engine.table).2 ∧
          (t'.engine.voice c).quantizer = (t.engine.voice c).quantizer ∧
          volts c = range.clamp ((t.engine.voice c).quantizer.quantize current) ∧
          (t.engine.voice c).quantizer.Gives range current (volts c)) ∧
      (∀ c, locks c = true → volts c = t.last.get c ∧ t'.engine.voice c = t.engine.voice c) ∧
      (∀ frame : Frame, ∀ c, (t.tick locks frame).2.get c = volts c) ∧
      ∀ c, t'.last.get c = volts c ∧ (t'.engine.voice c).written = volts c ∧ range.Holds (volts c) := by
  intro t t' volts
  obtain ⟨e, he⟩ : ∃ e, (Engine.fresh rate range capacity f).run moves = e := ⟨_, rfl⟩
  have reachable : Engine.Reachable e := ⟨rate, range, capacity, f, moves, he.symm⟩
  have hrange : e.range = range := by
    rw [← he]
    exact congrArg Rig.range (Engine.voice_run _ Channel.first moves).1
  have ht : t = start e := by
    rw [← he]
    exact run_eq _ moves
  have htick : ∀ {τ : Type} [Sink τ] (out : τ),
      t.tick locks out = (start (e.tick locks out).1, (e.tick locks out).2) := by
    intro τ _ out
    rw [ht]
    exact tick_start locks e out
  have hengine : t.engine = e := by rw [ht]; rfl
  have ht' : t' = start (e.tick locks out).1 := congrArg Prod.fst (htick out)
  have hvolts : volts = e.output locks := by rw [← hengine]
  have hengine' : t'.engine = (e.tick locks out).1 := by rw [ht']; rfl
  have hwritten : ∀ c, (t'.engine.voice c).written = volts c := by
    intro c
    rw [hengine', hvolts]
    exact e.written_tick locks out c
  have hlast : t'.last = t'.engine.lastFrame := by rw [ht']; rfl
  refine ⟨hengine.trans he.symm, ?_, fun c hfree => ?_, fun c hheld => ?_, fun frame c => ?_,
    fun c => ⟨?_, hwritten c, ?_⟩⟩
  · rw [htick, hvolts]
    exact e.tick_writes locks out
  · have hvoice : t'.engine.voice c = ((e.voice c).sample e.table e.range).2 := by
      rw [hengine', Engine.voice_tick, hfree]
      rfl
    have hramp : (t'.engine.voice c).ramp = ((e.voice c).ramp.step e.table).2 := by
      rw [hvoice]
      rfl
    have hclamp : volts c = range.clamp ((e.voice c).quantizer.quantize
        (t'.engine.voice c).ramp.current) := by
      rw [hvolts, Engine.output, hfree, hramp, ← hrange]
      rfl
    -- The ramp stays in the range, so that there is nothing to clamp without a scale.
    have kept : (e.voice c).Kept e.rig := reachable.kept c
    have within : ((e.voice c).ramp.step e.table).2.Within range := by
      have hfinite : (e.rig.range.max - e.rig.range.min).isFinite = true := by
        rw [show e.rig.range = range from hrange]
        exact hspan
      rw [← hrange]
      exact (kept.within hfinite).step hfinite kept.rising
    rw [hengine]
    refine ⟨hramp, by rw [hvoice]; rfl, hclamp, ?_⟩
    rw [hclamp]
    refine Quantizer.gives_clamp ?_ _
    rw [hramp]
    exact within.current
  · have hskipped : volts c = (e.voice c).written := by
      rw [hvolts, Engine.output, hheld]
      rfl
    refine ⟨?_, ?_⟩
    · rw [hskipped, ht]
      exact (get_lastFrame e c).symm
    · rw [hengine', hengine, Engine.voice_tick, hheld]
      rfl
  · rw [htick, hvolts]
    exact (e.get_tick locks frame c).trans (e.written_tick locks frame c)
  · rw [hlast, get_lastFrame]
    exact hwritten c
  · have holds : (e.tick locks e.lastFrame).1.range.Holds
        ((e.tick locks e.lastFrame).1.voice c).written := (reachable.after (.tick locks)).holds_written c
    rw [Engine.written_tick, show (e.tick locks e.lastFrame).1.range = e.range from
      congrArg Rig.range (Engine.tick_doesAll e locks e.lastFrame).rig, hrange] at holds
    rw [hvolts]
    exact holds

/-- A move to two volts, of which nothing is written while the lock is held. -/
theorem tick_output_skipped :
    let moves : List Move := [.perform .free (.setVolts .first 1), .tick .free,
      .perform .free (.setVolts .first 2)]
    let t := (start (Engine.fresh .standard .standard 1)).run moves
    (Range.standard.max - Range.standard.min).isFinite = true ∧ t.last.get .first = 1 ∧
      (t.tick (· = .first) Frame.zero).2.get .first = t.last.get .first ∧
      (t.tick (· = .first) Frame.zero).1.engine.voice .first = t.engine.voice .first := by
  intro moves t
  have hspan : (Range.standard.max - Range.standard.min).isFinite = true := by decide +kernel
  obtain ⟨-, -, -, skips, frames, -⟩ :=
    tick_output .standard .standard 1 .standard hspan moves (· = .first) Frame.zero
  obtain ⟨hvolts, hvoice⟩ := skips .first rfl
  exact ⟨hspan, by decide +kernel, (frames Frame.zero .first).trans hvolts, hvoice⟩

end Ticker

end ControlVoltage
