import ControlVoltage.Proofs.Engine.InRange
import ControlVoltage.Proofs.Voice.Stretch

/-!
# Schedules

What becomes of a channel that is left to play does not depend on when it is serviced, nor on the
ticks at which its lock is held: these stretch what is written, and change nothing else.

* `Engine.Move.paces` : a tick, or a service while the lock is free.
* `Engine.samples` : what ticks write on a channel.
* `Engine.rounds`, `Engine.canonical` : free ticks with a service after each, and what they write.
* `Engine.stretches_canonical` : any schedule against the rounds.
-/

namespace ControlVoltage

namespace Engine

/-- A tick, with the lock of the channel held or not, or a service while it is free. -/
def Move.paces (c : Channel) : Move → Bool
  | .tick _ => true
  | .perform locks .service => !locks c
  | _ => false

/-- What a move writes on a channel. -/
def sampleOf (c : Channel) (e : Engine) : Move → List Float32
  | .tick locks => [(e.tick locks e.lastFrame).2.get c]
  | _ => []

def samples (c : Channel) : Engine → List Move → List Float32
  | _, [] => []
  | e, move :: moves => sampleOf c e move ++ samples c (e.after move) moves

/-- Whether a channel is serviced before its first tick with a free lock. -/
def servicedFirst (c : Channel) : List Move → Bool
  | .tick locks :: moves => locks c && servicedFirst c moves
  | .perform _ .service :: _ => true
  | _ => false

/-- The advances of a channel's walk in a run. -/
def advances (e : Engine) (c : Channel) (moves : List Move) : List Voice.Advance :=
  Voice.advances e.rig (e.voice c) (sharesOf c e moves)

def rounds (n : Nat) : List Move :=
  (List.replicate n [Move.tick .free, Move.perform .free .service]).flatten

/-- The sample that the tick after `n` rounds writes. -/
def canonical (c : Channel) (e : Engine) (n : Nat) : Float32 :=
  ((e.run (rounds n)).tick .free (e.run (rounds n)).lastFrame).2.get c

/-! ## What is written -/

theorem get_tickChannel (locks : Locks) (s : Engine × Frame) (c : Channel) :
    (tickChannel locks s c).2.get c = ((tickChannel locks s c).1.voice c).written ∧
      ∀ d, c ≠ d → (tickChannel locks s c).2.get d = s.2.get d := by
  unfold tickChannel
  cases locks c with
  | true =>
    exact ⟨PerChannel.get_set_self s.2 c _, fun d hd => PerChannel.get_set_ne s.2 hd _⟩
  | false =>
    refine ⟨?_, fun d hd => PerChannel.get_set_ne s.2 hd _⟩
    simp only [Bool.false_eq_true, if_false, voice_setVoice_self]
    exact PerChannel.get_set_self s.2 c _

theorem get_tick (e : Engine) (locks : Locks) (frame : Frame) (c : Channel) :
    (e.tick locks frame).2.get c = ((e.tick locks frame).1.voice c).written := by
  have folds : ∀ (cs : List Channel) (s : Engine × Frame),
      (∀ d, d ∉ cs → s.2.get d = (s.1.voice d).written) → ∀ d,
        (cs.foldl (tickChannel locks) s).2.get d =
          ((cs.foldl (tickChannel locks) s).1.voice d).written := by
    intro cs
    induction cs with
    | nil => exact fun s h d => h d List.not_mem_nil
    | cons c cs ih =>
      intro s h
      obtain ⟨hself, hother⟩ := get_tickChannel locks s c
      refine ih _ fun d hd => ?_
      by_cases hc : c = d
      · subst hc
        exact hself
      · rw [hother d hc, (tickChannel_does locks s c).other d hc]
        exact h d (by simp [Ne.symm hc, hd])
  exact folds Channel.all (e, frame) (fun d hd => absurd (Channel.mem_all d) hd) c

/-- What a move is to a channel that is left to play. -/
def Move.beat? (c : Channel) : Move → Option Voice.Beat
  | .tick locks => some (if locks c then .skip else .sample)
  | .perform _ .service => some .resume
  | _ => none

def beats (c : Channel) (moves : List Move) : List Voice.Beat := moves.filterMap (Move.beat? c)

/-- A move that paces a channel is a beat, and does and writes what the beat does. -/
theorem of_paces (e : Engine) {c : Channel} {move : Move} (h : move.paces c = true) :
    ∃ beat, move.beat? c = some beat ∧ e.shareOf c move = beat.moves ∧
      sampleOf c e move = beat.heard e.rig (e.voice c) := by
  cases move with
  | tick locks =>
    refine ⟨_, rfl, ?_, ?_⟩
    · simp only [shareOf, tickMoves]
      cases locks c <;> rfl
    · have hvoice := (tick_doesAll e locks e.lastFrame).voice c
      rw [sampleOf, get_tick, hvoice, tickMoves]
      cases locks c <;> rfl
  | perform locks command =>
    cases command with
    | service =>
      have hfree : locks c = false := by simpa [Move.paces] using h
      have hgrants : e.grants locks c = true := by
        unfold grants access
        rw [hfree]
        cases e.context <;> rfl
      exact ⟨.resume, rfl, by simp [shareOf, share, hgrants, Voice.Beat.moves], rfl⟩
    | _ => cases h
  | _ => cases h

theorem play_eq (e : Engine) {c : Channel} {moves : List Move}
    (h : ∀ move ∈ moves, move.paces c = true) :
    sharesOf c e moves = Voice.beatMoves (beats c moves) ∧
      samples c e moves = Voice.heard e.rig (e.voice c) (beats c moves) := by
  induction moves generalizing e with
  | nil => exact ⟨rfl, rfl⟩
  | cons move moves ih =>
    obtain ⟨hmove, htail⟩ := List.forall_mem_cons.1 h
    obtain ⟨beat, hbeat, hshare, hsample⟩ := of_paces e hmove
    obtain ⟨hshares, hsamples⟩ := ih (e.after move) htail
    obtain ⟨hrig, hvoice⟩ := after_voice e move
    have hbeats : beats c (move :: moves) = beat :: beats c moves := by
      simp [beats, hbeat]
    rw [hrig, hvoice, hshare] at hsamples
    rw [hbeats, sharesOf, samples, hshare, hsample, hshares, hsamples]
    exact ⟨rfl, rfl⟩

theorem servicedFirst_eq {c : Channel} {moves : List Move}
    (h : ∀ move ∈ moves, move.paces c = true) :
    servicedFirst c moves = Voice.resumedFirst (beats c moves) := by
  induction moves with
  | nil => rfl
  | cons move moves ih =>
    obtain ⟨hmove, htail⟩ := List.forall_mem_cons.1 h
    cases move with
    | tick locks =>
      have hbeats : beats c (.tick locks :: moves) =
          (if locks c then .skip else .sample) :: beats c moves := rfl
      rw [hbeats, servicedFirst]
      cases locks c with
      | true => exact ih htail
      | false => rfl
    | perform locks command =>
      cases command with
      | service => rfl
      | _ => cases hmove
    | _ => cases hmove

/-! ## Rounds -/

theorem sharesOf_rounds (e : Engine) (c : Channel) (n : Nat) :
    sharesOf c e (rounds n) = Voice.steady n := by
  have free : ∀ e : Engine, e.shareOf c (.tick .free) = [.sample] ∧
      e.shareOf c (.perform .free .service) = [.resume] := by
    intro e
    exact ⟨rfl, by simp [shareOf, share, grants_free]⟩
  induction n generalizing e with
  | zero => rfl
  | succ n ih =>
    have hrounds : rounds (n + 1) = .tick .free :: .perform .free .service :: rounds n := by
      simp [rounds, List.replicate_succ]
    have hsteady : Voice.steady (n + 1) = .sample :: .resume :: Voice.steady n := by
      simp [Voice.steady, List.replicate_succ]
    rw [hrounds, hsteady, sharesOf, sharesOf, ih, (free _).1, (free _).2]
    rfl

theorem canonical_eq (e : Engine) (c : Channel) (n : Nat) :
    canonical c e n = (e.voice c).steadySample e.rig n := by
  obtain ⟨hrig, hvoice⟩ := voice_run e c (rounds n)
  rw [canonical, get_tick, (tick_doesAll _ _ _).voice c, hrig, hvoice, sharesOf_rounds]
  rfl

/-! ## Schedules -/

section fresh

variable (rate : Rate) (range : Range) (capacity : Nat) (f : Transcendental) (c : Channel)
  (moves : List Move)

theorem timely_of_few
    (few : ((fresh rate range capacity f).log c moves).countP Deed.starts < 2 ^ 32) :
    (((fresh rate range capacity f).run moves).voice c).Timely := by
  have start : Voice.Awake 0 ((fresh rate range capacity f).voice c) := by
    rw [voice_fresh]
    exact Voice.awake_rest _
  have awake := start.run (sharesOf_checked _ c moves) (by rw [Nat.zero_add]; exact few)
  rw [(voice_run _ c moves).2]
  exact awake.timely

theorem safe_of_span (hspan : (range.max - range.min).isFinite = true) :
    let e := (fresh rate range capacity f).run moves
    (e.voice c).ramp.Safe e.table := by
  intro e
  have kept : (e.voice c).Kept e.rig := Reachable.kept ⟨rate, range, capacity, f, moves, rfl⟩ c
  have hrig : e.rig = (fresh rate range capacity f).rig := (voice_run _ c moves).1
  have within := kept.within (by rw [hrig]; exact hspan)
  exact ⟨within.ordered, kept.rising, kept.remaining⟩

end fresh

/-- A channel that is left to play, and has started fewer than `2 ^ 32` segments and holds before,
in a range of finite width. However it is paced,
* each sample is the one written before it or the next one of the canonical run, from the first one
  on; only if the segment that is waited for has landed at the start already, and the channel is
  serviced before its first tick with a free lock, the first canonical sample is left out;
* its walk makes the advances that it makes in the canonical run, with the same cells after each;
* no tick has to panic. -/
theorem stretches_canonical (rate : Rate) (range : Range) (capacity : Nat) (f : Transcendental) (c : Channel)
    (moves : List Move) (few : ((fresh rate range capacity f).log c moves).countP Deed.starts < 2 ^ 32)
    (hspan : (range.max - range.min).isFinite = true) {schedule : List Move}
    (paced : ∀ move ∈ schedule, move.paces c = true) :
    let e := (fresh rate range capacity f).run moves
    Stretch (canonical c e)
        (if (e.voice c).ready?.isSome && servicedFirst c schedule then 1 else 0)
        (e.voice c).written (samples c e schedule) ∧
      (∃ n, e.advances c schedule <+: e.advances c (rounds n)) ∧
      ∀ part, part <+: schedule → ((e.run part).voice c).ramp.Safe (e.run part).table := by
  intro e
  have timely : (e.voice c).Timely := timely_of_few rate range capacity f c moves few
  obtain ⟨hshares, hsamples⟩ := play_eq e paced
  obtain ⟨hstretch, n, hadvances⟩ : Stretch ((e.voice c).steadySample e.rig) _ _ _ ∧ _ :=
    timely.play (beats c schedule)
  refine ⟨?_, ⟨n, ?_⟩, fun part _ => ?_⟩
  · rw [hsamples, servicedFirst_eq paced, show canonical c e = _ from funext (canonical_eq e c)]
    exact hstretch
  · rw [advances, advances, hshares, sharesOf_rounds]
    exact hadvances
  · have hrun : e.run part = (fresh rate range capacity f).run (moves ++ part) :=
      (run_append _ moves part).symm
    rw [hrun]
    exact safe_of_span rate range capacity f c (moves ++ part) hspan

/-- Two ramps of two ticks each: one tick is skipped on the way, and the service is late by one. -/
theorem stretches_canonical_skipped :
    let moves : List Move := [.perform .free (.install .first [.ramp (.lit 1) (.lit 0.001) "linear",
      .ramp (.lit 3) (.lit 0.001) "linear"]), .perform .free (.trigger .first .restart)]
    let schedule : List Move := [.tick .free, .tick (· = .first), .tick .free, .tick .free,
      .perform .free .service, .tick .free]
    let e := (fresh .standard .standard 1).run moves
    ((fresh .standard .standard 1).log .first moves).countP Deed.starts < 2 ^ 32 ∧
      (Range.standard.max - Range.standard.min).isFinite = true ∧
      (∀ move ∈ schedule, move.paces .first = true) ∧
      Stretch (canonical .first e)
        (if (e.voice .first).ready?.isSome && servicedFirst .first schedule then 1 else 0)
        (e.voice .first).written (samples .first e schedule) := by
  intro moves schedule e
  have few : ((fresh .standard .standard 1).log .first moves).countP Deed.starts < 2 ^ 32 := by
    decide +kernel
  have hspan : (Range.standard.max - Range.standard.min).isFinite = true := by decide +kernel
  have paced : ∀ move ∈ schedule, move.paces .first = true := by simp [schedule, Move.paces, Locks.free]
  exact ⟨few, hspan, paced,
    (stretches_canonical .standard .standard 1 .standard .first moves few hspan paced).1⟩

/-- The same ramps, with the first one landed at the start: the schedule services at once, and its
first sample is on the way of the second ramp, where the canonical run writes the target of the first
once more. -/
theorem serviced_first_leaves_out :
    let moves : List Move := [.perform .free (.install .first [.ramp (.lit 1) (.lit 0.001) "linear",
      .ramp (.lit 3) (.lit 0.001) "linear"]), .perform .free (.trigger .first .restart),
      .tick .free, .tick .free]
    let schedule : List Move := [.perform .free .service, .tick .free]
    let e := (fresh .standard .standard 1).run moves
    ((fresh .standard .standard 1).log .first moves).countP Deed.starts < 2 ^ 32 ∧
      (Range.standard.max - Range.standard.min).isFinite = true ∧
      (∀ move ∈ schedule, move.paces .first = true) ∧
      ¬ Stretch (canonical .first e) 0 (e.voice .first).written (samples .first e schedule) := by
  intro moves schedule e
  have hwritten : (e.voice .first).written = 1 := by decide +kernel
  have hcanonical : canonical .first e 0 = 1 := by decide +kernel
  have hsamples : samples .first e schedule = [2] := by decide +kernel
  have hne : (2 : Float32) ≠ 1 := by decide +kernel
  refine ⟨by decide +kernel, by decide +kernel, by simp [schedule, Move.paces, Locks.free], fun h => ?_⟩
  rw [hwritten, hsamples] at h
  rcases h.head with hlast | hnext
  · exact hne hlast
  · exact hne (hnext.trans hcanonical)

end Engine

end ControlVoltage
