import ControlVoltage.Proofs.Engine.Moves
import ControlVoltage.Proofs.Player.Nodes

/-!
# What a channel plays

From an accepted restart on, as long as nothing but samples, resumptions and releases happen to its
walk, a channel hands to its ramp the segments of a reading of the score.

* `play_log` : what is left to play after a log is what the player at its end has left.
* `log_eq_read` : the segments of the log are those of the reading on the cues of the log, and the
  walk only comes to rest where the reading has nothing more to hand over.
-/

namespace ControlVoltage

namespace Voice

/-- Moves that let the walk go on as the score has it. -/
def Move.plays : Move → Bool
  | .sample => true
  | .resume => true
  | .trigger .release => true
  | .setSlew _ _ => true
  | .setQuantizer _ => true
  | _ => false

variable {rig : Rig}

theorem hear_of_triggered {v : Voice} {p q : Player} (hp : v.player = some p)
    (h : v.triggered? .release = some q) : q = p.hear := by
  obtain ⟨p', hp', hwalk, rfl⟩ := of_triggered h
  obtain rfl : p = p' := Option.some.inj (hp.symm.trans hp')
  have unlocked : p.locked = false := by
    cases hlocked : p.locked with
    | false => rfl
    | true => simp [Engine.respond, hlocked] at hwalk
  simp [Player.hear, unlocked, Engine.triggered]

theorem none_after (rig : Rig) {v : Voice} (hv : v.player = none) {move : Move} (hmove : move.plays = true) :
    (v.after rig move).player = none ∧ v.deeds rig move = [] := by
  cases move with
  | trigger action => cases action <;> simp_all [after, deeds, triggered?, Move.plays]
  | resume => simp [after, deeds, ready?, hv]
  | sample => exact ⟨hv, rfl⟩
  | setSlew seconds curve => exact ⟨hv, rfl⟩
  | setQuantizer quantizer => exact ⟨hv, rfl⟩
  | _ => cases hmove

theorem none_run (rig : Rig) {v : Voice} (hv : v.player = none) {moves : List Move}
    (hmoves : ∀ move ∈ moves, move.plays = true) :
    (v.run rig moves).player = none ∧ log rig v moves = [] := by
  induction moves generalizing v with
  | nil => exact ⟨hv, rfl⟩
  | cons move moves ih =>
    obtain ⟨hmove, htail⟩ := List.forall_mem_cons.1 hmoves
    obtain ⟨hafter, hdeeds⟩ := none_after rig hv hmove
    obtain ⟨hrun, hlog⟩ := ih hafter htail
    refine ⟨hrun, ?_⟩
    rw [log, hdeeds, hlog]
    rfl

end Voice

namespace Player

variable {rate : Rate} {range : Range}

theorem play_out (cues : List Cue) (p : Player) (out : List Segment) :
    play rate range cues p out = out ++ play rate range cues p [] := by
  induction cues generalizing p out with
  | nil => exact (List.append_nil out).symm
  | cons cue cues ih =>
    cases cue with
    | release => exact ih _ _
    | go =>
      rw [play, play]
      cases p.step rate range with
      | ramp segment q =>
        simp only
        rw [ih q (out ++ [segment]), ih q ([] ++ [segment]), List.append_assoc]
        rfl
      | _ => exact ih _ _

theorem play_walk (rig : Rig) (p : Player) (ramp : Ramp) (cues : List Cue) :
    play rig.rate rig.range ((p.walkDeeds rig).filterMap Deed.cue? ++ cues) p [] =
      (p.walkDeeds rig).filterMap Deed.segment? ++
        play rig.rate rig.range cues (p.advance rig.rate rig.range ramp).2.1 [] := by
  rw [← play_await _ p none, walkDeeds, play_deeds moveBudget (p.await none) ramp, play_out]
  rfl

/-- At rest, a player has nothing to hand over until it is triggered. -/
def Settled (rig : Rig) (p : Player) : Prop :=
  p.awaiting = none → ∀ n, play rig.rate rig.range (List.replicate n .go) p [] = []

theorem settled_of_step {rig : Rig} {p : Player}
    (h : ∀ (out : List Segment) (cues : List Cue), play rig.rate rig.range (.go :: cues) p out =
      play rig.rate rig.range cues p out) : p.Settled rig := by
  intro _ n
  induction n with
  | zero => rfl
  | succ n ih => exact (h [] _).trans ih

theorem run_settled (rig : Rig) (budget : Nat) (p : Player) (ramp : Ramp) :
    (run rig.rate rig.range budget p ramp).2.1.Settled rig := by
  induction budget generalizing p ramp with
  | zero => exact fun h => by cases h
  | succ budget ih =>
    rw [run]
    cases hstep : p.step rig.rate rig.range with
    | ramp segment q =>
      by_cases instant : segment.ticks = 0
      · simp only [instant, if_true]
        exact ih q (ramp.toward segment)
      · simp only [instant, if_false]
        exact fun h => by cases h
    | moved q => exact ih q ramp
    | parked => exact settled_of_step fun out cues => by simp only [play, hstep]
    | ended => exact settled_of_step fun out cues => by simp only [play, hstep]
    | corrupt fault => exact settled_of_step fun out cues => by simp only [play, hstep]

theorem advance_settled (rig : Rig) (p : Player) (ramp : Ramp) :
    (p.advance rig.rate rig.range ramp).2.1.Settled rig := run_settled rig moveBudget _ ramp

end Player

namespace Voice

open Player (play play_walk play_await play_compiled)

variable {rig : Rig}

/-- A log has the segments that `p` plays on the cues of the log. If the player at the end of it, in
the voice `v`, does not wait for a segment, there is nothing more to come. -/
structure Accords (rig : Rig) (p : Player) (log : List Deed) (v : Voice) : Prop where
  segments : log.filterMap Deed.segment? =
    play rig.rate rig.range (log.filterMap Deed.cue?) p []
  complete : ∀ p', v.player = some p' → p'.awaiting = none → ∀ n,
    play rig.rate rig.range (log.filterMap Deed.cue? ++ List.replicate n .go) p [] =
      play rig.rate rig.range (log.filterMap Deed.cue?) p []

/-- A walk from `q`, which the deeds `lead` lead to, and what follows it. -/
theorem Accords.walk {p q : Player} (ramp : Ramp) {lead tail : List Deed} {v : Voice}
    (h : Accords rig (q.advance rig.rate rig.range ramp).2.1 tail v)
    (hsegments : lead.filterMap Deed.segment? = [])
    (hcues : ∀ cues, play rig.rate rig.range (lead.filterMap Deed.cue? ++ cues) p [] =
      play rig.rate rig.range cues q []) :
    Accords rig p (lead ++ q.walkDeeds rig ++ tail) v := by
  have whole : ∀ cues,
      play rig.rate rig.range ((lead ++ q.walkDeeds rig ++ tail).filterMap Deed.cue? ++ cues) p [] =
        (q.walkDeeds rig).filterMap Deed.segment? ++
          play rig.rate rig.range (tail.filterMap Deed.cue? ++ cues)
            (q.advance rig.rate rig.range ramp).2.1 [] := by
    intro cues
    rw [List.filterMap_append, List.filterMap_append, List.append_assoc, List.append_assoc, hcues,
      play_walk rig q ramp]
  have cut := whole []
  rw [List.append_nil, List.append_nil] at cut
  constructor
  · rw [cut, ← h.segments, List.filterMap_append, List.filterMap_append, hsegments,
      List.nil_append]
  · intro p' hp' hwaiting n
    rw [whole, cut, h.complete p' hp' hwaiting n]

theorem play_log {v : Voice} {p : Player} (hp : v.player = some p) (settled : p.Settled rig)
    {moves : List Move} (hmoves : ∀ move ∈ moves, move.plays = true) :
    Accords rig p (log rig v moves) (v.run rig moves) := by
  induction moves generalizing v p with
  | nil =>
    refine ⟨rfl, fun p' hp' hwaiting n => ?_⟩
    cases hp.symm.trans hp'
    exact settled hwaiting n
  | cons move moves ih =>
    obtain ⟨hmove, htail⟩ := List.forall_mem_cons.1 hmoves
    -- A move without deeds leaves the player alone; a walk hands its segments over and rests again.
    have quiet : (v.after rig move).player = some p → v.deeds rig move = [] →
        Accords rig p (log rig v (move :: moves)) (v.run rig (move :: moves)) := by
      intro hp' hdeeds
      rw [log, hdeeds, List.nil_append]
      exact ih hp' settled htail
    cases move with
    | sample => exact quiet hp rfl
    | setSlew seconds curve => exact quiet hp rfl
    | setQuantizer quantizer => exact quiet hp rfl
    | resume =>
      cases hready : v.ready? with
      | none => exact quiet (by simpa [after, hready] using hp) (by simp [deeds, hready])
      | some p' =>
        obtain rfl : p = p' := Option.some.inj (hp.symm.trans (player_of_ready hready).1)
        have hdeeds : v.deeds rig .resume = [] ++ p.walkDeeds rig := by simp [deeds, hready]
        rw [log, hdeeds]
        refine Accords.walk v.ramp ?_ rfl fun _ => rfl
        rcases after_resume rig hready with hafter | hafter
        · rw [Voice.run, List.foldl_cons, hafter]
          exact ih (walk_player rig v p v.ramp) (Player.advance_settled rig p v.ramp) htail
        · have gone : (v.after rig .resume).player = none := by rw [hafter]
          obtain ⟨hrun, hlog⟩ := none_run rig gone htail
          rw [hlog]
          exact ⟨rfl, fun p' hp' => by cases hrun.symm.trans hp'⟩
    | trigger action =>
      cases action with
      | restart => cases hmove
      | unlock => cases hmove
      | release =>
        cases hq : v.triggered? .release with
        | none => exact quiet (by simpa [after, hq] using hp) (by simp [deeds, hq])
        | some q =>
          obtain rfl := hear_of_triggered hp hq
          have hdeeds : v.deeds rig (.trigger .release) = [.hold, .release] ++ p.hear.walkDeeds rig := by
            simp [deeds, deeds.lead, hq]
          have hafter : v.after rig (.trigger .release) = (v.walk rig p.hear v.ramp.hold).2 := by
            simp [after, hq]
          rw [log, hdeeds, hafter, Voice.run, List.foldl_cons, hafter]
          refine Accords.walk v.ramp.hold ?_ rfl fun _ => rfl
          exact ih (walk_player rig v p.hear v.ramp.hold) (Player.advance_settled rig _ _) htail
    | _ => cases hmove

end Voice

namespace Engine

/-- Moves that let the walk of a channel go on: whatever is not for the channel, and releases and
settings of its slew and its quantizer. -/
def Move.letsPlay (c : Channel) : Move → Bool
  | .perform _ (.install d _) => d ≠ c
  | .perform _ (.clear d) => d ≠ c
  | .perform _ (.trigger d action) => d ≠ c || action = .release
  | .perform _ (.action d number) => d ≠ c || number = 0
  | .perform _ (.setVolts d _) => d ≠ c
  | .perform _ (.setCell d _ _) => d ≠ c
  | _ => true

theorem quantizerMoves_plays {e : Engine} {locks : Locks} {c : Channel} {quantizer : Quantizer}
    {m : Voice.Move} (hm : m ∈ e.quantizerMoves locks c quantizer) : m.plays = true := by
  simp only [quantizerMoves] at hm
  split at hm <;> simp_all [Voice.Move.plays]

theorem shareOf_plays (e : Engine) {c : Channel} {move : Move} (h : move.letsPlay c = true) :
    ∀ m ∈ e.shareOf c move, m.plays = true := by
  intro m hm
  cases move with
  | tick locks =>
    simp only [shareOf, tickMoves] at hm
    split at hm <;> simp_all [Voice.Move.plays]
  | perform locks command =>
    simp only [shareOf] at hm
    cases command with
    | service =>
      simp only [share] at hm
      split at hm <;> simp_all [Voice.Move.plays]
    | trigger d action =>
      simp only [share, channel?, Option.some.injEq] at hm
      split at hm
      · have released : action = .release := by simp_all [Move.letsPlay]
        simp only [moves, triggerMoves, released] at hm
        split at hm <;> simp_all [Voice.Move.plays]
      · cases hm
    | action d number =>
      simp only [share, channel?, Option.some.injEq] at hm
      split at hm
      · have released : number = 0 := by simp_all [Move.letsPlay]
        simp only [moves, released, Action.ofNumber, triggerMoves] at hm
        split at hm <;> simp_all [Voice.Move.plays]
      · cases hm
    | setSlew d seconds curve =>
      simp only [share, channel?, moves] at hm
      simp_all [Voice.Move.plays]
    | setQuantizer d quantizer =>
      simp only [share, channel?, moves, Option.some.injEq] at hm
      split at hm
      · exact quantizerMoves_plays hm
      · cases hm
    | setScale d degrees modulo scaling =>
      simp only [share, channel?, moves, Option.some.injEq] at hm
      split at hm
      · cases hquantizer : Quantizer.ofDegrees degrees modulo scaling with
        | error fault => rw [hquantizer] at hm; cases hm
        | ok quantizer => rw [hquantizer] at hm; exact quantizerMoves_plays hm
      · cases hm
    | _ => simp_all [share, channel?, Move.letsPlay]
  | _ => cases hm

theorem sharesOf_plays (e : Engine) {c : Channel} {moves : List Move}
    (h : ∀ move ∈ moves, move.letsPlay c = true) :
    ∀ m ∈ sharesOf c e moves, m.plays = true := by
  induction moves generalizing e with
  | nil => exact fun m hm => by cases hm
  | cons move moves ih =>
    obtain ⟨hmove, htail⟩ := List.forall_mem_cons.1 h
    intro m hm
    rcases List.mem_append.1 hm with hm | hm
    · exact shareOf_plays e hmove m hm
    · exact ih (e.after move) htail m hm

/-- After an accepted restart, a channel hands over what its score says: the segments of the log are
those of the reading on the cues of the log. If its player does not wait for a segment at the end,
more leave would make the reading hand over nothing more either. -/
theorem log_eq_read {score : List Score.Node} {program : Program}
    (hcompile : Program.compile score = .ok program) {e : Engine} {c : Channel} {p : Player}
    (hp : (e.voice c).player = some p) (hprogram : p.program = program)
    (hnames : p.cells.names = program.cells.names) (unlocked : p.locked = false) {locks : Locks}
    (granted : e.grants locks c = true) {moves : List Move}
    (hplays : ∀ move ∈ moves, move.letsPlay c = true) :
    let run := .perform locks (.trigger c .restart) :: moves
    let cues := (e.log c run).filterMap Deed.cue?
    (e.log c run).filterMap Deed.segment? = Score.read e.rate e.range score p.cells cues ∧
      ∀ p', ((e.run run).voice c).player = some p' → p'.awaiting = none → ∀ n,
        Score.read e.rate e.range score p.cells (cues ++ List.replicate n .go) =
          Score.read e.rate e.range score p.cells cues := by
  have hq : (e.voice c).triggered? .restart = some p.restart := by
    simp [Voice.triggered?, hp, respond, unlocked, triggered, Option.filter]
  have hshare : e.shareOf c (.perform locks (.trigger c .restart)) = [.trigger .restart] := by
    simp [shareOf, share, channel?, Engine.moves, triggerMoves, granted]
  have hdeeds : (e.voice c).deeds e.rig (.trigger .restart) =
      [.hold] ++ p.restart.walkDeeds e.rig := by
    simp [Voice.deeds, Voice.deeds.lead, hq]
  have hafter : (e.voice c).after e.rig (.trigger .restart) =
      ((e.voice c).walk e.rig p.restart (e.voice c).ramp.hold).2 := by
    simp [Voice.after, hq]
  have top : p.restart = Player.inside program ⟨false, false⟩ p.cells [⟨0, 0, 0⟩] := by
    rw [← hprogram]
    rfl
  have accords : Voice.Accords e.rig p.restart
      (e.log c (.perform locks (.trigger c .restart) :: moves))
      ((e.run (.perform locks (.trigger c .restart) :: moves)).voice c) := by
    rw [log, (voice_run e c _).2, sharesOf, hshare, List.singleton_append, Voice.log, Voice.run,
      List.foldl_cons, hdeeds, hafter]
    refine Voice.Accords.walk (e.voice c).ramp.hold ?_ rfl fun _ => rfl
    exact Voice.play_log (Voice.walk_player e.rig (e.voice c) p.restart (e.voice c).ramp.hold)
      (Player.advance_settled _ _ _) (sharesOf_plays _ hplays)
  have reads : ∀ cues, Player.play e.rig.rate e.rig.range cues p.restart [] =
      Score.read e.rate e.range score p.cells cues := by
    intro cues
    rw [top]
    exact Player.play_compiled hcompile hnames cues
  refine ⟨accords.segments.trans (reads _), fun p' hp' hwaiting n => ?_⟩
  rw [← reads, ← reads]
  exact accords.complete p' hp' hwaiting n

/-- A held ramp that is left before its end, with an instantaneous one after it. -/
theorem log_eq_read_held :
    let score : List Score.Node :=
      [.held [.ramp (.lit 1) (.lit 2) "linear"], .ramp (.lit 3) (.lit 0) "now"]
    let program : Program :=
      ⟨#[⟨.plain, #[.enter 1, .ramp ⟨.lit 3, .lit 0, .now⟩]⟩,
        ⟨.held, #[.ramp ⟨.lit 1, .lit 2, .linear⟩]⟩], ⟨[]⟩⟩
    let e := (fresh .standard .standard 1).install .first program
    let run : List Move := [.perform .free (.trigger .first .restart), .tick .free,
      .perform .free (.trigger .first .release)]
    Program.compile score = .ok program ∧
      (e.log .first run).filterMap Deed.segment? =
        Score.read .standard .standard score ⟨[]⟩ ((e.log .first run).filterMap Deed.cue?) := by
  intro score program e run
  have hcompile : Program.compile score = .ok program := rfl
  have hp : (e.voice .first).player = some (.load program) := by
    rw [show e = (fresh .standard .standard 1).install .first program from rfl, install,
      voice_setVoice_self]
  exact ⟨hcompile, (log_eq_read hcompile hp rfl rfl rfl rfl (by decide)).1⟩

end Engine

end ControlVoltage
