import ControlVoltage.Proofs.Player.Play

/-!
# What a walk does

A walk is written down as a list of deeds, from which two things are read off: what happens to the
ramp, and what the walk looks like on cue.

* `Deed.obey` : what a deed does to a ramp.
* `Deed.segment?`, `Deed.cue?` : the segment handed over in a deed, and the cue that it answers.
* `Player.deeds` : the deeds of `Player.run`; `run_ramp` and `play_deeds` say that they are.
-/

namespace ControlVoltage

/-- One thing done in a walk. -/
inductive Deed where
  /-- The segment in flight is cancelled. -/
  | hold
  /-- The held block around is left. -/
  | release
  /-- A change of place. -/
  | move
  /-- A segment of the program is handed over. -/
  | ramp (segment : Segment)
  /-- After too many moves the ramp is given a tick where it is heading. -/
  | pause
deriving DecidableEq

namespace Deed

def obey (ramp : Ramp) : Deed → Ramp
  | .hold => ramp.hold
  | .ramp segment => ramp.toward segment
  | .pause => ramp.toward ⟨ramp.target, 1, .linear⟩
  | _ => ramp

/-- The segment of the program that is handed over. The tick of a pause is not one. -/
def segment? : Deed → Option Segment
  | .ramp segment => some segment
  | _ => none

/-- The cue that a deed answers. -/
def cue? : Deed → Option Cue
  | .move => some .go
  | .ramp _ => some .go
  | .release => some .release
  | _ => none

end Deed

namespace Player

variable (rate : Rate) (range : Range)

/-- The deeds of a walk of up to `budget` moves. -/
def deeds : (budget : Nat) → Player → List Deed
  | 0, _ => [.pause]
  | budget + 1, p =>
    match p.step rate range with
    | .ramp segment p =>
      if segment.ticks = 0 then .ramp segment :: deeds budget p else [.ramp segment]
    | .moved p => .move :: deeds budget p
    | _ => []

variable {rate range}

theorem run_ramp (budget : Nat) (p : Player) (ramp : Ramp) :
    (run rate range budget p ramp).2.2 = (deeds rate range budget p).foldl Deed.obey ramp := by
  induction budget generalizing p ramp with
  | zero => rfl
  | succ budget ih =>
    rw [run, deeds]
    cases hstep : p.step rate range with
    | ramp segment q =>
      by_cases instant : segment.ticks = 0
      · simp only [instant, if_true, List.foldl_cons]
        exact ih q (ramp.toward segment)
      · simp only [instant, if_false]
        rfl
    | moved q => exact ih q ramp
    | parked => rfl
    | ended => rfl
    | corrupt fault => rfl

/-! ## Walks on cue -/

def Turn.map (f : Player → Player) : Turn → Turn
  | .ramp segment next => .ramp segment (f next)
  | .moved next => .moved (f next)
  | .parked => .parked
  | .ended => .ended
  | .corrupt fault => .corrupt fault

def await (p : Player) (a : Option UInt32) : Player := { p with awaiting := a }

theorem push_await (p : Player) (a : Option UInt32) (id passes : Nat) :
    (p.await a).push id passes = (p.push id passes).map (·.await a) := by
  by_cases deep : Program.maxDepth ≤ p.stack.length <;> simp [push, await, deep, Turn.map]

theorem finish_await (p : Player) (a : Option UInt32) (kind : BlockKind) (mark : Mark)
    (rest : List Mark) :
    (p.await a).finish kind mark rest = (p.finish kind mark rest).map (·.await a) := by
  cases kind with
  | times count => by_cases more : 1 < mark.passes <;> simp [finish, await, more, Turn.map]
  | held => by_cases held : p.holding = true <;> simp [finish, await, held, Turn.map]
  | _ => rfl

theorem enter_await (p : Player) (a : Option UInt32) (id : Nat) :
    (p.await a).enter id = (p.enter id).map (·.await a) := by
  have hprogram : (p.await a).program = p.program := rfl
  unfold enter
  rw [hprogram]
  cases p.program.blocks[id]? with
  | none => rfl
  | some block =>
    simp only
    cases block.kind with
    | held => exact push_await { p with holding := true } a id 0
    | locked => exact push_await { p with locked := true } a id 0
    | when condition =>
      have hcells : (p.await a).cells = p.cells := rfl
      simp only [hcells]
      by_cases below : (condition.eval p.cells).1 ≤ 0
      · rw [if_pos below, if_pos below]
        rfl
      · rw [if_neg below, if_neg below]
        exact push_await { p with cells := (condition.eval p.cells).2 } a id 0
    | _ => exact push_await p a id _

theorem step_await (p : Player) (a : Option UInt32) :
    (p.await a).step rate range = (p.step rate range).map (·.await a) := by
  have hprogram : (p.await a).program = p.program := rfl
  have hstack : (p.await a).stack = p.stack := rfl
  unfold step
  rw [hprogram, hstack]
  cases p.stack with
  | nil => rfl
  | cons mark rest =>
    simp only
    cases p.program.blocks[mark.block]? with
    | none => rfl
    | some block =>
      simp only
      cases block.ops[mark.next]? with
      | none => exact finish_await p a block.kind mark rest
      | some op =>
        cases op with
        | ramp step => rfl
        | enter id =>
          exact enter_await { p with stack := { mark with next := mark.next + 1 } :: rest } a id

theorem hear_await (p : Player) (a : Option UInt32) : (p.await a).hear = p.hear.await a := by
  have hlocked : (p.await a).locked = p.locked := rfl
  unfold hear
  rw [hlocked]
  cases p.locked with
  | true => rfl
  | false =>
    have hheld : (p.await a).isHeldMark = p.isHeldMark := rfl
    show (p.await a).release = p.release.await a
    unfold release
    rw [hheld]
    by_cases holding : p.holding = true <;> simp [await, holding]

theorem play_await (cues : List Cue) (p : Player) (a : Option UInt32) (out : List Segment) :
    play rate range cues (p.await a) out = play rate range cues p out := by
  induction cues generalizing p out with
  | nil => rfl
  | cons cue cues ih =>
    cases cue with
    | release => rw [play, play, hear_await, ih]
    | go =>
      rw [play, play, step_await]
      cases p.step rate range <;> exact ih _ _

/-- A walk does what it does on the cues of its deeds. -/
theorem play_deeds (budget : Nat) (p : Player) (ramp : Ramp) (cues : List Cue)
    (out : List Segment) :
    play rate range ((deeds rate range budget p).filterMap Deed.cue? ++ cues) p out =
      play rate range cues (run rate range budget p ramp).2.1
        (out ++ (deeds rate range budget p).filterMap Deed.segment?) := by
  induction budget generalizing p ramp out with
  | zero =>
    have waits : (run rate range 0 p ramp).2.1 = p.await (some (ramp.generation + 1)) := rfl
    rw [waits, play_await, deeds]
    show play rate range cues p out = play rate range cues p (out ++ [])
    rw [List.append_nil]
  | succ budget ih =>
    rw [run, deeds]
    cases hstep : p.step rate range with
    | ramp segment q =>
      by_cases instant : segment.ticks = 0
      · simp only [instant, if_true, List.filterMap_cons, Deed.cue?, Deed.segment?,
          List.cons_append, play, hstep]
        rw [ih q (ramp.toward segment) (out ++ [segment]), List.append_assoc]
        rfl
      · have waits : { q with awaiting := some (ramp.toward segment).generation } =
            q.await (some (ramp.toward segment).generation) := rfl
        simp only [instant, if_false, waits, play_await]
        simp [Deed.cue?, Deed.segment?, play, hstep]
    | moved q =>
      simp only [List.filterMap_cons, Deed.cue?, Deed.segment?, List.cons_append, play, hstep]
      exact ih q ramp out
    | parked => simp
    | ended => simp
    | corrupt fault => simp

end Player

end ControlVoltage
