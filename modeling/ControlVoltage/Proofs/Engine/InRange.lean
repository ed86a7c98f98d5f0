import ControlVoltage.Proofs.Engine.Sound
import ControlVoltage.Proofs.Signal.Ramp
import ControlVoltage.Proofs.Signal.Rate

/-!
# Voltages in range

Players hand over no target outside the output range, and a ramp on its way stays between its start
and its target. So as long as the width of the range is a finite number, every voltage of a
reachable engine is a number of the range. Otherwise two moves and a tick lead to a NaN.

* `Voice.Kept` : the invariant of a voice.
* `Engine.in_range_iff` : the ranges that no run leaves.
-/

namespace ControlVoltage

/-! ## Targets -/

namespace Player

variable {rate : Rate} {range : Range}

theorem push_ne_ramp (p : Player) (id passes : Nat) (segment : Segment) (q : Player) :
    p.push id passes ≠ .ramp segment q := by
  unfold push
  split_ifs <;> simp

theorem enter_ne_ramp (p : Player) (id : Nat) (segment : Segment) (q : Player) :
    p.enter id ≠ .ramp segment q := by
  unfold enter
  cases p.program.blocks[id]? with
  | none => simp
  | some block =>
    simp only
    cases block.kind with
    | when condition =>
      simp only
      split_ifs
      · simp
      · exact push_ne_ramp _ _ _ _ _
    | _ => exact push_ne_ramp _ _ _ _ _

theorem finish_ne_ramp (p : Player) (kind : BlockKind) (mark : Mark) (rest : List Mark)
    (segment : Segment) (q : Player) : p.finish kind mark rest ≠ .ramp segment q := by
  unfold finish
  cases kind with
  | times count =>
    simp only
    split_ifs <;> simp
  | held =>
    simp only
    split_ifs <;> simp
  | _ => simp

theorem holds_of_step {p q : Player} {segment : Segment}
    (h : p.step rate range = .ramp segment q) : range.Holds segment.target := by
  unfold step at h
  split at h
  · cases h
  · split at h
    · cases h
    · simp only at h
      split at h
      · unfold rampTurn at h
        cases h
        exact range.holds_clamp _
      · exact absurd h (enter_ne_ramp _ _ _ _)
      · exact absurd h (finish_ne_ramp _ _ _ _ _ _)

theorem holds_of_mem_deeds {budget : Nat} {p : Player} {segment : Segment}
    (h : Deed.ramp segment ∈ deeds rate range budget p) : range.Holds segment.target := by
  induction budget generalizing p with
  | zero => simp [deeds] at h
  | succ budget ih =>
    rw [deeds] at h
    cases hstep : p.step rate range with
    | ramp first q =>
      rw [hstep] at h
      simp only at h
      split_ifs at h
      · rcases List.mem_cons.1 h with heq | h
        · cases heq
          exact holds_of_step hstep
        · exact ih h
      · cases List.mem_singleton.1 h
        exact holds_of_step hstep
    | moved q =>
      rw [hstep] at h
      rcases List.mem_cons.1 h with heq | h
      · cases heq
      · exact ih h
    | parked | ended | corrupt _ =>
      rw [hstep] at h
      cases h

end Player

namespace Ramp

variable {range : Range}

theorem Within.obey {ramp : Ramp} (h : ramp.Within range) {deed : Deed}
    (hdeed : ∀ segment, deed = .ramp segment → range.Holds segment.target) :
    (deed.obey ramp).Within range := by
  cases deed with
  | hold => exact h.hold
  | ramp segment => exact h.toward (hdeed segment rfl)
  | pause => exact h.toward h.target
  | release => exact h
  | move => exact h

theorem Within.foldl {ramp : Ramp} (h : ramp.Within range) {deeds : List Deed}
    (hdeeds : ∀ segment, Deed.ramp segment ∈ deeds → range.Holds segment.target) :
    (deeds.foldl Deed.obey ramp).Within range := by
  induction deeds generalizing ramp with
  | nil => exact h
  | cons deed deeds ih =>
    refine ih (h.obey fun segment heq => hdeeds segment ?_) fun segment hmem => hdeeds segment ?_
    · rw [heq]
      exact List.mem_cons_self
    · exact List.mem_cons_of_mem _ hmem

theorem remaining_le_foldl {ramp : Ramp} (h : ramp.remaining ≤ ramp.total) (deeds : List Deed) :
    (deeds.foldl Deed.obey ramp).remaining ≤ (deeds.foldl Deed.obey ramp).total := by
  induction deeds generalizing ramp with
  | nil => exact h
  | cons deed deeds ih =>
    refine ih ?_
    cases deed with
    | hold => exact UInt32.le_refl 0
    | ramp segment => exact UInt32.le_refl segment.ticks
    | pause => exact UInt32.le_refl 1
    | release => exact h
    | move => exact h

end Ramp

/-! ## Voices -/

namespace Voice

variable {rig : Rig} {v : Voice}

theorem holds_of_mem_deeds {move : Move} {segment : Segment}
    (h : Deed.ramp segment ∈ v.deeds rig move) : rig.range.Holds segment.target := by
  cases move with
  | resume =>
    simp only [deeds] at h
    cases hready : v.ready? with
    | none =>
      rw [hready] at h
      cases h
    | some p =>
      rw [hready] at h
      exact Player.holds_of_mem_deeds h
  | trigger action =>
    simp only [deeds] at h
    cases hq : v.triggered? action with
    | none =>
      rw [hq] at h
      cases h
    | some q =>
      rw [hq] at h
      have hwalk : Deed.ramp segment ∈ q.walkDeeds rig := by
        cases action <;> simpa [deeds.lead] using h
      exact Player.holds_of_mem_deeds hwalk
  | clear => simp [deeds] at h
  | _ => cases h

theorem holds_of_mem_log {moves : List Move} {segment : Segment}
    (h : Deed.ramp segment ∈ log rig v moves) : rig.range.Holds segment.target := by
  induction moves generalizing v with
  | nil => cases h
  | cons move moves ih =>
    rcases List.mem_append.1 h with hfirst | hrest
    · exact holds_of_mem_deeds hfirst
    · exact ih hrest

/-- What every move keeps: no more ticks remain than there are, and in a range of finite width the
ramp is within the range. -/
structure Kept (rig : Rig) (v : Voice) : Prop where
  rising : rig.table.Rising
  remaining : v.ramp.remaining ≤ v.ramp.total
  within : (rig.range.max - rig.range.min).isFinite = true → v.ramp.Within rig.range

theorem Kept.after (h : Kept rig v) (move : Move) : Kept rig (v.after rig move) := by
  by_cases hmove : move = .sample
  · subst hmove
    exact ⟨h.rising, Ramp.remaining_le_step h.remaining,
      fun hspan => (h.within hspan).step hspan h.rising⟩
  · have hramp := ramp_after rig v move hmove
    refine ⟨h.rising, ?_, fun hspan => ?_⟩
    · rw [hramp]
      exact Ramp.remaining_le_foldl h.remaining _
    · rw [hramp]
      exact (h.within hspan).foldl fun segment hmem => holds_of_mem_deeds hmem

theorem kept_rest (rate : Rate) (range : Range) (f : Transcendental) :
    Kept ⟨rate, range, .build f⟩ (rest (range.clamp 0)) :=
  ⟨rising_build f, UInt32.le_refl 0, fun _ => Ramp.within_rest (range.holds_clamp 0)⟩

end Voice

/-! ## Ranges that are too wide -/

/-- At once to the upper end of the range, and after a long wait to the lower end. -/
def Range.sweep (range : Range) : List Score.Node :=
  [.ramp (.lit range.max) (.lit 0) "now", .ramp (.lit range.min) (.lit 4294967296) "wait"]

def Range.sweepProgram (range : Range) : Program :=
  { blocks := #[⟨.plain, #[.ramp ⟨.lit range.max, .lit 0, .now⟩,
      .ramp ⟨.lit range.min, .lit 4294967296, .wait⟩]⟩]
    cells := .empty }

theorem Range.compile_sweep (range : Range) :
    Program.compile range.sweep = .ok range.sweepProgram := by
  have hnow : compileRamp (.lit range.max) (.lit 0) "now" =
      .ok (.ramp ⟨.lit range.max, .lit 0, .now⟩) := rfl
  have hwait : compileRamp (.lit range.min) (.lit 4294967296) "wait" =
      .ok (.ramp ⟨.lit range.min, .lit 4294967296, .wait⟩) := rfl
  have hzero : (0 : Float32).isFinite = true := by decide +kernel
  have hlong : (4294967296 : Float32).isFinite = true := by decide +kernel
  simp only [Program.compile, enclose, sweep, compileBody, compileNode, Score.Value.formula,
    range.max_finite, range.min_finite, hzero, hlong, if_true, hnow, hwait, Except.map]
  rfl

theorem Player.walkDeeds_sweep (rig : Rig) :
    (Player.load rig.range.sweepProgram).restart.walkDeeds rig =
      [.ramp ⟨rig.range.max, 0, .now⟩, .ramp ⟨rig.range.min, 4294967295, .wait⟩] := by
  have hfirst : ((Player.load rig.range.sweepProgram).restart.await none).step rig.rate rig.range =
      .ramp ⟨rig.range.clamp rig.range.max, rig.rate.ticks 0, .now⟩
        { Player.load rig.range.sweepProgram with stack := [⟨0, 1, 0⟩] } := rfl
  have hsecond : Player.step rig.rate rig.range
        { Player.load rig.range.sweepProgram with stack := [⟨0, 1, 0⟩] } =
      .ramp ⟨rig.range.clamp rig.range.min, rig.rate.ticks 4294967296, .wait⟩
        { Player.load rig.range.sweepProgram with stack := [⟨0, 2, 0⟩] } := rfl
  rw [Range.clamp_of_holds rig.range.holds_max, rig.rate.ticks_zero] at hfirst
  rw [Range.clamp_of_holds rig.range.holds_min, rig.rate.ticks_of_long] at hsecond
  rw [walkDeeds, moveBudget, deeds, hfirst]
  simp only [if_true]
  rw [deeds, hsecond]
  rfl

theorem Voice.isNaN_sweep (rig : Rig) (hspan : (rig.range.max - rig.range.min).isFinite = false)
    (volts : Float32) :
    ((rest volts).run rig [.load rig.range.sweepProgram, .trigger .restart, .sample]).ramp.current.isNaN
      = true := by
  obtain ⟨v, hv⟩ : ∃ v, (rest volts).after rig (.load rig.range.sweepProgram) = v := ⟨_, rfl⟩
  have htriggered : v.triggered? .restart = some (Player.load rig.range.sweepProgram).restart := by
    rw [← hv]
    rfl
  have hramp : (v.after rig (.trigger .restart)).ramp =
      (v.ramp.hold.toward ⟨rig.range.max, 0, .now⟩).toward ⟨rig.range.min, 4294967295, .wait⟩ := by
    simp only [after, htriggered, walk_ramp, Player.walkDeeds_sweep]
    rfl
  show ((((rest volts).after rig (.load rig.range.sweepProgram)).after rig (.trigger .restart)).ramp.step
    rig.table).2.current.isNaN = true
  rw [hv, hramp]
  exact Ramp.isNaN_step hspan rig.table rfl rfl rfl rfl rfl rfl

/-! ## The engine -/

namespace Engine

theorem Reachable.kept {e : Engine} (h : Reachable e) (c : Channel) : (e.voice c).Kept e.rig :=
  h.voice (P := Voice.Kept) Voice.kept_rest
    (fun _ _ move _ kept => kept.after move) c

theorem grants_free (e : Engine) (c : Channel) : e.grants .free c = true := by
  unfold grants access Locks.free
  cases e.context <;> rfl

theorem sharesOf_sweep (rate : Rate) (range : Range) (capacity : Nat) (f : Transcendental) :
    sharesOf .first (fresh rate range capacity f) [.perform .free (.install .first range.sweep),
        .perform .free (.trigger .first .restart), .tick .free] =
      [.load range.sweepProgram, .trigger .restart, .sample] := by
  simp only [sharesOf, shareOf, share, channel?, moves, range.compile_sweep, loadMoves, triggerMoves,
    grants_free, tickMoves]
  rfl

/-- No run leaves the output range, and no step has to panic, exactly if the width of the range is
a finite number. -/
theorem in_range_iff (rate : Rate) (range : Range) (capacity : Nat) (f : Transcendental) :
    (∀ moves c, let e := (fresh rate range capacity f).run moves
        (e.voice c).ramp.Within range ∧ (e.voice c).ramp.Safe e.table) ↔
      (range.max - range.min).isFinite = true := by
  constructor
  · intro h
    by_contra hspan
    have hnumber := (h [.perform .free (.install .first range.sweep),
      .perform .free (.trigger .first .restart), .tick .free] .first).1.current.1
    rw [(voice_run _ _ _).2, sharesOf_sweep, voice_fresh] at hnumber
    have hnan := Voice.isNaN_sweep (fresh rate range capacity f).rig
      (Bool.eq_false_of_not_eq_true hspan) (range.clamp 0)
    cases hnan.symm.trans hnumber
  · intro hspan moves c
    have hkept := Reachable.kept ⟨rate, range, capacity, f, moves, rfl⟩ c
    have hrig := (voice_run (fresh rate range capacity f) c moves).1
    have hrange : ((fresh rate range capacity f).run moves).rig.range = range := by rw [hrig]; rfl
    have hwithin := hkept.within (by rw [hrange]; exact hspan)
    rw [hrange] at hwithin
    exact ⟨hwithin, hwithin.ordered, hkept.rising, hkept.remaining⟩

/-- A range of `6e38` volts: the second move leads to a NaN, and the third is not safe. -/
theorem nan_in_wide_range :
    let range : Range := ⟨-3e38, 3e38, by decide +kernel, by decide +kernel, by decide +kernel⟩
    let moves : List Move := [.perform .free (.setVolts .first 3e38),
      .perform .free (.setSlew .first 1 .wait), .perform .free (.setVolts .first (-3e38)), .tick .free]
    let e := (fresh .standard range 1).run moves
    let e' := e.run [.perform .free (.setVolts .first 0)]
    (e.voice .first).ramp.current.isNaN = true ∧
      ¬ (e'.voice .first).ramp.bounds.1 ≤ (e'.voice .first).ramp.bounds.2 := by
  decide +kernel

end Engine

end ControlVoltage
