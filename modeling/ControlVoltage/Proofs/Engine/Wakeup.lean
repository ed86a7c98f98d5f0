import ControlVoltage.Proofs.Engine.Sound
import ControlVoltage.Proofs.Voice.Wakeup

/-!
# Wake-ups

In a run from a fresh engine in which the numbers of the segments of a channel do not come round, no
segment that has landed goes unnoticed, and none is noticed twice.

* `Engine.resumptions` : the segments on whose completion the walk of a channel went on.
* `Engine.no_lost_wakeup` : what is waited for, and when it is resumed.
-/

namespace ControlVoltage

namespace Engine

/-- The segments on whose completion the walk of a channel went on in a run. -/
def resumptions (e : Engine) (c : Channel) (moves : List Move) : List UInt32 :=
  Voice.resumptions e.rig (e.voice c) (sharesOf c e moves)

theorem resume_iff (e : Engine) (locks : Locks) (c : Channel) :
    (e.resume locks c).1 = true ↔ e.grants locks c = true ∧ ∃ p, (e.voice c).ready? = some p := by
  unfold resume
  cases hp : (e.voice c).player with
  | none => simp [Voice.ready?, hp]
  | some p =>
    by_cases awaited : p.awaiting = some (e.voice c).completed
    · have hready : (e.voice c).ready? = some p := by
        simp [Voice.ready?, hp, awaited, Option.filter]
      simp only [if_pos awaited, hready]
      cases hgrants : e.grants locks c with
      | false => simp [acquire?_of_not_grants hgrants]
      | true =>
        obtain ⟨e₁, hacquire, -, -⟩ := acquire?_of_grants hgrants
        simp only [hacquire, advance_eq]
        obtain ⟨⟨result, v⟩, hwalk⟩ :
            ∃ x, (e₁.voice c).walk e₁.rig p (e₁.voice c).ramp = x := ⟨_, rfl⟩
        cases result <;> simp [hwalk]
    · have hnone : (e.voice c).ready? = none := by
        simp [Voice.ready?, hp, awaited, Option.filter]
      simp only [if_neg awaited, hnone]
      simp

/-- No wake-up is lost and none is stale. In a run from a fresh engine in which a channel starts
fewer than `2 ^ 32` segments and holds:
* a segment that is waited for is the one in flight, and it is the last completed one exactly when
  it has landed;
* a player that is inside its program waits for such a segment, or for a release;
* servicing the channel resumes it if its lock is to be had and the segment that it waits for has
  landed, and not otherwise;
* it is never resumed twice on the same segment. -/
theorem no_lost_wakeup (rate : Rate) (range : Range) (capacity : Nat) (f : Transcendental) (c : Channel)
    (moves : List Move)
    (few : ((fresh rate range capacity f).log c moves).countP Deed.starts < 2 ^ 32) :
    let e := (fresh rate range capacity f).run moves
    let v := e.voice c
    (∀ p g, v.player = some p → p.awaiting = some g →
        v.ramp.generation = g ∧ (v.completed = g ↔ v.ramp.Landed)) ∧
      (∀ p, v.player = some p → p.stack ≠ [] →
        p.awaiting = some v.ramp.generation ∨ p.awaiting = none ∧ p.Parked) ∧
      (∀ locks, (e.resume locks c).1 = true ↔
        e.grants locks c = true ∧ ∃ p, v.player = some p ∧
          p.awaiting = some v.ramp.generation ∧ v.ramp.Landed) ∧
      ((fresh rate range capacity f).resumptions c moves).Pairwise (· < ·) := by
  intro e v
  have checked := sharesOf_checked (fresh rate range capacity f) c moves
  have start : Voice.Awake 0 ((fresh rate range capacity f).voice c) := by
    rw [voice_fresh]
    exact Voice.awake_rest _
  have few' : 0 + ((fresh rate range capacity f).log c moves).countP Deed.starts < 2 ^ 32 := by
    rw [Nat.zero_add]
    exact few
  have awake := start.run checked few'
  rw [← (voice_run (fresh rate range capacity f) c moves).2] at awake
  refine ⟨awake.awaited, fun p hp hstack => ?_, fun locks => ?_, ?_⟩
  · cases hawaiting : p.awaiting with
    | none =>
      rcases awake.rests p hp hstack with hwaits | parked
      · exact absurd hawaiting hwaits
      · exact Or.inr ⟨rfl, parked⟩
    | some g =>
      left
      rw [(awake.awaited p g hp hawaiting).1]
  · rw [resume_iff]
    exact and_congr_right fun _ => exists_congr fun p => awake.ready_iff
  · refine (start.resumptions_increase checked few' (Nat.zero_le _) ?_).2
    intro p hp
    rw [voice_fresh] at hp
    cases hp

/-- A move to a volt in a hundredth of a second, as far as the end of its walk: the hold is number one
and the segment is number two. -/
theorem no_lost_wakeup_slew :
    let moves : List Move := .perform .free (.setSlew .first 0.01 .linear) ::
      .perform .free (.setVolts .first 1) :: List.replicate 15 (.tick .free) ++
        [.perform .free .service]
    ((fresh .standard .standard 1).log .first moves).countP Deed.starts = 2 ∧
      (fresh .standard .standard 1).resumptions .first moves = [2] ∧
      ((fresh .standard .standard 1).resumptions .first moves).Pairwise (· < ·) :=
  ⟨by decide +kernel, by decide +kernel,
    (no_lost_wakeup .standard .standard 1 .standard .first _ (by decide +kernel)).2.2.2⟩

end Engine

end ControlVoltage
