import ControlVoltage.Proofs.Engine.Sound
import ControlVoltage.Proofs.Voice.Guards

/-!
# Flags in a run

In a reachable engine the flags of a player agree with its stack. So a release that is heard finds the
held block that it is to leave, and a player in a held block hands over nothing from outside of it.

* `Engine.handovers` : the segments of a run, each with the stack that it comes from.
* `Reachable.flags_agree` : what is true of every player of a reachable engine.
-/

namespace ControlVoltage

namespace Engine

/-- What a channel hands over in a run. -/
def handovers (e : Engine) (c : Channel) (moves : List Move) : List Handover :=
  Voice.handovers e.rig (e.voice c) (sharesOf c e moves)

theorem Reachable.guarded {e : Engine} (h : Reachable e) (c : Channel) : (e.voice c).Guarded :=
  h.voice (P := fun _ v => v.Guarded)
    (fun _ _ _ => ⟨Voice.sound_rest _, fun _ hp => by cases hp⟩)
    (fun _ _ _ checked guarded => guarded.after checked) c

/-- In a reachable engine the flags of a player agree with its stack. So
* a release that is heard finds one held block, and leaves it;
* a player in a held block hands over ramps that lie in this block and no others, and stays in the
  block with the same marks around it, as long as no move frees it;
* while it is locked, a restart or a release succeeds and changes nothing at all. -/
theorem Reachable.flags_agree {e : Engine} (h : Reachable e) {c : Channel} {p : Player}
    (hp : (e.voice c).player = some p) :
    p.Agrees ∧
      (respond p .release = .walk → ∃ inner mark outer, p.stack = inner ++ mark :: outer ∧
        p.program.isAt .held mark = true ∧ (∀ m ∈ inner ++ outer, p.program.isAt .held m = false) ∧
        triggered p .release = { p with holding := false, stack := outer }) ∧
      (∀ inner mark outer moves, p.stack = inner ++ mark :: outer →
        p.program.isAt .held mark = true →
        (e.voice c).undisturbed e.rig (sharesOf c e moves) = true →
        (e.handovers c moves).map Handover.segment = (e.log c moves).filterMap Deed.segment? ∧
          (∀ handover ∈ e.handovers c moves, handover.From p.program mark.block outer) ∧
          ∃ q, ((e.run moves).voice c).player = some q ∧ q.Inside p.program mark.block outer) ∧
      (∀ locks action, p.locked = true → action ≠ .unlock →
        e.trigger locks c action = (.ok (), e)) := by
  have guarded : p.Guarded := (h.guarded c).player p hp
  refine ⟨guarded.agrees, fun hears => ?_, fun inner mark outer moves hstack hmark keeps => ?_,
    fun locks action hlocked haction => ?_⟩
  · have holding : p.holding = true := by
      cases holding : p.holding with
      | true => rfl
      | false => simp [respond, holding] at hears
    obtain ⟨inner, mark, outer, hstack, hmark, hinner, houter, hrelease⟩ := guarded.release_eq holding
    rw [Player.isHeldMark_eq] at hmark hinner houter
    exact ⟨inner, mark, outer, hstack, hmark, List.forall_mem_append.2 ⟨hinner, houter⟩, hrelease⟩
  · obtain ⟨hfrom, hinside⟩ := (h.guarded c).inside_run hp (guarded.inside hstack hmark)
      (sharesOf_checked e c moves) keeps
    refine ⟨Voice.segments_handovers _ _ _, hfrom, ?_⟩
    rw [(voice_run e c moves).2]
    exact hinside
  · have ignored : respond p action = .ignore := by
      cases action with
      | unlock => exact absurd rfl haction
      | restart => simp [respond, hlocked]
      | release => simp [respond, hlocked]
    simp [trigger, hp, ignored]

/-- A held ramp of two ticks, with another ramp after the block: when the held ramp has landed and the
channel is serviced, the player is still in the block. -/
theorem flags_agree_held :
    let e := (fresh .standard .standard 1).run [.perform .free (.install .first
        [.held [.ramp (.lit 1) (.lit 0.001) "linear"], .ramp (.lit 3) (.lit 1) "linear"]),
      .perform .free (.trigger .first .restart)]
    let moves : List Move := [.tick .free, .tick .free, .perform .free .service]
    ∃ p q, (e.voice .first).player = some p ∧ p.stack = [] ++ ⟨1, 1, 0⟩ :: [⟨0, 1, 0⟩] ∧
      p.program.isAt .held ⟨1, 1, 0⟩ = true ∧
      (e.voice .first).undisturbed e.rig (sharesOf .first e moves) = true ∧
      ((e.run moves).voice .first).player = some q ∧ q.Inside p.program 1 [⟨0, 1, 0⟩] := by
  intro e moves
  obtain ⟨p, hp⟩ : ∃ p, (e.voice .first).player = some p :=
    Option.isSome_iff_exists.1 (by decide +kernel)
  have hstack : (e.voice .first).player.map Player.stack = some [⟨1, 1, 0⟩, ⟨0, 1, 0⟩] := by
    decide +kernel
  have hmark : ((e.voice .first).player.map fun p => p.program.isAt .held ⟨1, 1, 0⟩) = some true := by
    decide +kernel
  have keeps : (e.voice .first).undisturbed e.rig (sharesOf .first e moves) = true := by
    decide +kernel
  rw [hp] at hstack hmark
  have hreachable : Reachable e := ⟨.standard, .standard, 1, .standard, _, rfl⟩
  obtain ⟨-, -, stays, -⟩ := hreachable.flags_agree hp
  obtain ⟨-, -, q, hq, inside⟩ :=
    stays [] ⟨1, 1, 0⟩ [⟨0, 1, 0⟩] moves (Option.some.inj hstack) (Option.some.inj hmark) keeps
  exact ⟨p, q, hp, Option.some.inj hstack, Option.some.inj hmark, keeps, hq, inside⟩

end Engine

end ControlVoltage
