import ControlVoltage.Proofs.Player.Guards
import ControlVoltage.Proofs.Voice.Sound

/-!
# Flags of a voice

Whatever happens to a voice, the flags of its player agree with its stack. A player in a held block hands
over nothing from outside of it until it is set going again, replaced or removed.

* `Player.Agrees` : what the flags say of the stack.
* `Voice.Guarded` : what every move keeps.
* `Voice.undisturbed` : no move lets the player out of a held block.
* `Voice.handovers` : the segments of moves, each with the stack that it comes from.
-/

namespace ControlVoltage

namespace Player

/-- What the flags say of the stack: the player holds exactly if there is a held block on it, and is
locked only if there is a locked one; there is never more than one of either. -/
structure Agrees (p : Player) : Prop where
  holding : p.holding = true ↔ ∃ mark ∈ p.stack, p.program.isAt .held mark = true
  held_le : p.stack.countP (p.program.isAt .held) ≤ 1
  locked : p.locked = true → ∃ mark ∈ p.stack, p.program.isAt .locked mark = true
  locked_le : p.stack.countP (p.program.isAt .locked) ≤ 1

theorem Guarded.agrees {p : Player} (h : p.Guarded) : p.Agrees where
  holding := by
    rw [h.holding]
    exact List.any_eq_true
  held_le := h.path.countP_le (.inl rfl)
  locked hlocked := List.any_eq_true.1 (h.locked hlocked)
  locked_le := h.path.countP_le (.inr rfl)

theorem Guarded.inside {p : Player} (h : p.Guarded) {inner outer : List Mark} {mark : Mark}
    (hstack : p.stack = inner ++ mark :: outer) (hmark : p.program.isAt .held mark = true) :
    p.Inside p.program mark.block outer := by
  refine ⟨rfl, ?_, h.agrees.holding.2 ⟨mark, by simp [hstack], hmark⟩, inner, mark, hstack, rfl⟩
  obtain ⟨⟨kind, ops⟩, hblock, hkind⟩ := (Option.any_eq_true _ _).1 hmark
  obtain rfl : kind = .held := of_decide_eq_true hkind
  exact ⟨ops, hblock⟩

def walkHandovers (rig : Rig) (p : Player) : List Handover :=
  handovers rig.rate rig.range moveBudget (p.await none)

end Player

namespace Voice

variable {rig : Rig} {v : Voice}

/-- The flags of the player, if there is one, agree with its stack. -/
structure Guarded (v : Voice) : Prop where
  sound : v.Sound
  player : ∀ p, v.player = some p → p.Guarded

theorem Guarded.triggered (h : v.Guarded) {action : Action} {q : Player}
    (hq : v.triggered? action = some q) : q.Guarded := by
  obtain ⟨p, hp, hwalk, rfl⟩ := of_triggered hq
  cases action with
  | restart => exact (h.sound.player p hp).guarded_restart
  | release =>
    have unlocked : p.locked = false := by
      cases hlocked : p.locked with
      | false => rfl
      | true => simp [Engine.respond, hlocked] at hwalk
    exact (h.player p hp).release unlocked
  | unlock => cases hwalk

/-- Every move keeps the flags in agreement with the stack. -/
theorem Guarded.after (h : v.Guarded) {move : Move} (checked : move.Checked) :
    (v.after rig move).Guarded := by
  refine ⟨h.sound.after checked, fun q hq => ?_⟩
  cases player_after hq with
  | loaded program _ hloaded =>
    rw [hloaded]
    exact Player.guarded_load program
  | walked p ramp hp hwalked =>
    rw [hwalked]
    refine Player.Guarded.advance ?_ ramp
    rcases hp with hready | ⟨action, htriggered⟩
    · exact h.player p (player_of_ready hready).1
    · exact h.triggered htriggered
  | stood p hp hprogram _ hstack hholding hlocked =>
    exact (h.player p hp).congr hprogram hstack hholding hlocked

/-! ## Left alone -/

/-- Whether a move replaces or removes the player, or sets it going again. -/
def frees (v : Voice) : Move → Bool
  | .load _ => true
  | .clear => true
  | .trigger action => (v.triggered? action).isSome
  | _ => false

def undisturbed (rig : Rig) : Voice → List Move → Bool
  | _, [] => true
  | v, move :: moves => !v.frees move && undisturbed rig (v.after rig move) moves

def handoversOf (rig : Rig) (v : Voice) : Move → List Handover
  | .resume => (v.ready?.map (Player.walkHandovers rig)).getD []
  | .trigger action => ((v.triggered? action).map (Player.walkHandovers rig)).getD []
  | _ => []

def handovers (rig : Rig) : Voice → List Move → List Handover
  | _, [] => []
  | v, move :: moves => v.handoversOf rig move ++ handovers rig (v.after rig move) moves

theorem segments_handoversOf (rig : Rig) (v : Voice) (move : Move) :
    (v.handoversOf rig move).map Handover.segment =
      (v.deeds rig move).filterMap Deed.segment? := by
  have walks : ∀ p : Player, (p.walkHandovers rig).map Handover.segment =
      (p.walkDeeds rig).filterMap Deed.segment? :=
    fun p => Player.segments_handovers Player.moveBudget (p.await none)
  cases move with
  | resume =>
    simp only [handoversOf, deeds]
    cases v.ready? with
    | none => rfl
    | some p => exact walks p
  | trigger action =>
    simp only [handoversOf, deeds]
    cases v.triggered? action with
    | none => rfl
    | some p => cases action <;> exact walks p
  | _ => rfl

theorem segments_handovers (rig : Rig) (v : Voice) (moves : List Move) :
    (handovers rig v moves).map Handover.segment = (log rig v moves).filterMap Deed.segment? := by
  induction moves generalizing v with
  | nil => rfl
  | cons move moves ih =>
    rw [handovers, log, List.map_append, List.filterMap_append, segments_handoversOf, ih]

variable {program : Program} {block : Nat} {outer : List Mark}

theorem Guarded.inside_after (h : v.Guarded) {p : Player} (hp : v.player = some p)
    (inside : p.Inside program block outer) {move : Move} (keeps : v.frees move = false) :
    (∀ handover ∈ v.handoversOf rig move, handover.From program block outer) ∧
      ∃ q, (v.after rig move).player = some q ∧ q.Inside program block outer := by
  cases move with
  | sample => exact ⟨by simp [handoversOf], p, hp, inside⟩
  | resume =>
    cases hready : v.ready? with
    | none => exact ⟨by simp [handoversOf, hready], p, by simpa [Voice.after, hready] using hp, inside⟩
    | some p' =>
      obtain rfl : p = p' := Option.some.inj (hp.symm.trans (player_of_ready hready).1)
      obtain ⟨progress, q, hwalk, -⟩ := walk_of_sound rig v (h.sound.ready hready) v.ramp
      have waits : (p.await none).Inside program block outer := inside.congr rfl rfl rfl
      have guarded : (p.await none).Guarded := (h.player p hp).congr rfl rfl rfl id
      obtain ⟨hfrom, hinside⟩ :
          (∀ handover ∈ p.walkHandovers rig, handover.From program block outer) ∧
            (p.advance rig.rate rig.range v.ramp).2.1.Inside program block outer :=
        waits.run guarded Player.moveBudget v.ramp
      refine ⟨?_, q, by simp [Voice.after, hready, hwalk], ?_⟩
      · simpa [handoversOf, hready] using hfrom
      · have hplayer := walk_player rig v p v.ramp
        rw [hwalk] at hplayer
        cases hplayer
        exact hinside
  | load program => cases keeps
  | clear => cases keeps
  | trigger action =>
    have hq : v.triggered? action = none := by simpa [frees] using keeps
    refine ⟨by simp [handoversOf, hq], ?_⟩
    simp only [Voice.after, hq]
    split
    · exact ⟨{ p with locked := false }, by simp [unlock, hp], inside.congr rfl rfl rfl⟩
    · exact ⟨p, hp, inside⟩
  | setSlew seconds curve => exact ⟨by simp [handoversOf], p, hp, inside⟩
  | setQuantizer quantizer => exact ⟨by simp [handoversOf], p, hp, inside⟩
  | setCell name value =>
    exact ⟨by simp [handoversOf], { p with cells := (p.cells.setNamed? name value).getD p.cells },
      by simp [Voice.after, hp], inside.congr rfl rfl rfl⟩

theorem Guarded.inside_run (h : v.Guarded) {p : Player} (hp : v.player = some p)
    (inside : p.Inside program block outer) {moves : List Move}
    (checked : ∀ m ∈ moves, m.Checked) (keeps : v.undisturbed rig moves = true) :
    (∀ handover ∈ v.handovers rig moves, handover.From program block outer) ∧
      ∃ q, (v.run rig moves).player = some q ∧ q.Inside program block outer := by
  induction moves generalizing v p with
  | nil => exact ⟨by simp [handovers], p, hp, inside⟩
  | cons move moves ih =>
    obtain ⟨hmove, htail⟩ := List.forall_mem_cons.1 checked
    obtain ⟨hkeeps, hrest⟩ : v.frees move = false ∧ (v.after rig move).undisturbed rig moves = true := by
      simpa [undisturbed] using keeps
    obtain ⟨hfrom, q, hq, hinside⟩ :
        (∀ handover ∈ v.handoversOf rig move, handover.From program block outer) ∧
          ∃ q, (v.after rig move).player = some q ∧ q.Inside program block outer :=
      h.inside_after hp inside hkeeps
    obtain ⟨hfroms, hrun⟩ := ih (h.after hmove) hq hinside htail hrest
    exact ⟨List.forall_mem_append.2 ⟨hfrom, hfroms⟩, hrun⟩

end Voice

end ControlVoltage
