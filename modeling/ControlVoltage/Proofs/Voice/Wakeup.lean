import ControlVoltage.Proofs.Signal.Ramp
import ControlVoltage.Proofs.Voice.Sound

/-!
# Numbers of segments

Segments and holds are numbered by the generation of the ramp. As long as the numbers do not come
round, a player that waits for a segment waits for the one in flight, and the number of the last
completed segment is that number exactly when the segment has landed.

* `Deed.starts` : the deeds that are numbered.
* `Voice.Awake` : the invariant, with the number of segments and holds so far.
* `Voice.resumptions` : the segments on whose completion the walk went on.
-/

namespace ControlVoltage

/-- Whether a deed starts a segment or a hold. -/
def Deed.starts : Deed → Bool
  | .hold => true
  | .ramp _ => true
  | .pause => true
  | _ => false

namespace Ramp

/-- On the target, with no segment in flight. -/
def Landed (ramp : Ramp) : Prop := ramp.phase ≠ .ramping ∧ ramp.current = ramp.target

theorem generation_obey (ramp : Ramp) (deed : Deed) :
    (deed.obey ramp).generation = ramp.generation + UInt32.ofNat (if deed.starts then 1 else 0) := by
  cases deed <;> first | rfl | exact (UInt32.add_zero _).symm

theorem generation_foldl (deeds : List Deed) (ramp : Ramp) :
    (deeds.foldl Deed.obey ramp).generation =
      ramp.generation + UInt32.ofNat (deeds.countP Deed.starts) := by
  induction deeds generalizing ramp with
  | nil => exact (UInt32.add_zero _).symm
  | cons deed deeds ih =>
    rw [List.foldl_cons, ih, generation_obey, List.countP_cons, UInt32.ofNat_add, UInt32.add_assoc]
    rw [UInt32.add_comm (UInt32.ofNat (if deed.starts then 1 else 0))]

theorem foldl_of_no_starts {deeds : List Deed} (h : deeds.countP Deed.starts = 0) (ramp : Ramp) :
    deeds.foldl Deed.obey ramp = ramp := by
  induction deeds with
  | nil => rfl
  | cons deed deeds ih =>
    rw [List.countP_cons] at h
    cases hstarts : deed.starts with
    | true => simp [hstarts] at h
    | false =>
      have same : deed.obey ramp = ramp := by cases deed <;> first | rfl | cases hstarts
      rw [List.foldl_cons, same]
      exact ih (by omega)

end Ramp

namespace Voice

/-- What is true of a voice whose channel has started `n` segments and holds. -/
structure Awake (n : Nat) (v : Voice) : Prop where
  sound : v.Sound
  generation : v.ramp.generation = UInt32.ofNat n
  completed : v.completed.toNat ≤ n
  flying : v.ramp.phase = .ramping → v.completed.toNat < n
  awaited : ∀ p g, v.player = some p → p.awaiting = some g →
    v.ramp.generation = g ∧ (v.completed = g ↔ v.ramp.Landed)
  rests : ∀ p, v.player = some p → p.stack ≠ [] → p.awaiting ≠ none ∨ p.Parked

variable {rig : Rig} {v : Voice} {n : Nat}

theorem awake_rest (volts : Float32) : Awake 0 (rest volts) where
  sound := sound_rest volts
  generation := rfl
  completed := Nat.le_refl 0
  flying h := by cases h
  awaited p g h := by cases h
  rests p h := by cases h

theorem Awake.toNat_generation (h : Awake n v) (hn : n < 2 ^ 32) : v.ramp.generation.toNat = n := by
  rw [h.generation]
  exact UInt32.toNat_ofNat_of_lt' hn

theorem Awake.sample (h : Awake n v) (hn : n < 2 ^ 32) : Awake n (v.after rig .sample) := by
  have hplayer : (v.after rig .sample).player = v.player := rfl
  have hramp : (v.after rig .sample).ramp = (v.ramp.step rig.table).2 := rfl
  have hgeneration := h.toNat_generation hn
  rcases Ramp.step_cases rig.table v.ramp with
    ⟨hphase, houtcome, hstep⟩ | ⟨hphase, houtcome, -, -, hstep⟩ | ⟨hphase, houtcome, hstep⟩
  · have hcompleted : (v.after rig .sample).completed = v.ramp.generation := by
      simp only [Voice.after, Voice.sample, houtcome]
    refine ⟨h.sound.after trivial, ?_, ?_, ?_, ?_, h.rests⟩
    · rw [hramp, hstep]
      exact h.generation
    · exact Nat.le_of_eq (by rw [hcompleted, hgeneration])
    · rw [hramp, hstep]
      intro flying
      cases flying
    · intro p g hp hg
      obtain ⟨hg', -⟩ := h.awaited p g hp hg
      rw [hcompleted, hramp, hstep]
      exact ⟨hg', fun _ => ⟨by simp, rfl⟩, fun _ => hg'⟩
  · have hcompleted : (v.after rig .sample).completed = v.completed := by
      simp only [Voice.after, Voice.sample, houtcome]
    refine ⟨h.sound.after trivial, ?_, ?_, ?_, ?_, h.rests⟩
    · rw [hramp, hstep]
      exact h.generation
    · rw [hcompleted]
      exact h.completed
    · rw [hcompleted]
      exact fun _ => h.flying hphase
    · intro p g hp hg
      obtain ⟨hg', hlanded⟩ := h.awaited p g hp hg
      rw [hcompleted, hramp, hstep]
      refine ⟨hg', fun hcompleted => ?_, fun landed => absurd hphase landed.1⟩
      exact absurd hphase (hlanded.1 hcompleted).1
  · have hcompleted : (v.after rig .sample).completed = v.completed := by
      simp only [Voice.after, Voice.sample, houtcome]
    refine ⟨h.sound.after trivial, ?_, ?_, ?_, ?_, h.rests⟩
    · rw [hramp, hstep]
      exact h.generation
    · rw [hcompleted]
      exact h.completed
    · rw [hramp, hstep]
      intro flying
      cases flying
    · intro p g hp hg
      obtain ⟨hg', hlanded⟩ := h.awaited p g hp hg
      rw [hcompleted, hramp, hstep]
      refine ⟨hg', hlanded.trans ⟨fun landed => ⟨by simp, landed.2⟩, fun landed => ⟨hphase, landed.2⟩⟩⟩

theorem completed_after {move : Move} (hmove : move ≠ .sample) :
    (v.after rig move).completed = v.completed := by
  rcases after_cases rig v move with rfl | ⟨seconds, curve, rfl⟩ | ⟨quantizer, rfl⟩ | ⟨player, ramp, h⟩
  · exact absurd rfl hmove
  · rfl
  · rfl
  · rw [h]

theorem Awake.after (h : Awake n v) {move : Move} (checked : move.Checked)
    (few : n + (v.deeds rig move).countP Deed.starts < 2 ^ 32) :
    Awake (n + (v.deeds rig move).countP Deed.starts) (v.after rig move) := by
  by_cases hmove : move = .sample
  · subst hmove
    exact h.sample (by simpa [deeds] using few)
  · have hcompleted : (v.after rig move).completed = v.completed := completed_after hmove
    have hramp := ramp_after rig v move hmove
    obtain ⟨k, hk⟩ : ∃ k, (v.deeds rig move).countP Deed.starts = k := ⟨_, rfl⟩
    have hgeneration : (v.after rig move).ramp.generation = UInt32.ofNat (n + k) := by
      rw [hramp, Ramp.generation_foldl, h.generation, hk, UInt32.ofNat_add]
    rw [hk] at few ⊢
    have hle := h.completed
    -- A move that starts nothing leaves the ramp alone; any other one leaves a number that has not been
    -- completed.
    have flying : (v.after rig move).ramp.phase = .ramping → v.completed.toNat < n + k := by
      intro hphase
      by_cases hzero : k = 0
      · rw [hramp, Ramp.foldl_of_no_starts (by omega)] at hphase
        have := h.flying hphase
        omega
      · omega
    have leaves : v.Leaves (v.after rig move) := h.sound.leaves hmove
    refine ⟨h.sound.after checked, hgeneration, ?_, ?_, ?_, ?_⟩
    · rw [hcompleted]
      omega
    · rw [hcompleted]
      exact flying
    · intro q g hq hg
      rw [hcompleted]
      cases leaves with
      | nobody hplayer => cases hplayer.symm.trans hq
      | loaded program _ hplayer =>
        cases hplayer.symm.trans hq
        cases hg
      | walked q' progress hplayer hrests =>
        cases hplayer.symm.trans hq
        cases progress with
        | waiting =>
          obtain ⟨hawaiting, hphase⟩ := hrests
          cases hawaiting.symm.trans hg
          refine ⟨rfl, fun same => ?_, fun landed => absurd hphase landed.1⟩
          have hnumber : (v.after rig move).ramp.generation.toNat = n + k := by
            rw [hgeneration]
            exact UInt32.toNat_ofNat_of_lt' few
          have hlt := flying hphase
          rw [same, hnumber] at hlt
          omega
        | suspended => cases hrests.1.symm.trans hg
        | done => cases hrests.1.symm.trans hg
      | same hsame hplayer =>
        obtain ⟨p, hp, -, -, -, hawaiting⟩ := hplayer q hq
        rw [hsame]
        exact h.awaited p g hp (hawaiting.symm.trans hg)
    · intro q hq hstack
      cases leaves with
      | nobody hplayer => cases hplayer.symm.trans hq
      | loaded program _ hplayer =>
        cases hplayer.symm.trans hq
        exact absurd rfl hstack
      | walked q' progress hplayer hrests =>
        cases hplayer.symm.trans hq
        cases progress with
        | waiting =>
          left
          rw [hrests.1]
          simp
        | suspended => exact Or.inr hrests.2
        | done => exact absurd hrests.2 hstack
      | same hsame hplayer =>
        obtain ⟨p, hp, hprogram, hstack', hholding, hawaiting⟩ := hplayer q hq
        rw [hstack'] at hstack
        rcases h.rests p hp hstack with hwaits | ⟨hheld, hmark⟩
        · left
          rw [hawaiting]
          exact hwaits
        · right
          refine ⟨hholding.trans hheld, ?_⟩
          rw [hstack', hprogram]
          exact hmark

/-- What is true after any moves, as long as the numbers do not come round. -/
theorem Awake.run (h : Awake n v) {moves : List Move} (checked : ∀ m ∈ moves, m.Checked)
    (few : n + (log rig v moves).countP Deed.starts < 2 ^ 32) :
    Awake (n + (log rig v moves).countP Deed.starts) (v.run rig moves) := by
  induction moves generalizing v n with
  | nil => exact h
  | cons move moves ih =>
    obtain ⟨hmove, htail⟩ := List.forall_mem_cons.1 checked
    rw [log, List.countP_append, ← Nat.add_assoc] at few ⊢
    exact ih (h.after hmove (by omega)) htail few

/-! ## Resumptions -/

/-- The segments on whose completion the walk went on, in order. -/
def resumptions (rig : Rig) : Voice → List Move → List UInt32
  | _, [] => []
  | v, move :: moves =>
    match move, v.ready? with
    | .resume, some _ => v.completed :: resumptions rig (v.after rig move) moves
    | _, _ => resumptions rig (v.after rig move) moves

theorem Awake.ready_iff (h : Awake n v) {p : Player} :
    v.ready? = some p ↔
      v.player = some p ∧ p.awaiting = some v.ramp.generation ∧ v.ramp.Landed := by
  constructor
  · intro hready
    obtain ⟨hp, hawaiting⟩ := player_of_ready hready
    obtain ⟨hgeneration, hlanded⟩ := h.awaited p v.completed hp hawaiting
    exact ⟨hp, by rw [hgeneration]; exact hawaiting, hlanded.1 rfl⟩
  · rintro ⟨hp, hawaiting, landed⟩
    have hcompleted := (h.awaited p _ hp hawaiting).2.2 landed
    simp [ready?, hp, hawaiting, hcompleted, Option.filter]

theorem Leaves.waits {v' : Voice} (leaves : v.Leaves v') {q : Player} (hq : v'.player = some q)
    (hwaits : q.awaiting ≠ none) :
    (∃ p, v.player = some p ∧ p.awaiting ≠ none) ∨ v'.ramp.phase = .ramping := by
  cases leaves with
  | nobody hplayer => cases hplayer.symm.trans hq
  | loaded program _ hplayer =>
    cases hplayer.symm.trans hq
    exact absurd rfl hwaits
  | walked q' progress hplayer hrests =>
    cases hplayer.symm.trans hq
    cases progress with
    | waiting => exact Or.inr hrests.2
    | suspended => exact absurd hrests.1 hwaits
    | done => exact absurd hrests.1 hwaits
  | same _ hplayer =>
    obtain ⟨p, hp, -, -, -, hawaiting⟩ := hplayer q hq
    exact Or.inl ⟨p, hp, by rw [← hawaiting]; exact hwaits⟩

theorem Awake.completed_le_after (h : Awake n v) (hn : n < 2 ^ 32) (move : Move) :
    v.completed.toNat ≤ (v.after rig move).completed.toNat := by
  by_cases hmove : move = .sample
  · subst hmove
    have hgeneration := h.toNat_generation hn
    have hle := h.completed
    rcases Ramp.step_cases rig.table v.ramp with
      ⟨-, houtcome, -⟩ | ⟨-, houtcome, -⟩ | ⟨-, houtcome, -⟩ <;>
    · simp only [Voice.after, Voice.sample, houtcome]
      omega
  · exact Nat.le_of_eq (by rw [completed_after hmove])

theorem Awake.resumptions_increase (h : Awake n v) {moves : List Move}
    (checked : ∀ m ∈ moves, m.Checked) (few : n + (log rig v moves).countP Deed.starts < 2 ^ 32)
    {last : Nat} (hlast : last ≤ v.completed.toNat)
    (hwaits : ∀ p, v.player = some p → p.awaiting ≠ none → last < n) :
    (∀ g ∈ resumptions rig v moves, last < g.toNat) ∧
      (resumptions rig v moves).Pairwise (· < ·) := by
  induction moves generalizing v n last with
  | nil => simp [resumptions]
  | cons move moves ih =>
    obtain ⟨hmove, htail⟩ := List.forall_mem_cons.1 checked
    rw [log, List.countP_append, ← Nat.add_assoc] at few
    have hafter : Awake _ (v.after rig move) := h.after hmove (by omega)
    have hle : v.completed.toNat ≤ (v.after rig move).completed.toNat :=
      h.completed_le_after (by omega) move
    by_cases resumes : move = .resume ∧ v.ready? ≠ none
    · obtain ⟨rfl, hready⟩ := resumes
      obtain ⟨p, hp⟩ := Option.ne_none_iff_exists'.1 hready
      obtain ⟨hplayer, hawaiting⟩ := player_of_ready hp
      have hnumber : v.completed.toNat = n := by
        rw [← (h.awaited p _ hplayer hawaiting).1, h.toNat_generation (by omega)]
      have hcompleted : (v.after rig .resume).completed = v.completed := completed_after (by simp)
      -- After the walk the player waits for a segment that is still on its way, if it waits.
      have hwaits' : ∀ q, (v.after rig .resume).player = some q → q.awaiting ≠ none →
          n < n + (v.deeds rig .resume).countP Deed.starts := by
        intro q hq hwaits'
        obtain ⟨progress, q', hwalk, -, hrests⟩ := walk_of_sound rig v (h.sound.ready hp) v.ramp
        have hflying : (v.after rig .resume).ramp.phase = .ramping := by
          simp only [Voice.after, hp, hwalk] at hq ⊢
          cases hq
          cases progress with
          | waiting => exact hrests.2
          | suspended => exact absurd hrests.1 hwaits'
          | done => exact absurd hrests.1 hwaits'
        have := hafter.flying hflying
        rw [hcompleted, hnumber] at this
        exact this
      obtain ⟨hlater, hpairs⟩ := ih hafter htail few (by omega) hwaits'
      have hlt : last < n := hwaits p hplayer (by rw [hawaiting]; simp)
      have hlist : resumptions rig v (.resume :: moves) =
          v.completed :: resumptions rig (v.after rig .resume) moves := by simp [resumptions, hp]
      rw [hlist]
      refine ⟨fun g hg => ?_, List.Pairwise.cons (fun g hg => ?_) hpairs⟩
      · rcases List.mem_cons.1 hg with rfl | hg
        · omega
        · have := hlater g hg
          omega
      · have := hlater g hg
        rw [← hnumber] at this
        exact UInt32.lt_iff_toNat_lt.2 this
    · have hlist : resumptions rig v (move :: moves) = resumptions rig (v.after rig move) moves := by
        cases move with
        | resume =>
          have hnone : v.ready? = none := by simpa using resumes
          simp [resumptions, hnone]
        | _ => rfl
      rw [hlist]
      refine ih hafter htail few (by omega) fun q hq hwaits' => ?_
      by_cases hsample : move = .sample
      · subst hsample
        have := hwaits q hq hwaits'
        omega
      · have leaves : v.Leaves (v.after rig move) := h.sound.leaves hsample
        rcases leaves.waits hq hwaits' with ⟨p, hp, hwaited⟩ | hflying
        · have := hwaits p hp hwaited
          omega
        · have := hafter.flying hflying
          omega

end Voice

end ControlVoltage
