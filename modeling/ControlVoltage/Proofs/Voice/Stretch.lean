import ControlVoltage.Proofs.Voice.Wakeup

/-!
# Late ticks and late resumptions

A voice that is left to play is sampled at some ticks, skipped at others, and resumed now and then.
However these follow each other, the samples are those of the steady run, in which every sample is
followed by a resumption, with some of them written more than once.

* `Stretch` : a list of samples as a stretched part of a sequence.
* `Voice.rounds` : the steady run.
* `Voice.outlook` : what the future of a voice depends on.
* `Voice.Caught` : the simulation. A voice is compared after the resumption that it is owed.
* `Caught.play`, `Timely.play` : what it means for any list of beats.
-/

namespace ControlVoltage

/-- From number `k` on, each sample is the next one of the sequence or the one written just before
it, which is `last` in the beginning. -/
inductive Stretch (samples : Nat → Float32) : Nat → Float32 → List Float32 → Prop
  | nil {k : Nat} {last : Float32} : Stretch samples k last []
  | again {k : Nat} {last : Float32} {xs : List Float32} (rest : Stretch samples k last xs) :
      Stretch samples k last (last :: xs)
  | next {k : Nat} {last : Float32} {xs : List Float32}
      (rest : Stretch samples (k + 1) (samples k) xs) : Stretch samples k last (samples k :: xs)

theorem Stretch.head {samples : Nat → Float32} {k : Nat} {last x : Float32} {xs : List Float32}
    (h : Stretch samples k last (x :: xs)) : x = last ∨ x = samples k := by
  cases h with
  | again => exact Or.inl rfl
  | next => exact Or.inr rfl

/-! ## Arrivals that nobody has noted -/

namespace Ramp

/-- The ramp with its arrival noted. -/
def quiet (ramp : Ramp) : Ramp :=
  { ramp with phase := if ramp.phase = .arrived then .idle else ramp.phase }

theorem quiet_quiet (ramp : Ramp) : ramp.quiet.quiet = ramp.quiet := by
  obtain ⟨current, start, target, total, remaining, curve, phase, generation⟩ := ramp
  cases phase <;> rfl

theorem current_quiet (ramp : Ramp) : ramp.quiet.current = ramp.current := rfl

theorem step_quiet (table : CurveTable) (ramp : Ramp) :
    (ramp.quiet.step table).1 = (ramp.step table).1 ∧
      (ramp.quiet.step table).2.quiet = (ramp.step table).2.quiet := by
  obtain ⟨current, start, target, total, remaining, curve, phase, generation⟩ := ramp
  cases phase <;> exact ⟨rfl, rfl⟩

theorem quiet_idle {ramp : Ramp} (h : ramp.phase ≠ .ramping) :
    Ramp.quiet { ramp with phase := .idle } = ramp.quiet := by
  obtain ⟨current, start, target, total, remaining, curve, phase, generation⟩ := ramp
  cases phase with
  | ramping => exact absurd rfl h
  | _ => rfl

end Ramp

namespace Player

variable {rate : Rate} {range : Range}

theorem run_quiet (budget : Nat) (p : Player) (ramp : Ramp) :
    ∃ ramp', run rate range budget p ramp.quiet =
        ((run rate range budget p ramp).1, (run rate range budget p ramp).2.1, ramp') ∧
      ramp'.quiet = (run rate range budget p ramp).2.2.quiet := by
  induction budget generalizing p with
  | zero => exact ⟨_, rfl, rfl⟩
  | succ budget ih =>
    rw [run, run]
    cases p.step rate range with
    | ramp segment q =>
      -- A new segment does not look at the phase of the old one.
      exact ⟨_, rfl, rfl⟩
    | moved q => exact ih q
    | parked => exact ⟨ramp.quiet, rfl, ramp.quiet_quiet⟩
    | ended => exact ⟨ramp.quiet, rfl, ramp.quiet_quiet⟩
    | corrupt fault => exact ⟨ramp.quiet, rfl, ramp.quiet_quiet⟩

theorem length_deeds_le (budget : Nat) (p : Player) :
    (deeds rate range budget p).length ≤ budget + 1 := by
  induction budget generalizing p with
  | zero => exact Nat.le_refl 1
  | succ budget ih =>
    rw [deeds]
    cases p.step rate range with
    | ramp segment q =>
      have := ih q
      by_cases instant : segment.ticks = 0
      · simp only [instant, if_true, List.length_cons]
        omega
      · simp [instant]
    | moved q =>
      have := ih q
      simp only [List.length_cons]
      omega
    | _ => simp

end Player

namespace Voice

variable {rig : Rig} {v w : Voice}

/-! ## What the future depends on -/

/-- The voice without what it has written, and with its arrival noted. -/
def outlook (v : Voice) : Voice := { v with ramp := v.ramp.quiet, written := 0 }

theorem sample_outlook (table : CurveTable) (range : Range) (v : Voice) :
    (v.outlook.sample table range).1 = (v.sample table range).1 ∧
      (v.outlook.sample table range).2.outlook = (v.sample table range).2.outlook := by
  obtain ⟨houtcome, hquiet⟩ : (v.outlook.ramp.step table).1 = (v.ramp.step table).1 ∧
      (v.outlook.ramp.step table).2.quiet = (v.ramp.step table).2.quiet :=
    v.ramp.step_quiet table
  have hcurrent : (v.outlook.ramp.step table).2.current = (v.ramp.step table).2.current := by
    simpa only [Ramp.current_quiet] using congrArg Ramp.current hquiet
  constructor
  · show range.clamp (v.quantizer.quantize (v.outlook.ramp.step table).2.current) = _
    rw [hcurrent]
    rfl
  · simp only [Voice.sample, houtcome]
    simp only [outlook] at hquiet ⊢
    rw [hquiet]

theorem walk_outlook (rig : Rig) (v : Voice) (p : Player) :
    (v.outlook.walk rig p v.outlook.ramp).1 = (v.walk rig p v.ramp).1 ∧
      (v.outlook.walk rig p v.outlook.ramp).2.outlook = (v.walk rig p v.ramp).2.outlook := by
  obtain ⟨ramp', hrun, hquiet⟩ : ∃ ramp', p.advance rig.rate rig.range v.ramp.quiet =
        ((p.advance rig.rate rig.range v.ramp).1, (p.advance rig.rate rig.range v.ramp).2.1, ramp') ∧
      ramp'.quiet = (p.advance rig.rate rig.range v.ramp).2.2.quiet :=
    Player.run_quiet _ _ _
  simp only [walk, hrun, outlook, hquiet, and_self]

theorem resume_outlook (rig : Rig) (v : Voice) :
    (v.outlook.after rig .resume).outlook = (v.after rig .resume).outlook := by
  have hready : v.outlook.ready? = v.ready? := rfl
  simp only [after, hready]
  cases v.ready? with
  | none =>
    simp only [outlook, Ramp.quiet_quiet]
  | some p =>
    obtain ⟨hresult, houtlook⟩ := walk_outlook rig v p
    obtain ⟨⟨result, v'⟩, hwalk⟩ : ∃ x, v.walk rig p v.ramp = x := ⟨_, rfl⟩
    obtain ⟨⟨result', w⟩, hwalk'⟩ : ∃ x, v.outlook.walk rig p v.outlook.ramp = x := ⟨_, rfl⟩
    simp only [hwalk, hwalk'] at hresult houtlook ⊢
    subst hresult
    cases result' with
    | error fault => exact congrArg (fun v : Voice => { v with player := none }) houtlook
    | ok progress => exact houtlook

/-! ## Waiting for the segment in flight -/

/-- What is kept however often the numbers of the segments come round: the segment that is waited for
is the one in flight, and it is the last completed one exactly when it has landed. -/
structure Timely (v : Voice) : Prop where
  sound : v.Sound
  awaited : ∀ p g, v.player = some p → p.awaiting = some g →
    v.ramp.generation = g ∧ (v.completed = g ↔ v.ramp.Landed)

theorem Awake.timely {n : Nat} (h : Awake n v) : v.Timely := ⟨h.sound, h.awaited⟩

theorem Timely.landed (h : v.Timely) {p : Player} (hready : v.ready? = some p) :
    v.completed = v.ramp.generation ∧ v.ramp.Landed := by
  obtain ⟨hp, hawaiting⟩ := player_of_ready hready
  obtain ⟨hgeneration, hlanded⟩ := h.awaited p v.completed hp hawaiting
  exact ⟨hgeneration.symm, hlanded.1 rfl⟩

theorem Timely.sample (h : v.Timely) : (v.after rig .sample).Timely := by
  refine ⟨h.sound.after trivial, fun p g hp hg => ?_⟩
  obtain ⟨hgeneration, hlanded⟩ := h.awaited p g hp hg
  have hramp : (v.after rig .sample).ramp = (v.ramp.step rig.table).2 := rfl
  rcases Ramp.step_cases rig.table v.ramp with
    ⟨-, houtcome, hstep⟩ | ⟨hphase, houtcome, -, -, hstep⟩ | ⟨hphase, houtcome, hstep⟩
  · have hcompleted : (v.after rig .sample).completed = v.ramp.generation := by
      simp only [Voice.after, Voice.sample, houtcome]
    rw [hcompleted, hramp, hstep]
    exact ⟨hgeneration, fun _ => ⟨by simp, rfl⟩, fun _ => hgeneration⟩
  · have hcompleted : (v.after rig .sample).completed = v.completed := by
      simp only [Voice.after, Voice.sample, houtcome]
    rw [hcompleted, hramp, hstep]
    exact ⟨hgeneration, fun same => absurd hphase (hlanded.1 same).1,
      fun landed => absurd hphase landed.1⟩
  · have hcompleted : (v.after rig .sample).completed = v.completed := by
      simp only [Voice.after, Voice.sample, houtcome]
    rw [hcompleted, hramp, hstep]
    exact ⟨hgeneration,
      hlanded.trans ⟨fun landed => ⟨by simp, landed.2⟩, fun landed => ⟨hphase, landed.2⟩⟩⟩

theorem Timely.resume_ready (h : v.Timely) {p : Player} (hready : v.ready? = some p) :
    (v.after rig .resume).Timely ∧ (v.after rig .resume).ready? = none := by
  obtain ⟨hcompleted, hlanded⟩ := h.landed hready
  obtain ⟨progress, q, hwalk, hsound, hrests⟩ := walk_of_sound rig v (h.sound.ready hready) v.ramp
  obtain ⟨ramp, hramp⟩ : ∃ ramp, (p.walkDeeds rig).foldl Deed.obey v.ramp = ramp := ⟨_, rfl⟩
  rw [hramp] at hwalk hrests
  have hafter : v.after rig .resume = { v with player := some q, ramp } := by
    simp only [Voice.after, hready, hwalk]
  -- A single walk is too short for the numbers to come round, so what it starts has a new one.
  have fresh : ramp.phase = .ramping → v.completed ≠ ramp.generation := by
    intro hphase same
    have started : (p.walkDeeds rig).countP Deed.starts ≠ 0 := by
      intro hzero
      rw [← hramp, Ramp.foldl_of_no_starts hzero] at hphase
      exact hlanded.1 hphase
    have few : (p.walkDeeds rig).countP Deed.starts ≤ Player.moveBudget + 1 :=
      List.countP_le_length.trans (Player.length_deeds_le _ _)
    rw [← hramp, Ramp.generation_foldl, hcompleted] at same
    have hzero : UInt32.ofNat ((p.walkDeeds rig).countP Deed.starts) = 0 :=
      UInt32.left_eq_add.1 same
    have hnumber := congrArg UInt32.toNat hzero
    rw [UInt32.toNat_ofNat_of_lt' (by
      have : Player.moveBudget + 1 < UInt32.size := by decide
      omega)] at hnumber
    exact started hnumber
  rw [hafter]
  have waits : ∀ g, q.awaiting = some g → ramp.generation = g ∧ ramp.phase = .ramping := by
    intro g hg
    cases progress with
    | waiting =>
      cases hrests.1.symm.trans hg
      exact ⟨rfl, hrests.2⟩
    | suspended => cases hrests.1.symm.trans hg
    | done => cases hrests.1.symm.trans hg
  refine ⟨⟨⟨h.sound.slew, fun q' hq' => by cases hq'; exact hsound⟩, fun q' g hq' hg => ?_⟩, ?_⟩
  · cases hq'
    obtain ⟨rfl, hphase⟩ := waits g hg
    exact ⟨rfl, fun same => absurd same (fresh hphase), fun landed => absurd hphase landed.1⟩
  · refine Option.filter_eq_none_iff.2 fun q' hq' => ?_
    cases hq'
    simp only [decide_eq_true_eq]
    intro hg
    obtain ⟨hgeneration, hphase⟩ := waits v.completed hg
    exact fresh hphase hgeneration.symm

theorem Timely.resume (h : v.Timely) : (v.after rig .resume).Timely := by
  cases hready : v.ready? with
  | none =>
    rw [after_resume_of_not_ready hready]
    exact h
  | some p => exact (h.resume_ready hready).1

theorem written_after {move : Move} (hmove : move ≠ .sample) :
    (v.after rig move).written = v.written := by
  rcases after_cases rig v move with rfl | ⟨seconds, curve, rfl⟩ | ⟨quantizer, rfl⟩ | ⟨player, ramp, h⟩
  · exact absurd rfl hmove
  · rfl
  · rfl
  · rw [h]

theorem written_resume (rig : Rig) (v : Voice) : (v.after rig .resume).written = v.written :=
  written_after (by simp)

theorem Timely.ready?_resume (h : v.Timely) : (v.after rig .resume).ready? = none := by
  cases hready : v.ready? with
  | none => rw [after_resume_of_not_ready hready, hready]
  | some p => exact (h.resume_ready hready).2

/-! ## Beats -/

/-- What can happen to a voice that is left to play. -/
inductive Beat where
  /-- The lock is held at a tick, and what was written last is written again. -/
  | skip
  | sample
  | resume
deriving DecidableEq

def Beat.moves : Beat → List Move
  | .skip => []
  | .sample => [.sample]
  | .resume => [.resume]

def beatMoves (beats : List Beat) : List Move := beats.flatMap Beat.moves

/-- What is written in a beat. -/
def Beat.heard (rig : Rig) (v : Voice) : Beat → List Float32
  | .resume => []
  | beat => [(v.run rig beat.moves).written]

def heard (rig : Rig) : Voice → List Beat → List Float32
  | _, [] => []
  | v, beat :: beats => beat.heard rig v ++ heard rig (v.run rig beat.moves) beats

/-- Whether a resumption comes before the first sample. -/
def resumedFirst : List Beat → Bool
  | .skip :: beats => resumedFirst beats
  | .resume :: _ => true
  | _ => false

/-- One advance of the walk: what it did, and the player after it. -/
structure Advance where
  deeds : List Deed
  player : Option Player

/-- The advance that a resumption would make now. -/
def due (rig : Rig) (v : Voice) : List Advance :=
  (v.ready?.map fun p => ⟨p.walkDeeds rig, (v.after rig .resume).player⟩).toList

def advances (rig : Rig) : Voice → List Move → List Advance
  | _, [] => []
  | v, .resume :: moves => v.due rig ++ advances rig (v.after rig .resume) moves
  | v, move :: moves => advances rig (v.after rig move) moves

theorem advances_append (rig : Rig) (v : Voice) (moves moves' : List Move) :
    advances rig v (moves ++ moves') =
      advances rig v moves ++ advances rig (v.run rig moves) moves' := by
  induction moves generalizing v with
  | nil => rfl
  | cons move moves ih =>
    have hrun : v.run rig (move :: moves) = (v.after rig move).run rig moves := rfl
    cases move <;> simp [advances, ih, hrun]

theorem due_of_not_ready (h : v.ready? = none) : v.due rig = [] := by
  simp [due, h]

/-! ## The steady run -/

def steady (n : Nat) : List Move := (List.replicate n [Move.sample, Move.resume]).flatten

def rounds (rig : Rig) (v : Voice) (n : Nat) : Voice := v.run rig (steady n)

def steadySample (rig : Rig) (v : Voice) (n : Nat) : Float32 :=
  ((v.rounds rig n).after rig .sample).written

theorem steady_succ (n : Nat) : steady (n + 1) = steady n ++ [.sample, .resume] := by
  simp [steady, List.replicate_succ']

theorem rounds_succ (rig : Rig) (v : Voice) (n : Nat) :
    v.rounds rig (n + 1) = ((v.rounds rig n).after rig .sample).after rig .resume := by
  rw [rounds, steady_succ, run, List.foldl_append]
  rfl

theorem Timely.rounds (h : v.Timely) (hready : v.ready? = none) (n : Nat) :
    (v.rounds rig n).Timely ∧ (v.rounds rig n).ready? = none := by
  induction n with
  | zero => exact ⟨h, hready⟩
  | succ n ih =>
    rw [rounds_succ]
    exact ⟨ih.1.sample.resume, ih.1.sample.ready?_resume⟩

theorem advances_steady_succ (rig : Rig) (v : Voice) (n : Nat) :
    advances rig v (steady (n + 1)) =
      advances rig v (steady n) ++ ((v.rounds rig n).after rig .sample).due rig := by
  rw [steady_succ, advances_append]
  simp [advances, rounds]

/-! ## What has the same outlook has the same future -/

theorem sample_congr (h : v.outlook = w.outlook) :
    (v.after rig .sample).written = (w.after rig .sample).written ∧
      (v.after rig .sample).outlook = (w.after rig .sample).outlook := by
  obtain ⟨hv, hv'⟩ := sample_outlook rig.table rig.range v
  obtain ⟨hw, hw'⟩ := sample_outlook rig.table rig.range w
  rw [h] at hv hv'
  exact ⟨hv.symm.trans hw, hv'.symm.trans hw'⟩

theorem resume_congr (h : v.outlook = w.outlook) :
    (v.after rig .resume).outlook = (w.after rig .resume).outlook := by
  rw [← resume_outlook rig v, ← resume_outlook rig w, h]

theorem due_congr (h : v.outlook = w.outlook) : v.due rig = w.due rig := by
  have same : ∀ u : Voice, u.due rig = u.outlook.due rig := by
    intro u
    have hready : u.outlook.ready? = u.ready? := rfl
    have hplayer : (u.outlook.after rig .resume).player = (u.after rig .resume).player := by
      have := congrArg Voice.player (resume_outlook rig u)
      exact this
    rw [due, due, hready, hplayer]
  rw [same v, same w, h]

theorem written_sample_again (h : (v.after rig .sample).ramp.phase ≠ .ramping) :
    ((v.after rig .sample).after rig .sample).written = (v.after rig .sample).written := by
  have hcurrent : ∀ ramp : Ramp, ramp.phase ≠ .ramping →
      (ramp.step rig.table).2.current = ramp.current := by
    intro ramp hphase
    rcases Ramp.step_cases rig.table ramp with ⟨hramping, -⟩ | ⟨hramping, -⟩ | ⟨-, -, hstep⟩
    · exact absurd hramping hphase
    · exact absurd hramping hphase
    · rw [hstep]
  show rig.range.clamp (v.quantizer.quantize
    (((v.after rig .sample).ramp.step rig.table).2.current)) = _
  rw [hcurrent _ h]
  rfl

theorem outlook_sample_of_landed (h : v.ramp.Landed) :
    (v.after rig .sample).outlook = v.outlook := by
  rcases Ramp.step_cases rig.table v.ramp with ⟨hramping, -⟩ | ⟨hramping, -⟩ | ⟨-, houtcome, hstep⟩
  · exact absurd hramping h.1
  · exact absurd hramping h.1
  · have hafter : v.after rig .sample =
        { v with
          ramp := { v.ramp with phase := .idle }
          written := rig.range.clamp (v.quantizer.quantize v.ramp.current) } := by
      simp only [Voice.after, Voice.sample, houtcome, hstep]
    rw [hafter]
    simp only [outlook]
    rw [Ramp.quiet_idle h.1]

/-! ## The simulation -/

/-- After the resumption that it is owed, `v` is as far as `v₀` after `k` rounds, with the advances
`done` behind it. As long as it is owed one, its next sample is what it has written last. -/
structure Caught (rig : Rig) (v₀ : Voice) (k : Nat) (done : List Advance) (v : Voice) : Prop where
  timely : v.Timely
  outlook : (v.after rig .resume).outlook = (v₀.rounds rig k).outlook
  settled : v.ready? ≠ none → (v.after rig .sample).written = v.written
  advances : v₀.advances rig (steady k) = done ++ v.due rig

variable {v₀ : Voice} {k : Nat} {done : List Advance}

theorem Timely.settled (h : v.Timely) (howed : (v.after rig .sample).ready? ≠ none) :
    ((v.after rig .sample).after rig .sample).written = (v.after rig .sample).written := by
  obtain ⟨p, hready⟩ := Option.ne_none_iff_exists'.1 howed
  exact written_sample_again (h.sample.landed hready).2.1

theorem Caught.resume (h : Caught rig v₀ k done v) :
    Caught rig v₀ k (done ++ v.due rig) (v.after rig .resume) := by
  have hready : (v.after rig .resume).ready? = none := h.timely.ready?_resume
  refine ⟨h.timely.resume, ?_, fun hnot => absurd hready hnot, ?_⟩
  · rw [after_resume_of_not_ready hready]
    exact h.outlook
  · rw [due_of_not_ready hready, List.append_nil]
    exact h.advances

theorem Caught.sample_owed (h : Caught rig v₀ k done v) (howed : v.ready? ≠ none) :
    Caught rig v₀ k done (v.after rig .sample) := by
  obtain ⟨p, hready⟩ := Option.ne_none_iff_exists'.1 howed
  have houtlook : (v.after rig .sample).outlook = v.outlook :=
    outlook_sample_of_landed (h.timely.landed hready).2
  refine ⟨h.timely.sample, (resume_congr houtlook).trans h.outlook, h.timely.settled, ?_⟩
  rw [due_congr houtlook]
  exact h.advances

theorem Caught.sample (h : Caught rig v₀ k done v) (hready : v.ready? = none) :
    (v.after rig .sample).written = v₀.steadySample rig k ∧
      Caught rig v₀ (k + 1) done (v.after rig .sample) := by
  have houtlook := h.outlook
  rw [after_resume_of_not_ready hready] at houtlook
  obtain ⟨hwritten, hsampled⟩ : (v.after rig .sample).written = v₀.steadySample rig k ∧
      (v.after rig .sample).outlook = ((v₀.rounds rig k).after rig .sample).outlook :=
    sample_congr houtlook
  refine ⟨hwritten, h.timely.sample, ?_, h.timely.settled, ?_⟩
  · rw [rounds_succ]
    exact resume_congr hsampled
  · rw [advances_steady_succ, h.advances, due_of_not_ready hready, List.append_nil,
      due_congr hsampled]

theorem Caught.play (h : Caught rig v₀ k done v) (beats : List Beat) :
    Stretch (v₀.steadySample rig) k v.written (heard rig v beats) ∧
      ∃ k', Caught rig v₀ k' (done ++ v.advances rig (beatMoves beats))
        (v.run rig (beatMoves beats)) := by
  induction beats generalizing v k done with
  | nil =>
    refine ⟨.nil, k, ?_⟩
    show Caught rig v₀ k (done ++ []) v
    rw [List.append_nil]
    exact h
  | cons beat beats ih =>
    cases beat with
    | skip =>
      obtain ⟨hstretch, hcaught⟩ := ih h
      exact ⟨.again hstretch, hcaught⟩
    | resume =>
      obtain ⟨hstretch, k', hcaught⟩ := ih h.resume
      rw [written_resume] at hstretch
      refine ⟨hstretch, k', ?_⟩
      rw [List.append_assoc] at hcaught
      exact hcaught
    | sample =>
      cases hready : v.ready? with
      | none =>
        obtain ⟨hwritten, hnext⟩ := h.sample hready
        obtain ⟨hstretch, hcaught⟩ := ih hnext
        refine ⟨?_, hcaught⟩
        rw [hwritten] at hstretch
        show Stretch _ k v.written ((v.after rig .sample).written :: heard rig _ beats)
        rw [hwritten]
        exact .next hstretch
      | some p =>
        have howed : v.ready? ≠ none := by simp [hready]
        obtain ⟨hstretch, hcaught⟩ := ih (h.sample_owed howed)
        refine ⟨?_, hcaught⟩
        have hwritten := h.settled howed
        rw [hwritten] at hstretch
        show Stretch _ k v.written ((v.after rig .sample).written :: heard rig _ beats)
        rw [hwritten]
        exact .again hstretch

theorem Timely.caught (h : v.Timely) (hready : v.ready? = none) : Caught rig v 0 [] v := by
  refine ⟨h, ?_, fun hnot => absurd hready hnot, ?_⟩
  · rw [after_resume_of_not_ready hready]
    rfl
  · rw [due_of_not_ready hready]
    rfl

theorem Timely.caught_sample (h : v.Timely) : Caught rig v 1 [] (v.after rig .sample) :=
  ⟨h.sample, rfl, h.settled, List.append_nil _⟩

theorem Timely.caught_resume (h : v.Timely) {p : Player} (hready : v.ready? = some p) :
    Caught rig v 1 (v.due rig) (v.after rig .resume) := by
  have hresumed : (v.after rig .resume).ready? = none := h.ready?_resume
  have houtlook : (v.after rig .sample).outlook = v.outlook :=
    outlook_sample_of_landed (h.landed hready).2
  refine ⟨h.resume, ?_, fun hnot => absurd hresumed hnot, ?_⟩
  · rw [after_resume_of_not_ready hresumed]
    exact (resume_congr houtlook).symm
  · rw [due_of_not_ready hresumed, advances_steady_succ, List.append_nil]
    exact due_congr houtlook

theorem Caught.behind (h : Caught rig v₀ k done v) :
    ∃ n, done <+: v₀.advances rig (steady n) :=
  ⟨k, v.due rig, h.advances.symm⟩

/-- Any beats stretch the steady run. The one sample that can be left out is the first, and only when
the voice is owed a resumption from the start and gets it before any sample. -/
theorem Timely.play (h : v.Timely) (beats : List Beat) :
    Stretch (v.steadySample rig) (if v.ready?.isSome && resumedFirst beats then 1 else 0) v.written
        (heard rig v beats) ∧
      ∃ n, v.advances rig (beatMoves beats) <+: v.advances rig (steady n) := by
  cases hready : v.ready? with
  | none =>
    obtain ⟨hstretch, k, hcaught⟩ := (h.caught hready).play beats
    exact ⟨hstretch, hcaught.behind⟩
  | some p =>
    simp only [Option.isSome_some, Bool.true_and]
    induction beats with
    | nil => exact ⟨.nil, 0, [], rfl⟩
    | cons beat beats ih =>
      cases beat with
      | skip => exact ⟨.again ih.1, ih.2⟩
      | sample =>
        obtain ⟨hstretch, k, hcaught⟩ := h.caught_sample.play beats
        exact ⟨.next hstretch, hcaught.behind⟩
      | resume =>
        obtain ⟨hstretch, k, hcaught⟩ := (h.caught_resume hready).play beats
        rw [written_resume] at hstretch
        exact ⟨hstretch, hcaught.behind⟩

end Voice

end ControlVoltage
