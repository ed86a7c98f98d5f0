import ControlVoltage.Proofs.Voice.Timing

/-!
# Voices that differ in their numbers only

Two voices may have come to the same by different ways. Then the numbers of their segments differ,
and nothing that can be observed does: a number is only ever compared with another one of the same
voice.

* `Ramp.plain`, `Player.plain`, `Voice.plain` : without the numbers, and without the curve of a
  segment that is over.
* `Voice.endsIn` : whether the walk comes to its end in one of several moves.
* `Voice.Twin` : the same but for the numbers, and both ready or neither.
* `Twin.run` : what is the same before a move is the same after it.
* `Timely.twin` : where no numbers have come round, being ready can be seen without them.
* `Voice.Restartable` : what two voices have in common if a restart makes them the same.
-/

namespace ControlVoltage

/-! ## Ramps -/

namespace Ramp

/-- The ramp without its number, and without the curve of a segment that is over. -/
def plain (ramp : Ramp) : Ramp :=
  { ramp with generation := 0, curve := if ramp.phase = .ramping then ramp.curve else .linear }

variable {ramp ramp' : Ramp}

theorem plain_eq_iff : ramp.plain = ramp'.plain ↔
    ramp.current = ramp'.current ∧ ramp.start = ramp'.start ∧ ramp.target = ramp'.target ∧
      ramp.total = ramp'.total ∧ ramp.remaining = ramp'.remaining ∧ ramp.phase = ramp'.phase ∧
      (ramp.phase = .ramping → ramp.curve = ramp'.curve) := by
  obtain ⟨current, start, target, total, remaining, curve, phase, generation⟩ := ramp
  obtain ⟨current', start', target', total', remaining', curve', phase', generation'⟩ := ramp'
  cases phase <;> cases phase' <;> simp [plain]

theorem toward_plain (h : ramp.current = ramp'.current) (segment : Segment) :
    (ramp.toward segment).plain = (ramp'.toward segment).plain := by
  simp only [toward, plain, h]
  rfl

theorem hold_plain (h : ramp.current = ramp'.current) : ramp.hold.plain = ramp'.hold.plain := by
  simp [hold, plain, h]

theorem obey_plain (h : ramp.plain = ramp'.plain) (deed : Deed) :
    (deed.obey ramp).plain = (deed.obey ramp').plain := by
  obtain ⟨hcurrent, -, htarget, -⟩ := plain_eq_iff.1 h
  cases deed with
  | hold => exact hold_plain hcurrent
  | ramp segment => exact toward_plain hcurrent segment
  | pause =>
    simp only [Deed.obey, htarget]
    exact toward_plain hcurrent _
  | release => exact h
  | move => exact h

theorem foldl_obey_plain (h : ramp.plain = ramp'.plain) (deeds : List Deed) :
    (deeds.foldl Deed.obey ramp).plain = (deeds.foldl Deed.obey ramp').plain := by
  induction deeds generalizing ramp ramp' with
  | nil => exact h
  | cons deed deeds ih => exact ih (obey_plain h deed)

theorem step_plain (h : ramp.plain = ramp'.plain) (table : CurveTable) :
    (ramp.step table).2.plain = (ramp'.step table).2.plain := by
  obtain ⟨current, start, target, total, remaining, curve, phase, generation⟩ := ramp
  obtain ⟨current', start', target', total', remaining', curve', phase', generation'⟩ := ramp'
  obtain ⟨hcurrent, hstart, htarget, htotal, hremaining, hphase, hcurve⟩ := plain_eq_iff.1 h
  simp only at hcurrent hstart htarget htotal hremaining hphase hcurve
  subst hcurrent hstart htarget htotal hremaining hphase
  cases phase with
  | idle => rfl
  | arrived => rfl
  | ramping =>
    obtain rfl := hcurve rfl
    by_cases last : (if remaining = 0 then 0 else remaining - 1) = 0
    · simp only [step, last, if_true]
      rfl
    · simp only [step, last, if_false]
      rfl

end Ramp

/-! ## Walks -/

namespace Player

/-- The player without the number of the segment that it waits for. -/
def plain (p : Player) : Player := p.await (p.awaiting.map fun _ => 0)

variable {rate : Rate} {range : Range}

theorem run_plain (budget : Nat) (p : Player) (ramp ramp' : Ramp) :
    (run rate range budget p ramp).1 = (run rate range budget p ramp').1 ∧
      (run rate range budget p ramp).2.1.plain = (run rate range budget p ramp').2.1.plain := by
  induction budget generalizing p ramp ramp' with
  | zero => exact ⟨rfl, rfl⟩
  | succ budget ih =>
    simp only [run]
    cases p.step rate range with
    | ramp segment q =>
      by_cases instant : segment.ticks = 0
      · simp only [instant, if_true]
        exact ih q _ _
      · simp only [instant, if_false]
        exact ⟨trivial, rfl⟩
    | moved q => exact ih q ramp ramp'
    | parked => exact ⟨rfl, rfl⟩
    | ended => exact ⟨rfl, rfl⟩
    | corrupt fault => exact ⟨rfl, rfl⟩

theorem triggered_plain (p : Player) (action : Action) :
    (Engine.triggered p.plain action).plain = (Engine.triggered p action).plain := by
  obtain ⟨program, cells, stack, holding, locked, awaiting⟩ := p
  cases action <;> cases awaiting <;> cases holding <;> rfl

theorem cells_plain (p : Player) : p.plain.cells = p.cells := rfl

theorem respond_plain (p : Player) (action : Action) :
    Engine.respond p.plain action = Engine.respond p action := by
  cases action <;> rfl

theorem of_map_plain {o o' : Option Player} (h : o.map plain = o'.map plain) :
    o = none ∧ o' = none ∨ ∃ p q, o = some p ∧ o' = some q ∧ p.plain = q.plain := by
  cases o with
  | none => exact .inl ⟨rfl, Option.map_eq_none_iff.1 h.symm⟩
  | some p =>
    obtain ⟨q, hq, hpq⟩ := Option.map_eq_some_iff.1 h.symm
    exact .inr ⟨p, q, rfl, hq, hpq.symm⟩

theorem map_plain {f : Player → Player} (hf : ∀ p, (f p.plain).plain = (f p).plain)
    {o o' : Option Player} (h : o.map plain = o'.map plain) :
    (o.map f).map plain = (o'.map f).map plain := by
  rcases of_map_plain h with ⟨rfl, rfl⟩ | ⟨p, q, rfl, rfl, hpq⟩
  · rfl
  · simp only [Option.map_some]
    rw [← hf p, ← hf q, hpq]

theorem advance_eq (p : Player) (ramp : Ramp) :
    p.advance rate range ramp = run rate range moveBudget (p.await none) ramp := rfl

end Player

/-! ## Voices -/

namespace Voice

/-- The voice without the numbers of its segments, and without the curve of a segment that is
over. -/
def plain (v : Voice) : Voice :=
  { v with ramp := v.ramp.plain, completed := 0, player := v.player.map Player.plain }

variable {rig : Rig} {v w : Voice}

/-- What a walk does not change is the same in both. -/
structure Alike (v w : Voice) : Prop where
  quantizer : v.quantizer = w.quantizer
  written : v.written = w.written
  slew : v.slew = w.slew
  slewCurve : v.slewCurve = w.slewCurve

theorem plain_eq_iff : v.plain = w.plain ↔
    v.Alike w ∧ v.ramp.plain = w.ramp.plain ∧
      v.player.map Player.plain = w.player.map Player.plain := by
  simp only [plain, Voice.mk.injEq, true_and]
  constructor
  · rintro ⟨hramp, hquantizer, hwritten, hplayer, hslew, hcurve⟩
    exact ⟨⟨hquantizer, hwritten, hslew, hcurve⟩, hramp, hplayer⟩
  · rintro ⟨⟨hquantizer, hwritten, hslew, hcurve⟩, hramp, hplayer⟩
    exact ⟨hramp, hquantizer, hwritten, hplayer, hslew, hcurve⟩

/-- Whether the walk comes to its end in one of several moves. -/
def endsIn (rig : Rig) : Voice → List Move → Bool
  | _, [] => false
  | v, move :: moves => v.ends rig move || endsIn rig (v.after rig move) moves

/-- The same but for the numbers, and both ready or neither. -/
structure Twin (v w : Voice) : Prop where
  plain : v.plain = w.plain
  ready : v.ready?.isSome = w.ready?.isSome

theorem Twin.refl (v : Voice) : Twin v v := ⟨rfl, rfl⟩

theorem Alike.walk (h : v.Alike w) {p q : Player} (hpq : p.plain = q.plain)
    {ramp ramp' : Ramp} (hramp : ramp.plain = ramp'.plain) :
    (v.walk rig p ramp).1 = (w.walk rig q ramp').1 ∧
      (v.walk rig p ramp).2.plain = (w.walk rig q ramp').2.plain := by
  have hawait : p.await none = q.await none := by
    show p.plain.await none = q.plain.await none
    rw [hpq]
  have hdeeds : p.walkDeeds rig = q.walkDeeds rig := by
    rw [Player.walkDeeds, Player.walkDeeds, hawait]
  obtain ⟨hresult, hplayer⟩ : (p.advance rig.rate rig.range ramp).1 =
        (q.advance rig.rate rig.range ramp').1 ∧
      (p.advance rig.rate rig.range ramp).2.1.plain =
        (q.advance rig.rate rig.range ramp').2.1.plain := by
    rw [Player.advance_eq, Player.advance_eq, hawait]
    exact Player.run_plain _ _ _ _
  refine ⟨hresult, plain_eq_iff.2 ⟨⟨h.quantizer, h.written, h.slew, h.slewCurve⟩, ?_, ?_⟩⟩
  · rw [walk_ramp, walk_ramp, hdeeds]
    exact Ramp.foldl_obey_plain hramp _
  · rw [walk_player, walk_player]
    exact congrArg some hplayer

theorem triggered?_plain (h : v.plain = w.plain) (action : Action) :
    (v.triggered? action).map Player.plain = (w.triggered? action).map Player.plain := by
  have through : ∀ u : Voice, (u.triggered? action).map Player.plain =
      (u.plain.triggered? action).map Player.plain := by
    intro u
    have hplayer : u.plain.player = u.player.map Player.plain := rfl
    unfold triggered?
    rw [hplayer]
    cases u.player with
    | none => rfl
    | some p =>
      simp only [Option.map_some, Option.filter, Player.respond_plain]
      split
      · exact congrArg some (p.triggered_plain action).symm
      · rfl
  rw [through v, through w, h]

theorem after_plain (h : v.plain = w.plain) {move : Move} (hmove : move ≠ .resume) :
    (v.after rig move).plain = (w.after rig move).plain ∧ v.ends rig move = w.ends rig move := by
  obtain ⟨alike, hramp, hplayer⟩ := plain_eq_iff.1 h
  obtain ⟨hquantizer, hwritten, hslew, hcurve⟩ := id alike
  obtain ⟨hcurrent, -⟩ := Ramp.plain_eq_iff.1 hramp
  cases move with
  | resume => exact absurd rfl hmove
  | sample =>
    have hstep := Ramp.step_plain hramp rig.table
    obtain ⟨hnext, -⟩ := Ramp.plain_eq_iff.1 hstep
    refine ⟨plain_eq_iff.2 ⟨⟨hquantizer, ?_, hslew, hcurve⟩, hstep, hplayer⟩, rfl⟩
    simp only [written_sample, hquantizer, hnext]
  | load program =>
    exact ⟨plain_eq_iff.2 ⟨⟨hquantizer, hwritten, hslew, hcurve⟩, hramp, rfl⟩, rfl⟩
  | clear =>
    exact ⟨plain_eq_iff.2
      ⟨⟨hquantizer, hwritten, hslew, hcurve⟩, Ramp.hold_plain hcurrent, rfl⟩, rfl⟩
  | trigger action =>
    simp only [Voice.after, ends]
    rcases Player.of_map_plain (triggered?_plain h action) with ⟨hv, hw⟩ | ⟨p, q, hv, hw, hpq⟩
    · simp only [hv, hw, Option.any_none, and_true]
      by_cases unlock : action = .unlock
      · simp only [unlock, if_true]
        exact plain_eq_iff.2 ⟨⟨hquantizer, hwritten, hslew, hcurve⟩, hramp,
          Player.map_plain (fun p => by simp [Player.plain, Player.await, Function.comp_def]) hplayer⟩
      · simp only [unlock, if_false]
        exact h
    · obtain ⟨hresult, hwalk⟩ : (v.walk rig p v.ramp.hold).1 = (w.walk rig q w.ramp.hold).1 ∧ _ :=
        alike.walk hpq (Ramp.hold_plain hcurrent)
      simp only [hv, hw, Option.any_some, hresult]
      exact ⟨hwalk, trivial⟩
  | setSlew seconds curve =>
    exact ⟨plain_eq_iff.2 ⟨⟨hquantizer, hwritten, rfl, rfl⟩, hramp, hplayer⟩, rfl⟩
  | setQuantizer quantizer =>
    exact ⟨plain_eq_iff.2 ⟨⟨rfl, hwritten, hslew, hcurve⟩, hramp, hplayer⟩, rfl⟩
  | setCell name value =>
    exact ⟨plain_eq_iff.2 ⟨⟨hquantizer, hwritten, hslew, hcurve⟩, hramp,
      Player.map_plain (fun p => by simp [Player.plain, Player.await, Function.comp_def]) hplayer⟩, rfl⟩

theorem Twin.resume (h : Twin v w) :
    (v.after rig .resume).plain = (w.after rig .resume).plain ∧
      v.ends rig .resume = w.ends rig .resume := by
  obtain ⟨hplain, hready⟩ := h
  obtain ⟨alike, hramp, hplayer⟩ := plain_eq_iff.1 hplain
  cases hv : v.ready? with
  | none =>
    have hw : w.ready? = none := by simpa [hv] using hready.symm
    rw [after_resume_of_not_ready hv, after_resume_of_not_ready hw]
    exact ⟨hplain, by simp [ends, hv, hw]⟩
  | some p =>
    obtain ⟨q, hw⟩ : ∃ q, w.ready? = some q := Option.isSome_iff_exists.1 (by simp [← hready, hv])
    have hpq : p.plain = q.plain := by
      rw [(player_of_ready hv).1, (player_of_ready hw).1] at hplayer
      exact Option.some.inj hplayer
    obtain ⟨hresult, hwalk⟩ : (v.walk rig p v.ramp).1 = (w.walk rig q w.ramp).1 ∧
        (v.walk rig p v.ramp).2.plain = (w.walk rig q w.ramp).2.plain :=
      alike.walk hpq hramp
    simp only [Voice.after, ends, hv, hw, Option.any_some, hresult, and_true]
    obtain ⟨⟨result, v'⟩, hv'⟩ : ∃ x, v.walk rig p v.ramp = x := ⟨_, rfl⟩
    obtain ⟨⟨result', w'⟩, hw'⟩ : ∃ x, w.walk rig q w.ramp = x := ⟨_, rfl⟩
    rw [hv', hw'] at hresult hwalk
    obtain rfl : result = result' := hresult
    rw [hv', hw']
    cases result with
    | error fault =>
      obtain ⟨⟨hquantizer, hwritten, hslew, hcurve⟩, hramp, -⟩ := plain_eq_iff.1 hwalk
      exact plain_eq_iff.2 ⟨⟨hquantizer, hwritten, hslew, hcurve⟩, hramp, rfl⟩
    | ok progress => exact hwalk

theorem run_plain (h : v.plain = w.plain) {moves : List Move} (hmoves : .resume ∉ moves) :
    (v.run rig moves).plain = (w.run rig moves).plain ∧
      v.endsIn rig moves = w.endsIn rig moves := by
  induction moves generalizing v w with
  | nil => exact ⟨h, rfl⟩
  | cons move moves ih =>
    obtain ⟨hmove, hrest⟩ := not_or.1 (mt List.mem_cons.2 hmoves)
    obtain ⟨hafter, hends⟩ : (v.after rig move).plain = (w.after rig move).plain ∧
        v.ends rig move = w.ends rig move := after_plain h (Ne.symm hmove)
    obtain ⟨hrun, hendsIn⟩ := ih hafter hrest
    exact ⟨hrun, by rw [endsIn, endsIn, hends, hendsIn]⟩

theorem Twin.run (h : Twin v w) {moves : List Move}
    (hmoves : moves = [.resume] ∨ .resume ∉ moves) :
    (v.run rig moves).plain = (w.run rig moves).plain ∧
      v.endsIn rig moves = w.endsIn rig moves := by
  rcases hmoves with rfl | hmoves
  · obtain ⟨hafter, hends⟩ : (v.after rig .resume).plain = (w.after rig .resume).plain ∧
        v.ends rig .resume = w.ends rig .resume := h.resume
    exact ⟨hafter, by rw [endsIn, endsIn, hends, endsIn, endsIn]⟩
  · exact run_plain h.plain hmoves

/-! ## Readiness -/

theorem Timely.isSome_ready? (h : v.Timely) : v.ready?.isSome = true ↔
    (∃ p, v.player = some p ∧ p.awaiting.isSome = true) ∧ v.ramp.Landed := by
  constructor
  · intro hready
    obtain ⟨p, hready⟩ := Option.isSome_iff_exists.1 hready
    obtain ⟨hp, hawaiting⟩ := player_of_ready hready
    exact ⟨⟨p, hp, by rw [hawaiting]; rfl⟩, (h.awaited p _ hp hawaiting).2.1 rfl⟩
  · rintro ⟨⟨p, hp, hawaiting⟩, landed⟩
    obtain ⟨g, hg⟩ := Option.isSome_iff_exists.1 hawaiting
    have hcompleted := (h.awaited p g hp hg).2.2 landed
    simp [ready?, hp, hg, hcompleted]

theorem Timely.twin (hv : v.Timely) (hw : w.Timely) (h : v.plain = w.plain) : Twin v w := by
  obtain ⟨-, hramp, hplayer⟩ := plain_eq_iff.1 h
  obtain ⟨hcurrent, -, htarget, -, -, hphase, -⟩ := Ramp.plain_eq_iff.1 hramp
  refine ⟨h, Bool.eq_iff_iff.2 ?_⟩
  have hlanded : v.ramp.Landed ↔ w.ramp.Landed := by
    simp only [Ramp.Landed, hcurrent, htarget, hphase]
  rw [hv.isSome_ready?, hw.isSome_ready?, hlanded]
  refine and_congr_left fun _ => ?_
  rcases Player.of_map_plain hplayer with ⟨hv, hw⟩ | ⟨p, q, hv, hw, hpq⟩
  · simp [hv, hw]
  · have hwaits : p.awaiting.isSome = q.awaiting.isSome := by
      simpa [Player.plain, Player.await] using congrArg (fun p => p.awaiting.isSome) hpq
    simp [hv, hw, hwaits]

/-! ## Restarts -/

/-- What two voices have in common if an accepted restart makes them the same: the settings, the
voltages that they are on and have written last, and the program with its cells. -/
structure Restartable (v w : Voice) : Prop extends Alike v w where
  current : v.ramp.current = w.ramp.current
  player : ∃ p q, v.player = some p ∧ w.player = some q ∧ p.program = q.program ∧
    p.cells = q.cells ∧ p.locked = false ∧ q.locked = false

theorem Restartable.walk (h : v.Restartable w) (rig : Rig) :
    ∃ p q, v.player = some p ∧ w.player = some q ∧ p.locked = false ∧ q.locked = false ∧
      (v.walk rig p.restart v.ramp.hold).1 = (w.walk rig q.restart w.ramp.hold).1 ∧
      (v.walk rig p.restart v.ramp.hold).2.plain = (w.walk rig q.restart w.ramp.hold).2.plain := by
  obtain ⟨p, q, hp, hq, hprogram, hcells, unlocked, unlocked'⟩ := h.player
  have same : p.restart = q.restart := by
    simp only [Player.restart, hprogram, hcells]
  exact ⟨p, q, hp, hq, unlocked, unlocked',
    h.toAlike.walk (congrArg Player.plain same) (Ramp.hold_plain h.current)⟩

/-- A restart leaves nothing of the past but the numbers. -/
theorem Restartable.restart (h : v.Restartable w) :
    (v.after rig (.trigger .restart)).plain = (w.after rig (.trigger .restart)).plain ∧
      v.ends rig (.trigger .restart) = w.ends rig (.trigger .restart) := by
  obtain ⟨p, q, hp, hq, unlocked, unlocked', hresult, hwalk⟩ := h.walk rig
  simp only [Voice.after, ends, triggered_restart hp unlocked, triggered_restart hq unlocked',
    Option.any_some, hresult, and_true]
  exact hwalk

end Voice

end ControlVoltage
