import ControlVoltage.Proofs.Engine.Account

/-!
# A restart forgets the past

What a channel was doing before a restart cannot be seen after it: where its program stood, whether
it was holding or waiting, and what became of its last segment. Only the numbers of the segments
tell the difference, and they are never seen.

* `Engine.after_twins` : one move of two engines in which the channel differs in its numbers only.
* `Engine.account_twins` : a run, as long as the numbers do not come round.
* `Engine.restart_congr` : the restart itself.
* `Engine.restart_forgets` : what two pasts have in common after a restart.
-/

namespace ControlVoltage.Engine

variable {e e' : Engine} {c : Channel}

theorem after_twins (hrig : e'.rig = e.rig) (hcontext : e'.context = e.context)
    (twin : (e.voice c).Twin (e'.voice c)) (move : Move) :
    e'.entryOf c move = e.entryOf c move ∧
      ((e.after move).voice c).plain = ((e'.after move).voice c).plain := by
  have hvoices := (after_voice e' move).2 c
  rw [(after_voice e move).2 c, hvoices, hrig]
  cases hpart : part? c e.context move with
  | none =>
    have hpart' : part? c e'.context move = none := by rw [hcontext, hpart]
    obtain ⟨hentry, hshare⟩ : e.entryOf c move = none ∧ e.shareOf c move = [] := of_part?_none hpart
    obtain ⟨hentry', hshare'⟩ : e'.entryOf c move = none ∧ e'.shareOf c move = [] :=
      of_part?_none hpart'
    rw [hentry, hentry', hshare, hshare']
    exact ⟨rfl, twin.plain⟩
  | some part =>
    have hpart' : part? c e'.context move = some part := by rw [hcontext, hpart]
    obtain ⟨hshare, hentry⟩ := entryOf_congr hrig hpart hpart' twin
    rw [hshare]
    exact ⟨hentry, (twin.run (e.shareOf_resume c move)).1⟩

/-- As long as the numbers do not come round, a run does the same to voices that differ in them only,
and lets the same be seen of them. -/
theorem account_twins (hrig : e'.rig = e.rig) (hcontext : e'.context = e.context)
    (hplain : (e.voice c).plain = (e'.voice c).plain) {moves : List Move}
    (timely : ∀ part, part <+: moves →
      ((e.run part).voice c).Timely ∧ ((e'.run part).voice c).Timely) :
    account c e moves = account c e' moves ∧
      ((e.run moves).voice c).plain = ((e'.run moves).voice c).plain := by
  induction moves generalizing e e' with
  | nil => exact ⟨rfl, hplain⟩
  | cons move moves ih =>
    obtain ⟨htimely, htimely'⟩ := timely [] (List.nil_prefix)
    have twin : (e.voice c).Twin (e'.voice c) := htimely.twin htimely' hplain
    obtain ⟨hentry, hnext⟩ := after_twins hrig hcontext twin move
    have hrig₁ : (e'.after move).rig = (e.after move).rig := by
      rw [(after_voice e' move).1, (after_voice e move).1, hrig]
    have hcontext₁ : (e'.after move).context = (e.after move).context := by
      rw [context_after, context_after, hcontext]
    obtain ⟨haccount, hrun⟩ := ih hrig₁ hcontext₁ hnext fun part hpart =>
      timely (move :: part) (List.cons_prefix_cons.2 ⟨rfl, hpart⟩)
    rw [account, account, hentry, haccount]
    exact ⟨rfl, hrun⟩

theorem restart_congr (hrig : e'.rig = e.rig) {locks : Locks} (granted : e.grants locks c = true)
    (granted' : e'.grants locks c = true) (same : (e.voice c).Restartable (e'.voice c)) :
    let restart := Move.perform locks (.trigger c .restart)
    e'.entryOf c restart = e.entryOf c restart ∧
      ((e.after restart).voice c).plain = ((e'.after restart).voice c).plain := by
  intro restart
  obtain ⟨hplain, hends⟩ : ((e.voice c).after e.rig (.trigger .restart)).plain =
        ((e'.voice c).after e.rig (.trigger .restart)).plain ∧
      (e.voice c).ends e.rig (.trigger .restart) = (e'.voice c).ends e.rig (.trigger .restart) :=
    same.restart
  have hanswer : (e.voice c).answer e.rig c true .restart =
    (e'.voice c).answer e.rig c true .restart := same.answer c
  have hsight : e'.sight? c restart = e.sight? c restart := by
    simp only [restart, sight?, sight, perform, perform.answer, trigger_fst, granted, granted', hrig,
      hanswer]
  refine ⟨?_, ?_⟩
  · simp only [entryOf, hsight, count_queued, restart, shareOf_restart granted,
      shareOf_restart granted', Voice.endsIn, hrig, hends]
  · rw [(after_voice e restart).2 c, (after_voice e' restart).2 c, shareOf_restart granted,
      shareOf_restart granted', hrig]
    exact hplain

theorem account_restart (hrig : e'.rig = e.rig) (hcontext : e'.context = e.context) {locks : Locks}
    (granted : e.grants locks c = true) (same : (e.voice c).Restartable (e'.voice c))
    {moves : List Move}
    (timely : ∀ part, part <+: moves →
      ((e.run (.perform locks (.trigger c .restart) :: part)).voice c).Timely ∧
        ((e'.run (.perform locks (.trigger c .restart) :: part)).voice c).Timely) :
    let again := .perform locks (.trigger c .restart) :: moves
    account c e again = account c e' again ∧
      ((e.run again).voice c).plain = ((e'.run again).voice c).plain := by
  intro again
  have granted' : e'.grants locks c = true := (grants_congr hcontext rfl).trans granted
  obtain ⟨hentry, hplain⟩ := restart_congr hrig granted granted' same
  have hrig₁ : (e'.after (.perform locks (.trigger c .restart))).rig =
      (e.after (.perform locks (.trigger c .restart))).rig := by
    rw [(after_voice e' _).1, (after_voice e _).1, hrig]
  have hcontext₁ : (e'.after (.perform locks (.trigger c .restart))).context =
      (e.after (.perform locks (.trigger c .restart))).context := by
    rw [context_after, context_after, hcontext]
  obtain ⟨haccount, hrun⟩ := account_twins hrig₁ hcontext₁ hplain timely
  simp only [again, account, hentry, haccount, true_and]
  exact hrun

section forgets

variable (rate : Rate) (range : Range) (capacity capacity' : Nat) (f : Transcendental) (c : Channel)

theorem timely_part {past again part : List Move}
    (few : ((fresh rate range capacity f).log c (past ++ again)).countP Deed.starts < 2 ^ 32)
    (hpart : part <+: again) :
    ((((fresh rate range capacity f).run past).run part).voice c).Timely := by
  obtain ⟨rest, rfl⟩ := hpart
  rw [← run_append]
  refine timely_of_few rate range capacity f c (past ++ part) ?_
  rw [← List.append_assoc, log_append, List.countP_append] at few
  omega

/-- A restart forgets the past. Two runs from a fresh engine of the same rate and range leave a
channel with the same program, the same cells, slew, scale, present voltage and voltage written last,
and not locked; where its program stands, whether it holds or waits, and what its ramp is up to is
arbitrary. Then the same side restarts the channel with its lock to be had, and the same moves follow;
in all of either run the channel starts fewer than `2 ^ 32` segments and holds. From the restart on,
the same is seen of the channel: the same samples, the same answers, the same resumptions, and the
same ends at the same places; and it is left with the same cells, and the same of everything else
that is not the number of a segment. -/
theorem restart_forgets {past past' : List Move} {e e' : Engine}
    (he : e = (fresh rate range capacity f).run past)
    (he' : e' = (fresh rate range capacity' f).run past')
    (same : (e.voice c).Restartable (e'.voice c)) (context : Context) (locks : Locks)
    (granted : access context (locks c) ≠ .refused) (moves : List Move) :
    let again := .switch context :: .perform locks (.trigger c .restart) :: moves
    ((fresh rate range capacity f).log c (past ++ again)).countP Deed.starts < 2 ^ 32 →
    ((fresh rate range capacity' f).log c (past' ++ again)).countP Deed.starts < 2 ^ 32 →
    account c e again = account c e' again ∧
      ((e.run again).voice c).plain = ((e'.run again).voice c).plain := by
  intro again few few'
  have hrig : (e'.after (.switch context)).rig = (e.after (.switch context)).rig := by
    show e'.rig = e.rig
    rw [he, he', (voice_run _ c past).1, (voice_run _ c past').1]
    rfl
  have hgrants : (e.after (.switch context)).grants locks c = true := by
    simp only [grants, decide_eq_true_eq]
    exact granted
  -- The switch itself lets nothing be seen.
  refine account_restart hrig rfl hgrants same fun part hpart => ?_
  have hagain : .switch context :: .perform locks (.trigger c .restart) :: part <+: again :=
    List.cons_prefix_cons.2 ⟨rfl, List.cons_prefix_cons.2 ⟨rfl, hpart⟩⟩
  rw [he, he']
  exact ⟨timely_part rate range capacity f c few hagain,
    timely_part rate range capacity' f c few' hagain⟩

end forgets

/-- In one past the channel is in its second ramp, and its first one has completed; in the other it
has not been started. Its end is reported by the service after the fifth tick in both. -/
theorem restart_forgets_running :
    let install : Move := .perform .free (.install .first
      [.ramp (.lit 0) (.lit 0.001) "linear", .ramp (.lit 0) (.lit 0.002) "linear"])
    let past : List Move := [install, .perform .free (.trigger .first .restart), .tick .free,
      .tick .free, .perform .free .service, .tick .free]
    let e := (fresh .standard .standard 1).run past
    let e' := (fresh .standard .standard 1).run [install]
    let moves : List Move := (List.replicate 6 [Move.tick .free, .perform .free .service]).flatten
    let again : List Move :=
      .switch .cooperative :: .perform .free (.trigger .first .restart) :: moves
    (e.voice .first).isRunning = true ∧ (e'.voice .first).isRunning = false ∧
      account .first e again = account .first e' again ∧
      (account .first e again).map Entry.ends = [0, 0, 0, 0, 0, 0, 0, 0, 0, 0, 1, 0, 0] := by
  intro install past e e' moves again
  have hplayers : (e.voice .first).player.map (fun p => (p.program, p.cells, p.locked)) =
      (e'.voice .first).player.map (fun p => (p.program, p.cells, p.locked)) := by decide +kernel
  have hunlocked : (e.voice .first).player.map Player.locked = some false := by decide +kernel
  obtain ⟨p, hp, unlocked⟩ := Option.map_eq_some_iff.1 hunlocked
  rw [hp] at hplayers
  obtain ⟨q, hq, hsame⟩ := Option.map_eq_some_iff.1 hplayers.symm
  obtain ⟨hprogram, hcells, hlocked⟩ : q.program = p.program ∧ q.cells = p.cells ∧
      q.locked = p.locked := by simpa using hsame
  have off : ∀ q : Quantizer, q.isActive = false → q = .off := by
    intro q h
    cases q with
    | off => rfl
    | on scale => cases h
  have same : (e.voice .first).Restartable (e'.voice .first) :=
    { quantizer := (off _ (by decide +kernel)).trans (off _ (by decide +kernel)).symm
      written := by decide +kernel
      slew := by decide +kernel
      slewCurve := by decide +kernel
      current := by decide +kernel
      player := ⟨p, q, hp, hq, hprogram.symm, hcells.symm, unlocked, hlocked.trans unlocked⟩ }
  have forgets := (restart_forgets .standard .standard 1 1 .standard .first rfl rfl same .cooperative .free
    (by decide) moves (by decide +kernel) (by decide +kernel)).1
  exact ⟨by decide +kernel, by decide +kernel, forgets, by decide +kernel⟩

end ControlVoltage.Engine
