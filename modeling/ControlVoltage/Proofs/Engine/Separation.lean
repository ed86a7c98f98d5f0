import ControlVoltage.Proofs.Engine.Account

/-!
# Channels do not interfere

A run may ask anything of the other channels, hold their locks at any time, fail on them or wait for
them: a channel does not see it. Its account and its voice are those of the parts of the run that
concern it.

* `Engine.alone` : a part of a channel as moves, with nothing else happening.
* `Engine.account_alone` : a run is to a channel what its parts are alone.
* `Engine.channels_do_not_interfere` : two runs with the same parts.
-/

namespace ControlVoltage.Engine

variable {e e' : Engine} {c : Channel}

/-- The part and nothing else; the locks of the other channels are as that of the channel. -/
def alone : Part → List Move
  | .tick held => [.tick fun _ => held]
  | .perform context held command => [.switch context, .perform (fun _ => held) command]

theorem alone_spec (e' : Engine) {context : Context} {move : Move} {part : Part}
    (h : part? c context move = some part) :
    ∃ (e₁ : Engine) (move₁ : Move), e₁.rig = e'.rig ∧ e₁.voice c = e'.voice c ∧
      part? c e₁.context move₁ = some part ∧
      ∀ rest, account c e' (alone part ++ rest) =
          (e₁.entryOf c move₁).toList ++ account c (e₁.after move₁) rest ∧
        e'.run (alone part ++ rest) = (e₁.after move₁).run rest := by
  rcases part?_eq_some h with ⟨locks, -, rfl⟩ | ⟨locks, command, -, hconcerns, rfl⟩
  · exact ⟨e', .tick fun _ => locks c, rfl, rfl, rfl, fun rest => ⟨rfl, rfl⟩⟩
  · exact ⟨{ e' with context }, .perform (fun _ => locks c) command, rfl, rfl, if_pos hconcerns,
      fun rest => ⟨rfl, rfl⟩⟩

/-- A run is to a channel what its parts are alone. -/
theorem account_alone (hrig : e'.rig = e.rig) (hvoice : e'.voice c = e.voice c) (moves : List Move) :
    account c e' ((parts c e.context moves).flatMap alone) = account c e moves ∧
      (e'.run ((parts c e.context moves).flatMap alone)).voice c = (e.run moves).voice c := by
  induction moves generalizing e e' with
  | nil => exact ⟨rfl, hvoice⟩
  | cons move moves ih =>
    obtain ⟨hrig₁, hvoice₁⟩ := after_voice e move
    rw [parts, account, ← context_after]
    cases hpart : part? c e.context move with
    | none =>
      obtain ⟨hentry, hshare⟩ : e.entryOf c move = none ∧ e.shareOf c move = [] := of_part?_none hpart
      have still : (e.after move).voice c = e.voice c := by rw [hvoice₁, hshare]; rfl
      rw [hentry]
      exact ih (hrig.trans hrig₁.symm) (hvoice.trans still.symm)
    | some part =>
      obtain ⟨e₁, move₁, hrig', hvoice', hpart', hplays⟩ := alone_spec e' hpart
      have twin : (e.voice c).Twin (e₁.voice c) := by
        rw [hvoice'.trans hvoice]
        exact .refl _
      obtain ⟨hshare, hentry⟩ := entryOf_congr (hrig'.trans hrig) hpart hpart' twin
      obtain ⟨haccount, hrun⟩ := hplays ((parts c (e.after move).context moves).flatMap alone)
      obtain ⟨hrig₂, hvoice₂⟩ := after_voice e₁ move₁
      have hnext : (e₁.after move₁).rig = (e.after move).rig := by
        rw [hrig₂, hrig₁, hrig', hrig]
      have hnext' : (e₁.after move₁).voice c = (e.after move).voice c := by
        rw [hvoice₂, hvoice₁, hshare, hrig', hrig, hvoice', hvoice]
      obtain ⟨hrest, hrest'⟩ := ih hnext hnext'
      rw [Option.toList_some, List.singleton_append, List.flatMap_cons, haccount, hrun, hentry, hrest,
        hrest']
      exact ⟨rfl, rfl⟩

/-- Channels do not interfere. Two runs from the same engine that have the same parts for a channel,
which are the ticks, the services and the commands for the channel, in order, each with the side that
it comes from and with the lock of the channel held or not, let the same be seen of the channel: the
same samples, the same answers, the same resumptions, and the same ends at the same places. They
leave the same voice, with its program and cells, its ramp, its settings and its last completed
segment. What they ask of other channels is arbitrary. -/
theorem channels_do_not_interfere (e : Engine) (c : Channel) {moves moves' : List Move}
    (same : parts c e.context moves = parts c e.context moves') :
    account c e moves = account c e moves' ∧ (e.run moves).voice c = (e.run moves').voice c := by
  have alone : ∀ moves, account c e ((parts c e.context moves).flatMap alone) = account c e moves ∧
      (e.run ((parts c e.context moves).flatMap Engine.alone)).voice c = (e.run moves).voice c :=
    account_alone rfl rfl
  obtain ⟨haccount, hvoice⟩ := alone moves
  rw [← haccount, ← hvoice, same]
  exact alone moves'

/-- In the second run another channel moves to a voltage, is asked for a cell that it does not have,
is skipped at a tick, and cannot be cleared from the real-time side. -/
theorem channels_do_not_interfere_pair :
    let e := fresh .standard .standard 1
    let install : Command := .install .first [.ramp (.lit 1) (.lit 0.001) "linear"]
    let moves : List Move := [.perform .free install, .perform .free (.trigger .first .restart),
      .tick .free, .tick .free, .perform .free .service, .perform .free (.written .first)]
    let moves' : List Move := [.perform .free (.setVolts ⟨1⟩ 5), .perform .free install,
      .perform .free (.trigger .first .restart), .perform .free (.getCell ⟨1⟩ "x"),
      .tick (· = ⟨1⟩), .switch .realtime, .perform (fun _ => true) (.clear ⟨1⟩),
      .switch .cooperative, .tick .free, .perform .free .service, .perform .free (.written .first)]
    parts .first e.context moves = parts .first e.context moves' ∧
      ((e.run moves).voice ⟨1⟩).hasProgram = false ∧ ((e.run moves').voice ⟨1⟩).hasProgram = true ∧
      account .first e moves = account .first e moves' ∧
      (account .first e moves').map Entry.ends = [0, 0, 0, 0, 1, 0] := by
  intro e install moves moves'
  have same : parts .first e.context moves = parts .first e.context moves' := rfl
  obtain ⟨haccount, -⟩ := channels_do_not_interfere e .first same
  have hends : (account .first e moves').map Entry.ends = [0, 0, 0, 0, 1, 0] := by decide +kernel
  exact ⟨same, by decide +kernel, by decide +kernel, haccount, hends⟩

end ControlVoltage.Engine
