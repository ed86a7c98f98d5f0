import ControlVoltage.Proofs.Engine.Output
import ControlVoltage.Proofs.Voice.Timing

/-!
# Ends and restarts

An end is reported by the walk that comes to it: a service reports those of the walks that it resumes,
channel by channel, and a restart that of its own walk. In between a channel can be let alone, and then
nothing happens to it but its samples.

* `Engine.endings` : the channels whose ends a service reports.
* `Engine.service_events`, `Engine.restart_events` : the queue of events afterwards.
* `Engine.launched_restart` : a channel that has just been restarted.
* `Engine.Move.spares` : a move that is no command for the channel.
* `Engine.run_spares` : moves that let a channel alone.
-/

namespace ControlVoltage

namespace Engine

/-! ## Reports -/

/-- The channels whose walks a service brings to their end, in the order in which it reports them. -/
def endings (e : Engine) (locks : Locks) : List Channel :=
  Channel.all.filter fun c => e.grants locks c && (e.voice c).ends e.rig .resume

theorem events_noteProgress (e : Engine) (c : Channel) (progress : Player.Progress) :
    (e.noteProgress c progress).events =
      if Voice.ends.comesToEnd (.ok progress) then e.events.pushEvicting c else e.events := by
  cases progress <;> rfl

theorem events_acquire? {e e' : Engine} {locks : Locks} {c : Channel}
    (h : e.acquire? locks c = some e') : e'.events = e.events := by
  unfold acquire? at h
  split at h <;> cases h <;> rfl

theorem mem_endings_free (e : Engine) (c : Channel) :
    c ∈ e.endings .free ↔ (e.voice c).ends e.rig .resume = true := by
  simp [endings, grants_free, Channel.mem_all]

theorem resume_events (e : Engine) (locks : Locks) (c : Channel) :
    (e.resume locks c).2.events =
      if e.grants locks c && (e.voice c).ends e.rig .resume then e.events.pushEvicting c
      else e.events := by
  have quiet : (e.voice c).ready? = none →
      (e.grants locks c && (e.voice c).ends e.rig .resume) = false := by
    intro hready
    simp [Voice.ends, hready]
  unfold resume
  cases hp : (e.voice c).player with
  | none =>
    rw [quiet (by simp [Voice.ready?, hp])]
    rfl
  | some p =>
    by_cases awaited : p.awaiting = some (e.voice c).completed
    · simp only [if_pos awaited]
      cases hgrants : e.grants locks c with
      | false =>
        rw [acquire?_of_not_grants hgrants]
        rfl
      | true =>
        obtain ⟨e₁, hacquire, hvoice, hnothing⟩ := acquire?_of_grants hgrants
        have hready : (e.voice c).ready? = some p := by
          simp [Voice.ready?, hp, awaited, Option.filter]
        have hends : (e.voice c).ends e.rig .resume =
            Voice.ends.comesToEnd ((e₁.voice c).walk e₁.rig p (e₁.voice c).ramp).1 := by
          simp only [Voice.ends, hready, Option.any_some, hvoice, hnothing.rig]
        rw [hends, Bool.true_and, ← events_acquire? hacquire]
        simp only [hacquire, advance_eq]
        obtain ⟨⟨result, v⟩, hwalk⟩ :
            ∃ x, (e₁.voice c).walk e₁.rig p (e₁.voice c).ramp = x := ⟨_, rfl⟩
        rw [hwalk]
        cases result with
        | error fault => rfl
        | ok progress => exact events_noteProgress (e₁.setVoice c v) c progress
    · rw [quiet (by simp [Voice.ready?, hp, awaited, Option.filter])]
      simp [awaited]

/-- A service reports the ends that it leads to, one after the other. -/
theorem service_events (e : Engine) (locks : Locks) :
    (e.service locks).2.events = (e.endings locks).foldl Fifo.pushEvicting e.events := by
  have folds : ∀ (cs : List Channel) (s : Nat × Engine), cs.Nodup → s.2.rig = e.rig →
      s.2.context = e.context → (∀ c ∈ cs, s.2.voice c = e.voice c) →
      (cs.foldl (fun (s : Nat × Engine) c => (if (s.2.resume locks c).1 then s.1 + 1 else s.1,
          (s.2.resume locks c).2)) s).2.events =
        (cs.filter fun c => e.grants locks c && (e.voice c).ends e.rig .resume).foldl
          Fifo.pushEvicting s.2.events := by
    intro cs
    induction cs with
    | nil => exact fun _ _ _ _ _ => rfl
    | cons c cs ih =>
      intro s hnodup hrig hcontext hvoice
      obtain ⟨hc, hnodup⟩ := List.nodup_cons.1 hnodup
      have does := resume_does s.2 locks c
      have hgrants : s.2.grants locks c = e.grants locks c := by simp only [grants, hcontext]
      have hevents := resume_events s.2 locks c
      rw [hgrants, hrig, hvoice c List.mem_cons_self] at hevents
      rw [List.foldl_cons, ih _ hnodup (does.rig.trans hrig) (does.context.trans hcontext), hevents,
        List.filter_cons]
      · split <;> rfl
      · intro d hd
        have hne : c ≠ d := fun same => hc (same ▸ hd)
        exact (does.other d hne).trans (hvoice d (List.mem_cons_of_mem c hd))
  exact folds Channel.all (0, e) (by decide) rfl rfl fun _ _ => rfl

theorem restart_events {e : Engine} {locks : Locks} {c : Channel} {p : Player}
    (hp : (e.voice c).player = some p) (sound : (e.voice c).Sound) (unlocked : p.locked = false)
    (granted : e.grants locks c = true) :
    (e.trigger locks c .restart).1 = .ok () ∧
      (e.trigger locks c .restart).2.events =
        if (e.voice c).ends e.rig (.trigger .restart) then e.events.pushEvicting c else e.events := by
  have hresponse : respond p .restart = .walk := by simp [respond, unlocked]
  have hq := Voice.triggered_restart hp unlocked
  obtain ⟨e₁, hacquire, hvoice, hnothing⟩ := acquire?_of_grants granted
  obtain ⟨progress, q, hwalk, -⟩ :=
    Voice.walk_of_sound e₁.rig (e₁.voice c) (sound.triggered hq) (e₁.voice c).ramp.hold
  have hends : (e.voice c).ends e.rig (.trigger .restart) =
      Voice.ends.comesToEnd ((e₁.voice c).walk e₁.rig p.restart (e₁.voice c).ramp.hold).1 := by
    simp only [Voice.ends, hq, Option.any_some, hvoice, hnothing.rig]
  rw [hends, ← events_acquire? hacquire]
  simp only [trigger, hp, hresponse, hacquire, triggered, advance_eq, hwalk]
  exact ⟨trivial, events_noteProgress _ c progress⟩

theorem shareOf_restart {e : Engine} {locks : Locks} {c : Channel} (granted : e.grants locks c = true) :
    e.shareOf c (.perform locks (.trigger c .restart)) = [.trigger .restart] := by
  simp [shareOf, share, channel?, Engine.moves, triggerMoves, granted]

theorem voice_restart {e : Engine} {locks : Locks} {c : Channel} (granted : e.grants locks c = true) :
    (e.trigger locks c .restart).2.rig = e.rig ∧
      (e.trigger locks c .restart).2.voice c = (e.voice c).after e.rig (.trigger .restart) := by
  obtain ⟨hrig, hvoice⟩ := e.after_voice (.perform locks (.trigger c .restart))
  have hself := hvoice c
  rw [shareOf_restart granted] at hself
  exact ⟨hrig, hself⟩

theorem log_restart {e : Engine} {locks : Locks} {c : Channel} (granted : e.grants locks c = true)
    (moves : List Move) :
    e.log c (.perform locks (.trigger c .restart) :: moves) =
      (e.voice c).deeds e.rig (.trigger .restart) ++ (e.trigger locks c .restart).2.log c moves := by
  have hfirst : e.log c [.perform locks (.trigger c .restart)] =
      (e.voice c).deeds e.rig (.trigger .restart) := by
    rw [log, sharesOf, sharesOf, shareOf_restart granted, List.append_nil, Voice.log, Voice.log,
      List.append_nil]
  rw [← List.singleton_append, log_append, hfirst]
  rfl

theorem launched_restart (rate : Rate) (range : Range) (capacity : Nat) (f : Transcendental)
    {c : Channel} {moves : List Move} {locks : Locks}
    (few : ((fresh rate range capacity f).log c
      (moves ++ [.perform locks (.trigger c .restart)])).countP Deed.starts < 2 ^ 32)
    {e : Engine} (he : e = (fresh rate range capacity f).run moves) {p : Player}
    (hp : (e.voice c).player = some p) (unlocked : p.locked = false)
    (granted : e.grants locks c = true) :
    let v := e.voice c
    let v' := (e.trigger locks c .restart).2.voice c
    let deeds := v.deeds e.rig (.trigger .restart)
    v'.quantizer = v.quantizer ∧ Voice.Launched v.ramp.current deeds v' ∧
      (v.ends e.rig (.trigger .restart) = true ↔
        v'.Ended ∧ Flight.span (Deed.flights v.ramp.current deeds) = 0) := by
  intro v v' deeds
  have reachable : Reachable e := ⟨rate, range, capacity, f, moves, he⟩
  have hvoice : v' = v.after e.rig (.trigger .restart) := (voice_restart granted).2
  have hrun : (e.trigger locks c .restart).2 =
      (fresh rate range capacity f).run (moves ++ [.perform locks (.trigger c .restart)]) := by
    rw [run_append, ← he]
    rfl
  have timely : v'.Timely := by
    rw [show v' = (e.trigger locks c .restart).2.voice c from rfl, hrun]
    exact timely_of_few rate range capacity f c _ few
  rw [hvoice] at timely ⊢
  exact ⟨Voice.quantizer_after (by simp),
    Voice.launched_restart e.rig v hp ((reachable.sound c).player p hp) unlocked timely⟩

/-! ## Spared channels -/

/-- A move that is no command for the channel. A service is for all of them. -/
def Move.spares (c : Channel) : Move → Bool
  | .perform _ command => channel? command ≠ some c
  | _ => true

theorem shareOf_spares (e : Engine) {c : Channel} {move : Move} (spares : move.spares c = true)
    (htick : ∀ locks, move ≠ .tick locks) : ∀ m ∈ e.shareOf c move, m = .resume := by
  intro m hm
  cases move with
  | tick locks => exact absurd rfl (htick locks)
  | perform locks command =>
    simp only [shareOf] at hm
    have hchannel : channel? command ≠ some c := by simpa [Move.spares] using spares
    cases command <;> simp_all [share, channel?]
  | _ => cases hm

theorem run_spares {e : Engine} {c : Channel} (hready : (e.voice c).ready? = none)
    {moves : List Move} (spares : ∀ move ∈ moves, move.spares c = true)
    (htick : ∀ move ∈ moves, ∀ locks, move ≠ .tick locks) :
    (e.run moves).voice c = e.voice c ∧ e.log c moves = [] := by
  induction moves generalizing e with
  | nil => exact ⟨rfl, rfl⟩
  | cons move moves ih =>
    obtain ⟨hspare, hspares⟩ := List.forall_mem_cons.1 spares
    obtain ⟨hmove, hmoves⟩ := List.forall_mem_cons.1 htick
    have idle : ∀ share : List Voice.Move, (∀ m ∈ share, m = .resume) →
        (e.voice c).run e.rig share = e.voice c ∧ Voice.log e.rig (e.voice c) share = [] := by
      intro share hshare
      induction share with
      | nil => exact ⟨rfl, rfl⟩
      | cons m share ih =>
        obtain ⟨rfl, hrest⟩ := List.forall_mem_cons.1 hshare
        have still : (e.voice c).after e.rig .resume = e.voice c :=
          Voice.after_resume_of_not_ready hready
        rw [Voice.run, List.foldl_cons, Voice.log, still, Voice.deeds_of_not_ready hready]
        exact ih hrest
    obtain ⟨hvoice, hlog⟩ := idle _ (e.shareOf_spares hspare hmove)
    have hafter : (e.after move).voice c = e.voice c := ((after_voice e move).2 c).trans hvoice
    obtain ⟨hrun, hlogs⟩ := ih (e := e.after move) (by rw [hafter]; exact hready) hspares hmoves
    have hfirst : e.log c [move] = [] := by
      rw [log, sharesOf, sharesOf, List.append_nil]
      exact hlog
    refine ⟨hrun.trans hafter, ?_⟩
    rw [← List.singleton_append, log_append, hfirst]
    exact hlogs

end Engine

end ControlVoltage
