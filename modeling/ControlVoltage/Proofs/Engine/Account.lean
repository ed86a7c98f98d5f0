import ControlVoltage.Proofs.Engine.Answers

/-!
# What is seen of a channel

The account of a channel is what a run lets be seen of it: what each tick writes on it, what each
command for it is answered, whether a service resumes it, and whether its end is reported. A move
concerns the channel by its part: what is asked of it, from which side, and whether its lock is held.

* `Engine.account` : the account of a channel in a run.
* `Engine.parts` : the parts of a run that concern a channel.
* `Engine.entryOf_congr` : twins that get the same part have the same entry.
-/

namespace ControlVoltage

/-- What is seen of a channel in one move. -/
inductive Sight where
  /-- A tick writes these volts on the channel. -/
  | written (volts : Float32)
  /-- A command for the channel is answered. -/
  | answered (result : Except CommandError Answer)
  /-- A service resumes the channel, or not. -/
  | served (resumed : Bool)

/-- What is seen of a channel in one move, and how often its end is reported in it. -/
structure Entry where
  sight : Sight
  ends : Nat

/-- What a move is to a channel. -/
inductive Part where
  /-- A tick, with the lock of the channel held or not. -/
  | tick (held : Bool)
  /-- A command for the channel, or a service, with the lock of the channel held or not. -/
  | perform (context : Context) (held : Bool) (command : Command)

namespace Engine

/-- Whether a command asks something of a channel. A service does of every one. -/
def concerns (c : Channel) : Command → Bool
  | .service => true
  | command => subject? command = some c

def sight (e : Engine) (c : Channel) (locks : Locks) : Command → Sight
  | .service => .served (e.resume locks c).1
  | command => .answered (e.perform locks command).1

def sight? (e : Engine) (c : Channel) : Move → Option Sight
  | .tick locks => some (.written (e.output locks c))
  | .perform locks command => if concerns c command then some (e.sight c locks command) else none
  | _ => none

def entryOf (e : Engine) (c : Channel) (move : Move) : Option Entry :=
  (e.sight? c move).map fun sight => ⟨sight, (e.queued move).count c⟩

/-- What a run lets be seen of a channel. -/
def account (c : Channel) : Engine → List Move → List Entry
  | _, [] => []
  | e, move :: moves => (e.entryOf c move).toList ++ account c (e.after move) moves

/-- From which side commands come after a move. -/
def Move.context (context : Context) : Move → Context
  | .switch context => context
  | _ => context

def part? (c : Channel) (context : Context) : Move → Option Part
  | .tick locks => some (.tick (locks c))
  | .perform locks command =>
    if concerns c command then some (.perform context (locks c) command) else none
  | _ => none

/-- The parts of a run that concern a channel. -/
def parts (c : Channel) : Context → List Move → List Part
  | _, [] => []
  | context, move :: moves =>
    (part? c context move).toList ++ parts c (move.context context) moves

variable {e e' : Engine} {c : Channel} {locks locks' : Locks} {move move' : Move}

theorem context_after (e : Engine) (move : Move) :
    (e.after move).context = move.context e.context := by
  cases move with
  | tick locks => exact (tick_doesAll e locks e.lastFrame).context
  | perform locks command => exact (perform_doesAll e locks command).context
  | setHandler input handler =>
    simp only [after, setHandler]
    split <;> rfl
  | _ => rfl

theorem part?_eq_some {context : Context} {part : Part} (h : part? c context move = some part) :
    (∃ locks, move = .tick locks ∧ part = .tick (locks c)) ∨
      ∃ locks command, move = .perform locks command ∧ concerns c command = true ∧
        part = .perform context (locks c) command := by
  cases move with
  | tick locks =>
    cases h
    exact .inl ⟨locks, rfl, rfl⟩
  | perform locks command =>
    simp only [part?] at h
    split at h
    · cases h
      exact .inr ⟨locks, command, rfl, ‹_›, rfl⟩
    · cases h
  | _ => cases h

theorem same_part {context context' : Context} {part : Part} (h : part? c context move = some part)
    (h' : part? c context' move' = some part) :
    (∃ locks locks', move = .tick locks ∧ move' = .tick locks' ∧ locks' c = locks c) ∨
      ∃ locks locks' command, move = .perform locks command ∧ move' = .perform locks' command ∧
        concerns c command = true ∧ context' = context ∧ locks' c = locks c := by
  rcases part?_eq_some h with ⟨locks, rfl, rfl⟩ | ⟨locks, command, rfl, hconcerns, rfl⟩
  · rcases part?_eq_some h' with ⟨locks', rfl, hpart⟩ | ⟨locks', command, -, -, hpart⟩
    · exact .inl ⟨locks, locks', rfl, rfl, by simpa using hpart.symm⟩
    · cases hpart
  · rcases part?_eq_some h' with ⟨locks', -, hpart⟩ | ⟨locks', command', rfl, -, hpart⟩
    · cases hpart
    · obtain ⟨hcontext, hheld, rfl⟩ := Part.perform.inj hpart
      exact .inr ⟨locks, locks', command, rfl, rfl, hconcerns, hcontext.symm, hheld.symm⟩

theorem subject?_of_channel {command : Command} (h : channel? command = some c) :
    subject? command = some c := by
  cases command <;> first | exact h | cases h

theorem of_part?_none {context : Context} (h : part? c context move = none) :
    e.entryOf c move = none ∧ e.shareOf c move = [] := by
  cases move with
  | tick locks => cases h
  | perform locks command =>
    have spared : concerns c command = false := by
      simpa [part?] using h
    refine ⟨by simp [entryOf, sight?, spared], ?_⟩
    simp only [shareOf]
    cases hchannel : channel? command with
    | some d =>
      rw [share_of_channel hchannel, if_neg]
      rintro rfl
      have := subject?_of_channel hchannel
      cases command <;> simp_all [concerns]
    | none => cases command <;> simp_all [share, concerns]
  | _ => exact ⟨rfl, rfl⟩

/-! ## Shares -/

theorem moves_congr (hgrants : e'.grants locks' c = e.grants locks c)
    (alike : (e.voice c).Alike (e'.voice c)) {command : Command} (h : channel? command = some c) :
    e'.moves locks' command = e.moves locks command := by
  cases command <;>
    first
    | cases h; simp only [moves, triggerMoves, quantizerMoves, hgrants, alike.slew, alike.slewCurve]
    | cases h

theorem share_congr (hgrants : e'.grants locks' c = e.grants locks c)
    (alike : (e.voice c).Alike (e'.voice c)) (command : Command) :
    e'.share locks' c command = e.share locks c command := by
  cases hchannel : channel? command with
  | some d =>
    rw [share_of_channel hchannel, share_of_channel hchannel]
    by_cases hd : d = c
    · subst hd
      rw [if_pos rfl, if_pos rfl, moves_congr hgrants alike hchannel]
    · rw [if_neg hd, if_neg hd]
  | none => cases command <;> simp_all [share]

theorem shareOf_resume (e : Engine) (c : Channel) (move : Move) :
    e.shareOf c move = [.resume] ∨ .resume ∉ e.shareOf c move := by
  cases move with
  | tick locks =>
    right
    simp only [shareOf, tickMoves]
    split <;> simp
  | perform locks command =>
    cases hchannel : channel? command with
    | some d =>
      right
      simp only [shareOf, share_of_channel hchannel]
      split
      · exact fun hmem => (asked_of_mem_moves hmem).2 rfl
      · simp
    | none =>
      cases command with
      | service =>
        simp only [shareOf, share]
        split <;> simp
      | _ => right; simp [shareOf, share, hchannel]
  | _ => right; simp [shareOf]

/-! ## Entries -/

theorem grants_congr (hcontext : e'.context = e.context) (hheld : locks' c = locks c) :
    e'.grants locks' c = e.grants locks c := by
  simp only [grants, hcontext, hheld]

theorem output_plain (hrig : e'.rig = e.rig) (hheld : locks' c = locks c)
    (hplain : (e.voice c).plain = (e'.voice c).plain) :
    e'.output locks' c = e.output locks c := by
  have houtput : ∀ (e : Engine) (locks : Locks), e.output locks c =
      if locks c then (e.voice c).written else ((e.voice c).after e.rig .sample).written :=
    fun _ _ => rfl
  have hsample : ((e.voice c).after e.rig .sample).plain = ((e'.voice c).after e.rig .sample).plain :=
    (Voice.after_plain hplain (by simp)).1
  have hwritten := (Voice.plain_eq_iff.1 hplain).1.written
  have hnext := (Voice.plain_eq_iff.1 hsample).1.written
  rw [houtput, houtput, hheld, hrig, hwritten, hnext]

theorem sight_congr (hrig : e'.rig = e.rig) (hgrants : e'.grants locks' c = e.grants locks c)
    (twin : (e.voice c).Twin (e'.voice c)) {command : Command} (h : concerns c command = true) :
    e'.sight c locks' command = e.sight c locks command := by
  by_cases hservice : command = .service
  · subst hservice
    have hresumed : (e'.resume locks' c).1 = (e.resume locks c).1 := by
      rw [Bool.eq_iff_iff, resume_iff, resume_iff, hgrants, ← Option.isSome_iff_exists,
        ← Option.isSome_iff_exists, twin.ready]
    exact congrArg Sight.served hresumed
  · have hsubject : subject? command = some c := by
      cases command <;> simp_all [concerns]
    have hanswer := perform_congr hrig hgrants twin.plain hsubject
    cases command <;> first | exact congrArg Sight.answered hanswer | exact absurd rfl hservice

/-- Twins that get the same part have the same entry, and the same is asked of them. -/
theorem entryOf_congr (hrig : e'.rig = e.rig) {part : Part} (h : part? c e.context move = some part)
    (h' : part? c e'.context move' = some part) (twin : (e.voice c).Twin (e'.voice c)) :
    e'.shareOf c move' = e.shareOf c move ∧ e'.entryOf c move' = e.entryOf c move := by
  obtain ⟨alike, -⟩ := Voice.plain_eq_iff.1 twin.plain
  obtain ⟨hshare, hsight⟩ : e'.shareOf c move' = e.shareOf c move ∧
      e'.sight? c move' = e.sight? c move := by
    rcases same_part h h' with ⟨locks, locks', rfl, rfl, hheld⟩ |
      ⟨locks, locks', command, rfl, rfl, hconcerns, hcontext, hheld⟩
    · refine ⟨by simp only [shareOf, tickMoves, hheld], ?_⟩
      simp only [sight?, output_plain hrig hheld twin.plain]
    · have hgrants : e'.grants locks' c = e.grants locks c := grants_congr hcontext hheld
      refine ⟨share_congr hgrants alike command, ?_⟩
      simp only [sight?, sight_congr hrig hgrants twin hconcerns]
  refine ⟨hshare, ?_⟩
  have hends : (e.voice c).endsIn e.rig (e.shareOf c move) =
      (e'.voice c).endsIn e.rig (e.shareOf c move) := (twin.run (e.shareOf_resume c move)).2
  simp only [entryOf, hsight, count_queued, hshare, hrig, hends]

end Engine

end ControlVoltage
