import ControlVoltage.Engine.Command
import ControlVoltage.Fifo
import ControlVoltage.Signal.PerChannel

/-!
# Engine state

* `Voice` : everything about one output channel, on both sides of its lock.
* `Notice` : what the real-time side reports to the host.
* `Engine` : the four voices with the queues and counts that they share.
* `Locks` : the channel locks that someone else holds while an operation runs. The real-time side
  gives up on a held lock; the host waits for it, and the wait is counted.
-/

namespace ControlVoltage

/-- One output channel. -/
structure Voice where
  ramp : Ramp
  quantizer : Quantizer
  /-- The generation of the last segment that reached its target. -/
  completed : UInt32
  /-- The last voltage written to the output. -/
  written : Float32
  player : Option Player
  /-- Seconds that a move to a set voltage takes. -/
  slew : Float32
  slewCurve : Curve

namespace Voice

/-- At rest on `volts`, with nothing installed. -/
def rest (volts : Float32) : Voice :=
  { ramp := .rest volts, quantizer := .off, completed := 0, written := volts, player := none,
    slew := 0, slewCurve := .linear }

/-- Whether a program is installed. -/
def hasProgram (v : Voice) : Bool := v.player.isSome

/-- Whether the program has been started and has not ended. -/
def isRunning (v : Voice) : Bool := v.player.any fun p => !p.stack.isEmpty

def isHolding (v : Voice) : Bool := v.player.any Player.holding

def isLocked (v : Voice) : Bool := v.player.any Player.locked

end Voice

/-- A report from the real-time side. -/
inductive Notice where
  /-- An event was dropped because the host was busy. -/
  | eventDropped (input : Nat)
  /-- A channel's lock was held; its last voltage was written again. -/
  | channelSkipped (c : Channel)
  | handlerFailed (input : Nat) (error : CommandError)
deriving DecidableEq

/-- What the engine counts. -/
structure Counts where
  ticks : Nat
  /-- Channels whose lock was held at a tick. -/
  skipped : Nat
  /-- Input events that were dropped. -/
  dropped : Nat
  /-- Commands that had to wait for a channel's lock. -/
  waits : Nat
deriving DecidableEq, Repr

/-- The whole engine. -/
structure Engine where
  rate : Rate
  range : Range
  table : CurveTable
  voices : PerChannel Voice
  /-- The channels whose programs have ended. -/
  events : Fifo Channel
  context : Context
  handlers : Vector (Option Handler) 2
  notices : Fifo Notice
  counts : Counts

/-- The channel locks that someone else holds. -/
abbrev Locks := Channel → Bool

/-- No lock is held by anyone else. -/
def Locks.free : Locks := fun _ => false

namespace Engine

/-- How many ended programs are remembered. -/
def eventCapacity : Nat := 16

/-- An engine with nothing installed; every output starts on the voltage nearest to zero. Its curves are
sampled from `f`. -/
def fresh (rate : Rate) (range : Range) (noticeCapacity : Nat) (f : Transcendental := .standard) :
    Engine :=
  { rate, range, table := .build f
    voices := .replicate (.rest (range.clamp 0))
    events := .empty eventCapacity
    context := .cooperative
    handlers := Vector.replicate 2 none
    notices := .empty noticeCapacity
    counts := ⟨0, 0, 0, 0⟩ }

def voice (e : Engine) (c : Channel) : Voice := e.voices.get c

def setVoice (e : Engine) (c : Channel) (v : Voice) : Engine :=
  { e with voices := e.voices.set c v }

/-- The voltages written last. -/
def lastFrame (e : Engine) : Frame := .ofFn fun c => (e.voice c).written

/-- Leaves a notice for the host, unless there are too many already. -/
def post (e : Engine) (notice : Notice) : Engine :=
  { e with notices := e.notices.offer notice }

/-- What asking for a lock leads to. -/
inductive Access where
  | granted
  | refused
  /-- Granted as soon as the holder lets go. -/
  | afterWait
deriving DecidableEq, Repr

/-- Whether a lock is had, by who asks for it and whether it is held. -/
def access : Context → (held : Bool) → Access
  | _, false => .granted
  | .realtime, true => .refused
  | .cooperative, true => .afterWait

/-- Takes a channel's lock, if it is to be had. -/
def acquire? (e : Engine) (locks : Locks) (c : Channel) : Option Engine :=
  match access e.context (locks c) with
  | .granted => some e
  | .refused => none
  | .afterWait => some { e with counts := { e.counts with waits := e.counts.waits + 1 } }

@[simp] theorem voice_setVoice_self (e : Engine) (c : Channel) (v : Voice) :
    (e.setVoice c v).voice c = v := by
  simp [voice, setVoice]

theorem voice_setVoice_ne (e : Engine) {c d : Channel} (h : c ≠ d) (v : Voice) :
    (e.setVoice c v).voice d = e.voice d := by
  simp [voice, setVoice, PerChannel.get_set_ne _ h]

end Engine

end ControlVoltage
