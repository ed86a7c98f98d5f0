import ControlVoltage.Output.Ring
import Mathlib.Data.List.Basic
import Mathlib.Data.List.Induction

/-!
# Conservation of frames

The two ends of a ring make progress on their own. Whatever their moves are, a frame that finds room at
the end of its tick waits in the ring until the reader takes it, each one once and in order; a frame that
finds no room is dropped whole. So every end of a tick is accounted for.

* `Relay`, `Relay.Move` : a ring with what its reader has taken, and what can happen to it.
* `Relay.frameOf`, `Relay.endings` : what should be in the ring, told by the moves alone.
* `Relay.Keeps` : what is there; `Keeps.after`, `keeps_run`.
* `Relay.conserved` : the account.
-/

namespace ControlVoltage

/-! ## Operations -/

namespace Ring

variable {r : Ring}

theorem endTick_of_room (h : r.queue.isFull = false) :
    r.endTick = { r with queue := { r.queue with items := r.queue.items ++ [r.pending] } } := by
  rw [endTick, Fifo.push?, h]
  rfl

theorem endTick_of_full (h : r.queue.isFull = true) :
    r.endTick = { r with dropped := r.dropped + 1 } := by
  rw [endTick, Fifo.push?, h]
  rfl

theorem pop?_of_nil (h : r.queue.items = []) : r.pop? = none := by
  rw [pop?, Fifo.pop?, h]
  rfl

theorem pop?_of_cons {frame : Frame} {rest : List Frame} (h : r.queue.items = frame :: rest) :
    r.pop? = some (frame, { r with queue := { r.queue with items := rest } }) := by
  rw [pop?, Fifo.pop?, h]
  rfl

end Ring

/-- A ring and the frames that its reader has taken. -/
structure Relay where
  ring : Ring
  popped : List Frame

namespace Relay

/-- What can happen to a ring: the writer writes and ends ticks, the reader takes a frame or all of
them. -/
inductive Move where
  | write (c : Channel) (volts : Float32)
  | endTick
  | pop
  | drain

def start (capacity : Nat) : Relay := ⟨.empty capacity, []⟩

def after (h : Relay) : Move → Relay
  | .write c volts => { h with ring := Sink.write h.ring c volts }
  | .endTick => { h with ring := Sink.endTick h.ring }
  | .pop =>
    match h.ring.pop? with
    | none => h
    | some (frame, ring) => ⟨ring, h.popped ++ [frame]⟩
  | .drain => ⟨h.ring.drain.2, h.popped ++ h.ring.drain.1⟩

def run (h : Relay) (moves : List Move) : Relay := moves.foldl after h

theorem run_concat (h : Relay) (moves : List Move) (move : Move) :
    h.run (moves ++ [move]) = (h.run moves).after move := by
  rw [run, List.foldl_append]
  rfl

/-! ## Ends of ticks -/

namespace Move

def endsTick : Move → Bool
  | .endTick => true
  | _ => false

def volts? (c : Channel) : Move → Option Float32
  | .write d volts => if d = c then some volts else none
  | _ => none

end Move

/-- The voltage written last to a channel; zero if there is none. -/
def lastWritten (moves : List Move) (c : Channel) : Float32 :=
  (moves.filterMap (Move.volts? c)).getLast?.getD 0

/-- The frame of a tick that ends after these moves. -/
def frameOf (moves : List Move) : Frame := .ofFn (lastWritten moves)

/-- The ends of ticks, in order, each one as the moves before it. -/
def endings (moves : List Move) : List (List Move) :=
  ((List.range moves.length).filter fun i => moves[i]?.any Move.endsTick).map moves.take

theorem lastWritten_concat (moves : List Move) (move : Move) (c : Channel) :
    lastWritten (moves ++ [move]) c = (move.volts? c).getD (lastWritten moves c) := by
  rw [lastWritten, List.filterMap_append]
  cases hvolts : move.volts? c with
  | none => simp [lastWritten, hvolts]
  | some volts => simp [hvolts]

theorem frameOf_write (moves : List Move) (c : Channel) (volts : Float32) :
    frameOf (moves ++ [.write c volts]) = (frameOf moves).set c volts := by
  refine PerChannel.ext_get fun d => ?_
  rw [frameOf, PerChannel.get_ofFn, lastWritten_concat, Move.volts?]
  by_cases hd : c = d
  · subst hd
    rw [if_pos rfl, PerChannel.get_set_self]
    rfl
  · rw [if_neg hd, PerChannel.get_set_ne _ hd, frameOf, PerChannel.get_ofFn]
    rfl

theorem frameOf_concat {move : Move} (h : ∀ c, move.volts? c = none) (moves : List Move) :
    frameOf (moves ++ [move]) = frameOf moves := by
  refine PerChannel.ext_get fun c => ?_
  rw [frameOf, frameOf, PerChannel.get_ofFn, PerChannel.get_ofFn, lastWritten_concat, h]
  rfl

theorem endings_concat (moves : List Move) (move : Move) :
    endings (moves ++ [move]) = endings moves ++ if move.endsTick then [moves] else [] := by
  have hfilter : ((List.range moves.length).filter fun i => (moves ++ [move])[i]?.any Move.endsTick) =
      (List.range moves.length).filter fun i => moves[i]?.any Move.endsTick :=
    List.filter_congr fun i hi => by rw [List.getElem?_append_left (List.mem_range.1 hi)]
  rw [endings, List.length_append, List.length_singleton, List.range_succ, List.filter_append,
    List.map_append, hfilter]
  congr 1
  · refine List.map_congr_left fun i hi => ?_
    have hless := List.mem_range.1 (List.mem_filter.1 hi).1
    exact List.take_append_of_le_length (Nat.le_of_lt hless)
  · cases hends : move.endsTick <;> simp [hends]

/-! ## What a run keeps -/

/-- Whether there is room in the ring when these moves have been made. -/
def room (capacity : Nat) (moves : List Move) : Bool :=
  ((start capacity).run moves).ring.queue.items.length < max capacity 1

/-- The frames of the ticks that find room when they end, in order. -/
def accepted (capacity : Nat) (moves : List Move) : List Frame :=
  ((endings moves).filter (room capacity)).map frameOf

variable {capacity : Nat} {moves : List Move} {h : Relay}

theorem endings_quiet {move : Move} (quiet : move.endsTick = false) (moves : List Move) :
    endings (moves ++ [move]) = endings moves := by
  rw [endings_concat, quiet]
  exact List.append_nil _

theorem accepted_quiet {move : Move} (quiet : move.endsTick = false) (moves : List Move) :
    accepted capacity (moves ++ [move]) = accepted capacity moves := by
  rw [accepted, endings_quiet quiet, accepted]

theorem endings_endTick (moves : List Move) : endings (moves ++ [.endTick]) = endings moves ++ [moves] :=
  endings_concat moves .endTick

theorem accepted_endTick (capacity : Nat) (moves : List Move) :
    accepted capacity (moves ++ [.endTick]) =
      accepted capacity moves ++ if room capacity moves then [frameOf moves] else [] := by
  rw [accepted, endings_endTick, List.filter_append, List.map_append, accepted]
  congr 1
  cases hroom : room capacity moves <;> simp [hroom]

/-- After these moves, what the reader has taken and what waits in the ring are the frames that found
room; the others have been dropped. -/
structure Keeps (capacity : Nat) (moves : List Move) (h : Relay) : Prop where
  capacity_eq : h.ring.queue.capacity = max capacity 1
  pending : h.ring.pending = frameOf moves
  frames : h.popped ++ h.ring.queue.items = accepted capacity moves
  count : h.ring.dropped + (accepted capacity moves).length = (endings moves).length
  bound : h.ring.queue.items.length ≤ max capacity 1

theorem keeps_start (capacity : Nat) : Keeps capacity [] (start capacity) where
  capacity_eq := rfl
  pending := PerChannel.ext_get fun c => by
    rw [frameOf, PerChannel.get_ofFn]
    exact PerChannel.get_replicate 0 c
  frames := rfl
  count := rfl
  bound := Nat.zero_le _

theorem Keeps.take (hk : Keeps capacity moves h) {move : Move} (quiet : move.endsTick = false)
    (silent : ∀ c, move.volts? c = none) {taken rest : List Frame}
    (items : h.ring.queue.items = taken ++ rest) :
    Keeps capacity (moves ++ [move])
      ⟨{ h.ring with queue := { h.ring.queue with items := rest } }, h.popped ++ taken⟩ := by
  obtain ⟨hcapacity, hpending, hframes, hcount, hbound⟩ := hk
  rw [items] at hframes hbound
  refine ⟨hcapacity, ?_, ?_, ?_, ?_⟩
  · rw [frameOf_concat silent]
    exact hpending
  · rw [accepted_quiet quiet, ← hframes]
    exact List.append_assoc _ _ _
  · rw [accepted_quiet quiet, endings_quiet quiet]
    exact hcount
  · rw [List.length_append] at hbound
    exact Nat.le_trans (Nat.le_add_left _ _) hbound

theorem Keeps.after_endTick (hk : Keeps capacity moves h) (hrun : h = (start capacity).run moves) :
    h.after .endTick =
      if room capacity moves then
        { h with ring.queue.items := h.ring.queue.items ++ [frameOf moves] }
      else { h with ring.dropped := h.ring.dropped + 1 } := by
  have hroom : room capacity moves = !h.ring.queue.isFull := by
    rw [room, Fifo.isFull, hk.capacity_eq, ← hrun, ← decide_not, decide_eq_decide, Nat.not_le]
  rw [hroom, ← hk.pending]
  cases hfull : h.ring.queue.isFull with
  | true => exact congrArg (Relay.mk · h.popped) (Ring.endTick_of_full hfull)
  | false => exact congrArg (Relay.mk · h.popped) (Ring.endTick_of_room hfull)

theorem Keeps.endTick (hk : Keeps capacity moves h) (hrun : h = (start capacity).run moves) :
    Keeps capacity (moves ++ [.endTick]) (h.after .endTick) := by
  have hendings : (endings (moves ++ [.endTick])).length = (endings moves).length + 1 := by
    rw [endings_endTick, List.length_append, List.length_singleton]
  have hpending : h.ring.pending = frameOf (moves ++ [.endTick]) :=
    hk.pending.trans (frameOf_concat (fun _ => rfl) moves).symm
  have hafter := hk.after_endTick hrun
  have haccepted := accepted_endTick capacity moves
  cases hroom : room capacity moves with
  | true =>
    rw [hroom, if_pos rfl] at hafter haccepted
    rw [hafter]
    have hless : h.ring.queue.items.length < max capacity 1 := by
      rw [hrun]
      exact of_decide_eq_true hroom
    refine ⟨hk.capacity_eq, hpending, ?_, ?_, ?_⟩
    · rw [haccepted, ← hk.frames]
      exact (List.append_assoc _ _ _).symm
    · rw [haccepted, hendings, List.length_append, List.length_singleton]
      exact congrArg (· + 1) hk.count
    · rw [List.length_append]
      exact hless
  | false =>
    rw [hroom, if_neg Bool.false_ne_true] at hafter haccepted
    rw [hafter]
    rw [List.append_nil] at haccepted
    refine ⟨hk.capacity_eq, hpending, ?_, ?_, hk.bound⟩
    · rw [haccepted]
      exact hk.frames
    · rw [haccepted, hendings, ← hk.count]
      exact Nat.add_right_comm _ _ _

theorem Keeps.after (hk : Keeps capacity moves h) (hrun : h = (start capacity).run moves)
    (move : Move) : Keeps capacity (moves ++ [move]) (h.after move) := by
  cases move with
  | write c volts =>
    refine ⟨hk.capacity_eq, ?_, ?_, ?_, hk.bound⟩
    · rw [frameOf_write, ← hk.pending]
      rfl
    · rw [accepted_quiet rfl]
      exact hk.frames
    · rw [accepted_quiet rfl, endings_quiet rfl]
      exact hk.count
  | endTick => exact hk.endTick hrun
  | pop =>
    cases hitems : h.ring.queue.items with
    | nil =>
      have hafter : h.after .pop = { h with ring.queue.items := [], popped := h.popped ++ [] } := by
        rw [Relay.after, Ring.pop?_of_nil hitems, List.append_nil, ← hitems]
      rw [hafter]
      exact hk.take rfl (fun _ => rfl) hitems
    | cons frame rest =>
      rw [Relay.after, Ring.pop?_of_cons hitems]
      exact hk.take rfl (fun _ => rfl) hitems
  | drain => exact hk.take rfl (fun _ => rfl) (List.append_nil _).symm

theorem keeps_run (capacity : Nat) (moves : List Move) :
    Keeps capacity moves ((start capacity).run moves) := by
  -- By the last move: whether an end of a tick finds room depends on all moves before it.
  induction moves using List.reverseRecOn with
  | nil => exact keeps_start capacity
  | append_singleton moves move ih =>
    rw [run_concat]
    exact ih.after rfl move

/-- Every end of a tick is accounted for, at all times and however the two ends interleave.
* The frames that the reader has taken, and those that wait after them, are those of the ticks that found
  room when they ended, in order; each one has the voltages written last before its tick ended.
* The other ticks have been dropped, so that the ends of ticks are as many as the frames taken, waiting
  and dropped.
* No more frames wait than the ring has room for, which is one at least.
* The end of a tick that finds no room changes nothing but the number of frames dropped. -/
theorem conserved (capacity : Nat) (moves : List Move) :
    let h := (start capacity).run moves
    h.popped ++ h.ring.queue.items = ((endings moves).filter (room capacity)).map frameOf ∧
      h.ring.dropped = ((endings moves).filter fun before => !room capacity before).length ∧
      (endings moves).length = h.popped.length + h.ring.queue.items.length + h.ring.dropped ∧
      h.ring.queue.items.length ≤ max capacity 1 ∧
      h.after .endTick =
        if room capacity moves then
          { h with ring.queue.items := h.ring.queue.items ++ [frameOf moves] }
        else { h with ring.dropped := h.ring.dropped + 1 } := by
  intro h
  have hk : Keeps capacity moves h := keeps_run capacity moves
  have hcount := hk.count
  have hframes : h.popped.length + h.ring.queue.items.length = (accepted capacity moves).length := by
    rw [← hk.frames, List.length_append]
  refine ⟨hk.frames, ?_, by omega, hk.bound, hk.after_endTick rfl⟩
  have hsplit := (endings moves).length_eq_length_filter_add (room capacity)
  rw [accepted, List.length_map] at hcount
  omega

/-- A voltage written in a tick that is dropped stays for the next one. -/
example :
    let h := (start 0).run [.write .first 1, .endTick, .write ⟨1⟩ 2, .endTick, .pop, .endTick, .drain]
    h.popped.map PerChannel.toList = [[1, 0, 0, 0], [1, 2, 0, 0]] ∧ h.ring.dropped = 1 := by
  decide +kernel

end Relay

end ControlVoltage
