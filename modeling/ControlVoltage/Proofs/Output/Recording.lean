import ControlVoltage.Output.Recording
import Mathlib

/-!
# What a recording holds

A recording is a log with a bound: of the samples written to a channel since the recording was last
cleared, it holds the first ones, as many as it has room for, and it counts the others. The channels
can be written in any order and fill up one before the other; a frame is complete when every channel
has got to it.

* `Recording.Move`, `Recording.log` : what can happen to a recording, and what should be in it.
* `Recording.Keeps` : what is in it; `Keeps.after`, `keeps_run`.
* `Recording.lt_size_iff`, `Recording.frame?_eq_some_iff`, `Recording.getElem?_frames` : the complete
  frames.
* `Recording.run_frames` : whole frames are all kept, if there is room for them.
-/

namespace ControlVoltage.Recording

variable {r : Recording} {c : Channel}

/-! ## Samples -/

theorem samples_write_self (room : (r.samples c).size < r.capacity) (volts : Float32) :
    (r.write c volts).samples c = (r.samples c).push volts := by
  rw [write, if_pos room]
  simp [samples, PerChannel.modify_eq_set]

theorem samples_write_ne (r : Recording) {c d : Channel} (h : c ≠ d) (volts : Float32) :
    (r.write c volts).samples d = r.samples d := by
  unfold write
  split
  · simp [samples, PerChannel.modify_eq_set, PerChannel.get_set_ne _ h]
  · rfl

theorem capacity_write (r : Recording) (c : Channel) (volts : Float32) :
    (r.write c volts).capacity = r.capacity := by
  unfold write
  split <;> rfl

theorem overflow_write (room : (r.samples c).size < r.capacity) (volts : Float32) :
    (r.write c volts).overflow = r.overflow := by
  rw [write, if_pos room]

theorem write_of_full (full : r.capacity ≤ (r.samples c).size) (volts : Float32) :
    r.write c volts = { r with overflow := r.overflow + 1 } :=
  if_neg (Nat.not_lt.2 full)

theorem samples_empty (capacity : Nat) (c : Channel) : (empty capacity).samples c = #[] :=
  PerChannel.get_replicate _ c

/-! ## Moves -/

inductive Move where
  | write (c : Channel) (volts : Float32)
  | endTick
  | clear

def after (r : Recording) : Move → Recording
  | .write c volts => Sink.write r c volts
  | .endTick => Sink.endTick r
  | .clear => r.clear

def run (r : Recording) (moves : List Move) : Recording := moves.foldl after r

theorem run_append (r : Recording) (moves moves' : List Move) :
    r.run (moves ++ moves') = (r.run moves).run moves' :=
  List.foldl_append

namespace Move

def isClear : Move → Bool
  | .clear => true
  | _ => false

def volts? (c : Channel) : Move → Option Float32
  | .write d volts => if d = c then some volts else none
  | _ => none

end Move

def sinceClear (moves : List Move) : List Move := moves.rtakeWhile fun move => !move.isClear

/-- The voltages written to a channel since the last clear, in order. -/
def log (moves : List Move) (c : Channel) : List Float32 :=
  (sinceClear moves).filterMap (Move.volts? c)

variable {moves : List Move} {capacity : Nat}

theorem log_clear (moves : List Move) (c : Channel) : log (moves ++ [.clear]) c = [] := by
  rw [log, sinceClear, List.rtakeWhile_concat_neg _ _ _ (by simp [Move.isClear])]
  rfl

theorem log_concat {move : Move} (h : move.isClear = false) (c : Channel) :
    log (moves ++ [move]) c = log moves c ++ (move.volts? c).toList := by
  rw [log, sinceClear, List.rtakeWhile_concat_pos _ _ _ (by simp [h]), List.filterMap_append]
  cases hvolts : move.volts? c <;> simp [log, sinceClear, hvolts]

theorem log_write_self (moves : List Move) (c : Channel) (volts : Float32) :
    log (moves ++ [.write c volts]) c = log moves c ++ [volts] := by
  rw [log_concat rfl, Move.volts?, if_pos rfl]
  rfl

theorem log_write_ne (moves : List Move) {c d : Channel} (h : c ≠ d) (volts : Float32) :
    log (moves ++ [.write c volts]) d = log moves d := by
  rw [log_concat rfl, Move.volts?, if_neg h]
  exact List.append_nil _

/-! ## What a run keeps -/

/-- After these moves a recording holds the first samples of each log and has counted the others. -/
structure Keeps (capacity : Nat) (moves : List Move) (r : Recording) : Prop where
  room : r.capacity = capacity
  samples : ∀ c, (r.samples c).toList = (log moves c).take capacity
  overflow : r.overflow = (Channel.all.map fun c => (log moves c).length - capacity).sum

theorem keeps_empty (capacity : Nat) : Keeps capacity [] (empty capacity) where
  room := rfl
  samples c := by
    rw [samples_empty]
    exact List.take_nil.symm
  overflow := by simp [log, sinceClear, empty, Channel.all]

theorem Keeps.size (h : Keeps capacity moves r) (c : Channel) :
    (r.samples c).size = min capacity (log moves c).length := by
  rw [← Array.length_toList, h.samples, List.length_take]

theorem Keeps.of_log {moves' : List Move} (h : Keeps capacity moves r) (same : log moves' = log moves) :
    Keeps capacity moves' r := by
  refine ⟨h.room, ?_, ?_⟩
  · rw [same]
    exact h.samples
  · rw [same]
    exact h.overflow

theorem sum_map_succ {f g : Channel → Nat} (hself : g c = f c + 1) (hother : ∀ d, c ≠ d → g d = f d)
    {cs : List Channel} (hc : c ∈ cs) (hnodup : cs.Nodup) :
    (cs.map g).sum = (cs.map f).sum + 1 := by
  obtain ⟨before, after, rfl⟩ := List.append_of_mem hc
  obtain ⟨hfresh, -⟩ := List.nodup_cons.1 (List.nodup_middle.1 hnodup)
  obtain ⟨hbefore, hafter⟩ := not_or.1 (mt List.mem_append.2 hfresh)
  have same : ∀ ds : List Channel, c ∉ ds → ds.map g = ds.map f := fun ds hds =>
    List.map_congr_left fun d hd => hother d fun hcd => hds (hcd ▸ hd)
  simp only [List.map_append, List.map_cons, same before hbefore, same after hafter, hself,
    List.sum_append, List.sum_cons]
  omega

theorem Keeps.after_write (h : Keeps capacity moves r) (c : Channel) (volts : Float32) :
    Keeps capacity (moves ++ [.write c volts]) (r.write c volts) := by
  have hself := log_write_self moves c volts
  -- There is room for the sample as long as the log is shorter than the capacity.
  have hsize := h.size c
  refine ⟨(capacity_write r c volts).trans h.room, fun d => ?_, ?_⟩
  · by_cases hd : c = d
    · subst hd
      rw [hself]
      by_cases hroom : (log moves c).length < capacity
      · rw [samples_write_self (by rw [h.room]; omega), Array.toList_push, h.samples,
          List.take_of_length_le hroom.le, List.take_of_length_le (by simpa using Nat.succ_le_of_lt hroom)]
      · rw [write_of_full (by rw [h.room]; omega), List.take_append_of_le_length (by omega)]
        exact h.samples c
    · rw [samples_write_ne r hd, h.samples, log_write_ne moves hd]
  · by_cases hroom : (log moves c).length < capacity
    · rw [overflow_write (by rw [h.room]; omega), h.overflow]
      refine congrArg List.sum (List.map_congr_left fun d _ => ?_)
      by_cases hd : c = d
      · subst hd
        rw [hself, List.length_append, List.length_singleton]
        omega
      · rw [log_write_ne moves hd]
    · rw [write_of_full (by rw [h.room]; omega), h.overflow]
      refine (sum_map_succ ?_ ?_ (Channel.mem_all c) (by decide)).symm
      · rw [hself, List.length_append, List.length_singleton]
        omega
      · intro d hd
        rw [log_write_ne moves hd]

theorem Keeps.after (h : Keeps capacity moves r) (move : Move) :
    Keeps capacity (moves ++ [move]) (r.after move) := by
  cases move with
  | write c volts => exact h.after_write c volts
  | endTick => exact h.of_log (funext fun c => (log_concat rfl c).trans (List.append_nil _))
  | clear =>
    have hclear : r.clear = empty capacity := congrArg empty h.room
    rw [Recording.after, hclear]
    exact (keeps_empty capacity).of_log (funext fun c => log_clear moves c)

theorem keeps_run (capacity : Nat) (moves : List Move) :
    Keeps capacity moves ((empty capacity).run moves) := by
  induction moves using List.reverseRecOn with
  | nil => exact keeps_empty capacity
  | append_singleton moves move ih =>
    rw [run_append]
    exact ih.after move

/-! ## Complete frames -/

theorem lt_foldl_min {t n : Nat} (f : Channel → Nat) (cs : List Channel) :
    t < cs.foldl (fun n c => min n (f c)) n ↔ t < n ∧ ∀ c ∈ cs, t < f c := by
  induction cs generalizing n with
  | nil => simp
  | cons c cs ih => rw [List.foldl_cons, ih, Nat.lt_min, List.forall_mem_cons, and_assoc]

theorem lt_size_iff {t : Nat} : t < r.size ↔ ∀ c, t < (r.samples c).size := by
  rw [size, lt_foldl_min]
  exact ⟨fun h c => h.2 c (Channel.mem_all c), fun h => ⟨h _, fun c _ => h c⟩⟩

theorem size_le (r : Recording) (c : Channel) : r.size ≤ (r.samples c).size :=
  Nat.le_of_not_lt fun h => Nat.lt_irrefl _ (lt_size_iff.1 h c)

theorem exists_size_eq (r : Recording) : ∃ c, (r.samples c).size = r.size := by
  by_contra h
  have hless : r.size < r.size := lt_size_iff.2 fun c =>
    (size_le r c).lt_of_ne fun same => h ⟨c, same.symm⟩
  exact Nat.lt_irrefl _ hless

theorem frame?_of_lt {t : Nat} (h : t < r.size) :
    r.frame? t = some (.ofFn fun c => (r.samples c).getD t 0) :=
  if_pos h

theorem frame?_of_le {t : Nat} (h : r.size ≤ t) : r.frame? t = none :=
  if_neg (Nat.not_lt.2 h)

theorem frame?_eq_some_iff {t : Nat} {frame : Frame} :
    r.frame? t = some frame ↔ ∀ c, (r.samples c)[t]? = some (frame.get c) := by
  by_cases h : t < r.size
  · have hget : ∀ c, (r.samples c)[t]? = some ((r.samples c).getD t 0) := by
      intro c
      have hc := lt_size_iff.1 h c
      simp [hc]
    rw [frame?_of_lt h, Option.some.injEq]
    constructor
    · rintro rfl c
      rw [hget, PerChannel.get_ofFn]
    · refine fun hframe => PerChannel.ext_get fun c => ?_
      have hc := (hget c).symm.trans (hframe c)
      rw [PerChannel.get_ofFn]
      exact Option.some.inj hc
  · obtain ⟨c, hc⟩ := exists_size_eq r
    have hnone : (r.samples c)[t]? = none := Array.getElem?_eq_none (by omega)
    rw [frame?_of_le (Nat.le_of_not_lt h)]
    constructor
    · exact fun hframe => absurd hframe (by simp)
    · intro hframe
      have hc := hframe c
      rw [hnone] at hc
      exact absurd hc (by simp)

theorem frames_eq (r : Recording) :
    r.frames = (List.range r.size).map fun t => .ofFn fun c => (r.samples c).getD t 0 := by
  rw [frames, ← List.filterMap_eq_map]
  exact List.filterMap_congr fun t ht => frame?_of_lt (List.mem_range.1 ht)

theorem length_frames (r : Recording) : r.frames.length = r.size := by
  rw [frames_eq, List.length_map, List.length_range]

theorem getElem?_frames (r : Recording) (t : Nat) : r.frames[t]? = r.frame? t := by
  rw [frames_eq, List.getElem?_map]
  by_cases h : t < r.size
  · rw [List.getElem?_range h, frame?_of_lt h]
    rfl
  · rw [List.getElem?_eq_none (by simpa using h), frame?_of_le (Nat.le_of_not_lt h)]
    rfl

/-! ## Whole frames -/

def frameMoves (frame : Frame) : List Move :=
  Channel.all.map (fun c => .write c (frame.get c)) ++ [.endTick]

theorem run_frameMoves (r : Recording) (frame : Frame) :
    r.run (frameMoves frame) =
      Sink.endTick (Channel.all.foldl (fun r c => Sink.write r c (frame.get c)) r) := rfl

theorem log_frames (frames : List Frame) (c : Channel) :
    log (frames.flatMap frameMoves) c = frames.map (·.get c) := by
  have hsince : sinceClear (frames.flatMap frameMoves) = frames.flatMap frameMoves := by
    refine List.rtakeWhile_eq_self_iff.2 fun move hmove => ?_
    obtain ⟨frame, -, hmove⟩ := List.mem_flatMap.1 hmove
    rw [frameMoves, List.mem_append, List.mem_map, List.mem_singleton] at hmove
    obtain ⟨d, -, rfl⟩ | rfl := hmove <;> rfl
  -- Every channel is written once in a tick.
  have hone : ∀ frame : Frame, (frameMoves frame).filterMap (Move.volts? c) = [frame.get c] := by
    intro frame
    obtain ⟨i⟩ := c
    revert i
    simp [Fin.forall_fin_succ, frameMoves, Channel.all, Channel.first, Move.volts?]
  rw [log, hsince, List.filterMap_flatMap, List.flatMap_congr fun frame _ => hone frame]
  exact List.map_eq_flatMap.symm

theorem run_frames (frames : List Frame) :
    let r := (empty frames.length).run (frames.flatMap frameMoves)
    (∀ c, (r.samples c).toList = frames.map (·.get c)) ∧ r.size = frames.length ∧
      r.overflow = 0 ∧ r.frames = frames := by
  intro r
  have keeps : Keeps frames.length (frames.flatMap frameMoves) r := keeps_run _ _
  have hsamples : ∀ c, (r.samples c).toList = frames.map (·.get c) := by
    intro c
    rw [keeps.samples, log_frames, List.take_of_length_le (by simp)]
  have hsize : r.size = frames.length := by
    obtain ⟨c, hc⟩ := exists_size_eq r
    rw [← hc, ← Array.length_toList, hsamples, List.length_map]
  refine ⟨hsamples, hsize, ?_, ?_⟩
  · rw [keeps.overflow]
    simp [log_frames, Channel.all]
  · refine List.ext_getElem? fun t => ?_
    rw [getElem?_frames]
    by_cases ht : t < frames.length
    · rw [List.getElem?_eq_getElem ht]
      refine frame?_eq_some_iff.2 fun c => ?_
      rw [← Array.getElem?_toList, hsamples]
      simp [ht]
    · rw [List.getElem?_eq_none (by omega), frame?_of_le (by omega)]

end ControlVoltage.Recording
