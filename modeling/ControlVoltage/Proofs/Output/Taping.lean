import ControlVoltage.Proofs.Engine.Output
import ControlVoltage.Proofs.Output.Conservation
import ControlVoltage.Proofs.Output.Rows

/-!
# Live recordings

The ticks put their frames into a ring with room for one second, and a recorder takes them out at its
own pace. A tick that finds the ring full has no row. The recorder counts rows and not ticks, so that
all rows from there on have a time that is too early.

* `Ring.tick` : what a tick does to a ring; `Engine.tick_ring`.
* `Taping`, `Taping.Move` : the ring and the recorder, in any order of ticks and takes.
* `Taping.Keeps` : what has been recorded, and what waits in the ring, are the frames that found room.
* `Taping.text_eq_iff` : when every tick has a row with its own time.
-/

namespace ControlVoltage

/-! ## Ticks -/

namespace Ring

/-- What a tick does to a ring: the four voltages are written in panel order, and the tick ends. -/
def tick (r : Ring) (frame : Frame) : Ring :=
  Sink.endTick (Channel.all.foldl (fun r c => Sink.write r c (frame.get c)) r)

theorem tick_eq (r : Ring) (frame : Frame) : r.tick frame = { r with pending := frame }.endTick := by
  have folds : ∀ (cs : List Channel) (r : Ring), (∀ c, c ∉ cs → r.pending.get c = frame.get c) →
      cs.foldl (fun r c => Sink.write r c (frame.get c)) r = { r with pending := frame } := by
    intro cs
    induction cs with
    | nil =>
      intro r h
      have hpending : r.pending = frame := PerChannel.ext_get fun c => h c List.not_mem_nil
      rw [← hpending]
      rfl
    | cons c cs ih =>
      intro r h
      rw [List.foldl_cons, ih _ fun d hd => ?_]
      · rfl
      · by_cases hc : c = d
        · subst hc
          exact PerChannel.get_set_self r.pending c _
        · exact (PerChannel.get_set_ne r.pending hc _).trans (h d (by simp [Ne.symm hc, hd]))
  exact congrArg Sink.endTick (folds Channel.all r fun c hc => absurd (Channel.mem_all c) hc)

variable {r : Ring}

theorem tick_of_room (h : r.queue.isFull = false) (frame : Frame) :
    r.tick frame = ⟨{ r.queue with items := r.queue.items ++ [frame] }, frame, r.dropped⟩ :=
  (tick_eq r frame).trans (endTick_of_room h)

theorem tick_of_full (h : r.queue.isFull = true) (frame : Frame) :
    r.tick frame = ⟨r.queue, frame, r.dropped + 1⟩ :=
  (tick_eq r frame).trans (endTick_of_full h)

end Ring

theorem Engine.tick_ring (e : Engine) (locks : Locks) (r : Ring) :
    (e.tick locks r).2 = r.tick (.ofFn (e.output locks)) := by
  rw [tick_writes, outputTo, Ring.tick]
  simp only [PerChannel.get_ofFn]

/-! ## Recording -/

/-- A ring that ticks put their frames into, and the recorder at its other end. -/
structure Taping where
  ring : Ring
  recorder : Recorder

namespace Taping

inductive Move where
  /-- A tick that writes these voltages. -/
  | tick (frame : Frame)
  /-- The recorder takes one frame, if there is one. -/
  | take
  /-- The recorder takes all frames. -/
  | drain

/-- The ring has room for one second. -/
def start (rate : Rate) : Taping := ⟨.empty rate.hz.toNat, .start rate⟩

def after (t : Taping) : Move → Taping
  | .tick frame => { t with ring := t.ring.tick frame }
  | .take =>
    match t.ring.pop? with
    | none => t
    | some (frame, ring) => ⟨ring, t.recorder.record frame⟩
  | .drain => ⟨t.ring.drain.2, t.recorder.recordAll t.ring.drain.1⟩

def run (t : Taping) (moves : List Move) : Taping := moves.foldl after t

theorem after_take_nil {t : Taping} (h : t.ring.queue.items = []) : t.after .take = t := by
  rw [after, Ring.pop?_of_nil h]

theorem after_take_cons {t : Taping} {frame : Frame} {rest : List Frame}
    (h : t.ring.queue.items = frame :: rest) :
    t.after .take =
      ⟨{ t.ring with queue := { t.ring.queue with items := rest } }, t.recorder.record frame⟩ := by
  rw [after, Ring.pop?_of_cons h]

/-- What has been written when the ring has been drained for the last time. -/
def text (t : Taping) : String := (t.after .drain).recorder.written

def ticks (moves : List Move) : List Frame :=
  moves.filterMap fun move =>
    match move with
    | .tick frame => some frame
    | _ => none

/-- The frame of a tick that finds room in the ring. -/
def keeps (t : Taping) : Move → List Frame
  | .tick frame => if t.ring.queue.isFull then [] else [frame]
  | _ => []

/-- The frames of the ticks that find room in the ring, in order. -/
def kept : Taping → List Move → List Frame
  | _, [] => []
  | t, move :: moves => t.keeps move ++ kept (t.after move) moves

theorem kept_append (t : Taping) (moves moves' : List Move) :
    t.kept (moves ++ moves') = t.kept moves ++ (t.run moves).kept moves' := by
  induction moves generalizing t with
  | nil => rfl
  | cons move moves ih =>
    rw [List.cons_append, kept, kept, ih, List.append_assoc]
    rfl

theorem kept_sublist (t : Taping) (moves : List Move) : (t.kept moves).Sublist (ticks moves) := by
  induction moves generalizing t with
  | nil => exact .refl []
  | cons move moves ih =>
    cases move with
    | tick frame =>
      simp only [kept, keeps]
      cases t.ring.queue.isFull with
      | true => exact (ih _).cons frame
      | false => exact (ih _).cons_cons frame
    | take => exact ih _
    | drain => exact ih _

/-! ## What a run keeps -/

/-- These frames have found room in the ring: they have been recorded from the first on, and the ones
left wait in the ring. -/
structure Keeps (rate : Rate) (frames : List Frame) (t : Taping) : Prop where
  capacity : t.ring.queue.capacity = rate.hz.toNat
  recorded : ∃ taken, frames = taken ++ t.ring.queue.items ∧
    t.recorder = (Recorder.start rate).recordAll taken

variable {rate : Rate} {frames : List Frame} {t : Taping}

theorem keeps_start (rate : Rate) : Keeps rate [] (start rate) := by
  have hpos : rate.hz.toNat ≠ 0 := fun h => rate.hz_ne_zero (UInt32.toNat_inj.1 h)
  exact ⟨Nat.max_eq_left (by omega), [], rfl, rfl⟩

theorem Keeps.after (h : Keeps rate frames t) (move : Move) :
    Keeps rate (frames ++ t.keeps move) (t.after move) := by
  obtain ⟨hcapacity, taken, rfl, hrecorder⟩ := h
  cases move with
  | tick frame =>
    cases hfull : t.ring.queue.isFull with
    | true =>
      simp only [keeps, Taping.after, hfull, if_true, List.append_nil, Ring.tick_of_full hfull]
      exact ⟨hcapacity, taken, rfl, hrecorder⟩
    | false =>
      simp only [keeps, Taping.after, hfull, Ring.tick_of_room hfull]
      exact ⟨hcapacity, taken, List.append_assoc _ _ _, hrecorder⟩
  | take =>
    have nothing : t.keeps .take = [] := rfl
    rw [nothing, List.append_nil]
    cases hitems : t.ring.queue.items with
    | nil =>
      rw [after_take_nil hitems, ← hitems]
      exact ⟨hcapacity, taken, rfl, hrecorder⟩
    | cons frame rest =>
      rw [after_take_cons hitems]
      refine ⟨hcapacity, taken ++ [frame], by simp, ?_⟩
      rw [Recorder.recordAll_append, ← hrecorder]
      rfl
  | drain =>
    refine ⟨hcapacity, taken ++ t.ring.queue.items, ?_, ?_⟩
    · simp [keeps, Taping.after, Ring.drain, Fifo.clear]
    · rw [Recorder.recordAll_append, ← hrecorder]
      rfl

theorem Keeps.run (h : Keeps rate frames t) (moves : List Move) :
    Keeps rate (frames ++ t.kept moves) (t.run moves) := by
  induction moves generalizing frames t with
  | nil =>
    rw [kept, List.append_nil]
    exact h
  | cons move moves ih =>
    rw [kept, ← List.append_assoc]
    exact ih (h.after move)

theorem Keeps.text_eq (h : Keeps rate frames t) : t.text = Trace.arrivals rate frames := by
  obtain ⟨-, taken, rfl, hrecorder⟩ := h
  rw [text, Taping.after, hrecorder, Ring.drain, ← Recorder.recordAll_append,
    Recorder.recordAll_start]

theorem keeps_run (rate : Rate) (moves : List Move) :
    Keeps rate ((start rate).kept moves) ((start rate).run moves) :=
  (keeps_start rate).run moves

theorem dropped_after (t : Taping) (move : Move) :
    (t.after move).ring.dropped + (t.keeps move).length =
      t.ring.dropped + (ticks [move]).length := by
  cases move with
  | tick frame =>
    cases hfull : t.ring.queue.isFull with
    | true => simp [keeps, after, ticks, hfull, Ring.tick_of_full hfull]
    | false => simp [keeps, after, ticks, hfull, Ring.tick_of_room hfull]
  | take =>
    cases hitems : t.ring.queue.items with
    | nil =>
      rw [after_take_nil hitems]
      rfl
    | cons frame rest =>
      rw [after_take_cons hitems]
      rfl
  | drain => rfl

theorem dropped_run (t : Taping) (moves : List Move) :
    (t.run moves).ring.dropped + (t.kept moves).length =
      t.ring.dropped + (ticks moves).length := by
  induction moves generalizing t with
  | nil => rfl
  | cons move moves ih =>
    have hfirst := dropped_after t move
    have hrest := ih (t.after move)
    have hticks : ticks (move :: moves) = ticks [move] ++ ticks moves :=
      List.filterMap_append (l := [move])
    rw [kept, hticks, List.length_append, List.length_append]
    change (t.run (move :: moves)).ring.dropped + _ = _ at hrest
    omega

theorem dropped_start (rate : Rate) (moves : List Move) :
    ((start rate).run moves).ring.dropped + ((start rate).kept moves).length =
      (ticks moves).length :=
  (dropped_run (start rate) moves).trans (Nat.zero_add _)

/-! ## Labels -/

variable {before later moves : List Move} {frame : Frame}

theorem ticks_split (before later : List Move) (frame : Frame) :
    ticks (before ++ .tick frame :: later) = ticks before ++ frame :: ticks later := by
  simp [ticks]

theorem kept_split (t : Taping) (before later : List Move) (frame : Frame) :
    t.kept (before ++ .tick frame :: later) = t.kept before ++
      ((t.run before).keeps (.tick frame) ++ ((t.run before).after (.tick frame)).kept later) :=
  kept_append t before (.tick frame :: later)

theorem Keeps.keeps_tick (h : Keeps rate frames t) (frame : Frame) :
    t.keeps (.tick frame) =
      if t.ring.queue.items.length < rate.hz.toNat then [frame] else [] := by
  simp only [keeps, Fifo.isFull, h.capacity, decide_eq_true_eq, ← Nat.not_lt, ite_not]

theorem kept_eq_ticks (t : Taping) (moves : List Move)
    (room : ∀ before frame later, moves = before ++ .tick frame :: later →
      (t.run before).keeps (.tick frame) = [frame]) : t.kept moves = ticks moves := by
  induction moves generalizing t with
  | nil => rfl
  | cons move moves ih =>
    have htail : (t.after move).kept moves = ticks moves :=
      ih _ fun before frame later h => room (move :: before) frame later (by rw [h]; rfl)
    cases move with
    | tick frame =>
      have hhead : t.keeps (.tick frame) = [frame] := room [] frame moves rfl
      rw [kept, hhead, htail]
      rfl
    | take => exact htail
    | drain => exact htail

/-- A tick that finds room in a ring has the row of its number less the ticks dropped before it; one
that does not is dropped. -/
theorem row_of_tick (rate : Rate) (before later : List Move) (frame : Frame) :
    let t := (start rate).run before
    if t.ring.queue.items.length < rate.hz.toNat then
      t.ring.dropped ≤ (ticks before).length ∧
        ((start rate).kept (before ++ .tick frame :: later))[(ticks before).length - t.ring.dropped]? =
          some frame
    else (t.after (.tick frame)).ring.dropped = t.ring.dropped + 1 := by
  intro t
  have hkeeps : t.keeps (.tick frame) = _ := (keeps_run rate before).keeps_tick frame
  split
  · rename_i hroom
    rw [if_pos hroom] at hkeeps
    have hbefore : t.ring.dropped + ((start rate).kept before).length = (ticks before).length :=
      dropped_start rate before
    have hindex : (ticks before).length - t.ring.dropped = ((start rate).kept before).length := by
      omega
    rw [kept_split, hkeeps, hindex]
    exact ⟨by omega, by simp⟩
  · rename_i hfull
    rw [if_neg hfull] at hkeeps
    have hafter := dropped_after t (.tick frame)
    rwa [hkeeps] at hafter

theorem length_kept_lt {t : Taping} (h : (t.run before).keeps (.tick frame) = []) :
    (t.kept (before ++ .tick frame :: later)).length <
      (ticks (before ++ .tick frame :: later)).length := by
  have hbefore := (kept_sublist t before).length_le
  have hlater := (kept_sublist ((t.run before).after (.tick frame)) later).length_le
  rw [kept_split, ticks_split, h]
  simp only [List.length_append, List.length_cons, List.nil_append]
  omega

/-- When a live recording labels every tick with its own time. Through any run of ticks and of takes
by the recorder, and after a last drain,
* the recording has one row for every tick that has found room in the ring, in order, and the ticks
  that have not are counted as dropped;
* a tick finds room as long as less than a second of frames is waiting, and then has the row, and so
  the time, of the tick whose number is smaller by the ticks dropped before it;
* every tick has a row, with its own time and its own voltages, if and only if each one finds room. -/
theorem text_eq_iff (rate : Rate) (moves : List Move) :
    let rows := (start rate).kept moves
    ((start rate).run moves).text = Trace.arrivals rate rows ∧
    rows.Sublist (ticks moves) ∧
    ((start rate).run moves).ring.dropped + rows.length = (ticks moves).length ∧
    (∀ before frame later, moves = before ++ .tick frame :: later →
      let t := (start rate).run before
      if t.ring.queue.items.length < rate.hz.toNat then
        t.ring.dropped ≤ (ticks before).length ∧
          rows[(ticks before).length - t.ring.dropped]? = some frame
      else (t.after (.tick frame)).ring.dropped = t.ring.dropped + 1) ∧
    (((start rate).run moves).text = Trace.arrivals rate (ticks moves) ↔
      ∀ before frame later, moves = before ++ .tick frame :: later →
        ((start rate).run before).ring.queue.items.length < rate.hz.toNat) := by
  intro rows
  have htext : ((start rate).run moves).text = Trace.arrivals rate rows :=
    (keeps_run rate moves).text_eq
  have room : ∀ before frame, ((start rate).run before).keeps (.tick frame) =
      if ((start rate).run before).ring.queue.items.length < rate.hz.toNat then [frame] else [] :=
    fun before frame => (keeps_run rate before).keeps_tick frame
  refine ⟨htext, kept_sublist _ moves, dropped_start rate moves, ?_, ?_, ?_⟩
  · rintro before frame later rfl
    exact row_of_tick rate before later frame
  · rintro same before frame later rfl
    -- A row is a line, so the two texts have rows of the same number of frames.
    have hbreaks := congrArg Trace.breaks (htext.symm.trans same)
    rw [Trace.breaks_arrivals, Trace.breaks_arrivals] at hbreaks
    by_contra hfull
    have hkeeps := room before frame
    rw [if_neg hfull] at hkeeps
    exact absurd (Nat.succ_inj.1 hbreaks) (length_kept_lt hkeeps).ne
  · intro hroom
    rw [htext]
    congr 1
    refine kept_eq_ticks (start rate) moves fun before frame later hsplit => ?_
    rw [room before frame, if_pos (hroom before frame later hsplit)]

/-- One tick a second, and the recorder misses the second one: the third has the time of the
second. -/
theorem misdated :
    let rate : Rate := ⟨1, by decide⟩
    let volts : Float32 → Frame := PerChannel.replicate
    let moves : List Move := [.tick (volts 0), .tick (volts 1), .drain, .tick (volts 2)]
    ((start rate).run moves).text =
        String.join [Trace.header, Trace.row rate 0 (volts 0), Trace.row rate 1 (volts 2)] ∧
      ((start rate).run moves).text ≠ Trace.text rate (ticks moves) := by
  intro rate volts moves
  have hkept : (start rate).kept moves = [volts 0, volts 2] := rfl
  have htext : ((start rate).run moves).text = Trace.arrivals rate [volts 0, volts 2] :=
    hkept ▸ (keeps_run rate moves).text_eq
  refine ⟨?_, fun same => ?_⟩
  · rw [htext, Trace.arrivals]
    simp [List.mapIdx_cons]
  · have hticks : ticks moves = [volts 0, volts 1, volts 2] := rfl
    rw [htext, ← Trace.arrivals_eq_text rate (by rw [hticks]; decide)] at same
    have hbreaks := congrArg Trace.breaks same
    rw [Trace.breaks_arrivals, Trace.breaks_arrivals, hticks] at hbreaks
    exact absurd hbreaks (by decide)

end Taping

end ControlVoltage
