import ControlVoltage.Proofs.Engine.Stages
import ControlVoltage.Proofs.Voice.Endings

/-!
# The queue of reported ends

The ends of walks are reported in the order in which they come about, into a queue of bounded length. The
queue is the list of all reports without those that have left it from the front: received by whoever
polls, or discarded when one more than fits is reported.

* `Engine.reports` : all reports of a run, in order.
* `Engine.fates` : what has become of the reports that have left the queue, the oldest first.
* `Engine.received` : the reports that polling has been answered with.
* `Kept.run` : the queue, and what has been received of it.
* `reports_once` : the reports of a channel and its walks, and the queue of the reports.
-/

namespace ControlVoltage

/-! ## Pushing onto a full queue -/

namespace Fifo

variable {α : Type}

theorem pushEvicting_items {q : Fifo α} (hroom : 0 < q.capacity)
    (hfits : q.items.length ≤ q.capacity) (a : α) :
    (q.pushEvicting a).items =
      (q.items ++ [a]).drop ((q.items ++ [a]).length - q.capacity) := by
  unfold pushEvicting isFull
  rw [List.length_append, List.length_singleton]
  split
  · rename_i hfull
    rw [decide_eq_true_eq] at hfull
    have hone : q.items.length + 1 - q.capacity = 1 := by omega
    rw [hone, List.drop_one, List.tail_append_of_ne_nil (List.ne_nil_of_length_pos (by omega))]
  · rename_i hfull
    rw [decide_eq_true_eq] at hfull
    have hnone : q.items.length + 1 - q.capacity = 0 := by omega
    rw [hnone, List.drop_zero]

theorem items_foldl_pushEvicting_eq {q : Fifo α} (hroom : 0 < q.capacity)
    (hfits : q.items.length ≤ q.capacity) (items : List α) :
    (items.foldl pushEvicting q).capacity = q.capacity ∧
      (items.foldl pushEvicting q).items =
        (q.items ++ items).drop ((q.items ++ items).length - q.capacity) := by
  induction items generalizing q with
  | nil =>
    rw [List.append_nil, Nat.sub_eq_zero_of_le hfits, List.drop_zero]
    exact ⟨rfl, rfl⟩
  | cons a items ih =>
    have hcapacity : (q.pushEvicting a).capacity = q.capacity := by
      unfold pushEvicting
      split <;> rfl
    have hitems := pushEvicting_items hroom hfits a
    have hfits' : (q.pushEvicting a).items.length ≤ (q.pushEvicting a).capacity := by
      rw [hcapacity, hitems, List.length_drop]
      omega
    obtain ⟨hc, hi⟩ := ih (hcapacity ▸ hroom) hfits'
    refine ⟨hc.trans hcapacity, ?_⟩
    have hsplit : q.items ++ a :: items = q.items ++ [a] ++ items := List.append_cons _ _ _
    rw [List.foldl_cons, hi, hitems, hcapacity, hsplit]
    generalize q.items ++ [a] = pushed
    rw [← List.drop_append_of_le_length (Nat.sub_le _ _), List.drop_drop, List.length_drop,
      List.length_append]
    congr 1
    omega

end Fifo

namespace Engine

variable (e : Engine) (c : Channel)

/-! ## Reports -/

/-- All ends that moves report, in order. -/
def reports : Engine → List Move → List Channel
  | _, [] => []
  | e, move :: moves => e.queued move ++ reports (e.after move) moves

theorem count_queued_eq (move : Move) :
    (e.queued move).count c = (e.voice c).endCount e.rig (e.shareOf c move) := by
  rw [count_queued]
  rcases e.brief_shareOf c move with hshort | ⟨program, action, hshare⟩
  · generalize e.shareOf c move = moves at hshort
    match moves, hshort with
    | [], _ => rfl
    | [m], _ =>
      simp only [Voice.endsIn, Voice.endCount, Bool.or_false]
      cases (e.voice c).ends e.rig m <;> rfl
  · rw [hshare]
    have hload : (e.voice c).ends e.rig (.load program) = false := rfl
    simp only [Voice.endsIn, Voice.endCount, hload, Bool.or_false, Bool.false_or]
    cases ((e.voice c).after e.rig (.load program)).ends e.rig (.trigger action) <;> rfl

theorem count_reports (moves : List Move) :
    (e.reports moves).count c = (e.voice c).endCount e.rig (sharesOf c e moves) := by
  induction moves generalizing e with
  | nil => rfl
  | cons move moves ih =>
    obtain ⟨hrig, hvoice⟩ := e.after_voice move
    rw [reports, List.count_append, ih, count_queued_eq, sharesOf, Voice.endCount_append, hrig, hvoice]

/-! ## Fates -/

/-- What becomes of a report in the end. -/
inductive Fate where
  /-- Polling was answered with it. -/
  | received
  /-- It was the oldest one when there was no more room. -/
  | discarded
deriving DecidableEq, Repr

/-- The fates of the reports that leave the queue in a move: one is received by a poll, and all by a
draining; otherwise as many are discarded as are too many with the new ones. -/
def fatesOf : Move → List Fate
  | .perform _ .pollEvent => List.replicate (min 1 e.events.items.length) .received
  | .perform _ .drainEvents => List.replicate e.events.items.length .received
  | move =>
    List.replicate (e.events.items.length + (e.queued move).length - eventCapacity) .discarded

/-- The fates of all reports that leave the queue, the oldest first. -/
def fates : Engine → List Move → List Fate
  | _, [] => []
  | e, move :: moves => e.fatesOf move ++ fates (e.after move) moves

/-- The reports that a move is answered with. -/
def receivedIn : Move → List Channel
  | .perform locks command =>
    match (e.perform locks command).1 with
    | .ok (.event (some c)) => [c]
    | .ok (.events cs) => cs
    | _ => []
  | _ => []

def received : Engine → List Move → List Channel
  | _, [] => []
  | e, move :: moves => e.receivedIn move ++ received (e.after move) moves

/-- The reports among others that were received. -/
def Fate.select (reports : List Channel) (fates : List Fate) : List Channel :=
  (reports.zip fates).filterMap fun (c, fate) => if fate = .received then some c else none

namespace Fate

variable {reports reports' : List Channel} {fates : List Fate}

theorem select_cons (c : Channel) (fate : Fate) :
    select (c :: reports) (fate :: fates) =
      (if fate = .received then [c] else []) ++ select reports fates := by
  cases fate <;> rfl

theorem select_received (reports : List Channel) (n : Nat) :
    select reports (List.replicate n .received) = reports.take n := by
  induction n generalizing reports with
  | zero => rw [List.take_zero]; exact congrArg _ List.zip_nil_right
  | succ n ih =>
    cases reports with
    | nil => rfl
    | cons c reports =>
      rw [List.replicate_succ, select_cons, ih]
      rfl

theorem select_discarded (reports : List Channel) (n : Nat) :
    select reports (List.replicate n .discarded) = [] := by
  induction n generalizing reports with
  | zero => exact congrArg _ List.zip_nil_right
  | succ n ih =>
    cases reports with
    | nil => rfl
    | cons c reports =>
      rw [List.replicate_succ, select_cons, ih]
      rfl

theorem select_append (h : fates.length ≤ reports.length) (fates' : List Fate) :
    select (reports ++ reports') (fates ++ fates') =
      select reports fates ++ select (reports.drop fates.length ++ reports') fates' := by
  induction fates generalizing reports with
  | nil =>
    have hnone : select reports [] = [] := congrArg _ List.zip_nil_right
    rw [hnone]
    rfl
  | cons fate fates ih =>
    cases reports with
    | nil => exact absurd h (Nat.not_succ_le_zero _)
    | cons c reports =>
      rw [List.cons_append, List.cons_append, select_cons, select_cons,
        ih (Nat.le_of_succ_le_succ h), List.append_assoc]
      rfl

end Fate

/-! ## The queue -/

/-- The queue keeps to its capacity. -/
structure Kept : Prop where
  capacity : e.events.capacity = eventCapacity
  fits : e.events.items.length ≤ eventCapacity

variable {e c}

theorem queued_of_takes {move : Move} (h : move.takes = true) : e.queued move = [] := by
  cases move with
  | perform locks command =>
    cases command with
    | pollEvent => rfl
    | drainEvents => rfl
    | _ => cases h
  | _ => cases h

theorem of_not_takes {move : Move} (h : move.takes = false) :
    e.receivedIn move = [] ∧ e.fatesOf move =
      List.replicate (e.events.items.length + (e.queued move).length - eventCapacity) .discarded := by
  have plain : ∀ (r : Except CommandError Unit × Engine),
      (match (perform.answer r).1 with
        | .ok (.event (some c)) => [c]
        | .ok (.events cs) => cs
        | _ => []) = ([] : List Channel) := by
    rintro ⟨result, e'⟩
    cases result <;> rfl
  cases move with
  | perform locks command =>
    refine ⟨?_, by cases command <;> first | rfl | cases h⟩
    cases command with
    | pollEvent => cases h
    | drainEvents => cases h
    | quantizer d => simp only [receivedIn, perform]; cases (e.quantizer locks d).1 <;> rfl
    | getCell d name => simp only [receivedIn, perform]; cases e.getCell d name <;> rfl
    | voltage d => simp only [receivedIn, perform]; cases (e.voltage locks d).1 <;> rfl
    | slew d => rfl
    | written d => rfl
    | service => rfl
    | context => rfl
    | rate => rfl
    | _ => exact plain _
  | _ => exact ⟨rfl, rfl⟩

theorem Kept.after (h : e.Kept) (move : Move) :
    (e.after move).Kept ∧
      (e.after move).events.items = (e.events.items ++ e.queued move).drop (e.fatesOf move).length ∧
      (e.fatesOf move).length ≤ (e.events.items ++ e.queued move).length ∧
      e.receivedIn move = Fate.select (e.events.items ++ e.queued move) (e.fatesOf move) := by
  cases htakes : move.takes with
  | true =>
    rw [queued_of_takes htakes, List.append_nil]
    cases move with
    | perform locks command =>
      cases command with
      | pollEvent =>
        have hone : e.fatesOf (.perform locks .pollEvent) =
            List.replicate (min 1 e.events.items.length) .received := rfl
        cases hitems : e.events.items with
        | nil =>
          have hsame : e.after (.perform locks .pollEvent) = e := by
            simp only [Engine.after, perform, pollEvent, Fifo.pop?, hitems]
          have hnothing : e.receivedIn (.perform locks .pollEvent) = [] := by
            simp only [receivedIn, perform, pollEvent, Fifo.pop?, hitems]
          have hfates : e.fatesOf (.perform locks .pollEvent) = [] := by
            rw [hone, hitems]
            rfl
          rw [hsame, hnothing, hfates]
          exact ⟨h, hitems, le_rfl, (Fate.select_received [] 0).symm⟩
        | cons c rest =>
          have hfates : e.fatesOf (.perform locks .pollEvent) = [.received] := by
            rw [hone, hitems, List.length_cons, Nat.min_eq_left (Nat.succ_pos _)]
            rfl
          have htaken : e.receivedIn (.perform locks .pollEvent) = [c] := by
            simp only [receivedIn, perform, pollEvent, Fifo.pop?, hitems]
          have hafter : (e.after (.perform locks .pollEvent)).events = { e.events with items := rest } := by
            simp only [Engine.after, perform, pollEvent, Fifo.pop?, hitems]
          have hfits := h.fits
          rw [hitems, List.length_cons] at hfits
          rw [hfates, htaken]
          refine ⟨⟨by rw [hafter]; exact h.capacity, ?_⟩, by rw [hafter]; rfl, by simp,
            (Fate.select_received (c :: rest) 1).symm⟩
          rw [hafter]
          exact Nat.le_of_succ_le hfits
      | drainEvents =>
        have hfates : e.fatesOf (.perform locks .drainEvents) =
            List.replicate e.events.items.length .received := rfl
        rw [hfates, List.length_replicate, Fate.select_received, List.take_length, List.drop_length]
        exact ⟨⟨h.capacity, Nat.zero_le _⟩, rfl, le_rfl, rfl⟩
      | _ => cases htakes
    | _ => cases htakes
  | false =>
    obtain ⟨hreceived, hfates⟩ := of_not_takes (e := e) htakes
    have hevents := e.events_after htakes
    obtain ⟨hcapacity, hitems⟩ := Fifo.items_foldl_pushEvicting_eq (q := e.events)
      (by rw [h.capacity]; decide) (h.capacity ▸ h.fits) (e.queued move)
    rw [h.capacity] at hcapacity hitems
    rw [hfates, hreceived, hevents, List.length_replicate, ← List.length_append, Fate.select_discarded]
    refine ⟨⟨by rw [hevents, hcapacity], ?_⟩, hitems, Nat.sub_le _ _, rfl⟩
    rw [hevents, hitems, List.length_drop]
    omega

/-- The queue after moves is what it was, and all reports, without those that have left it. -/
theorem Kept.run (h : e.Kept) (moves : List Move) :
    (e.run moves).Kept ∧
      (e.run moves).events.items = (e.events.items ++ e.reports moves).drop (e.fates moves).length ∧
      e.received moves = Fate.select (e.events.items ++ e.reports moves) (e.fates moves) := by
  induction moves generalizing e with
  | nil =>
    have hnone : ∀ reports, Fate.select reports [] = [] := fun _ => congrArg _ List.zip_nil_right
    exact ⟨h, by rw [reports, fates, List.append_nil]; rfl, (hnone _).symm⟩
  | cons move moves ih =>
    obtain ⟨hkept, hitems, hleave, hreceived⟩ := h.after move
    obtain ⟨hkept', hitems', hreceived'⟩ := ih hkept
    refine ⟨hkept', ?_, ?_⟩
    · rw [reports, fates, List.length_append, ← List.drop_drop, ← List.append_assoc,
        List.drop_append_of_le_length hleave, ← hitems]
      exact hitems'
    · rw [received, reports, fates, ← List.append_assoc, Fate.select_append hleave, ← hitems, hreceived,
        hreceived']

theorem kept_fresh (rate : Rate) (range : Range) (capacity : Nat) (f : Transcendental) :
    (fresh rate range capacity f).Kept :=
  ⟨rfl, Nat.zero_le _⟩

theorem perform_pollEvent (locks : Locks) :
    (e.perform locks .pollEvent).1 = .ok (.event e.events.items.head?) := by
  simp only [perform, pollEvent, Fifo.pop?]
  cases e.events.items <;> rfl

/-! ## Reports and walks -/

theorem not_mem_reports_of_stage {rate : Rate} {range : Range} {capacity : Nat} {f : Transcendental}
    {moves : List Move}
    (hstage : Engine.stage c (fresh rate range capacity f) .unstarted moves ≠ .underway)
    {more : List Move} (hmore : (((fresh rate range capacity f).run moves).voice c).restartsIn
      ((fresh rate range capacity f).run moves).rig
      (sharesOf c ((fresh rate range capacity f).run moves) more) = false) :
    c ∉ ((fresh rate range capacity f).run moves).reports more := by
  have reachable : Reachable ((fresh rate range capacity f).run moves) :=
    ⟨rate, range, capacity, f, moves, rfl⟩
  have hfresh : Voice.Tracks .unstarted ((fresh rate range capacity f).voice c) := by
    rw [voice_fresh]
    simp [Voice.Tracks, Voice.isUnderway, Voice.rest]
  have htracks :=
    tracks_run (fresh rate range capacity f) c moves ⟨rate, range, capacity, f, [], rfl⟩ hfresh
  have hidle : (((fresh rate range capacity f).run moves).voice c).isUnderway = false := by
    rw [← Bool.not_eq_true]
    exact mt htracks.2 hstage
  rw [← List.count_eq_zero, count_reports,
    (reachable.guarded c).endCount_eq (sharesOf_checked _ c more),
    Voice.completions_of_not_restarts hmore, hidle]
  rfl

theorem Reachable.not_mem_reports_of_stuck (h : Reachable e) (hstuck : (e.voice c).Stuck)
    {more : List Move} (hmore : (e.voice c).undisturbed e.rig (sharesOf c e more) = true) :
    c ∉ e.reports more := by
  rw [← List.count_eq_zero, count_reports]
  exact Voice.endCount_of_stuck hstuck (h.sound c) (sharesOf_checked e c more) hmore

theorem count_reports_fresh (rate : Rate) (range : Range) (capacity : Nat) (f : Transcendental)
    (moves : List Move) (c : Channel) :
    let start := fresh rate range capacity f
    (start.reports moves).count c =
      (start.voice c).completions start.rig (sharesOf c start moves) := by
  intro start
  have reachable : Reachable start := ⟨rate, range, capacity, f, [], rfl⟩
  have hidle : (start.voice c).isUnderway = false := by
    rw [voice_fresh]
    rfl
  rw [count_reports, (reachable.guarded c).endCount_eq (sharesOf_checked start c moves), hidle]
  rfl

/-- The ends that are reported in a run from a fresh engine, whatever happens in it.
* With each move, a channel is reported once if its walk runs off the end in this move, and otherwise
  not at all. A walk that uses up its moves just before that has its end in the resumption after it.
* Altogether it is reported once for each accepted restart that gets through to the end.
* When its program has not been started, has ended, or has been replaced or cleared, nothing more is
  reported of it before the next accepted restart.
* While it is in a loop or parked in a held block, nothing is reported of it before it is released,
  started again or replaced.
* The queue is the list of all reports, in order, without those that have left it, and never longer than
  its capacity. A poll is answered with the first that is left. Those that polls were answered with, in
  order, are the ones that were not discarded, and one is discarded just if there are more than fit. -/
theorem reports_once (rate : Rate) (range : Range) (capacity : Nat) (f : Transcendental)
    (moves : List Move) :
    let start := fresh rate range capacity f
    let e := start.run moves
    let reports := start.reports moves
    let fates := start.fates moves
    (∀ c move, (e.queued move).count c ≤ 1 ∧ (c ∈ e.queued move ↔ ∃ before m rest,
        e.shareOf c move = before ++ m :: rest ∧
          ((e.voice c).run e.rig before).RunsOff e.rig m)) ∧
      (∀ c, reports.count c = (start.voice c).completions start.rig (sharesOf c start moves)) ∧
      (∀ c more, Engine.stage c start .unstarted moves ≠ .underway →
        (e.voice c).restartsIn e.rig (sharesOf c e more) = false → c ∉ e.reports more) ∧
      (∀ c more, (e.voice c).Stuck →
        (e.voice c).undisturbed e.rig (sharesOf c e more) = true → c ∉ e.reports more) ∧
      e.events.items = reports.drop fates.length ∧ e.events.items.length ≤ eventCapacity ∧
      (∀ locks, (e.perform locks .pollEvent).1 = .ok (.event (reports.drop fates.length).head?)) ∧
      start.received moves = Fate.select reports fates := by
  intro start e reports fates
  have reachable : Reachable e := ⟨rate, range, capacity, f, moves, rfl⟩
  obtain ⟨hkept, hitems, hreceived⟩ := (kept_fresh rate range capacity f).run moves
  refine ⟨fun c move => ⟨?_, ?_⟩, count_reports_fresh rate range capacity f moves,
    fun c more hstage hmore => not_mem_reports_of_stage hstage hmore,
    fun c more hstuck hmore => reachable.not_mem_reports_of_stuck hstuck hmore,
    hitems, hkept.fits, fun locks => ?_, hreceived⟩
  · rw [count_queued]
    split <;> simp
  · rw [mem_queued_iff, Voice.endsIn_iff]
  · rw [perform_pollEvent, hitems]
    rfl

/-- Seventeen jumps, the first of them on the second channel: its report is the one to be discarded, and a
poll is answered with the second report. -/
theorem reports_once_seventeen :
    let second : Channel := ⟨1⟩
    let jump : List Score.Node := [.ramp (.lit 1) (.lit 0) "linear"]
    let moves : List Move := [.perform .free (.install second jump),
      .perform .free (.install .first jump), .perform .free (.trigger second .restart)] ++
      List.replicate 16 (.perform .free (.trigger .first .restart))
    let start := fresh .standard .standard 1
    start.reports moves = second :: List.replicate 16 .first ∧
      start.fates moves = [.discarded] ∧
      ((start.run moves).perform .free .pollEvent).1 = .ok (.event (some .first)) := by
  intro second jump moves start
  have hreports : start.reports moves = second :: List.replicate 16 .first := by decide +kernel
  have hfates : start.fates moves = [.discarded] := by decide +kernel
  obtain ⟨-, -, -, -, -, -, hpoll, -⟩ := reports_once .standard .standard 1 .standard moves
  refine ⟨hreports, hfates, ?_⟩
  rw [hpoll, show (fresh .standard .standard 1).reports moves = _ from hreports,
    show (fresh .standard .standard 1).fates moves = _ from hfates]
  rfl

end Engine

end ControlVoltage
