import ControlVoltage.Proofs.Voice.Glide

/-!
# Completions

A segment that takes time lands once, in the step that uses up its last tick, and only if it is let be
until then. Whoever waits for a segment tells its completion by the generation, so what counts is also
that no other call reports one with that tag.

* `Ramp.Call`, `Ramp.answer` : the calls on a ramp.
* `Ramp.after`, `Ramp.replies` : where a list of calls leads, and what it answers.
* `Ramp.Countdown` : how the phase, the ticks and the voltage of a ramp go together.
* `Ramp.Standing` : the invariant. The last segment is on its way, or the ramp is at rest.
* `Ramp.completes_once` : which steps complete which segments.
-/

namespace ControlVoltage

namespace Ramp

/-! ## Calls -/

inductive Call where
  | toward (segment : Segment)
  | hold
  | step
deriving DecidableEq

inductive Reply where
  /-- The segment with this generation is on its way. -/
  | started (generation : UInt32)
  | held
  | stepped (outcome : Outcome)
deriving DecidableEq

def answer (table : CurveTable) (ramp : Ramp) : Call → Reply × Ramp
  | .toward segment => (.started (ramp.toward segment).generation, ramp.toward segment)
  | .hold => (.held, ramp.hold)
  | .step => (.stepped (ramp.step table).1, (ramp.step table).2)

def after (table : CurveTable) (ramp : Ramp) (calls : List Call) : Ramp :=
  calls.foldl (fun r call => (r.answer table call).2) ramp

def replies (table : CurveTable) : Ramp → List Call → List Reply
  | _, [] => []
  | ramp, call :: calls =>
    (ramp.answer table call).1 :: replies table (ramp.answer table call).2 calls

/-- How many of the calls hand out a generation. -/
def starts (calls : List Call) : Nat := calls.countP (· ≠ .step)

/-- The call starts a segment that takes time, and the calls that follow give it that time. -/
def Call.lands (later : List Call) : Call → Bool
  | .toward segment =>
    segment.ticks ≠ 0 ∧ List.replicate segment.ticks.toNat Call.step <+: later
  | _ => false

variable {table : CurveTable} {ramp : Ramp} {f : Flight} {j k : Nat} {volts : Float32}
  {generation : UInt32} {calls : List Call}

@[simp] theorem after_nil : ramp.after table [] = ramp := rfl

@[simp] theorem after_cons (call : Call) :
    ramp.after table (call :: calls) = (ramp.answer table call).2.after table calls := rfl

theorem after_append (later : List Call) :
    ramp.after table (calls ++ later) = (ramp.after table calls).after table later :=
  List.foldl_append

theorem after_concat (call : Call) :
    ramp.after table (calls ++ [call]) = ((ramp.after table calls).answer table call).2 := by
  simp [after]

@[simp] theorem replies_nil : ramp.replies table [] = [] := rfl

@[simp] theorem replies_step : ramp.replies table (.step :: calls) =
    .stepped (ramp.step table).1 :: (ramp.step table).2.replies table calls := rfl

theorem replies_cons (call : Call) : ramp.replies table (call :: calls) =
    (ramp.answer table call).1 :: (ramp.answer table call).2.replies table calls := rfl

theorem after_steps (table : CurveTable) (ramp : Ramp) (k : Nat) :
    ramp.after table (List.replicate k .step) = (fun r => (r.step table).2)^[k] ramp := by
  induction k generalizing ramp with
  | zero => rfl
  | succ k ih => exact ih (ramp.step table).2

theorem generation_step (table : CurveTable) (ramp : Ramp) :
    (ramp.step table).2.generation = ramp.generation := by
  rcases step_cases table ramp with ⟨-, -, hstep⟩ | ⟨-, -, -, -, hstep⟩ | ⟨-, -, hstep⟩ <;> rw [hstep]

theorem generation_steps (table : CurveTable) (ramp : Ramp) (k : Nat) :
    (ramp.after table (List.replicate k .step)).generation = ramp.generation := by
  induction k generalizing ramp with
  | zero => rfl
  | succ k ih => exact (ih (ramp.step table).2).trans (generation_step table ramp)

/-! ## Countdown -/

/-- A ramp is on its way exactly as long as ticks remain, never more of them than its segment has, and
otherwise it is on its target. -/
structure Countdown (ramp : Ramp) : Prop where
  ramping : ramp.phase = .ramping ↔ 0 < ramp.remaining
  remaining : ramp.remaining ≤ ramp.total
  landed : ramp.phase ≠ .ramping → ramp.current = ramp.target

theorem countdown_rest (volts : Float32) : (rest volts).Countdown :=
  ⟨by simp [rest], UInt32.le_refl 0, fun _ => rfl⟩

theorem Countdown.answer (h : ramp.Countdown) (table : CurveTable) (call : Call) :
    (ramp.answer table call).2.Countdown := by
  cases call with
  | toward segment =>
    refine ⟨?_, UInt32.le_refl _, fun hphase => ?_⟩
    · show (if segment.ticks = 0 then Phase.arrived else .ramping) = .ramping ↔ 0 < segment.ticks
      split_ifs with hzero
      · simp [hzero]
      · simpa using UInt32.pos_iff_ne_zero.2 hzero
    · have hzero : segment.ticks = 0 := by
        by_contra hticks
        exact hphase (if_neg hticks)
      exact if_pos hzero
  | hold => exact ⟨by simp [Ramp.answer, Ramp.hold], UInt32.le_refl 0, fun _ => rfl⟩
  | step =>
    have hremaining : (ramp.step table).2.remaining ≤ (ramp.step table).2.total :=
      remaining_le_step h.remaining
    simp only [Ramp.answer]
    rcases step_cases table ramp with ⟨-, -, hstep⟩ | ⟨hramping, -, hmore, -, hstep⟩ |
      ⟨hresting, -, hstep⟩ <;> rw [hstep] at hremaining ⊢
    · exact ⟨by simp, hremaining, fun _ => rfl⟩
    · refine ⟨?_, hremaining, fun hphase => absurd hramping hphase⟩
      simpa [hramping] using UInt32.pos_iff_ne_zero.2 hmore
    · have hnone : ¬ 0 < ramp.remaining := fun hpos => hresting (h.ramping.2 hpos)
      exact ⟨by simpa using hnone, hremaining, fun _ => h.landed hresting⟩

theorem Countdown.after (h : ramp.Countdown) (table : CurveTable) (calls : List Call) :
    (ramp.after table calls).Countdown := by
  induction calls generalizing ramp with
  | nil => exact h
  | cons call calls ih => exact ih (h.answer table call)

/-! ## Safety -/

theorem Within.after {range : Range} (h : ramp.Within range)
    (hspan : (range.max - range.min).isFinite = true) (hrising : table.Rising)
    (htargets : ∀ segment, .toward segment ∈ calls → range.Holds segment.target) :
    (ramp.after table calls).Within range := by
  induction calls generalizing ramp with
  | nil => exact h
  | cons call calls ih =>
    refine ih ?_ fun segment hmem => htargets segment (List.mem_cons_of_mem call hmem)
    cases call with
    | toward segment => exact h.toward (htargets segment List.mem_cons_self)
    | hold => exact h.hold
    | step => exact h.step hspan hrising

/-! ## Rest -/

theorem rests_rest (volts : Float32) : (rest volts).Rests volts := ⟨by simp [rest], rfl, rfl⟩

theorem Rests.after (h : ramp.Rests volts) (hcalls : ∀ segment, .toward segment ∉ calls) :
    (ramp.after table calls).Rests volts := by
  induction calls generalizing ramp with
  | nil => exact h
  | cons call calls ih =>
    refine ih ?_ fun segment hmem => hcalls segment (List.mem_cons_of_mem call hmem)
    cases call with
    | toward segment => exact absurd List.mem_cons_self (hcalls segment)
    | hold => exact ⟨by simp [answer, Ramp.hold], h.current, h.current⟩
    | step => exact (h.step table).1

theorem Rests.replies (table : CurveTable) (h : ramp.Rests volts) (m : Nat) :
    ramp.replies table (List.replicate m .step) = List.replicate m (.stepped .holding) := by
  induction m generalizing ramp with
  | zero => rfl
  | succ m ih =>
    obtain ⟨hrests, houtcome⟩ := h.step table
    simp only [List.replicate_succ, replies_step, houtcome, ih hrests]

/-! ## Flight -/

theorem Flies.replies (table : CurveTable) (h : ramp.Flies f j) (m : Nat) (hk : j + k + 1 = f.ticks) :
    ramp.replies table (List.replicate (k + 1 + m) .step) =
        List.replicate k (Reply.stepped .moving) ++
          Reply.stepped (.completed ramp.generation) :: List.replicate m (.stepped .holding) ∧
      (ramp.after table (List.replicate (k + 1 + m) .step)).current = f.segment.target := by
  induction k generalizing ramp j with
  | zero =>
    obtain ⟨hrests, houtcome⟩ := h.land table hk
    have hcurrent : ((ramp.step table).2.after table (List.replicate m .step)).current =
        f.segment.target := (hrests.after (by simp [List.mem_replicate])).current
    rw [show 0 + 1 + m = m + 1 by omega, List.replicate_succ, replies_step, houtcome, hrests.replies]
    exact ⟨rfl, hcurrent⟩
  | succ k ih =>
    obtain ⟨hflies, -, houtcome⟩ := h.step table (by omega)
    obtain ⟨hreplies, hcurrent⟩ := ih hflies (by omega)
    rw [show k + 1 + 1 + m = (k + 1 + m) + 1 by omega, List.replicate_succ, replies_step, houtcome,
      hreplies, generation_step]
    exact ⟨rfl, hcurrent⟩

/-! ## Standing -/

/-- Where calls leave a ramp that was at rest: the last segment is on its way, and nothing but steps
came after it, or the ramp is at rest. -/
inductive Standing (table : CurveTable) (volts : Float32) (calls : List Call) : Prop
  | flying (before : List Call) (segment : Segment) (j : Nat)
    (hcalls : calls = before ++ Call.toward segment :: List.replicate j .step)
    (flies : ((rest volts).after table calls).Flies
      ⟨((rest volts).after table before).current, segment⟩ j)
    (hgeneration : ((rest volts).after table calls).generation =
      (((rest volts).after table before).toward segment).generation)
  | resting (final : Float32) (rests : ((rest volts).after table calls).Rests final)

/-- Every list of calls leads to a standing: one call after the other. -/
theorem standing (table : CurveTable) (volts : Float32) (calls : List Call) :
    Standing table volts calls := by
  induction calls using List.reverseRecOn with
  | nil => exact .resting volts (rests_rest volts)
  | append_singleton calls call ih =>
    cases call with
    | toward segment =>
      by_cases hticks : segment.ticks = 0
      · refine .resting segment.target ?_
        rw [after_concat]
        exact ⟨by simp [answer, Ramp.toward, hticks], if_pos hticks, rfl⟩
      · refine .flying calls segment 0 rfl ?_ ?_
        · rw [after_concat]
          exact Flies.launch _ hticks
        · rw [after_concat]
          rfl
    | hold =>
      refine .resting ((rest volts).after table calls).current ?_
      rw [after_concat]
      exact ⟨by simp [answer, Ramp.hold], rfl, rfl⟩
    | step =>
      cases ih with
      | flying before segment j hcalls flies hgeneration =>
        by_cases hmore : j + 1 < segment.ticks.toNat
        · refine .flying before segment (j + 1) ?_ ?_ ?_
          · rw [hcalls, List.replicate_succ', List.append_assoc]
            rfl
          · rw [after_concat]
            exact (flies.step table hmore).1
          · rw [after_concat]
            exact (generation_step table _).trans hgeneration
        · have hlast : j + 1 = segment.ticks.toNat := Nat.le_antisymm flies.flying (not_lt.1 hmore)
          refine .resting segment.target ?_
          rw [after_concat]
          exact (flies.land table hlast).1
      | resting final rests =>
        refine .resting final ?_
        rw [after_concat]
        exact (rests.step table).1

theorem completed_iff (table : CurveTable) (volts : Float32) (calls : List Call)
    (generation : UInt32) :
    (((rest volts).after table calls).step table).1 = .completed generation ↔
      ∃ before segment, segment.ticks ≠ 0 ∧
        calls = before ++ Call.toward segment :: List.replicate (segment.ticks.toNat - 1) .step ∧
        generation = (((rest volts).after table before).toward segment).generation := by
  constructor
  · intro hcompleted
    cases standing table volts calls with
    | flying before segment j hcalls flies hgeneration =>
      have hlast : j + 1 = segment.ticks.toNat := by
        by_contra hne
        have hmore : j + 1 < segment.ticks.toNat := lt_of_le_of_ne flies.flying hne
        exact absurd ((flies.step table hmore).2.2.symm.trans hcompleted) (by simp)
      obtain rfl : ((rest volts).after table calls).generation = generation := by
        simpa using (flies.land table hlast).2.symm.trans hcompleted
      refine ⟨before, segment, ?_, ?_, hgeneration⟩
      · rintro hzero
        rw [hzero] at hlast
        exact absurd hlast (Nat.succ_ne_zero j)
      · rw [hcalls, ← hlast, Nat.add_sub_cancel]
    | resting final rests => exact absurd ((rests.step table).2.symm.trans hcompleted) (by simp)
  · rintro ⟨before, segment, hticks, hcalls, rfl⟩
    have hpos : segment.ticks.toNat ≠ 0 := fun hzero => hticks (UInt32.toNat_inj.1 hzero)
    have flies := (Flies.launch ((rest volts).after table before) hticks).iterate table
      (Nat.sub_one_lt hpos)
    rw [← after_steps] at flies
    obtain ⟨-, houtcome⟩ := flies.land table (Nat.sub_one_add_one hpos)
    rw [generation_steps] at houtcome
    rw [hcalls, after_append, after_cons]
    exact houtcome

/-! ## Generations -/

theorem starts_cons (call : Call) (calls : List Call) :
    starts (call :: calls) = starts calls + if call = .step then 0 else 1 := by
  by_cases h : call = .step <;> simp [starts, h]

theorem outcome_eq_completed (h : (ramp.step table).1 = .completed generation) :
    generation = ramp.generation := by
  rcases step_cases table ramp with ⟨-, houtcome, -⟩ | ⟨-, houtcome, -⟩ | ⟨-, houtcome, -⟩
  all_goals rw [houtcome] at h
  · exact (Outcome.completed.inj h).symm
  · cases h
  · cases h

theorem not_mem_replies (d : Nat) (hd : 0 < d)
    (hgeneration : ramp.generation = generation + UInt32.ofNat d) (hfew : d + starts calls < 2 ^ 32) :
    .stepped (.completed generation) ∉ ramp.replies table calls := by
  -- `d` is how far the numbers have moved on since the generation; only calls that start something
  -- move them, and there are too few of those to bring the generation back.
  induction calls generalizing ramp d with
  | nil => simp
  | cons call calls ih =>
    rw [starts_cons] at hfew
    have next : ramp.generation + 1 = generation + UInt32.ofNat (d + 1) := by
      rw [hgeneration, UInt32.ofNat_add, ← add_assoc]
      rfl
    cases call with
    | toward segment =>
      have hlater : .stepped (.completed generation) ∉ (ramp.toward segment).replies table calls :=
        ih (d + 1) (Nat.succ_pos d) next (by simp at hfew; omega)
      simpa [replies_cons, answer] using hlater
    | hold =>
      have hlater : .stepped (.completed generation) ∉ ramp.hold.replies table calls :=
        ih (d + 1) (Nat.succ_pos d) next (by simp at hfew; omega)
      simpa [replies_cons, answer] using hlater
    | step =>
      have hlater : .stepped (.completed generation) ∉ (ramp.step table).2.replies table calls :=
        ih d hd ((generation_step table ramp).trans hgeneration) (by simpa using hfew)
      have hnow : (ramp.step table).1 ≠ .completed generation := by
        intro hcompleted
        have hzero : UInt32.ofNat d = 0 := by
          have := (outcome_eq_completed hcompleted).trans hgeneration
          simpa using this
        have := congrArg UInt32.toNat hzero
        rw [UInt32.toNat_ofNat_of_lt' (show d < UInt32.size by simp [UInt32.size]; omega)] at this
        simp at this
        omega
      simp [hlater, Ne.symm hnow]

theorem not_mem_replies_of_start {call : Call} (hcall : call ≠ .step)
    (hfew : starts (call :: calls) < 2 ^ 32) :
    .stepped (.completed ramp.generation) ∉ ramp.replies table (call :: calls) := by
  rw [starts_cons, if_neg hcall] at hfew
  have hnext : (ramp.answer table call).2.generation = ramp.generation + UInt32.ofNat 1 := by
    cases call with
    | toward segment => rfl
    | hold => rfl
    | step => exact absurd rfl hcall
  have hnow : (ramp.answer table call).1 ≠ .stepped (.completed ramp.generation) := by
    cases call with
    | step => exact absurd rfl hcall
    | _ => simp [answer]
  rw [replies_cons, List.mem_cons, not_or]
  exact ⟨hnow.symm, not_mem_replies 1 Nat.one_pos hnext (by omega)⟩

theorem Rests.not_mem_replies (h : ramp.Rests volts) (hfew : starts calls < 2 ^ 32) :
    .stepped (.completed ramp.generation) ∉ ramp.replies table calls := by
  induction calls generalizing ramp with
  | nil => simp
  | cons call calls ih =>
    by_cases hcall : call = .step
    · subst hcall
      obtain ⟨hrests, houtcome⟩ := h.step table
      have hlater := ih hrests (by simpa [starts_cons] using hfew)
      rw [generation_step] at hlater
      simpa [houtcome] using hlater
    · exact not_mem_replies_of_start hcall hfew

theorem Flies.count_replies (h : ramp.Flies f j) (hfew : starts calls < 2 ^ 32) :
    (ramp.replies table calls).count (.stepped (.completed ramp.generation)) =
      if List.replicate (f.ticks - j) Call.step <+: calls then 1 else 0 := by
  induction calls generalizing ramp j with
  | nil =>
    have hleft := Nat.sub_ne_zero_of_lt h.flying
    simp [List.replicate_eq_nil_iff, hleft]
  | cons call calls ih =>
    have hleft : f.ticks - j = f.ticks - (j + 1) + 1 := by
      have := h.flying
      omega
    simp only [hleft, List.replicate_succ, List.cons_prefix_cons]
    by_cases hcall : call = .step
    · subst hcall
      have hfew' : starts calls < 2 ^ 32 := by simpa [starts_cons] using hfew
      by_cases hmore : j + 1 < f.ticks
      · obtain ⟨hflies, -, houtcome⟩ := h.step table hmore
        have hlater := ih hflies hfew'
        rw [generation_step] at hlater
        rw [replies_step, houtcome, List.count_cons_of_ne (by simp), hlater]
        simp
      · have hlast : j + 1 = f.ticks := Nat.le_antisymm h.flying (not_lt.1 hmore)
        obtain ⟨hrests, houtcome⟩ := h.land table hlast
        have hlater : .stepped (.completed ramp.generation) ∉ (ramp.step table).2.replies table calls := by
          rw [← generation_step table ramp]
          exact hrests.not_mem_replies hfew'
        rw [replies_step, houtcome, List.count_cons_self, List.count_eq_zero.2 hlater]
        simp [hlast]
    · rw [List.count_eq_zero.2 (not_mem_replies_of_start hcall hfew), if_neg]
      exact fun hsteps => hcall hsteps.1.symm

/-- Of a call that hands out a generation, how often the calls after it complete that generation. -/
theorem count_replies {call : Call} (hcall : call ≠ .step) {later : List Call}
    (hfew : starts later < 2 ^ 32) :
    let started := (ramp.answer table call).2
    (started.replies table later).count (.stepped (.completed started.generation)) =
      if call.lands later then 1 else 0 := by
  intro started
  cases call with
  | step => exact absurd rfl hcall
  | hold =>
    have hrests : started.Rests ramp.current := ⟨by simp [started, answer, Ramp.hold], rfl, rfl⟩
    rw [List.count_eq_zero.2 (hrests.not_mem_replies hfew)]
    rfl
  | toward segment =>
    by_cases hticks : segment.ticks = 0
    · have hrests : started.Rests segment.target :=
        ⟨by simp [started, answer, Ramp.toward, hticks], if_pos hticks, rfl⟩
      rw [List.count_eq_zero.2 (hrests.not_mem_replies hfew), Call.lands]
      simp [hticks]
    · have flies : started.Flies ⟨ramp.current, segment⟩ 0 := Flies.launch ramp hticks
      rw [flies.count_replies hfew, Call.lands]
      simp [hticks, Flight.ticks]

/-! ## Once -/

/-- Every segment is completed once, unless it is replaced or cancelled before. For all functions that
the curves are sampled from, and after any calls on a ramp at rest, all in a range of finite width:

The ramp is on its way exactly as long as ticks remain, never more than its segment has. Otherwise it is
on its target, and stays there until a segment is started. The next step finds all that it relies on.

A segment of at least one tick that is let be reports with its last step that it has landed, with those
before that it moves, and with those after nothing; it stays on its target.

A step completes a segment exactly if, since the segment was started, there were nothing but steps, and
with this one as many as it has ticks, which must be at least one.

After any call that hands out a generation, this generation is completed once if the call started a
segment and as many steps as it has ticks follow at once, and otherwise not at all, until the numbers
come round. -/
theorem completes_once (f : Transcendental) (range : Range)
    (hspan : (range.max - range.min).isFinite = true) {volts : Float32} (hvolts : range.Holds volts)
    (calls : List Call)
    (htargets : ∀ segment, .toward segment ∈ calls → range.Holds segment.target) :
    let table := CurveTable.build f
    let ramp := (rest volts).after table calls
    (ramp.Countdown ∧ ramp.Safe table ∧ (ramp.phase ≠ .ramping → ∀ later,
        (∀ segment, .toward segment ∉ later) → (ramp.after table later).current = ramp.current)) ∧
      (∀ segment m, segment.ticks ≠ 0 →
        let n := segment.ticks.toNat
        let flight := ramp.toward segment
        flight.replies table (List.replicate (n + m) .step) =
            List.replicate (n - 1) (Reply.stepped .moving) ++
              Reply.stepped (.completed flight.generation) :: List.replicate m (.stepped .holding) ∧
          (flight.after table (List.replicate (n + m) .step)).current = segment.target) ∧
      (∀ generation, (ramp.step table).1 = .completed generation ↔
        ∃ before segment, segment.ticks ≠ 0 ∧
          calls = before ++ Call.toward segment :: List.replicate (segment.ticks.toNat - 1) .step ∧
          generation = (((rest volts).after table before).toward segment).generation) ∧
      ∀ call later, call ≠ .step → starts later < 2 ^ 32 →
        let started := (ramp.answer table call).2
        (started.replies table later).count (.stepped (.completed started.generation)) =
          if call.lands later then 1 else 0 := by
  intro table ramp
  have hrising := rising_build f
  have hcountdown : ramp.Countdown := (countdown_rest volts).after table calls
  have hwithin : ramp.Within range := (within_rest hvolts).after hspan hrising htargets
  refine ⟨⟨hcountdown, ⟨hwithin.ordered, hrising, hcountdown.remaining⟩, fun hphase later hlater => ?_⟩,
    fun segment m hticks => ?_, completed_iff table volts calls,
    fun call later hcall hfew => count_replies hcall hfew⟩
  · have hrests : ramp.Rests ramp.current := ⟨hphase, rfl, (hcountdown.landed hphase).symm⟩
    exact (hrests.after hlater).current
  · have hpos : segment.ticks.toNat - 1 + 1 = segment.ticks.toNat :=
      Nat.sub_one_add_one fun hzero => hticks (UInt32.toNat_inj.1 hzero)
    have hflight : 0 + (segment.ticks.toNat - 1) + 1 = segment.ticks.toNat := by
      rw [Nat.zero_add, hpos]
    have hreplies := (Flies.launch ramp hticks).replies table m hflight
    rw [hpos] at hreplies
    exact hreplies

/-- A segment of two ticks replaces another one after its first step: it moves, lands as the second
one and holds, and the one before it is not completed. -/
theorem completes_once_replaced :
    let table := CurveTable.standard
    let ramp := (rest 0).after table [.toward ⟨5, 2, .linear⟩, .step]
    (ramp.toward ⟨-5, 2, .exp⟩).replies table [.step, .step, .step] =
        [.stepped .moving, .stepped (.completed 2), .stepped .holding] ∧
      (((rest 0).toward ⟨5, 2, .linear⟩).replies table
        [.step, .toward ⟨-5, 2, .exp⟩, .step, .step]).count (.stepped (.completed 1)) = 0 := by
  intro table ramp
  have hspan : (Range.standard.max - Range.standard.min).isFinite = true := by decide +kernel
  have hrest : Range.standard.Holds 0 := Range.holds_of_le (by decide +kernel) (by decide +kernel)
  have hfive : Range.standard.Holds 5 := Range.holds_of_le (by decide +kernel) (by decide +kernel)
  obtain ⟨-, hflight, -, -⟩ := completes_once .standard .standard hspan hrest
    [.toward ⟨5, 2, .linear⟩, .step] (by simpa using hfive)
  obtain ⟨-, -, -, hcount⟩ := completes_once .standard .standard hspan hrest [] (by simp)
  exact ⟨(hflight ⟨-5, 2, .exp⟩ 1 (by decide)).1, hcount (.toward ⟨5, 2, .linear⟩)
    [.step, .toward ⟨-5, 2, .exp⟩, .step, .step] (by simp) (by simp [starts])⟩

end Ramp

end ControlVoltage
