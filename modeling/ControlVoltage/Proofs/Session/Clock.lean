import ControlVoltage.Clock
import Mathlib.Data.List.Basic
import Mathlib.Order.Interval.Finset.Nat

/-!
# The edges of a clock

A clock that starts from zero counts its polls modulo its period. So each of its two edges comes at one
place of every period: the rising edge at the start, and the falling edge half way through.

* `Clock.after`, `Clock.event` : the clock after polls, and what a poll gives.
* `Clock.Counts` : a clock that has been polled; `Counts.poll`, `counts_after`.
* `Clock.edges`, `Clock.alternation` : the edges so far, and the two kinds of edges in turn.
* `Clock.edges_periodic` : all that a clock gives.
-/

namespace ControlVoltage.Clock

def after (clock : Clock) : Nat → Clock
  | 0 => clock
  | k + 1 => (clock.after k).poll.2

/-- What a poll gives; polls are counted from zero. -/
def event (clock : Clock) (k : Nat) : Option InputEvent := (clock.after k).poll.1

/-! ## Counting polls -/

/-- A clock with this input and this period that has been polled `k` times. -/
structure Counts (input : Nat) (period : UInt32) (k : Nat) (clock : Clock) : Prop where
  input_eq : clock.input = input
  period_eq : clock.period = period
  two_le : 2 ≤ period.toNat
  counter_eq : clock.counter.toNat = k % period.toNat

variable {clock : Clock} {input : Nat} {period : UInt32} {k : Nat}

theorem Counts.counter_add_one (h : clock.Counts input period k) :
    (clock.counter + 1).toNat = clock.counter.toNat + 1 := by
  -- The count is below the period, so there is room for one more even if the period is the largest.
  have hlt : k % period.toNat < period.toNat := Nat.mod_lt _ (Nat.lt_of_lt_of_le Nat.two_pos h.two_le)
  have hmost := period.toNat_lt
  have hone : (1 : UInt32).toNat = 1 := rfl
  rw [UInt32.toNat_add, h.counter_eq, hone]
  omega

theorem poll_snd (clock : Clock) :
    clock.poll.2 = { clock with counter := (clock.counter + 1) % clock.period } := by
  unfold poll
  simp only
  split_ifs <;> rfl

theorem Counts.poll (h : clock.Counts input period k) : clock.poll.2.Counts input period (k + 1) := by
  rw [poll_snd]
  refine ⟨h.input_eq, h.period_eq, h.two_le, ?_⟩
  rw [UInt32.toNat_mod, h.counter_add_one, h.counter_eq, h.period_eq]
  apply Nat.mod_add_mod

theorem counts_after (h : clock.Counts input period 0) (k : Nat) :
    (clock.after k).Counts input period k := by
  induction k with
  | zero => exact h
  | succ k ih => exact ih.poll

theorem two_le_max (ticks : UInt32) : 2 ≤ (max ticks 2).toNat := by
  have hmax : max ticks 2 = if ticks ≤ 2 then 2 else ticks := rfl
  rw [hmax]
  split_ifs with hle
  · exact Nat.le_refl 2
  · have hlt := UInt32.lt_iff_toNat_lt.1 (UInt32.not_le.1 hle)
    exact Nat.le_of_lt hlt

theorem counts_ofSeconds (input : Nat) (seconds : Float32) (rate : Rate) :
    (ofSeconds input seconds rate).Counts input (max (rate.ticks seconds) 2) 0 where
  input_eq := rfl
  period_eq := rfl
  two_le := two_le_max (rate.ticks seconds)
  counter_eq := (Nat.zero_mod _).symm

/-! ## Edges -/

theorem Counts.poll_fst (h : clock.Counts input period k) :
    clock.poll.1 =
      if k % period.toNat = 0 then some ⟨input, .rising⟩
      else if k % period.toNat = period.toNat / 2 then some ⟨input, .falling⟩
      else none := by
  have hstart : clock.counter = 0 ↔ k % period.toNat = 0 := by
    rw [← UInt32.toNat_inj, h.counter_eq]
    rfl
  have hhalf : clock.counter = clock.period / 2 ↔ k % period.toNat = period.toNat / 2 := by
    rw [← UInt32.toNat_inj, h.counter_eq, h.period_eq, UInt32.toNat_div]
    rfl
  unfold Clock.poll
  simp only [hstart, hhalf, h.input_eq]
  split_ifs <;> rfl

theorem Counts.event_eq (h : clock.Counts input period 0) (k : Nat) :
    clock.event k =
      if k % period.toNat = 0 then some ⟨input, .rising⟩
      else if k % period.toNat = period.toNat / 2 then some ⟨input, .falling⟩
      else none :=
  (counts_after h k).poll_fst

theorem Counts.half_ne_zero (h : clock.Counts input period k) : period.toNat / 2 ≠ 0 := by
  have := h.two_le
  omega

theorem Counts.event_rising_iff (h : clock.Counts input period 0) (k : Nat) :
    clock.event k = some ⟨input, .rising⟩ ↔ k % period.toNat = 0 := by
  rw [h.event_eq]
  split_ifs with hstart <;> simp [hstart]

theorem Counts.event_falling_iff (h : clock.Counts input period 0) (k : Nat) :
    clock.event k = some ⟨input, .falling⟩ ↔ k % period.toNat = period.toNat / 2 := by
  have hne := h.half_ne_zero
  rw [h.event_eq]
  split_ifs with hstart hhalf
  · rw [hstart]
    simp [hne.symm]
  · simp [hhalf]
  · simp [hhalf]

theorem Counts.event_eq_none_iff (h : clock.Counts input period 0) (k : Nat) :
    clock.event k = none ↔ k % period.toNat ≠ 0 ∧ k % period.toNat ≠ period.toNat / 2 := by
  rw [h.event_eq]
  split_ifs with hstart hhalf
  · simp [hstart]
  · simp [hhalf]
  · simp [hstart, hhalf]

theorem existsUnique_mod {p r : Nat} (hr : r < p) (start : Nat) :
    ∃! k, start ≤ k ∧ k < start + p ∧ k % p = r := by
  have himage : r ∈ (Finset.Ico start (start + p)).image (· % p) := by
    rw [Nat.image_Ico_mod]
    exact Finset.mem_range.2 hr
  obtain ⟨k, hk, hplace⟩ := Finset.mem_image.1 himage
  obtain ⟨hfrom, hto⟩ := Finset.mem_Ico.1 hk
  refine ⟨k, ⟨hfrom, hto, hplace⟩, ?_⟩
  rintro j ⟨hjfrom, hjto, hjplace⟩
  apply Nat.mod_injOn_Ico start p
  · exact Finset.mem_coe.2 (Finset.mem_Ico.2 ⟨hjfrom, hjto⟩)
  · exact Finset.mem_coe.2 hk
  · exact hjplace.trans hplace.symm

/-! ## Edges in turn -/

/-- The edges that the first `n` polls give. -/
def edges (clock : Clock) (n : Nat) : List EventKind :=
  (List.range n).filterMap fun k => (clock.event k).map InputEvent.kind

/-- Rising and falling edges in turn, from a rising one on. -/
def alternation (m : Nat) : List EventKind :=
  (List.range m).map fun i => if i % 2 = 0 then .rising else .falling

theorem edges_succ (clock : Clock) (n : Nat) :
    clock.edges (n + 1) = clock.edges n ++ ((clock.event n).map InputEvent.kind).toList := by
  rw [edges, List.range_succ, List.filterMap_append]
  cases hevent : (clock.event n).map InputEvent.kind <;> simp [edges, hevent]

theorem alternation_succ (m : Nat) :
    alternation (m + 1) = alternation m ++ [if m % 2 = 0 then .rising else .falling] := by
  rw [alternation, List.range_succ, List.map_append]
  rfl

theorem succ_mod_cases {p : Nat} (hp : 0 < p) (n : Nat) :
    n % p + 1 < p ∧ (n + 1) % p = n % p + 1 ∨ n % p + 1 = p ∧ (n + 1) % p = 0 := by
  have hlt := Nat.mod_lt n hp
  rw [← Nat.mod_add_mod]
  rcases Nat.lt_or_eq_of_le (Nat.succ_le_of_lt hlt) with hinside | hend
  · exact Or.inl ⟨hinside, Nat.mod_eq_of_lt hinside⟩
  · refine Or.inr ⟨hend, ?_⟩
    show (n % p).succ % p = 0
    rw [hend]
    apply Nat.mod_self

theorem Counts.edges_eq (h : clock.Counts input period 0) (n : Nat) :
    clock.edges n = alternation (clock.edges n).length ∧
      ((clock.edges n).length % 2 = 1 ↔ 0 < n % period.toNat ∧ n % period.toNat ≤ period.toNat / 2) := by
  have hleast := h.two_le
  induction n with
  | zero =>
    refine ⟨rfl, ?_⟩
    rw [Nat.zero_mod]
    simp [edges]
  | succ n ih =>
    obtain ⟨halternate, hparity⟩ := ih
    have hnext := succ_mod_cases (p := period.toNat) (by omega) n
    rw [edges_succ, h.event_eq]
    split_ifs with hstart hhalf
    · -- A rising edge comes at the start, where the edges so far end with a falling one.
      have heven : (clock.edges n).length % 2 = 0 := by omega
      simp only [Option.map_some, Option.toList_some, List.length_append, List.length_singleton]
      rw [alternation_succ, if_pos heven, ← halternate]
      refine ⟨rfl, ?_⟩
      omega
    · have hodd : (clock.edges n).length % 2 = 1 := by omega
      simp only [Option.map_some, Option.toList_some, List.length_append, List.length_singleton]
      rw [alternation_succ, if_neg (by omega), ← halternate]
      refine ⟨rfl, ?_⟩
      omega
    · simp only [Option.map_none, Option.toList_none, List.append_nil]
      refine ⟨halternate, ?_⟩
      omega

/-- All that a clock gives, at any rate and for any period, be it negative, infinite or no number. Its
period is at least two ticks long.
* A poll gives a rising edge at the start of a period, a falling edge half way through, and nothing at all
  other places.
* The edges come in turn, the first one rising.
* In as many polls in a row as a period has ticks there is one edge of each kind.
* The counter never overflows. -/
theorem edges_periodic (input : Nat) (seconds : Float32) (rate : Rate) :
    let clock := ofSeconds input seconds rate
    let p := clock.period.toNat
    2 ≤ p ∧
      (∀ k, (clock.event k = some ⟨input, .rising⟩ ↔ k % p = 0) ∧
        (clock.event k = some ⟨input, .falling⟩ ↔ k % p = p / 2) ∧
        (clock.event k = none ↔ k % p ≠ 0 ∧ k % p ≠ p / 2)) ∧
      (∀ n, clock.edges n = alternation (clock.edges n).length) ∧
      (∀ start, (∃! k, start ≤ k ∧ k < start + p ∧ clock.event k = some ⟨input, .rising⟩) ∧
        ∃! k, start ≤ k ∧ k < start + p ∧ clock.event k = some ⟨input, .falling⟩) ∧
      ∀ k, ((clock.after k).counter + 1).toNat = (clock.after k).counter.toNat + 1 := by
  intro clock p
  have h : clock.Counts input clock.period 0 := counts_ofSeconds input seconds rate
  have hleast : 2 ≤ p := h.two_le
  refine ⟨hleast, fun k => ?_, fun n => (h.edges_eq n).1, fun start => ?_, fun k => ?_⟩
  · exact ⟨h.event_rising_iff k, h.event_falling_iff k, h.event_eq_none_iff k⟩
  · constructor
    · simp only [h.event_rising_iff]
      apply existsUnique_mod
      omega
    · simp only [h.event_falling_iff]
      apply existsUnique_mod
      omega
  · exact (counts_after h k).counter_add_one

/-- A period of five ticks falls after two of them; one of infinite length has the most ticks there are. -/
example :
    let clock := ofSeconds 1 0.005 ⟨1000, by decide⟩
    clock.period = 5 ∧ clock.edges 10 = alternation 4 ∧
      (ofSeconds 0 (1 / 0) .standard).period = 4294967295 := by
  decide +kernel

end ControlVoltage.Clock
