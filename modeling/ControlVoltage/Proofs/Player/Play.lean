import ControlVoltage.Proofs.Score.Reading

/-!
# Playing on cue

`Player.play` lets a player make one move for each cue, without a budget and without waiting for
ramps. From the top of a compiled program it hands over what a reading of the score hands over.

The proof goes along the reading. `Reads a b f` says that a player with the stack `a` does what `f`
reads, and has the stack `b` when `f` has finished; parts that follow each other compose
(`Reads.andThen`), an operation waits for its cue (`Reads.operation`), and passes may go on for ever
(`Reads.forever`).
-/

namespace ControlVoltage

open Reading (andThen passes leaveHeld heed afterRelease?)

namespace Player

/-- A release that reaches the player. A locked player ignores it. -/
def hear (p : Player) : Player := if p.locked then p else p.release

variable (rate : Rate) (range : Range)

def play : List Cue → Player → List Segment → List Segment
  | [], _, out => out
  | .release :: cues, p, out => play cues p.hear out
  | .go :: cues, p, out =>
    match p.step rate range with
    | .ramp segment p => play cues p (out ++ [segment])
    | .moved p => play cues p out
    | _ => play cues p out

/-- A player with this stack, holding and locked as the place in the score says. -/
def inside (program : Program) (around : Nesting) (cells : Cells) (stack : List Mark) : Player :=
  { program, cells, stack, holding := around.held, locked := around.locked, awaiting := none }

def past (mark : Mark) : Mark := { mark with next := mark.next + 1 }

def heldIn (program : Program) (mark : Mark) : Bool := (load program).isHeldMark mark

/-- Inside a held node, `base` is what a release leaves of the stack. -/
def Unwinds (program : Program) (around : Nesting) (base stack : List Mark) : Prop :=
  around.held = true → stack.any (heldIn program) = true ∧ below (heldIn program) stack = base

/-- What is handed over from the end of a part on: from `stack` where it has finished, from `base`
where it was left by a release. -/
def carryOn (program : Program) (around : Nesting) (base stack : List Mark) :
    Reading.Ending × Reading → List Segment
  | (.finished, r) => play rate range r.cues (inside program around r.cells stack) r.segments
  | (.released, r) =>
    play rate range r.cues (inside program { around with held := false } r.cells base) r.segments
  | (.stopped, r) => r.segments

/-- What every part of a reading keeps: the names stay, cues are only used up, and a release ends it
only where one is heard. -/
structure Steady (around : Nesting) (f : Reading → Reading.Ending × Reading) : Prop where
  names : ∀ r, (f r).2.cells.names = r.cells.names
  cues_le : ∀ r, (f r).2.cues.length ≤ r.cues.length
  heard : ∀ r, (f r).1 = .released → around.held = true ∧ around.locked = false

/-- From the stack `start` a player does what `f` reads, and gets to the stack `stop`. -/
structure Reads (program : Program) (around : Nesting) (base start stop : List Mark)
    (f : Reading → Reading.Ending × Reading) : Prop extends Steady around f where
  plays : ∀ r, r.cells.names = program.cells.names →
    play rate range r.cues (inside program around r.cells start) r.segments =
      carryOn rate range program around base stop (f r)

/-! ## Releases -/

section unwind

variable {program : Program} {around : Nesting} {base stack : List Mark}

theorem heldIn_of_block {mark : Mark} {kind : BlockKind} {ops : Array Op}
    (h : program.blocks[mark.block]? = some ⟨kind, ops⟩) :
    heldIn program mark = decide (kind = .held) := by
  simp only [heldIn, isHeldMark, load, h]
  cases kind <;> rfl

theorem Unwinds.top {mark mark' : Mark} (h : Unwinds program around base (mark :: stack))
    (same : mark'.block = mark.block) : Unwinds program around base (mark' :: stack) := by
  have held : heldIn program mark' = heldIn program mark := by
    simp only [heldIn, isHeldMark, same]
  intro hheld
  obtain ⟨hany, hbelow⟩ := h hheld
  have hany' : (mark' :: stack).any (heldIn program) = true := by simpa [held] using hany
  refine ⟨hany', ?_⟩
  rw [← hbelow, below, below, if_pos hany, if_pos hany']
  cases hm : heldIn program mark <;> simp [List.dropWhile, held, hm]

theorem Unwinds.past {mark : Mark} (h : Unwinds program around base (mark :: stack)) :
    Unwinds program around base (past mark :: stack) :=
  h.top rfl

theorem Unwinds.push {mark : Mark} {kind : BlockKind} {ops : Array Op}
    (h : Unwinds program around base stack)
    (hblock : program.blocks[mark.block]? = some ⟨kind, ops⟩) (hkind : kind ≠ .held) :
    Unwinds program around base (mark :: stack) := by
  have plain : heldIn program mark = false := by
    rw [heldIn_of_block hblock]
    exact decide_eq_false hkind
  intro hheld
  obtain ⟨hany, hbelow⟩ := h hheld
  have tail : (mark :: stack).any (heldIn program) = true := by simp [hany]
  refine ⟨tail, ?_⟩
  rw [← hbelow, below, below, if_pos tail, if_pos hany, List.dropWhile_cons_of_pos (by simp [plain])]

theorem unwinds_held {mark : Mark} {ops : Array Op}
    (hblock : program.blocks[mark.block]? = some ⟨.held, ops⟩) :
    Unwinds program around stack (mark :: stack) := by
  have held : heldIn program mark = true := heldIn_of_block hblock
  intro _
  simp [below, held]

theorem hear_inside (h : Unwinds program around base stack) (cells : Cells) :
    (inside program around cells stack).hear =
      if around.held && !around.locked then inside program { around with held := false } cells base
      else inside program around cells stack := by
  obtain ⟨held, locked⟩ := around
  cases locked with
  | true => simp [hear, inside]
  | false =>
    cases held with
    | false => simp [hear, release, inside]
    | true =>
      have hb := (h rfl).2
      simp only [hear, release, inside]
      simp only [Bool.false_eq_true, if_false, if_true, Bool.and_self, Bool.not_false]
      rw [← hb]
      rfl

end unwind

/-! ## What a reading keeps -/

section steady

variable {around : Nesting} {f g : Reading → Reading.Ending × Reading}

theorem heed_length (listening : Bool) (cues : List Cue) :
    (heed listening cues).2.length ≤ cues.length ∧
      ((heed listening cues).1 ≠ .stopped → (heed listening cues).2.length < cues.length) := by
  induction cues with
  | nil => simp [heed]
  | cons cue cues ih =>
    cases cue with
    | go => simp [heed]
    | release =>
      simp only [heed]
      split
      · simp
      · simp only [List.length_cons]
        omega

theorem heed_released {listening : Bool} {cues : List Cue}
    (h : (heed listening cues).1 = .released) : listening = true := by
  induction cues with
  | nil => simp [heed] at h
  | cons cue cues ih =>
    cases cue with
    | go => simp [heed] at h
    | release =>
      simp only [heed] at h
      split at h
      · assumption
      · exact ih h

theorem length_afterRelease? {listening : Bool} {cues rest : List Cue}
    (h : afterRelease? listening cues = some rest) : rest.length ≤ cues.length := by
  induction cues with
  | nil => cases h
  | cons cue cues ih =>
    cases cue with
    | go => exact Nat.le_succ_of_le (ih h)
    | release =>
      simp only [afterRelease?] at h
      split at h
      · cases h
        exact Nat.le_succ _
      · exact Nat.le_succ_of_le (ih h)

theorem steady_next (around : Nesting) : Steady around (·.next around) where
  names _ := rfl
  cues_le r := (heed_length (around.held && !around.locked) r.cues).1
  heard r h := by
    have := heed_released h
    simpa using this

theorem steady_finished (around : Nesting) : Steady around fun r => (.finished, r) where
  names _ := rfl
  cues_le _ := Nat.le_refl _
  heard _ h := by cases h

theorem Steady.andThen (hf : Steady around f) (hg : Steady around g) :
    Steady around fun r => andThen (f r) g where
  names r := by
    have hr := hf.names r
    obtain ⟨⟨ending, r'⟩, h⟩ : ∃ x, f r = x := ⟨_, rfl⟩
    rw [h] at hr
    cases ending with
    | finished => simp only [Reading.andThen, h, hg.names r', hr]
    | released => simpa only [Reading.andThen, h] using hr
    | stopped => simpa only [Reading.andThen, h] using hr
  cues_le r := by
    have hr := hf.cues_le r
    obtain ⟨⟨ending, r'⟩, h⟩ : ∃ x, f r = x := ⟨_, rfl⟩
    rw [h] at hr
    cases ending with
    | finished =>
      simp only [Reading.andThen, h]
      exact Nat.le_trans (hg.cues_le r') hr
    | released => simpa only [Reading.andThen, h] using hr
    | stopped => simpa only [Reading.andThen, h] using hr
  heard r hr := by
    obtain ⟨⟨ending, r'⟩, h⟩ : ∃ x, f r = x := ⟨_, rfl⟩
    cases ending with
    | finished =>
      simp only [Reading.andThen, h] at hr
      exact hg.heard r' hr
    | released => exact hf.heard r (by rw [h])
    | stopped => simp [Reading.andThen, h] at hr

theorem Steady.passes {last : Reading.Ending} (hf : Steady around f) (hlast : last ≠ .released)
    (n : Nat) : Steady around (passes f last n) := by
  induction n with
  | zero => exact ⟨fun _ => rfl, fun _ => Nat.le_refl _, fun _ h => absurd h hlast⟩
  | succ n ih => exact hf.andThen ih

theorem Steady.forever (hf : Steady around f) :
    Steady around fun r => Reading.passes f .stopped r.cues.length r where
  names r := (hf.passes (by decide) r.cues.length).names r
  cues_le r := (hf.passes (by decide) r.cues.length).cues_le r
  heard r := (hf.passes (by decide) r.cues.length).heard r

theorem Steady.leaveHeld {inner : Nesting} (hf : Steady inner f) :
    Steady around fun r => leaveHeld around (f r) where
  names r := by
    have hr := hf.names r
    obtain ⟨⟨ending, r'⟩, h⟩ : ∃ x, f r = x := ⟨_, rfl⟩
    rw [h] at hr
    cases ending with
    | finished =>
      simp only [Reading.leaveHeld, h]
      split <;> exact hr
    | released => simpa only [Reading.leaveHeld, h] using hr
    | stopped => simpa only [Reading.leaveHeld, h] using hr
  cues_le r := by
    have hr := hf.cues_le r
    obtain ⟨⟨ending, r'⟩, h⟩ : ∃ x, f r = x := ⟨_, rfl⟩
    rw [h] at hr
    cases ending with
    | finished =>
      simp only [Reading.leaveHeld, h]
      split
      · rename_i rest hrest
        exact Nat.le_trans (length_afterRelease? hrest) hr
      · exact Nat.zero_le _
    | released => simpa only [Reading.leaveHeld, h] using hr
    | stopped => simpa only [Reading.leaveHeld, h] using hr
  heard r hr := by
    obtain ⟨⟨ending, r'⟩, h⟩ : ∃ x, f r = x := ⟨_, rfl⟩
    cases ending with
    | finished =>
      simp only [Reading.leaveHeld, h] at hr
      split at hr <;> cases hr
    | released => simp [Reading.leaveHeld, h] at hr
    | stopped => simp [Reading.leaveHeld, h] at hr

theorem Steady.unlocked (hf : Steady { around with locked := true } f) : Steady around f where
  names := hf.names
  cues_le := hf.cues_le
  heard r h := by cases (hf.heard r h).2

end steady

/-! ## Parts one after the other -/

section compose

variable {rate range} {program : Program} {around : Nesting} {base start mid stop : List Mark}
  {f g : Reading → Reading.Ending × Reading}

theorem reads_finished (start : List Mark) :
    Reads rate range program around base start start fun r => (.finished, r) :=
  { steady_finished around with plays := fun _ _ => rfl }

theorem Reads.andThen (hf : Reads rate range program around base start mid f)
    (hg : Reads rate range program around base mid stop g) :
    Reads rate range program around base start stop fun r => andThen (f r) g := by
  refine { hf.toSteady.andThen hg.toSteady with plays := fun r hnames => ?_ }
  have hr := hf.names r
  rw [hf.plays r hnames]
  obtain ⟨⟨ending, r'⟩, h⟩ : ∃ x, f r = x := ⟨_, rfl⟩
  rw [h] at hr
  cases ending with
  | finished =>
    simp only [Reading.andThen, h]
    exact hg.plays r' (by rw [hr]; exact hnames)
  | released => simp only [Reading.andThen, h, carryOn]
  | stopped => simp only [Reading.andThen, h, carryOn]

theorem play_next (unwinds : Unwinds program around base start) (r : Reading) :
    play rate range r.cues (inside program around r.cells start) r.segments =
      match r.next around with
      | (.finished, r') =>
        play rate range (.go :: r'.cues) (inside program around r.cells start) r.segments
      | (.released, r') =>
        play rate range r'.cues (inside program { around with held := false } r.cells base)
          r.segments
      | (.stopped, _) => r.segments := by
  obtain ⟨cells, cues, segments⟩ := r
  induction cues with
  | nil => rfl
  | cons cue cues ih =>
    cases cue with
    | go => rfl
    | release =>
      rw [play, hear_inside unwinds]
      by_cases listening : (around.held && !around.locked) = true
      · simp only [Reading.next, heed, listening, if_true]
      · simp only [Reading.next, heed, listening, if_false, Bool.false_eq_true] at ih ⊢
        exact ih

/-- One operation and what comes of it: `f` goes on from the leave that was given. -/
theorem Reads.operation (unwinds : Unwinds program around base start) (steady : Steady around f)
    (plays : ∀ r, r.cells.names = program.cells.names →
      play rate range (.go :: r.cues) (inside program around r.cells start) r.segments =
        carryOn rate range program around base stop (f r)) :
    Reads rate range program around base start stop fun r => Reading.andThen (r.next around) f := by
  refine { (steady_next around).andThen steady with plays := fun r hnames => ?_ }
  rw [play_next unwinds]
  obtain ⟨⟨ending, r'⟩, h⟩ : ∃ x, r.next around = x := ⟨_, rfl⟩
  have hcells : r.cells = r'.cells := congrArg (·.2.cells) h
  have hsegments : r.segments = r'.segments := congrArg (·.2.segments) h
  cases ending with
  | finished =>
    simp only [Reading.andThen, h]
    rw [hcells, hsegments]
    exact plays r' (by rw [← hcells]; exact hnames)
  | released => simp only [Reading.andThen, h, carryOn, hcells, hsegments]
  | stopped => simp only [Reading.andThen, h, carryOn, hsegments]

theorem Reads.move (unwinds : Unwinds program around base start)
    (moves : ∀ cells, (inside program around cells start).step rate range =
      .moved (inside program around cells mid))
    (hf : Reads rate range program around base mid stop f) :
    Reads rate range program around base start stop fun r => Reading.andThen (r.next around) f :=
  Reads.operation unwinds hf.toSteady fun r hnames => by
    rw [play, moves]
    exact hf.plays r hnames

theorem reads_next (unwinds : Unwinds program around base start)
    (moves : ∀ cells, (inside program around cells start).step rate range =
      .moved (inside program around cells stop)) :
    Reads rate range program around base start stop (·.next around) := by
  have h := Reads.move unwinds moves (reads_finished stop)
  have same : ∀ r : Reading, Reading.andThen (r.next around) (fun r => (.finished, r)) =
      r.next around := by
    intro r
    obtain ⟨⟨ending, r'⟩, h⟩ : ∃ x, r.next around = x := ⟨_, rfl⟩
    rw [h]
    cases ending <;> rfl
  simpa only [same] using h

/-! ## Passes -/

theorem pass_takes_cue (steady : Steady around f) (r : Reading)
    (h : (Reading.andThen (f r) (·.next around)).1 = .finished) :
    (Reading.andThen (f r) (·.next around)).2.cues.length < r.cues.length := by
  have hr := steady.cues_le r
  obtain ⟨⟨ending, r'⟩, hf⟩ : ∃ x, f r = x := ⟨_, rfl⟩
  rw [hf] at hr h ⊢
  cases ending with
  | finished =>
    simp only [Reading.andThen] at h ⊢
    have took : (r'.next around).2.cues.length < r'.cues.length := by
      refine (heed_length (around.held && !around.locked) r'.cues).2 ?_
      show (r'.next around).1 ≠ .stopped
      rw [h]
      decide
    exact Nat.lt_of_lt_of_le took hr
  | released => simp [Reading.andThen] at h
  | stopped => simp [Reading.andThen] at h

theorem Reads.forever (pass : Reads rate range program around base start start f)
    (takes : ∀ r, (f r).1 = .finished → (f r).2.cues.length < r.cues.length) :
    Reads rate range program around base start stop
      fun r => Reading.passes f .stopped r.cues.length r := by
  refine { pass.toSteady.forever with plays := fun r hnames => ?_ }
  -- Each pass takes a cue, so that no more passes begin than there are cues.
  have enough : ∀ n (r : Reading), r.cells.names = program.cells.names → r.cues.length ≤ n →
      play rate range r.cues (inside program around r.cells start) r.segments =
        carryOn rate range program around base stop (Reading.passes f .stopped n r) := by
    intro n
    induction n with
    | zero =>
      intro r _ hle
      have hnil : r.cues = [] := List.length_eq_zero_iff.1 (Nat.le_zero.1 hle)
      rw [hnil]
      rfl
    | succ n ih =>
      intro r hnames hle
      have hr := pass.names r
      have htakes := takes r
      rw [pass.plays r hnames, Reading.passes]
      obtain ⟨⟨ending, r'⟩, h⟩ : ∃ x, f r = x := ⟨_, rfl⟩
      rw [h] at hr htakes ⊢
      cases ending with
      | finished =>
        have hlt := htakes rfl
        exact ih r' (by rw [hr]; exact hnames) (by simp only at hlt; omega)
      | released => rfl
      | stopped => rfl
  exact enough _ r hnames (Nat.le_refl _)

end compose

end Player

end ControlVoltage
