import ControlVoltage.Proofs.Player.Play
import ControlVoltage.Proofs.Program.Formula
import ControlVoltage.Proofs.Program.Layout

/-!
# Playing the nodes of a score

One fact for each kind of node, that playing the operation which stands for it reads it, put
together over the tree of the score in `node_reads` and `nodes_read`.
-/

namespace ControlVoltage

open Score (Node)
open Program (Stands StandAll Opens)
open Reading (andThen passes leaveHeld afterRelease?)

namespace Player

variable {rate : Rate} {range : Range} {program : Program} {around : Nesting}
  {base stop up : List Mark} {mark : Mark} {kind : BlockKind} {ops : Array Op}
  {f : Reading → Reading.Ending × Reading}

/-! ## Steps -/

theorem step_op {op : Op} (hblock : program.blocks[mark.block]? = some ⟨kind, ops⟩)
    (hop : ops[mark.next]? = some op) (cells : Cells) :
    (inside program around cells (mark :: up)).step rate range =
      match op with
      | .ramp step => (inside program around cells (past mark :: up)).rampTurn rate range step
      | .enter id => (inside program around cells (past mark :: up)).enter id := by
  simp only [step, inside, hblock, hop]
  cases op <;> rfl

theorem step_end (hblock : program.blocks[mark.block]? = some ⟨kind, ops⟩)
    (hend : mark.next = ops.size) (cells : Cells) :
    (inside program around cells (mark :: up)).step rate range =
      (inside program around cells (mark :: up)).finish kind mark up := by
  have hop : ops[mark.next]? = none := by simp [hend]
  simp only [step, inside, hblock, hop]

theorem push_inside (shallow : up.length < Program.maxDepth) (cells : Cells) (id k : Nat) :
    (inside program around cells up).push id k =
      .moved (inside program around cells (⟨id, 0, k⟩ :: up)) := by
  have : ¬ Program.maxDepth ≤ (inside program around cells up).stack.length := Nat.not_le.2 shallow
  rw [push, if_neg this]
  rfl

theorem step_enter {id : Nat} {inner : BlockKind} {body : Array Op}
    (hblock : program.blocks[mark.block]? = some ⟨kind, ops⟩)
    (hop : ops[mark.next]? = some (.enter id))
    (hbody : program.blocks[id]? = some ⟨inner, body⟩) (cells : Cells) :
    (inside program around cells (mark :: up)).step rate range =
      match inner with
      | .plain => (inside program around cells (past mark :: up)).push id 0
      | .loop => (inside program around cells (past mark :: up)).push id 0
      | .times count => (inside program around cells (past mark :: up)).push id count
      | .held => (inside program { around with held := true } cells (past mark :: up)).push id 0
      | .locked => (inside program { around with locked := true } cells (past mark :: up)).push id 0
      | .when c =>
        if (c.eval cells).1 ≤ 0 then .moved (inside program around (c.eval cells).2 (past mark :: up))
        else (inside program around (c.eval cells).2 (past mark :: up)).push id 0 := by
  rw [step_op hblock hop]
  simp only [enter, inside, hbody]
  cases inner <;> rfl

theorem play_parked {inner : Nesting} {id : Nat} {body : Array Op} (held : inner.held = true)
    (hbody : program.blocks[id]? = some ⟨.held, body⟩) (r : Reading) :
    play rate range r.cues (inside program inner r.cells (⟨id, body.size, 0⟩ :: up)) r.segments =
      match afterRelease? (!inner.locked) r.cues with
      | some cues =>
        play rate range cues (inside program { inner with held := false } r.cells up) r.segments
      | none => r.segments := by
  obtain ⟨cells, cues, segments⟩ := r
  induction cues with
  | nil => rfl
  | cons cue cues ih =>
    cases cue with
    | go =>
      have parked : (inside program inner cells (⟨id, body.size, 0⟩ :: up)).step rate range =
          .parked := by
        rw [step_end hbody rfl, finish, if_pos]
        exact held
      simp only [play, parked, afterRelease?]
      exact ih
    | release =>
      have unwinds : Unwinds program inner up (⟨id, body.size, 0⟩ :: up) := unwinds_held hbody
      rw [play, hear_inside unwinds, held, Bool.true_and]
      simp only [afterRelease?]
      split
      · rfl
      · exact ih

/-! ## One kind of node -/

section kinds

variable {id : Nat} {body : Array Op} (unwinds : Unwinds program around base (mark :: up))
  (hblock : program.blocks[mark.block]? = some ⟨kind, ops⟩)

include unwinds hblock

theorem reads_ramp {volts time : Score.Value} {tag : String} {v t : Formula} {curve : Curve}
    (hop : ops[mark.next]? = some (.ramp ⟨v, t, curve⟩))
    (hv : volts.formula program.cells = .ok v) (ht : time.formula program.cells = .ok t)
    (hcurve : Curve.parse tag = .ok curve) :
    Reads rate range program around base (mark :: up) (past mark :: up)
      ((Node.ramp volts time tag).read rate range around) := by
  have hread : (Node.ramp volts time tag).read rate range around = fun r =>
      andThen (r.next around) fun r =>
        (.finished,
          { r with
            cells := (time.read (volts.read r.cells).2).2
            segments := r.segments ++ [⟨range.clamp (volts.read r.cells).1,
              rate.ticks (time.read (volts.read r.cells).2).1, curve⟩] }) := by
    funext r
    simp only [Node.read, hcurve]
  rw [hread]
  refine Reads.operation unwinds ⟨fun r => by simp, fun _ => Nat.le_refl _, fun _ h => by cases h⟩ ?_
  intro r hnames
  have hvolts := read_eq_eval volts v r.cells hv hnames
  have htime := read_eq_eval time t (v.eval r.cells).2 ht (by simpa using hnames)
  rw [play, step_op hblock hop]
  simp only [rampTurn, hvolts, htime]
  rfl

variable (shallow : (past mark :: up).length < Program.maxDepth)
  (hop : ops[mark.next]? = some (.enter id))

include shallow hop

theorem reads_seq (hbody : program.blocks[id]? = some ⟨.plain, body⟩)
    (hf : Reads rate range program around base (⟨id, 0, 0⟩ :: past mark :: up)
      (⟨id, body.size, 0⟩ :: past mark :: up) f) :
    Reads rate range program around base (mark :: up) (past mark :: up) fun r =>
      andThen (r.next around) fun r => andThen (f r) (·.next around) := by
  have inner : Unwinds program around base (⟨id, body.size, 0⟩ :: past mark :: up) :=
    unwinds.past.push hbody (by simp)
  refine Reads.move unwinds (fun cells => ?_) (hf.andThen (reads_next inner fun cells => ?_))
  · rw [step_enter hblock hop hbody]
    exact push_inside shallow cells id 0
  · rw [step_end hbody rfl]
    rfl

theorem reads_loop (hbody : program.blocks[id]? = some ⟨.loop, body⟩)
    (hf : Reads rate range program around base (⟨id, 0, 0⟩ :: past mark :: up)
      (⟨id, body.size, 0⟩ :: past mark :: up) f) :
    Reads rate range program around base (mark :: up) (past mark :: up) fun r =>
      andThen (r.next around) fun r =>
        passes (fun r => andThen (f r) (·.next around)) .stopped r.cues.length r := by
  have inner : Unwinds program around base (⟨id, body.size, 0⟩ :: past mark :: up) :=
    unwinds.past.push hbody (by simp)
  have pass : Reads rate range program around base (⟨id, 0, 0⟩ :: past mark :: up)
      (⟨id, 0, 0⟩ :: past mark :: up) fun r => andThen (f r) (·.next around) := by
    refine hf.andThen (reads_next inner fun cells => ?_)
    rw [step_end hbody rfl]
    rfl
  refine Reads.move unwinds (fun cells => ?_) (pass.forever (pass_takes_cue hf.toSteady))
  rw [step_enter hblock hop hbody]
  exact push_inside shallow cells id 0

theorem reads_times {count : Nat} (positive : 0 < count)
    (hbody : program.blocks[id]? = some ⟨.times count, body⟩)
    (hf : ∀ k, Reads rate range program around base (⟨id, 0, k⟩ :: past mark :: up)
      (⟨id, body.size, k⟩ :: past mark :: up) f) :
    Reads rate range program around base (mark :: up) (past mark :: up) fun r =>
      andThen (r.next around) (passes (fun r => andThen (f r) (·.next around)) .finished count) := by
  have inner : ∀ k, Unwinds program around base (⟨id, body.size, k⟩ :: past mark :: up) :=
    fun k => unwinds.past.push hbody (by simp)
  -- The passes that are left are counted down in the mark, and the last one leaves the block.
  have countdown : ∀ n, Reads rate range program around base (⟨id, 0, n + 1⟩ :: past mark :: up)
      (past mark :: up) (passes (fun r => andThen (f r) (·.next around)) .finished (n + 1)) := by
    intro n
    induction n with
    | zero =>
      have pass : Reads rate range program around base (⟨id, 0, 1⟩ :: past mark :: up)
          (past mark :: up) fun r => andThen (f r) (·.next around) := by
        refine (hf 1).andThen (reads_next (inner 1) fun cells => ?_)
        rw [step_end hbody rfl]
        rfl
      exact pass.andThen (reads_finished _)
    | succ n ih =>
      have pass : Reads rate range program around base (⟨id, 0, n + 2⟩ :: past mark :: up)
          (⟨id, 0, n + 1⟩ :: past mark :: up) fun r => andThen (f r) (·.next around) := by
        refine (hf (n + 2)).andThen (reads_next (inner (n + 2)) fun cells => ?_)
        rw [step_end hbody rfl, finish, if_pos (by simp)]
        rfl
      exact pass.andThen ih
  obtain ⟨n, rfl⟩ : ∃ n, count = n + 1 := ⟨count - 1, by omega⟩
  refine Reads.move unwinds (fun cells => ?_) (countdown n)
  rw [step_enter hblock hop hbody]
  exact push_inside shallow cells id (n + 1)

theorem reads_held (free : around.held = false)
    (hbody : program.blocks[id]? = some ⟨.held, body⟩)
    (hf : Reads rate range program { around with held := true } (past mark :: up)
      (⟨id, 0, 0⟩ :: past mark :: up) (⟨id, body.size, 0⟩ :: past mark :: up) f) :
    Reads rate range program around base (mark :: up) (past mark :: up) fun r =>
      andThen (r.next around) fun r => leaveHeld around (f r) := by
  have back : (⟨false, around.locked⟩ : Nesting) = around := by rw [← free]
  refine Reads.operation unwinds hf.toSteady.leaveHeld fun r hnames => ?_
  rw [play, step_enter hblock hop hbody]
  simp only [push_inside shallow]
  rw [hf.plays r hnames]
  obtain ⟨⟨ending, r'⟩, h⟩ : ∃ x, f r = x := ⟨_, rfl⟩
  rw [h]
  cases ending with
  | finished =>
    simp only [carryOn, leaveHeld]
    rw [play_parked rfl hbody r']
    cases afterRelease? (!around.locked) r'.cues with
    | none => rfl
    | some cues => simp only [back]
  | released => simp only [carryOn, leaveHeld, back]
  | stopped => rfl

theorem reads_lock (free : around.locked = false)
    (hbody : program.blocks[id]? = some ⟨.locked, body⟩)
    (hf : Reads rate range program { around with locked := true } base
      (⟨id, 0, 0⟩ :: past mark :: up) (⟨id, body.size, 0⟩ :: past mark :: up) f) :
    Reads rate range program around base (mark :: up) (past mark :: up) fun r =>
      andThen (r.next around) fun r =>
        andThen (f r) (·.next { around with locked := true }) := by
  have back : (⟨around.held, false⟩ : Nesting) = around := by rw [← free]
  have inner : Unwinds program { around with locked := true } base
      (⟨id, body.size, 0⟩ :: past mark :: up) := unwinds.past.push hbody (by simp)
  have steady := (hf.toSteady.andThen (steady_next _)).unlocked
  refine Reads.operation unwinds steady fun r hnames => ?_
  rw [play, step_enter hblock hop hbody]
  simp only [push_inside shallow]
  rw [hf.plays r hnames]
  have heard := hf.heard r
  obtain ⟨⟨ending, r'⟩, h⟩ : ∃ x, f r = x := ⟨_, rfl⟩
  rw [h] at heard ⊢
  cases ending with
  | finished =>
    simp only [carryOn, andThen]
    rw [play_next inner r']
    have hheard := (steady_next { around with locked := true }).heard r'
    have hcells : (r'.next { around with locked := true }).2.cells = r'.cells := rfl
    have hsegments : (r'.next { around with locked := true }).2.segments = r'.segments := rfl
    obtain ⟨⟨ending, r''⟩, h'⟩ : ∃ x, r'.next { around with locked := true } = x := ⟨_, rfl⟩
    rw [h'] at hheard hcells hsegments ⊢
    cases ending with
    | finished =>
      have left : (inside program { around with locked := true } r'.cells
          (⟨id, body.size, 0⟩ :: past mark :: up)).step rate range =
            .moved (inside program around r'.cells (past mark :: up)) := by
        rw [step_end hbody rfl, ← back]
        rfl
      simp only at hcells hsegments
      simp only [play, left, hcells, hsegments]
    | released => cases (hheard rfl).2
    | stopped => exact hsegments.symm
  | released => cases (heard rfl).2
  | stopped => rfl

theorem reads_when {condition : Score.Value} {c : Formula}
    (hc : condition.formula program.cells = .ok c)
    (hbody : program.blocks[id]? = some ⟨.when c, body⟩)
    (hf : Reads rate range program around base (⟨id, 0, 0⟩ :: past mark :: up)
      (⟨id, body.size, 0⟩ :: past mark :: up) f) :
    Reads rate range program around base (mark :: up) (past mark :: up) fun r =>
      andThen (r.next around) fun r =>
        let (x, cells) := condition.read r.cells
        let r := { r with cells }
        if Score.met x then andThen (f r) (·.next around) else (.finished, r) := by
  have inner : Unwinds program around base (⟨id, body.size, 0⟩ :: past mark :: up) :=
    unwinds.past.push hbody (by simp)
  have pass : Reads rate range program around base (⟨id, 0, 0⟩ :: past mark :: up)
      (past mark :: up) fun r => andThen (f r) (·.next around) := by
    refine hf.andThen (reads_next inner fun cells => ?_)
    rw [step_end hbody rfl]
    rfl
  refine Reads.operation unwinds ⟨fun r => ?_, fun r => ?_, fun r => ?_⟩ fun r hnames => ?_
  · simp only
    split
    · rw [pass.names]
      simp
    · simp
  · simp only
    split
    · exact pass.cues_le { r with cells := (condition.read r.cells).2 }
    · exact Nat.le_refl _
  · simp only
    split
    · exact pass.heard _
    · intro h
      cases h
  · have hread := read_eq_eval condition c r.cells hc hnames
    rw [play, step_enter hblock hop hbody]
    simp only [hread, Score.met_eq]
    by_cases below : (c.eval r.cells).1 ≤ 0
    · rw [if_pos below, if_neg (by simp [below])]
      rfl
    · rw [if_neg below, if_pos (by simp [below]), push_inside shallow]
      exact pass.plays { r with cells := (c.eval r.cells).2 } (by simpa using hnames)

end kinds

/-! ## The tree -/

mutual

theorem node_reads : ∀ (node : Node) ⦃around : Nesting⦄ ⦃base up : List Mark⦄ ⦃mark : Mark⦄
    ⦃kind : BlockKind⦄ ⦃ops : Array Op⦄ ⦃op : Op⦄,
    program.Stands (up.length + 2) around node op → Unwinds program around base (mark :: up) →
    program.blocks[mark.block]? = some ⟨kind, ops⟩ → ops[mark.next]? = some op →
      Reads rate range program around base (mark :: up) (past mark :: up)
        (node.read rate range around)
  | .ramp volts time tag => by
    intro around base up mark kind ops op stands unwinds hblock hop
    obtain ⟨v, t, curve, hv, ht, hcurve, rfl⟩ := stands
    exact reads_ramp unwinds hblock hop hv ht hcurve
  | .seq body => by
    intro around base up mark kind ops op stands unwinds hblock hop
    obtain ⟨id, inner, rfl, shallow, hbody, stands⟩ := stands
    have read : (Node.seq body).read rate range around = fun r =>
        andThen (r.next around) fun r =>
          andThen (Score.readAll rate range around body r) (·.next around) := by
      funext r
      rw [Node.read]
    rw [read]
    exact reads_seq unwinds hblock shallow hop hbody
      (body_reads body 0 stands (unwinds.past.push hbody (by simp)) hbody)
  | .loop body => by
    intro around base up mark kind ops op stands unwinds hblock hop
    obtain ⟨id, inner, rfl, shallow, hbody, stands⟩ := stands
    have read : (Node.loop body).read rate range around = fun r =>
        andThen (r.next around) fun r =>
          passes (fun r => andThen (Score.readAll rate range around body r) (·.next around))
            .stopped r.cues.length r := by
      funext r
      rw [Node.read]
    rw [read]
    exact reads_loop unwinds hblock shallow hop hbody
      (body_reads body 0 stands (unwinds.past.push hbody (by simp)) hbody)
  | .held body => by
    intro around base up mark kind ops op stands unwinds hblock hop
    obtain ⟨free, id, inner, rfl, shallow, hbody, stands⟩ := stands
    have read : (Node.held body).read rate range around = fun r =>
        andThen (r.next around) fun r =>
          leaveHeld around (Score.readAll rate range { around with held := true } body r) := by
      funext r
      rw [Node.read]
    rw [read]
    exact reads_held unwinds hblock shallow hop free hbody
      (body_reads body 0 stands (unwinds_held hbody) hbody)
  | .lock body => by
    intro around base up mark kind ops op stands unwinds hblock hop
    obtain ⟨free, id, inner, rfl, shallow, hbody, stands⟩ := stands
    have read : (Node.lock body).read rate range around = fun r =>
        andThen (r.next around) fun r =>
          andThen (Score.readAll rate range { around with locked := true } body r)
            (·.next { around with locked := true }) := by
      funext r
      rw [Node.read]
    rw [read]
    exact reads_lock unwinds hblock shallow hop free hbody
      (body_reads body 0 stands (unwinds.past.push hbody (by simp)) hbody)
  | .times count body => by
    intro around base up mark kind ops op stands unwinds hblock hop
    obtain ⟨positive, id, inner, rfl, shallow, hbody, stands⟩ := stands
    have read : (Node.times count body).read rate range around = fun r =>
        andThen (r.next around)
          (passes (fun r => andThen (Score.readAll rate range around body r) (·.next around))
            .finished count) := by
      funext r
      rw [Node.read]
    rw [read]
    exact reads_times unwinds hblock shallow hop positive hbody fun k =>
      body_reads body k stands (unwinds.past.push hbody (by simp)) hbody
  | .when condition body => by
    intro around base up mark kind ops op stands unwinds hblock hop
    obtain ⟨c, hc, id, inner, rfl, shallow, hbody, stands⟩ := stands
    have read : (Node.when condition body).read rate range around = fun r =>
        andThen (r.next around) fun r =>
          let (x, cells) := condition.read r.cells
          let r := { r with cells }
          if Score.met x then
            andThen (Score.readAll rate range around body r) (·.next around)
          else (.finished, r) := by
      funext r
      rw [Node.read]
    rw [read]
    exact reads_when unwinds hblock shallow hop hc hbody
      (body_reads body 0 stands (unwinds.past.push hbody (by simp)) hbody)

theorem body_reads : ∀ (nodes : List Node) (k : Nat) ⦃around : Nesting⦄ ⦃base up : List Mark⦄
    ⦃id : Nat⦄ ⦃kind : BlockKind⦄ ⦃ops : Array Op⦄,
    program.StandAll (up.length + 2) around nodes ops.toList →
    Unwinds program around base (⟨id, 0, k⟩ :: up) → program.blocks[id]? = some ⟨kind, ops⟩ →
      Reads rate range program around base (⟨id, 0, k⟩ :: up) (⟨id, ops.size, k⟩ :: up)
        (Score.readAll rate range around nodes)
  | nodes, k => by
    intro around base up id kind ops stands unwinds hblock
    exact nodes_read nodes ⟨id, 0, k⟩ (by simpa using stands) unwinds hblock (Nat.zero_le _)

theorem nodes_read : ∀ (nodes : List Node) (mark : Mark) ⦃around : Nesting⦄ ⦃base up : List Mark⦄
    ⦃kind : BlockKind⦄ ⦃ops : Array Op⦄,
    program.StandAll (up.length + 2) around nodes (ops.toList.drop mark.next) →
    Unwinds program around base (mark :: up) → program.blocks[mark.block]? = some ⟨kind, ops⟩ →
    mark.next ≤ ops.size →
      Reads rate range program around base (mark :: up) ({ mark with next := ops.size } :: up)
        (Score.readAll rate range around nodes)
  | [], mark => by
    intro around base up kind ops stands unwinds hblock hle
    have hend : mark.next = ops.size := by
      have : ops.toList.length ≤ mark.next := List.drop_eq_nil_iff.1 stands
      rw [Array.length_toList] at this
      omega
    have same : { mark with next := ops.size } = mark := by rw [← hend]
    have read : Score.readAll rate range around [] = fun r => (.finished, r) := by
      funext r
      rw [Score.readAll]
    rw [same, read]
    exact reads_finished _
  | node :: nodes, mark => by
    intro around base up kind ops stands unwinds hblock hle
    obtain ⟨op, rest, hops, hnode, hrest⟩ := stands
    have hop : ops[mark.next]? = some op := by
      have := congrArg (·[0]?) hops
      simpa using this
    have hlt : mark.next < ops.size := by
      obtain ⟨h, _⟩ := Array.getElem?_eq_some_iff.1 hop
      exact h
    have hdrop : ops.toList.drop (past mark).next = rest := by
      rw [past, ← List.drop_drop, hops]
      rfl
    have read : Score.readAll rate range around (node :: nodes) = fun r =>
        andThen (node.read rate range around r) (Score.readAll rate range around nodes) := by
      funext r
      rw [Score.readAll]
    rw [read]
    refine (node_reads node hnode unwinds hblock hop).andThen ?_
    exact nodes_read nodes (past mark) (by rw [hdrop]; exact hrest) unwinds.past hblock hlt

end

theorem play_nil (cells : Cells) (cues : List Cue) (out : List Segment) :
    play rate range cues (inside program ⟨false, false⟩ cells []) out = out := by
  induction cues with
  | nil => rfl
  | cons cue cues ih => cases cue <;> exact ih

/-- From the top of a compiled program a player does what the score says. -/
theorem play_compiled {score : List Node} (hcompile : Program.compile score = .ok program)
    {cells : Cells} (hnames : cells.names = program.cells.names) (cues : List Cue) :
    play rate range cues (inside program ⟨false, false⟩ cells [⟨0, 0, 0⟩]) [] =
      Score.read rate range score cells cues := by
  obtain ⟨ops, hblock, stands⟩ := Program.stands_of_compile hcompile
  have free : ∀ stack, Unwinds program ⟨false, false⟩ [] stack := fun _ h => by cases h
  have whole : Reads rate range program ⟨false, false⟩ [] [⟨0, 0, 0⟩] [⟨0, ops.size, 0⟩]
      (Score.readAll rate range ⟨false, false⟩ score) :=
    body_reads score 0 stands (free _) hblock
  -- What is left of the walk is to leave the root block, which ends it.
  have leave : Reads rate range program ⟨false, false⟩ [] [⟨0, ops.size, 0⟩] []
      (·.next ⟨false, false⟩) := by
    refine reads_next (free _) fun cells => ?_
    rw [step_end hblock rfl]
    rfl
  have hplays := (whole.andThen leave).plays ⟨cells, cues, []⟩ hnames
  have heard := (whole.andThen leave).heard ⟨cells, cues, []⟩
  rw [Score.read]
  refine hplays.trans ?_
  obtain ⟨⟨ending, r⟩, h⟩ : ∃ x, Score.readAll rate range ⟨false, false⟩ score ⟨cells, cues, []⟩ = x :=
    ⟨_, rfl⟩
  rw [h] at heard ⊢
  cases ending with
  | finished =>
    have hsegments : (r.next ⟨false, false⟩).2.segments = r.segments := rfl
    simp only [andThen] at heard ⊢
    obtain ⟨⟨ending, r'⟩, h'⟩ : ∃ x, r.next ⟨false, false⟩ = x := ⟨_, rfl⟩
    rw [h'] at heard hsegments ⊢
    cases ending with
    | finished => rw [carryOn, play_nil]; exact hsegments
    | released => cases (heard rfl).1
    | stopped => exact hsegments
  | released => cases (heard rfl).1
  | stopped => rfl

end Player

end ControlVoltage
