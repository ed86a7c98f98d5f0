import ControlVoltage.Proofs.Engine.Failure
import ControlVoltage.Proofs.Engine.InRange
import ControlVoltage.Proofs.Program.Layout
import ControlVoltage.Session.Basic

/-!
# Setting up from a configuration

What the check of a boot configuration makes sure of is enough for all commands that set a session
up, but for two: neither the voltage that a channel moves to nor the values of its cells are checked
to be finite. So a configuration that passes the check can be set up exactly if these are.

* `Boot.ChannelPlan.Checked`, `Boot.InputPlan.Checked` : what the check makes sure of.
* `Session.Settles` : a step of the setup that fails for a number that is not finite and for
  nothing else.
* `Session.ofConfig_of_plan` : which checked configurations can be set up.
-/

namespace ControlVoltage

/-! ## What is checked -/

namespace Boot

/-- The numbers that the check lets through as they are. -/
structure ChannelConfig.Finite (config : ChannelConfig) : Prop where
  volts : ∀ x, config.volts = some x → x.isFinite = true
  cells : ∀ cell ∈ config.cells, cell.2.isFinite = true

/-- The voltages and the values of cells that are written down are finite. -/
def Config.Finite (config : Config) : Prop := ∀ channel ∈ config.channels, channel.Finite

structure ChannelPlan.Finite (plan : ChannelPlan) : Prop where
  volts : ∀ x, plan.volts = some x → x.isFinite = true
  cells : ∀ cell ∈ plan.cells, cell.2.isFinite = true

/-- What the check makes sure of for an output. -/
structure ChannelPlan.Checked (plan : ChannelPlan) : Prop where
  slew : plan.slew.isFinite = true ∧ ¬ plan.slew < 0
  compiled : ∀ program, plan.program = some program →
    ∃ score, Program.compile score = .ok program
  declared : ∀ program, plan.program = some program →
    ∀ cell ∈ plan.cells, (program.cells.find? cell.1).isSome = true
  unset : plan.program = none → plan.cells = []

def InputPlan.Checked (plan : InputPlan) : Prop := plan.input < 2

theorem checkSlew_eq_ok_iff {seconds : Float32} :
    checkSlew seconds = .ok () ↔ seconds.isFinite = true ∧ ¬ seconds < 0 := by
  unfold checkSlew
  cases hfinite : seconds.isFinite with
  | false => simp
  | true => by_cases negative : seconds < 0 <;> simp [negative]

theorem checkCells_eq_ok {c : Channel} {program : Option Program} {cells : List (String × Float32)}
    (h : checkCells c program cells = .ok ()) :
    (∀ p, program = some p → ∀ cell ∈ cells, (p.cells.find? cell.1).isSome = true) ∧
      (program = none → cells = []) := by
  cases program with
  | none =>
    simp only [checkCells] at h
    split at h
    · rename_i hempty
      exact ⟨fun p hp => (nomatch hp), fun _ => List.isEmpty_iff.1 hempty⟩
    · cases h
  | some program =>
    simp only [checkCells] at h
    split at h
    · rename_i hfind
      refine ⟨fun p hp cell hcell => ?_, fun hp => (nomatch hp)⟩
      cases hp
      have hknown := List.find?_eq_none.1 hfind cell hcell
      cases hcellAt : program.cells.find? cell.1 <;> simp_all
    · cases h

section Except

variable {ε α β : Type}

theorem mapError_eq_ok_iff {δ : Type} {r : Except δ α} {f : δ → ε} {a : α} :
    r.mapError f = .ok a ↔ r = .ok a := by
  cases r <;> simp [Except.mapError]

theorem bind_eq_ok_iff {r : Except ε α} {f : α → Except ε β} {b : β} :
    r >>= f = .ok b ↔ ∃ a, r = .ok a ∧ f a = .ok b := by
  cases r <;> simp [bind, Except.bind]

theorem throwIf_eq_ok_iff {c : Prop} [Decidable c] {e : ε} {r : Except ε α} {a : α} :
    (if c then (throw e : Except ε PUnit) >>= fun _ => r else r) = .ok a ↔ ¬ c ∧ r = .ok a := by
  split
  · rename_i hc
    simp [hc, throw, throwThe, MonadExceptOf.throw, bind, Except.bind]
  · rename_i hc
    simp [hc]

end Except

theorem ChannelConfig.plan_eq_ok {config : ChannelConfig} {seen : List Channel} {plan : ChannelPlan}
    (h : config.plan seen = .ok plan) : plan.Checked ∧ (plan.Finite ↔ config.Finite) := by
  unfold ChannelConfig.plan at h
  simp only [bind_eq_ok_iff, mapError_eq_ok_iff, throwIf_eq_ok_iff] at h
  obtain ⟨channel, -, -, ⟨⟩, hslew, curve, -, quantizer, -, program, hprogram, ⟨⟩, hcells, -, h⟩ := h
  cases h
  obtain ⟨declared, unset⟩ := checkCells_eq_ok hcells
  refine ⟨⟨checkSlew_eq_ok_iff.1 hslew, fun p hp => ?_, declared, unset⟩,
    fun h => ⟨h.volts, h.cells⟩, fun h => ⟨h.volts, h.cells⟩⟩
  cases hscore : config.score with
  | none =>
    rw [hscore] at hprogram
    cases hprogram
    cases hp
  | some score =>
    cases hcompile : Program.compile score with
    | error fault =>
      simp only [hscore, Option.mapM, hcompile] at hprogram
      cases hprogram
    | ok compiled =>
      simp only [hscore, Option.mapM, hcompile] at hprogram
      cases hprogram
      cases hp
      exact ⟨score, hcompile⟩

theorem InputConfig.plan_eq_ok {config : InputConfig} {seen : List Nat} {plan : InputPlan}
    (h : config.plan seen = .ok plan) : plan.Checked := by
  unfold InputConfig.plan at h
  simp only [bind_eq_ok_iff, mapError_eq_ok_iff, throwIf_eq_ok_iff] at h
  obtain ⟨hindex, -, -, triggers, -, h⟩ := h
  cases h
  simp only [Bool.or_eq_true, decide_eq_true_eq, not_or] at hindex
  simp only [InputPlan.Checked]
  omega

theorem planChannels_eq_ok {seen : List Channel} {configs : List ChannelConfig}
    {plans : List ChannelPlan} (h : planChannels seen configs = .ok plans) :
    (∀ plan ∈ plans, plan.Checked) ∧
      ((∀ plan ∈ plans, plan.Finite) ↔ ∀ config ∈ configs, config.Finite) := by
  induction configs generalizing seen plans with
  | nil =>
    cases h
    simp
  | cons config configs ih =>
    simp only [planChannels, bind_eq_ok_iff] at h
    obtain ⟨plan, hplan, rest, hrest, h⟩ := h
    cases h
    obtain ⟨checked, finite⟩ := config.plan_eq_ok hplan
    obtain ⟨restChecked, restFinite⟩ := ih hrest
    simp only [List.forall_mem_cons]
    exact ⟨⟨checked, restChecked⟩, and_congr finite restFinite⟩

theorem planInputs_eq_ok {seen : List Nat} {configs : List InputConfig} {plans : List InputPlan}
    (h : planInputs seen configs = .ok plans) : ∀ plan ∈ plans, plan.Checked := by
  induction configs generalizing seen plans with
  | nil =>
    cases h
    simp
  | cons config configs ih =>
    simp only [planInputs, bind_eq_ok_iff] at h
    obtain ⟨plan, hplan, rest, hrest, h⟩ := h
    cases h
    exact List.forall_mem_cons.2 ⟨config.plan_eq_ok hplan, ih hrest⟩

theorem Config.plan_eq_ok {config : Config} {plan : Plan} (h : config.plan = .ok plan) :
    (∀ channel ∈ plan.channels, channel.Checked) ∧ (∀ input ∈ plan.inputs, input.Checked) ∧
      ((∀ channel ∈ plan.channels, channel.Finite) ↔ config.Finite) := by
  simp only [Config.plan, bind_eq_ok_iff] at h
  obtain ⟨rate, -, range, -, channels, hchannels, inputs, hinputs, h⟩ := h
  cases h
  obtain ⟨checked, finite⟩ := planChannels_eq_ok hchannels
  exact ⟨checked, planInputs_eq_ok hinputs, finite⟩

end Boot

/-! ## Steps of the setup -/

namespace Session

open Engine (Reachable)

/-- A step of the setup that comes to a state with `I` where `fine` holds; where it does not, a
number that is not finite is refused. -/
structure Settles {α : Type} (fine : Prop) (I : α → Prop) (r : Except SessionError α) : Prop where
  ok : fine → ∃ a, r = .ok a ∧ I a
  error : ¬ fine → r = .error (.command (.setup .nonFinite))

section Settles

variable {α β : Type} {fine fine' : Prop} {I : α → Prop} {J : β → Prop}

theorem Settles.done {a : α} (h : I a) : Settles True I (.ok a) :=
  ⟨fun _ => ⟨a, rfl, h⟩, fun h => absurd trivial h⟩

theorem Settles.congr {r : Except SessionError α} (h : Settles fine I r) (hfine : fine ↔ fine') :
    Settles fine' I r :=
  ⟨fun h' => h.ok (hfine.2 h'), fun h' => h.error fun hn => h' (hfine.1 hn)⟩

theorem Settles.bind {r : Except SessionError α} {f : α → Except SessionError β}
    (h : Settles fine I r) (hf : ∀ a, I a → Settles fine' J (f a)) :
    Settles (fine ∧ fine') J (r >>= f) := by
  constructor
  · rintro ⟨hfine, hfine'⟩
    obtain ⟨a, rfl, ha⟩ := h.ok hfine
    exact (hf a ha).ok hfine'
  · intro hnot
    by_cases hfine : fine
    · obtain ⟨a, rfl, ha⟩ := h.ok hfine
      exact (hf a ha).error fun hfine' => hnot ⟨hfine, hfine'⟩
    · rw [h.error hfine]
      rfl

theorem Settles.foldlM {fine : β → Prop} {f : α → β → Except SessionError α} {xs : List β} {a : α}
    (ha : I a) (hf : ∀ a, I a → ∀ x ∈ xs, Settles (fine x) I (f a x)) :
    Settles (∀ x ∈ xs, fine x) I (xs.foldlM f a) := by
  induction xs generalizing a with
  | nil => exact (Settles.done ha).congr (by simp)
  | cons x xs ih =>
    obtain ⟨hx, hxs⟩ := forall₂_and.1 fun a ha => List.forall_mem_cons.1 (hf a ha)
    exact ((hx a ha).bind fun a ha => ih ha hxs).congr List.forall_mem_cons.symm

end Settles

variable {e : Engine} {c : Channel}

theorem settle_ok {r : Except CommandError Unit × Engine} (h : r.1 = .ok ()) :
    settle r = .ok r.2 := by
  obtain ⟨result, e⟩ := r
  cases h
  rfl

theorem settle_error {r : Except CommandError Unit × Engine} {error : CommandError}
    (h : r.1 = .error error) : settle r = .error (.command error) := by
  obtain ⟨result, e⟩ := r
  cases h
  rfl

theorem settles_setSlew (h : Reachable e) {seconds : Float32}
    (hseconds : seconds.isFinite = true ∧ ¬ seconds < 0) (curve : Curve) :
    Settles True Reachable (settle (e.setSlew c seconds curve)) := by
  have hresult : (e.setSlew c seconds curve).1 = .ok () := by simp [Engine.setSlew, hseconds]
  rw [settle_ok hresult]
  exact .done (h.perform .free (.setSlew c seconds curve))

theorem settles_setQuantizer (h : Reachable e) (quantizer : Quantizer) :
    Settles True Reachable (settle (e.setQuantizer .free c quantizer)) := by
  have hresult : (e.setQuantizer .free c quantizer).1 = .ok () := by
    obtain ⟨e₁, hacquire, -⟩ := Engine.acquire?_of_grants (Engine.grants_free e c)
    simp [Engine.setQuantizer, hacquire]
  rw [settle_ok hresult]
  exact .done (h.perform .free (.setQuantizer c quantizer))

theorem settles_setVolts (h : Reachable e) (volts : Float32) :
    Settles (volts.isFinite = true) Reachable (settle (e.setVolts .free c volts)) := by
  have hsingle : Program.single volts (e.voice c).slew (e.voice c).slewCurve = _ :=
    Program.single_eq (h.sound c).slew
  constructor
  · intro hvolts
    rw [if_pos hvolts] at hsingle
    have hresult : (e.setVolts .free c volts).1 = .ok () := by
      simp only [Engine.setVolts, hsingle]
      exact Engine.trigger_restart_ok (h.install hsingle) (Engine.grants_free _ c)
        (by simp [Engine.install])
    exact ⟨_, settle_ok hresult, h.perform .free (.setVolts c volts)⟩
  · intro hvolts
    rw [if_neg hvolts] at hsingle
    exact settle_error (by simp [Engine.setVolts, hsingle])

/-- The engine is reachable and the channel has a program with these names of cells. -/
def Loaded (c : Channel) (names : List String) (e : Engine) : Prop :=
  Reachable e ∧ ∃ p, (e.voice c).player = some p ∧ p.cells.names = names

theorem settles_setCell {program : Program} {name : String} {x : Float32}
    (h : Loaded c program.cells.names e) (declared : (program.cells.find? name).isSome = true) :
    Settles (x.isFinite = true) (Loaded c program.cells.names) (settle (e.setCell c name x)) := by
  obtain ⟨hreachable, p, hplayer, hnames⟩ := h
  obtain ⟨i, hi⟩ := Option.isSome_iff_exists.1 declared
  constructor
  · intro hx
    have hset : e.setCell c name x =
        (.ok (), e.setVoice c { e.voice c with player := some { p with cells := p.cells.set i x } }) := by
      simp [Engine.setCell, hx, hplayer, Cells.setNamed?, Cells.find?_eq_of_names hnames, hi]
    refine ⟨_, settle_ok (by rw [hset]), hreachable.perform .free (.setCell c name x), ?_⟩
    rw [hset]
    exact ⟨_, by rw [Engine.voice_setVoice_self], by simp [hnames]⟩
  · intro hx
    exact settle_error (by simp [Engine.setCell, hx])

theorem settles_loadProgram (h : Reachable e) {plan : Boot.ChannelPlan} (checked : plan.Checked)
    {program : Program} (hprogram : plan.program = some program) :
    Settles (∀ cell ∈ plan.cells, cell.2.isFinite = true) Reachable (loadProgram e plan program) := by
  obtain ⟨score, hcompile⟩ := checked.compiled program hprogram
  have loaded : Loaded plan.channel program.cells.names (e.install plan.channel program) :=
    ⟨h.install hcompile, .load program, by simp [Engine.install], rfl⟩
  have cells : Settles (∀ cell ∈ plan.cells, cell.2.isFinite = true)
      (Loaded plan.channel program.cells.names)
      (plan.cells.foldlM (fun e cell => settle (e.setCell plan.channel cell.1 cell.2))
        (e.install plan.channel program)) :=
    .foldlM loaded fun e he cell hcell =>
      settles_setCell he (checked.declared program hprogram cell hcell)
  have start : ∀ e, Loaded plan.channel program.cells.names e →
      Settles True Reachable
        (if plan.start then settle (e.trigger .free plan.channel .restart) else .ok e) := by
    rintro e ⟨he, p, hplayer, -⟩
    split
    · rw [settle_ok (Engine.trigger_restart_ok he (Engine.grants_free e _) (by simp [hplayer]))]
      exact .done (he.perform .free (.trigger plan.channel .restart))
    · exact .done he
  exact (cells.bind start).congr (and_iff_left trivial)

theorem setupChannel_eq (e : Engine) (plan : Boot.ChannelPlan) :
    setupChannel e plan =
      settle (e.setSlew plan.channel plan.slew plan.curve) >>= fun e =>
        (plan.quantizer.elim (.ok e) fun q => settle (e.setQuantizer .free plan.channel q)) >>= fun e =>
          (plan.volts.elim (.ok e) fun volts => settle (e.setVolts .free plan.channel volts)) >>= fun e =>
            plan.program.elim (.ok e) (loadProgram e plan) := by
  unfold setupChannel
  congr 1
  funext e
  cases plan.quantizer <;> cases plan.volts <;> cases plan.program <;> rfl

/-- Setting an output up comes down to setting its voltage and its cells. -/
theorem settles_setupChannel (h : Reachable e) {plan : Boot.ChannelPlan} (checked : plan.Checked) :
    Settles plan.Finite Reachable (setupChannel e plan) := by
  have quantizer : ∀ e, Reachable e → Settles True Reachable
      (plan.quantizer.elim (.ok e) fun q => settle (e.setQuantizer .free plan.channel q)) := by
    intro e he
    cases plan.quantizer with
    | none => exact .done he
    | some q => exact settles_setQuantizer he q
  have volts : ∀ e, Reachable e → Settles (∀ x, plan.volts = some x → x.isFinite = true) Reachable
      (plan.volts.elim (.ok e) fun volts => settle (e.setVolts .free plan.channel volts)) := by
    intro e he
    cases plan.volts with
    | none => exact (Settles.done he).congr (by simp)
    | some volts => exact (settles_setVolts he volts).congr (by simp)
  have program : ∀ e, Reachable e → Settles (∀ cell ∈ plan.cells, cell.2.isFinite = true) Reachable
      (plan.program.elim (.ok e) (loadProgram e plan)) := by
    intro e he
    cases hprogram : plan.program with
    | none => exact (Settles.done he).congr (by simp [checked.unset hprogram])
    | some program => exact settles_loadProgram he checked hprogram
  rw [setupChannel_eq]
  refine ((settles_setSlew h checked.slew plan.curve).bind fun e he =>
    (quantizer e he).bind fun e he => (volts e he).bind program).congr ?_
  constructor
  · rintro ⟨-, -, hvolts, hcells⟩
    exact ⟨hvolts, hcells⟩
  · rintro ⟨hvolts, hcells⟩
    exact ⟨trivial, trivial, hvolts, hcells⟩

theorem settles_setupInput {s : Session} (h : s.realtime = .here) {plan : Boot.InputPlan}
    (checked : plan.Checked) :
    Settles True (fun s => s.realtime = .here) (setupInput s plan) := by
  have hresult : (s.engine.setHandler plan.input (some plan.handler)).1 = .ok () := by
    unfold Engine.setHandler
    rw [dif_pos (show plan.input < 2 from checked)]
  have handler : Settles True (fun _ => True)
      (settle (s.engine.setHandler plan.input (some plan.handler))) := by
    rw [settle_ok hresult]
    exact .done trivial
  refine (handler.bind fun e _ => ?_).congr (and_iff_left trivial)
  cases plan.clock with
  | none => exact .done h
  | some period =>
    simp only [addClock, addSource, h, if_true]
    exact .done rfl

theorem settles_ofPlan (f : Transcendental) {plan : Boot.Plan}
    (channels : ∀ channel ∈ plan.channels, channel.Checked)
    (inputs : ∀ input ∈ plan.inputs, input.Checked) :
    Settles (∀ channel ∈ plan.channels, channel.Finite) (fun s => s.realtime = .here)
      (ofPlan plan f) := by
  have start : Reachable (fresh plan.rate plan.range noticeCapacity f).engine :=
    ⟨plan.rate, plan.range, _, f, [], rfl⟩
  have outputs := Settles.foldlM start fun e he channel hchannel =>
    settles_setupChannel he (channels channel hchannel)
  refine (outputs.bind fun e _ => ?_).congr
    (and_iff_left (b := ∀ input ∈ plan.inputs, True) fun _ _ => trivial)
  exact .foldlM rfl fun s hs input hinput => settles_setupInput hs (inputs input hinput)

/-- A configuration that passes the check can be set up exactly if its voltages and the values of its
cells are finite; otherwise the setup ends with the fault of the first that is not. -/
theorem ofConfig_of_plan (f : Transcendental) {config : Boot.Config} {plan : Boot.Plan}
    (h : config.plan = .ok plan) :
    (config.Finite → ∃ s, Session.ofConfig config f = .ok s ∧ s.realtime = .here) ∧
      (¬ config.Finite → Session.ofConfig config f = .error (.command (.setup .nonFinite))) := by
  obtain ⟨channels, inputs, finite⟩ := Boot.Config.plan_eq_ok h
  have hofConfig : Session.ofConfig config f = ofPlan plan f := by
    rw [Session.ofConfig, h]
    rfl
  have settles := (settles_ofPlan f channels inputs).congr finite
  rw [hofConfig]
  exact ⟨settles.ok, settles.error⟩

/-- A quantized output that first moves to a voltage and then starts a score with one cell set, and a
clock that restarts it. -/
theorem ofConfig_of_plan_clocked :
    let channel : Boot.ChannelConfig :=
      { index := 1, slew := 0.5, curve := "sine", scale := some (.named "Chromatic"),
        score := some [.ramp (.var "x" (some 1)) (.lit 2) "exp"], cells := [("x", 3)],
        volts := some (-1), start := true }
    let input : Boot.InputConfig := ⟨2, some 0.25, .rising, [⟨1, 1⟩]⟩
    let config : Boot.Config := ⟨1000, -5, 5, [channel], [input]⟩
    (∃ plan, config.plan = .ok plan) ∧ config.Finite ∧
      ∃ s, Session.ofConfig config = .ok s ∧ s.realtime = .here := by
  intro channel input config
  have passes : config.plan.toBool = true := by decide +kernel
  have finite : config.Finite := by
    refine List.forall_mem_singleton.2 ⟨?_, List.forall_mem_singleton.2 (by decide +kernel)⟩
    rintro x ⟨⟩
    decide +kernel
  cases hplan : config.plan with
  | error fault => simp [hplan, Except.toBool] at passes
  | ok plan => exact ⟨⟨plan, rfl⟩, finite, (ofConfig_of_plan .standard hplan).1 finite⟩

/-- An infinite value for a cell passes the check and is refused by the setup. -/
theorem ofConfig_infinite_cell :
    let channel : Boot.ChannelConfig :=
      { index := 1, slew := 0, curve := "linear", scale := none,
        score := some [.ramp (.var "x" (some 1)) (.lit 0) "linear"], cells := [("x", 1 / 0)],
        volts := none, start := false }
    let config : Boot.Config := { Boot.Config.standard with channels := [channel] }
    config.plan.toBool = true ∧ (Session.ofConfig config).toBool = false := by
  decide +kernel

end Session

end ControlVoltage
