import ControlVoltage.Signal.Channel

/-!
# One value per channel

`PerChannel α` holds a value for each of the four outputs and is known by its `get` alone. A
`Frame`, the voltages of one tick, is the case of numbers.
-/

namespace ControlVoltage

/-- A value for each output. -/
structure PerChannel (α : Type) where
  entries : Vector α 4

namespace PerChannel

variable {α : Type}

def ofFn (f : Channel → α) : PerChannel α := ⟨Vector.ofFn fun i => f ⟨i⟩⟩

def replicate (a : α) : PerChannel α := ⟨Vector.replicate 4 a⟩

def get (p : PerChannel α) (c : Channel) : α := p.entries[c.index.val]

def set (p : PerChannel α) (c : Channel) (a : α) : PerChannel α := ⟨p.entries.set c.index.val a⟩

def modify (p : PerChannel α) (c : Channel) (f : α → α) : PerChannel α :=
  ⟨p.entries.toArray.modify c.index.val f, by simp⟩

def toList (p : PerChannel α) : List α := Channel.all.map p.get

@[simp] theorem get_ofFn (f : Channel → α) (c : Channel) : (ofFn f).get c = f c := by
  simp [ofFn, get]

@[simp] theorem get_replicate (a : α) (c : Channel) : (replicate a).get c = a := by
  simp [replicate, get]

@[simp] theorem get_set_self (p : PerChannel α) (c : Channel) (a : α) : (p.set c a).get c = a := by
  simp [set, get]

theorem get_set_ne (p : PerChannel α) {c d : Channel} (h : c ≠ d) (a : α) :
    (p.set c a).get d = p.get d := by
  have hi : c.index.val ≠ d.index.val := by
    intro e
    exact h (by cases c; cases d; simp_all [Fin.ext_iff])
  simp [set, get, Vector.getElem_set_ne, hi]

theorem modify_eq_set (p : PerChannel α) (c : Channel) (f : α → α) :
    p.modify c f = p.set c (f (p.get c)) := by
  simp only [modify, set, get, mk.injEq]
  ext i hi
  by_cases h : c.index.val = i
  · subst h
    simp [Array.getElem_modify]
  · simp [Array.getElem_modify, h]

theorem ext_get {p q : PerChannel α} (h : ∀ c, p.get c = q.get c) : p = q := by
  obtain ⟨v⟩ := p
  obtain ⟨w⟩ := q
  congr 1
  ext i hi
  exact h ⟨i, hi⟩

end PerChannel

/-- The voltages of all outputs in one tick. -/
abbrev Frame := PerChannel Float32

def Frame.zero : Frame := PerChannel.replicate 0

end ControlVoltage
