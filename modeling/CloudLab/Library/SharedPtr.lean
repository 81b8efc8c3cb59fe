import Mathlib

/-!
# Shared objects

A heap of objects that are owned together, each with the number of its owners, as
`std::shared_ptr` has them. The last owner that lets go of an object destroys it. An address is
used once.
-/
namespace Library

structure Cell (α : Type) where
  value : α
  useCount : Nat
  deriving DecidableEq

structure Heap (α : Type) where
  cells : Nat → Option (Cell α)
  fresh : Nat
  unused : ∀ a, fresh ≤ a → cells a = none

namespace Heap

variable {α : Type}

def empty : Heap α := ⟨fun _ => none, 0, fun _ _ => rfl⟩

/-- Changes or removes an object that is there. -/
def alter (h : Heap α) (a : Nat) (f : Cell α → Option (Cell α)) : Heap α where
  cells := Function.update h.cells a ((h.cells a).bind f)
  fresh := h.fresh
  unused b beyond := by
    by_cases here : b = a
    · subst here
      rw [Function.update_self, h.unused b beyond, Option.bind_none]
    · rw [Function.update_of_ne here, h.unused b beyond]

/-- `make_shared` -/
def makeShared (h : Heap α) (value : α) : Heap α × Nat :=
  (⟨Function.update h.cells h.fresh (some ⟨value, 1⟩), h.fresh + 1, fun b beyond => by
    rw [Function.update_of_ne (by omega), h.unused b (by omega)]⟩, h.fresh)

def setValue (h : Heap α) (a : Nat) (value : α) : Heap α :=
  h.alter a fun cell => some ⟨value, cell.useCount⟩

/-- One owner more; none where the pointer dangles. -/
def retain (h : Heap α) (a : Nat) : Option (Heap α) :=
  (h.cells a).map fun _ => h.alter a fun cell => some ⟨cell.value, cell.useCount + 1⟩

/-- One owner less, and the object if that was the last one. -/
def release (h : Heap α) (a : Nat) : Option (Heap α × Option α) :=
  (h.cells a).map fun cell =>
    if cell.useCount = 1 then (h.alter a fun _ => none, some cell.value)
    else (h.alter a fun cell => some ⟨cell.value, cell.useCount - 1⟩, none)

variable {h : Heap α} {a b : Nat} {cell : Cell α}

theorem lt_fresh (there : h.cells a = some cell) : a < h.fresh := by
  by_contra beyond
  rw [h.unused a (by omega)] at there
  cases there

theorem cells_alter (f : Cell α → Option (Cell α)) :
    (h.alter a f).cells b = if b = a then (h.cells a).bind f else h.cells b :=
  Function.update_apply h.cells a _ b

theorem cells_alter_of_ne (f : Cell α → Option (Cell α)) (other : b ≠ a) :
    (h.alter a f).cells b = h.cells b := by
  rw [cells_alter, if_neg other]

theorem cells_makeShared (value : α) :
    (h.makeShared value).1.cells b = if b = h.fresh then some ⟨value, 1⟩ else h.cells b :=
  Function.update_apply h.cells h.fresh _ b

theorem release_shared {n : Nat} {value : α} (there : h.cells a = some ⟨value, n + 2⟩) :
    h.release a = some (h.alter a fun cell => some ⟨cell.value, cell.useCount - 1⟩, none) := by
  simp [release, there]

theorem release_last {value : α} (there : h.cells a = some ⟨value, 1⟩) :
    h.release a = some (h.alter a fun _ => none, some value) := by
  simp [release, there]

/-- The other objects are left alone. -/
theorem release_cells {h' : Heap α} {last : Option α} (released : h.release a = some (h', last))
    (other : b ≠ a) : h'.cells b = h.cells b := by
  obtain ⟨cell, _, same⟩ := Option.map_eq_some_iff.mp released
  split at same <;> cases same <;> exact cells_alter_of_ne _ other

/-- An object is what it was, and so is one that is handed out. -/
theorem release_value {h' : Heap α} {last : Option α} (released : h.release a = some (h', last)) :
    (∀ b cell, h'.cells b = some cell → ∃ n, h.cells b = some ⟨cell.value, n⟩) ∧
      ∀ value, last = some value → h.cells a = some ⟨value, 1⟩ := by
  obtain ⟨⟨value, n⟩, there, same⟩ := Option.map_eq_some_iff.mp released
  split at same
  next one =>
    obtain ⟨rfl, rfl⟩ := Prod.mk.inj same
    refine ⟨fun b cell inside => ?_, fun other equal => ?_⟩
    · rw [cells_alter] at inside
      split at inside
      · rw [there] at inside
        cases inside
      · exact ⟨_, inside⟩
    · obtain rfl := Option.some.inj equal
      obtain rfl : n = 1 := one
      exact there
  next more =>
    obtain ⟨rfl, rfl⟩ := Prod.mk.inj same
    refine ⟨fun b cell inside => ?_, fun other none => by cases none⟩
    rw [cells_alter] at inside
    split at inside
    next own =>
      rw [there] at inside
      obtain rfl := Option.some.inj inside
      exact ⟨n, own ▸ there⟩
    next => exact ⟨_, inside⟩

end Heap

end Library
