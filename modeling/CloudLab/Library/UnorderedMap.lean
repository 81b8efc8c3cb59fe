import CloudLab.Library.Maps

/-!
# Unordered maps

`UnorderedMap` is `std::unordered_map`: entries whose keys are distinct. A loop over it visits
them in some order, and an `Iteration` says in which.
-/
namespace Library

/-- An order in which a loop visits the elements of a container. -/
structure Iteration (α : Type) where
  order : List α → List α
  perm : ∀ elements, (order elements).Perm elements

namespace Iteration

variable {α : Type} (iteration : Iteration α)

@[simp] theorem mem_order {elements : List α} {a : α} :
    a ∈ iteration.order elements ↔ a ∈ elements :=
  (iteration.perm elements).mem_iff

/-- The elements as they are listed. -/
def asListed : Iteration α := ⟨id, fun _ => .refl _⟩

end Iteration

structure UnorderedMap (K V : Type) where
  entries : List (K × V)
  distinct : (entries.map Prod.fst).Nodup

namespace UnorderedMap

variable {K V : Type}

instance : EmptyCollection (UnorderedMap K V) := ⟨⟨[], List.nodup_nil⟩⟩

instance [DecidableEq K] [DecidableEq V] : DecidableEq (UnorderedMap K V) := fun m n =>
  decidable_of_iff (m.entries = n.entries) (by cases m; cases n; simp)

variable [DecidableEq K]

/-- `find(k)->second`; `none` is `end()`. -/
def find? (m : UnorderedMap K V) (k : K) : Option V :=
  (m.entries.find? fun e => e.1 = k).map Prod.snd

def erase (m : UnorderedMap K V) (k : K) : UnorderedMap K V :=
  ⟨m.entries.filter fun e => e.1 ≠ k, m.distinct.sublist (List.filter_sublist.map Prod.fst)⟩

def insertOrAssign (m : UnorderedMap K V) (k : K) (v : V) : UnorderedMap K V where
  entries := (k, v) :: (m.erase k).entries
  distinct := by
    rw [List.map_cons, List.nodup_cons]
    refine ⟨?_, (m.erase k).distinct⟩
    simp [erase]

theorem mem_entries_iff (m : UnorderedMap K V) (k : K) (v : V) :
    (k, v) ∈ m.entries ↔ m.find? k = some v := by
  rcases m with ⟨entries, distinct⟩
  simp only [find?]
  induction entries with
  | nil => simp
  | cons e rest ih =>
    obtain ⟨fresh, distinct⟩ := List.nodup_cons.mp distinct
    rw [List.mem_cons, ih distinct, List.find?_cons]
    by_cases here : e.1 = k
    · have absent : (rest.find? fun f => f.1 = k) = none := by
        rw [List.find?_eq_none]
        intro f member same
        rw [decide_eq_true_iff] at same
        exact fresh (List.mem_map.mpr ⟨f, member, same.trans here.symm⟩)
      rw [absent, decide_eq_true here]
      obtain ⟨j, w⟩ := e
      obtain rfl : j = k := here
      simp [eq_comm]
    · have other : (k, v) ≠ e := fun same => here (same ▸ rfl)
      simp [here, other]

@[simp] theorem find?_empty (k : K) : (∅ : UnorderedMap K V).find? k = none := rfl

@[simp] theorem find?_erase (m : UnorderedMap K V) (k j : K) :
    (m.erase k).find? j = if j = k then none else m.find? j := by
  ext v
  rw [← mem_entries_iff, erase, List.mem_filter, mem_entries_iff, decide_eq_true_iff]
  split
  next same => simp [same]
  next other => simp [other]

@[simp] theorem find?_insertOrAssign (m : UnorderedMap K V) (k j : K) (v : V) :
    (m.insertOrAssign k v).find? j = if j = k then some v else m.find? j := by
  by_cases same : j = k
  · simp [find?, insertOrAssign, same]
  · have rest : (m.insertOrAssign k v).find? j = (m.erase k).find? j := by
      simp [find?, insertOrAssign, Ne.symm same]
    rw [rest, find?_erase, if_neg same, if_neg same]

theorem entries_erase_of_none {m : UnorderedMap K V} {k : K} (absent : m.find? k = none) :
    (m.erase k).entries = m.entries := by
  refine List.filter_eq_self.mpr fun e member => decide_eq_true fun same => ?_
  have found := (m.mem_entries_iff e.1 e.2).mp member
  rw [same, absent] at found
  cases found

/-- The entry of a key is there once. -/
theorem entries_perm_erase {m : UnorderedMap K V} {k : K} {v : V} (found : m.find? k = some v) :
    m.entries.Perm ((k, v) :: (m.erase k).entries) := by
  refine (List.perm_ext_iff_of_nodup m.distinct.of_map ?_).mpr fun ⟨j, w⟩ => ?_
  · refine List.nodup_cons.mpr ⟨fun member => ?_, (m.erase k).distinct.of_map⟩
    rw [mem_entries_iff, find?_erase, if_pos rfl] at member
    cases member
  · rw [List.mem_cons, mem_entries_iff, mem_entries_iff, find?_erase, Prod.mk.injEq]
    by_cases same : j = k
    · subst same
      simp [found, eq_comm]
    · simp [same]

/-- A store after the entries have been put into it, in any order. -/
theorem foldl_put (m : UnorderedMap K V) (iteration : Iteration (K × V)) (db : Store K V) (k : K) :
    (iteration.order m.entries).foldl (fun db e => db.put e.1 e.2) db k = (m.find? k).or (db k) := by
  have keys : ((iteration.order m.entries).map Prod.fst).Nodup :=
    ((iteration.perm _).map Prod.fst).nodup_iff.mpr m.distinct
  cases found : m.find? k with
  | some v =>
    have member : (k, v) ∈ iteration.order m.entries :=
      iteration.mem_order.mpr ((m.mem_entries_iff k v).mpr found)
    rw [Store.foldl_put_of_mem db _ keys k v member, Option.some_or]
  | none =>
    rw [Option.none_or]
    apply Store.foldl_put_of_not_mem
    intro listed
    obtain ⟨⟨j, v⟩, member, rfl⟩ := List.mem_map.mp listed
    rw [iteration.mem_order, mem_entries_iff, found] at member
    cases member

end UnorderedMap

end Library
