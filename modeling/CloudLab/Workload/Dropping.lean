import CloudLab.Workload.Ownership

/-!
# The death of pointers

A list of pointers that die one after another, in a graph that is valid and in one that is being
destroyed. Either way it ends, and only nodes of that graph are touched.
-/
namespace CloudLab.Workload

open Library

/-! ## What a step leaves alone -/

/-- The graphs of a kind, and their nodes, are what they were. -/
structure Kept (kind : Nat → Prop) (w w' : World) : Prop where
  graphs : ∀ g, kind g → w'.graphs g = w.graphs g
  cells : ∀ a cell, w.heap.cells a = some cell → kind cell.value.graph →
    w'.heap.cells a = some cell

namespace Kept

variable {kind kind' : Nat → Prop} {w w' w'' : World}

theorem refl : Kept kind w w := ⟨fun _ _ => rfl, fun _ _ there _ => there⟩

theorem trans (first : Kept kind w w') (second : Kept kind w' w'') : Kept kind w w'' where
  graphs g known := (second.graphs g known).trans (first.graphs g known)
  cells a cell there known := second.cells a cell (first.cells a cell there known) known

theorem mono (kept : Kept kind w w') (within : ∀ g, kind' g → kind g) : Kept kind' w w' where
  graphs g known := kept.graphs g (within g known)
  cells a cell there known := kept.cells a cell there (within _ known)

theorem setGraph {g : Nat} (graph : TxnGraph) : Kept (· ≠ g) w (w.setGraph g graph) where
  graphs _ other := Function.update_of_ne other _ _
  cells _ _ there _ := there

end Kept

/-! ## In a valid graph -/

section Drop

variable {T : Trace} {w : World} {g : Nat} {loc : UInt64 → Nat} {waiting dropped : List UInt64}
  {owed : List Nat}

theorem Owned.kept_release {loose : List Node} {a : Nat} {heap : Heap GraphNode}
    {last : Option GraphNode} (own : Owned T w.heap g loc waiting loose dropped (a :: owed))
    (released : w.heap.release a = some (heap, last)) : Kept (· ≠ g) w { w with heap := heap } := by
  refine ⟨fun _ _ => rfl, fun b cell there other => ?_⟩
  obtain ⟨u, member, rfl⟩ := own.owed a List.mem_cons_self
  obtain ⟨node, own, _⟩ := own.cells u member
  have different : b ≠ loc u := by
    intro same
    rw [same, own] at there
    cases there
    exact other rfl
  exact (Heap.release_cells released different).trans there

/-- While its graph is valid, a node that loses its last owner comes into the queue. -/
theorem Owned.dropAll (own : Owned T w.heap g loc waiting (w.graphs g).readyNodes dropped owed)
    (valid : (w.graphs g).valid = true) :
    ∃ w' waiting', (∀ fuel, owed.length ≤ fuel → w.dropAll fuel owed = some w') ∧
      Owned T w'.heap g loc waiting' (w'.graphs g).readyNodes dropped [] ∧
      (∃ readyNodes, w'.graphs g = { w.graphs g with readyNodes := readyNodes }) ∧
      w'.graphCount = w.graphCount ∧ Kept (· ≠ g) w w' := by
  induction owed generalizing w waiting with
  | nil =>
    refine ⟨w, waiting, fun fuel _ => ?_, own, ⟨_, rfl⟩, rfl, .refl⟩
    cases fuel <;> simp [World.dropAll]
  | cons a owed ih =>
    rcases own.release with ⟨heap, released, less⟩ | ⟨heap, node, waiting₁, released, _, less⟩
    · obtain ⟨w', waiting', runs, own', graph, count, kept⟩ := ih (w := { w with heap := heap }) less valid
      refine ⟨w', waiting', fun fuel enough => ?_, own', graph, count, (own.kept_release released).trans kept⟩
      obtain ⟨fuel, rfl⟩ := Nat.exists_eq_add_one_of_ne_zero (Nat.ne_of_gt (Nat.lt_of_lt_of_le
        (Nat.succ_pos _) enough))
      rw [World.dropAll, released, Option.bind_some]
      exact runs fuel (by simpa using enough)
    · let moved := World.addToReady { w with heap := heap } g node
      have there : (moved.graphs g).readyNodes = (w.graphs g).readyNodes ++ [node] := by
        simp [moved, World.addToReady, World.setReady, World.setGraph]
      have still : (moved.graphs g).valid = true := by
        simpa [moved, World.addToReady, World.setReady, World.setGraph] using valid
      have next : Owned T moved.heap g loc waiting₁ (moved.graphs g).readyNodes dropped owed := by
        rw [there]
        exact less.perm_loose (List.perm_append_singleton _ _).symm
      obtain ⟨w', waiting', runs, own', ⟨readyNodes, graph⟩, count, kept⟩ := ih next still
      refine ⟨w', waiting', fun fuel enough => ?_, own', ⟨readyNodes, ?_⟩, count,
        ((own.kept_release released).trans (Kept.setGraph _)).trans kept⟩
      · obtain ⟨fuel, rfl⟩ := Nat.exists_eq_add_one_of_ne_zero (Nat.ne_of_gt (Nat.lt_of_lt_of_le
          (Nat.succ_pos _) enough))
        rw [World.dropAll, released, Option.bind_some]
        simp only [valid, if_true]
        exact runs fuel (by simpa using enough)
      · simpa [moved, World.addToReady, World.setReady, World.setGraph] using graph

/-! ## In a graph that is destroyed -/

theorem Owned.letGoAll {heap : Heap GraphNode} {loose : List Node}
    (own : Owned T heap g loc waiting loose dropped owed) :
    ∃ dropped', Owned T heap g loc waiting [] dropped' (loose.flatMap Node.next ++ owed) := by
  induction loose generalizing dropped owed with
  | nil => exact ⟨dropped, own⟩
  | cons node loose ih =>
    obtain ⟨dropped', own'⟩ := ih own.letGo
    refine ⟨dropped', own'.perm_owed ?_⟩
    rw [List.flatMap_cons, List.append_assoc]
    exact List.perm_append_comm_assoc _ _ _

/-- Then the nodes die with their last owners, and what they point to may die with them. -/
theorem Owned.dropAll_invalid (n : Nat) (bound : waiting.length ≤ n)
    (own : Owned T w.heap g loc waiting [] dropped owed) (invalid : (w.graphs g).valid = false) :
    ∃ w' enough, (∀ fuel, enough ≤ fuel → w.dropAll fuel owed = some w') ∧
      w'.graphCount = w.graphCount ∧ Kept (· ≠ g) w w' := by
  -- Fewer nodes, or fewer pointers.
  induction n generalizing w waiting dropped owed with
  | zero =>
    obtain rfl := List.length_eq_zero_iff.mp (Nat.le_zero.mp bound)
    have none : owed = [] := by
      rw [List.eq_nil_iff_forall_not_mem]
      intro a member
      obtain ⟨u, waits, _⟩ := own.owed a member
      cases waits
    subst none
    exact ⟨w, 0, fun fuel _ => by cases fuel <;> simp [World.dropAll], rfl, .refl⟩
  | succ n fewer =>
    induction owed generalizing w with
    | nil => exact ⟨w, 0, fun fuel _ => by cases fuel <;> simp [World.dropAll], rfl, .refl⟩
    | cons a owed ih =>
      rcases own.release with ⟨heap, released, less⟩ | ⟨heap, node, waiting', released, shorter, less⟩
      · obtain ⟨w', enough, runs, count, kept⟩ := ih (w := { w with heap := heap }) less invalid
        refine ⟨w', enough + 1, fun fuel more => ?_, count, (own.kept_release released).trans kept⟩
        obtain ⟨fuel, rfl⟩ := Nat.exists_eq_add_one_of_ne_zero (n := fuel) (by omega)
        rw [World.dropAll, released, Option.bind_some]
        exact runs fuel (by omega)
      · obtain ⟨w', enough, runs, count, kept⟩ := fewer (w := { w with heap := heap }) (by omega)
          less.letGo invalid
        refine ⟨w', enough + 1, fun fuel more => ?_, count, (own.kept_release released).trans kept⟩
        obtain ⟨fuel, rfl⟩ := Nat.exists_eq_add_one_of_ne_zero (n := fuel) (by omega)
        rw [World.dropAll, released, Option.bind_some]
        simp only [invalid, Bool.false_eq_true, if_false]
        exact runs fuel (by omega)

theorem Owned.destroyGraph (own : Owned T w.heap g loc waiting (w.graphs g).readyNodes dropped []) :
    ∃ w' enough, (∀ fuel, enough ≤ fuel → w.destroyGraph fuel g = some w') ∧
      w'.graphCount = w.graphCount ∧ Kept (· ≠ g) w w' := by
  obtain ⟨dropped', own'⟩ := own.letGoAll
  rw [List.append_nil] at own'
  let destroyed := w.setGraph g { w.graphs g with valid := false, readyNodes := [] }
  have invalid : (destroyed.graphs g).valid = false := by simp [destroyed, World.setGraph]
  obtain ⟨w', enough, runs, count, kept⟩ :=
    Owned.dropAll_invalid (w := destroyed) waiting.length le_rfl own' invalid
  exact ⟨w', enough, runs, count, (Kept.setGraph _).trans kept⟩

end Drop

end CloudLab.Workload
