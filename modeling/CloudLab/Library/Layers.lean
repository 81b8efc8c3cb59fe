import CloudLab.Library.Dependencies

/-!
# Layers

Dependencies in layers: each item depends on all of the layer before its own. `length_orders`: the
orders are as many as there are ways to put each layer in order.
-/
namespace Library.Dependencies

open Nat

variable {I : Type} (D : Dependencies I)

/-- Each layer depends on exactly the layer before it, the first one on `deps`. -/
def Layered : List I → List (List I) → Prop
  | _, [] => True
  | deps, layer :: rest =>
    layer ≠ [] ∧ (∀ i ∈ layer, ∀ d, d ∈ D.deps i ↔ d ∈ deps) ∧ Layered layer rest

variable {D} {deps done layer : List I} {layers : List (List I)} {i : I}

/-- All of the layer that an item depends on. -/
theorem Layered.exists_layer (layered : D.Layered deps layers) (member : i ∈ layers.flatten) :
    (∀ d ∈ deps, d ∈ D.deps i) ∨ ∃ layer ∈ layers, layer ≠ [] ∧ ∀ d ∈ layer, d ∈ D.deps i := by
  induction layers generalizing deps with
  | nil => cases member
  | cons layer rest ih =>
    obtain ⟨some, same, layered⟩ := layered
    rw [List.flatten_cons, List.mem_append] at member
    rcases member with member | member
    · exact .inl fun d inside => (same i member d).mpr inside
    · rcases ih layered member with all | ⟨other, inside, rest⟩
      · exact .inr ⟨layer, List.mem_cons_self, some, all⟩
      · exact .inr ⟨other, List.mem_cons_of_mem _ inside, rest⟩

variable [DecidableEq I]

/-- A layer of which nothing else is ready before it is done. -/
theorem length_orders_layer {n count : Nat} (nodup : layer.Nodup)
    (only : ∀ now, (∃ i ∈ layer, i ∉ now) → (∀ j ∈ done, j ∈ now) → (∀ j ∈ now, j ∈ done ∨ j ∈ layer) →
      ∀ i, i ∈ D.ready now ↔ i ∈ layer ∧ i ∉ now)
    (behind : ∀ now, (∀ j, j ∈ now ↔ j ∈ done ∨ j ∈ layer) → (D.orders n now).length = count)
    {k : Nat} {now : List I} (more : ∀ j ∈ done, j ∈ now) (within : ∀ j ∈ now, j ∈ done ∨ j ∈ layer)
    (left : (layer.filter fun i => i ∉ now).length = k) :
    (D.orders (k + n) now).length = k ! * count := by
  induction k generalizing now with
  | zero =>
    have all : ∀ i ∈ layer, i ∈ now := by
      intro i member
      simpa using List.filter_eq_nil_iff.mp (List.length_eq_zero_iff.mp left) i member
    rw [Nat.zero_add, factorial_zero, Nat.one_mul]
    exact behind now fun j => ⟨within j, fun inside => inside.elim (more j) (all j)⟩
  | succ k ih =>
    have some : ∃ i ∈ layer, i ∉ now := by
      obtain ⟨i, member⟩ := List.exists_mem_of_length_pos (by omega : 0 < (layer.filter fun i => i ∉ now).length)
      exact ⟨i, by simpa using member⟩
    have perm : (D.ready now).Perm (layer.filter fun i => i ∉ now) := by
      refine (List.perm_ext_iff_of_nodup nodup_ready (nodup.filter _)).mpr fun i => ?_
      simpa using only now some more within i
    have each : ∀ i ∈ D.ready now, (D.orders (k + n) (i :: now)).length = k ! * count := by
      intro i member
      have inside := perm.mem_iff.mp member
      refine ih (fun j gone => List.mem_cons_of_mem _ (more j gone)) (fun j gone => ?_) ?_
      · rcases List.mem_cons.mp gone with same | gone
        · exact .inr (same ▸ List.mem_of_mem_filter inside)
        · exact within j gone
      · obtain ⟨listed, absent⟩ := List.mem_filter.mp inside
        have one := length_left_cons nodup listed (of_decide_eq_true absent)
        omega
    calc (D.orders (k + 1 + n) now).length
        = ((D.ready now).map fun i => (D.orders (k + n) (i :: now)).length).sum := by
          rw [Nat.add_right_comm, orders, List.length_flatMap]
          simp only [List.length_map]
      _ = (D.ready now).length * (k ! * count) := by
          rw [List.map_congr_left each, List.map_const', List.sum_replicate, smul_eq_mul]
      _ = (k + 1)! * count := by
          rw [perm.length_eq, left, factorial_succ, Nat.mul_assoc]

/-- The layers one after another, each in any order. -/
theorem Layered.length_orders (layered : D.Layered deps layers) (nodup : layers.flatten.Nodup)
    (left : ∀ i, i ∈ layers.flatten ↔ i ∈ D.items ∧ i ∉ done) (before : ∀ d ∈ deps, d ∈ done) :
    (D.orders layers.flatten.length done).length = (layers.map fun layer => layer.length !).prod := by
  induction layers generalizing deps done with
  | nil => rfl
  | cons layer rest ih =>
    obtain ⟨_, same, layered⟩ := layered
    rw [List.flatten_cons] at nodup left
    obtain ⟨first, later, apart⟩ := List.nodup_append.mp nodup
    rw [List.flatten_cons, List.length_append, List.map_cons, List.prod_cons]
    refine length_orders_layer first ?_ ?_ (fun j (gone : j ∈ done) => gone) (fun _ => .inl) ?_
    · rintro now ⟨missing, inside, absent⟩ more within i
      rw [mem_ready]
      constructor
      · rintro ⟨listed, out, all⟩
        refine ⟨?_, out⟩
        rcases List.mem_append.mp ((left i).mpr ⟨listed, fun gone => out (more i gone)⟩) with here | there
        · exact here
        -- An item of another layer waits for one of this layer, or for one behind it.
        · rcases layered.exists_layer there with waits | ⟨other, between, some, waits⟩
          · exact absurd (all missing (waits missing inside)) absent
          · obtain ⟨j, member⟩ := List.exists_mem_of_ne_nil other some
            have far : j ∈ rest.flatten := List.mem_flatten.mpr ⟨other, between, member⟩
            rcases within j (all j (waits j member)) with gone | near
            · exact absurd gone ((left j).mp (List.mem_append_right _ far)).2
            · exact absurd rfl (apart j near j far)
      · rintro ⟨member, out⟩
        refine ⟨((left i).mp (List.mem_append_left _ member)).1, out, fun d dep => ?_⟩
        exact more d (before d ((same i member d).mp dep))
    · intro now all
      refine ih layered later (fun i => ?_) fun d member => (all d).mpr (.inr member)
      have whole := left i
      rw [List.mem_append] at whole
      rw [all, not_or, ← and_assoc, ← whole]
      constructor
      · exact fun there => ⟨.inr there, fun here => apart i here i there rfl⟩
      · exact fun ⟨either, out⟩ => either.resolve_left out
    · rw [List.filter_eq_self.mpr]
      intro i member
      simpa using ((left i).mp (List.mem_append_left _ member)).2

/-- How many linear extensions there are. -/
theorem Layered.length_extensions (layered : D.Layered [] layers) (perm : layers.flatten.Perm D.items) :
    D.extensions.length = (layers.map fun layer => layer.length !).prod := by
  rw [← D.orders_perm.length_eq, ← perm.length_eq]
  refine layered.length_orders (perm.nodup_iff.mpr D.distinct) (fun i => ?_) fun d member => by cases member
  simpa using perm.mem_iff

end Library.Dependencies
