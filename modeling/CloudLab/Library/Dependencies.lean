import Mathlib

/-!
# Dependencies

Finitely many items, each of which depends on others, without a cycle. A linear extension is an
order of all the items in which each comes behind those it depends on. `orders_perm`: taking
any item that is ready, again and again, yields each linear extension once.
-/
namespace Library

structure Dependencies (I : Type) where
  items : List I
  deps : I → List I
  distinct : items.Nodup
  closed : ∀ i ∈ items, ∀ d ∈ deps i, d ∈ items
  acyclic : ∀ i, ¬Relation.TransGen (fun d i => i ∈ items ∧ d ∈ deps i) i i

namespace Dependencies

variable {I : Type} (D : Dependencies I)

/-- Behind everything that it depends on. -/
def LinearExtension (order : List I) : Prop :=
  order.Perm D.items ∧ ∀ front i back, order = front ++ i :: back → ∀ d ∈ D.deps i, d ∈ front

variable [DecidableEq I]

/-- What can come next when some items have come. -/
def ready (done : List I) : List I :=
  D.items.filter fun i => i ∉ done ∧ (D.deps i).all (· ∈ done)

/-- The ways to go on for `n` items. -/
def orders : Nat → List I → List (List I)
  | 0, _ => [[]]
  | n + 1, done => (D.ready done).flatMap fun i => (orders n (i :: done)).map (i :: ·)

variable {D} {done order : List I} {i : I} {n : Nat}

theorem mem_ready : i ∈ D.ready done ↔ i ∈ D.items ∧ i ∉ done ∧ ∀ d ∈ D.deps i, d ∈ done := by
  simp [ready]

theorem nodup_ready : (D.ready done).Nodup := D.distinct.filter _

/-- What is left when one more has come. -/
theorem length_left_cons {items : List I} (distinct : items.Nodup) (member : i ∈ items)
    (absent : i ∉ done) : (items.filter fun j => j ∉ i :: done).length + 1 =
      (items.filter fun j => j ∉ done).length := by
  have left : i ∈ items.filter fun j => j ∉ done :=
    List.mem_filter.mpr ⟨member, decide_eq_true absent⟩
  have erased : (items.filter fun j => j ∉ i :: done) = (items.filter fun j => j ∉ done).erase i := by
    rw [(distinct.filter _).erase_eq_filter, List.filter_filter]
    refine List.filter_congr fun j _ => ?_
    simp only [List.mem_cons, not_or, Bool.decide_and]
    grind
  rw [erased, List.length_erase_of_mem left]
  exact Nat.sub_add_cancel (List.length_pos_of_mem left)

/-- What holds of an item as soon as it holds of those it depends on. -/
theorem inductionOn {p : I → Prop} (step : ∀ i ∈ D.items, (∀ d ∈ D.deps i, p d) → p i)
    (member : i ∈ D.items) : p i := by
  let before (x y : {i // i ∈ D.items}) : Prop :=
    Relation.TransGen (fun d i => i ∈ D.items ∧ d ∈ D.deps i) x.1 y.1
  have : IsTrans _ before := ⟨fun _ _ _ first second => first.trans second⟩
  have : Std.Irrefl before := ⟨fun x => D.acyclic x.1⟩
  have founded : WellFounded before := Finite.wellFounded_of_trans_of_irrefl before
  refine founded.induction (C := fun x => p x.1) ⟨i, member⟩ fun x ih => step x.1 x.2 fun d dep => ?_
  exact ih ⟨d, D.closed x.1 x.2 d dep⟩ (.single ⟨x.2, dep⟩)

/-- As long as an item is left, one of those left depends only on items that have come. -/
theorem exists_ready (member : i ∈ D.items) (left : i ∉ done) : D.ready done ≠ [] := by
  intro none
  refine left (inductionOn (p := (· ∈ done)) (fun j listed deps => ?_) member)
  by_contra absent
  have ready := mem_ready.mpr ⟨listed, absent, deps⟩
  rw [none] at ready
  cases ready

/-! ## Orders -/

variable (D)

/-- Each item is ready when it comes. -/
def Follows : List I → List I → Prop
  | _, [] => True
  | done, i :: rest => i ∈ D.ready done ∧ Follows (i :: done) rest

variable {D}

theorem mem_orders : order ∈ D.orders n done ↔ order.length = n ∧ D.Follows done order := by
  induction n generalizing done order with
  | zero => cases order <;> simp [orders, Follows]
  | succ n ih =>
    rw [orders, List.mem_flatMap]
    constructor
    · rintro ⟨i, ready, member⟩
      obtain ⟨rest, listed, same⟩ := List.mem_map.mp member
      subst same
      obtain ⟨length, follows⟩ := ih.mp listed
      exact ⟨by rw [List.length_cons, length], ready, follows⟩
    · rintro ⟨length, follows⟩
      cases order with
      | nil => cases length
      | cons i rest =>
        refine ⟨i, follows.1, List.mem_map.mpr ⟨rest, ih.mpr ⟨?_, follows.2⟩, rfl⟩⟩
        simpa using length

theorem nodup_orders : (D.orders n done).Nodup := by
  induction n generalizing done with
  | zero => simp [orders]
  | succ n ih =>
    rw [orders, List.nodup_flatMap]
    refine ⟨fun i _ => ih.map List.cons_injective, ?_⟩
    refine nodup_ready.imp fun different => ?_
    intro order first second
    obtain ⟨_, _, same⟩ := List.mem_map.mp first
    obtain ⟨_, _, other⟩ := List.mem_map.mp second
    rw [← other] at same
    exact different (List.cons.inj same).1

theorem follows_iff : D.Follows done order ↔
    (order.Nodup ∧ ∀ i ∈ order, i ∈ D.items ∧ i ∉ done) ∧
      ∀ front i back, order = front ++ i :: back → ∀ d ∈ D.deps i, d ∈ front ∨ d ∈ done := by
  induction order generalizing done with
  | nil => simp [Follows]
  | cons i rest ih =>
    rw [Follows, mem_ready, ih]
    constructor
    · rintro ⟨⟨listed, absent, deps⟩, ⟨nodup, others⟩, behind⟩
      refine ⟨⟨List.nodup_cons.mpr ⟨fun again => (others i again).2 (by simp), nodup⟩, ?_⟩, ?_⟩
      · intro j member
        rcases List.mem_cons.mp member with same | member
        · exact same ▸ ⟨listed, absent⟩
        · exact ⟨(others j member).1, fun before => (others j member).2 (by simp [before])⟩
      · intro front j back split d dep
        cases front with
        | nil =>
          obtain ⟨same, _⟩ := List.cons.inj split
          exact Or.inr (deps d (same ▸ dep))
        | cons k front =>
          obtain ⟨same, tail⟩ := List.cons.inj split
          subst same
          rcases behind front j back tail d dep with inside | before
          · exact Or.inl (List.mem_cons_of_mem _ inside)
          · rcases List.mem_cons.mp before with same | before
            · exact Or.inl (by simp [same])
            · exact Or.inr before
    · rintro ⟨⟨nodup, others⟩, behind⟩
      obtain ⟨fresh, nodup⟩ := List.nodup_cons.mp nodup
      obtain ⟨listed, absent⟩ := others i (by simp)
      refine ⟨⟨listed, absent, fun d dep => ?_⟩, ⟨nodup, fun j member => ⟨?_, ?_⟩⟩, ?_⟩
      · simpa using behind [] i rest (List.nil_append _).symm d dep
      · exact (others j (by simp [member])).1
      · rw [List.mem_cons, not_or]
        exact ⟨fun same => fresh (same ▸ member), (others j (by simp [member])).2⟩
      · intro front j back split d dep
        have inside := behind (i :: front) j back (by rw [split, List.cons_append]) d dep
        simp only [List.mem_cons] at inside ⊢
        tauto

theorem follows_append {front back : List I} :
    D.Follows done (front ++ back) ↔ D.Follows done front ∧ D.Follows (front.reverse ++ done) back := by
  induction front generalizing done with
  | nil => simp [Follows]
  | cons i front ih =>
    rw [List.cons_append, Follows, Follows, ih, List.reverse_cons, List.append_assoc,
      List.singleton_append, and_assoc]

theorem linearExtension_iff : D.LinearExtension order ↔
    order.length = D.items.length ∧ D.Follows [] order := by
  rw [follows_iff, LinearExtension]
  constructor
  · rintro ⟨perm, behind⟩
    refine ⟨perm.length_eq, ⟨perm.nodup_iff.mpr D.distinct, fun i member => ?_⟩, ?_⟩
    · exact ⟨perm.mem_iff.mp member, List.not_mem_nil⟩
    · exact fun front i back split d dep => Or.inl (behind front i back split d dep)
  · rintro ⟨length, ⟨nodup, listed⟩, behind⟩
    have within : order.Subperm D.items := nodup.subperm fun i member => (listed i member).1
    refine ⟨within.perm_of_length_le (by omega), fun front i back split d dep => ?_⟩
    simpa using behind front i back split d dep

instance decidableFollows (done : List I) : DecidablePred (D.Follows done)
  | [] => .isTrue trivial
  | i :: rest =>
    haveI := decidableFollows (i :: done) rest
    inferInstanceAs (Decidable (i ∈ D.ready done ∧ D.Follows (i :: done) rest))

instance : DecidablePred D.LinearExtension := fun _ =>
  decidable_of_iff _ linearExtension_iff.symm

variable (D)

/-- All linear extensions. -/
def extensions : List (List I) := D.items.permutations.filter D.LinearExtension

/-- Going on with whatever is ready comes to each linear extension once. -/
theorem orders_perm : (D.orders D.items.length []).Perm D.extensions := by
  have nodup : D.extensions.Nodup := (List.nodup_permutations _ D.distinct).filter _
  rw [List.perm_ext_iff_of_nodup nodup_orders nodup]
  intro order
  rw [mem_orders, ← linearExtension_iff, extensions, List.mem_filter, List.mem_permutations,
    decide_eq_true_iff]
  exact ⟨fun linear => ⟨linear.1, linear⟩, fun found => found.2⟩

end Dependencies

end Library
