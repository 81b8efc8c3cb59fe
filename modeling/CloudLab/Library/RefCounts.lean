import CloudLab.Library.SharedPtr

/-!
# Reference counts

A heap whose objects point to each other is balanced if the use count of an object is the number of
the pointers to it, in the objects and outside. Letting go of a pointer, handing out an object and
building one keep it so. When nothing points in from outside, whatever is left is held by something
that is left, and can be reached from a cycle: `Balanced.held`, `Balanced.cycle`. Without cycles
nothing is left: `Balanced.empty`.

The pointers of an object that is being built are outside; such objects are `hidden`.
-/
namespace Library.Heap

variable {α : Type} (next : α → List Nat) (h : Heap α)

def useCount (a : Nat) : Nat := ((h.cells a).map Cell.useCount).getD 0

/-- The pointers from one object to another. -/
def outgoing (hidden : List Nat) (b a : Nat) : Nat :=
  if b ∈ hidden then 0 else ((h.cells b).map fun cell => (next cell.value).count a).getD 0

def incoming (hidden : List Nat) (a : Nat) : Nat :=
  ∑ b ∈ Finset.range h.fresh, h.outgoing next hidden b a

/-- `outside` are the pointers to each address from outside the heap. -/
structure Balanced (hidden : List Nat) (outside : Nat → Nat) : Prop where
  counts : ∀ a, h.useCount a = h.incoming next hidden a + outside a
  owned : ∀ a cell, h.cells a = some cell → 0 < cell.useCount

variable {next h} {h' : Heap α} {hidden : List Nat} {outside outside' : Nat → Nat} {a b c : Nat}
  {cell : Cell α} {value : α}

theorem useCount_of_cells (there : h.cells a = some cell) : h.useCount a = cell.useCount := by
  rw [useCount, there, Option.map_some, Option.getD_some]

theorem retain_value (ran : h.retain b = some h') (there : h.cells a = some cell) :
    ∃ n, h'.cells a = some ⟨cell.value, n⟩ := by
  obtain ⟨other, _, rfl⟩ := Option.map_eq_some_iff.mp ran
  by_cases same : a = b
  · subst same
    exact ⟨_, by rw [cells_alter, if_pos rfl, there, Option.bind_some]⟩
  · exact ⟨_, by rw [cells_alter_of_ne _ same, there]⟩

theorem Balanced.congr (balanced : h.Balanced next hidden outside) (same : ∀ a, outside' a = outside a) :
    h.Balanced next hidden outside' where
  counts a := by rw [balanced.counts, same]
  owned := balanced.owned

/-- What is pointed to is there. -/
theorem Balanced.exists_cell (balanced : h.Balanced next hidden outside) (pointed : 0 < outside a) :
    ∃ cell, h.cells a = some cell := by
  rcases there : h.cells a with _ | cell
  · have none := balanced.counts a
    rw [useCount, there, Option.map_none, Option.getD_none] at none
    omega
  · exact ⟨cell, rfl⟩

/-! ## Sums over the heap -/

/-- One object changes. -/
theorem incoming_change {hidden' : List Nat} (size : h'.fresh = h.fresh) (inside : b < h.fresh)
    (others : ∀ c, c ≠ b → h'.outgoing next hidden' c a = h.outgoing next hidden c a) :
    h'.incoming next hidden' a + h.outgoing next hidden b a =
      h.incoming next hidden a + h'.outgoing next hidden' b a := by
  have member : b ∈ Finset.range h.fresh := Finset.mem_range.mpr inside
  rw [incoming, incoming, size, ← Finset.add_sum_erase _ _ member, ← Finset.add_sum_erase _ _ member]
  have same := Finset.sum_congr (rfl : (Finset.range h.fresh).erase b = _) fun c elsewhere =>
    others c (Finset.ne_of_mem_erase elsewhere)
  rw [same]
  omega

theorem incoming_congr (size : h'.fresh = h.fresh)
    (same : ∀ c, h'.outgoing next hidden c a = h.outgoing next hidden c a) :
    h'.incoming next hidden a = h.incoming next hidden a := by
  rw [incoming, incoming, size]
  exact Finset.sum_congr rfl fun c _ => same c

theorem outgoing_of_cells (visible : b ∉ hidden) (there : h.cells b = some cell) :
    h.outgoing next hidden b a = (next cell.value).count a := by
  rw [outgoing, if_neg visible, there, Option.map_some, Option.getD_some]

theorem outgoing_hidden (inside : b ∈ hidden) : h.outgoing next hidden b a = 0 := if_pos inside

/-! ## Counting up and down -/

/-- The use count of one object changes. -/
theorem Balanced.count (balanced : h.Balanced next hidden outside) (there : h.cells b = some cell)
    {n : Nat} (positive : 0 < n) (counts : ∀ a, outside' a + [b].count a * cell.useCount =
      outside a + [b].count a * n) :
    (h.alter b fun cell => some ⟨cell.value, n⟩).Balanced next hidden outside' := by
  have here : (h.alter b fun cell => some ⟨cell.value, n⟩).cells b = some ⟨cell.value, n⟩ := by
    rw [cells_alter, if_pos rfl, there, Option.bind_some]
  have pointers : ∀ c a, (h.alter b fun cell => some ⟨cell.value, n⟩).outgoing next hidden c a =
      h.outgoing next hidden c a := by
    intro c a
    by_cases same : c = b
    · subst same
      simp only [outgoing, here, there, Option.map_some]
    · simp only [outgoing, cells_alter_of_ne _ same]
  refine ⟨fun a => ?_, fun c other inside => ?_⟩
  · have before := balanced.counts a
    have change := counts a
    have pointed : (h.alter b fun cell => some ⟨cell.value, n⟩).incoming next hidden a =
        h.incoming next hidden a := incoming_congr rfl fun c => pointers c a
    rw [pointed]
    by_cases same : a = b
    · subst same
      rw [useCount_of_cells there] at before
      rw [List.count_singleton_self, Nat.one_mul, Nat.one_mul] at change
      refine (useCount_of_cells here).trans ?_
      show n = _
      omega
    · rw [useCount, cells_alter_of_ne _ same, ← useCount]
      simp only [List.count_singleton, beq_iff_eq, Ne.symm same, if_false] at change
      omega
  · by_cases same : c = b
    · subst same
      obtain rfl := Option.some.inj (here.symm.trans inside)
      exact positive
    · rw [cells_alter_of_ne _ same] at inside
      exact balanced.owned c other inside

theorem Balanced.retain (balanced : h.Balanced next hidden outside) (ran : h.retain b = some h') :
    h'.Balanced next hidden fun a => outside a + [b].count a := by
  obtain ⟨cell, there, rfl⟩ := Option.map_eq_some_iff.mp ran
  have same : (h.alter b fun cell => some ⟨cell.value, cell.useCount + 1⟩) =
      h.alter b fun other => some ⟨other.value, cell.useCount + 1⟩ := by
    simp only [alter, there, Option.bind_some]
  rw [same]
  refine balanced.count there (Nat.succ_pos _) fun a => ?_
  ring

/-- A pointer dies that is not the last one. -/
theorem Balanced.release_shared
    (balanced : h.Balanced next hidden fun a => outside a + [b].count a)
    (ran : h.release b = some (h', none)) : h'.Balanced next hidden outside := by
  obtain ⟨cell, there, same⟩ := Option.map_eq_some_iff.mp ran
  split at same
  next => cases same
  next several =>
    obtain ⟨rfl, _⟩ := Prod.mk.inj same
    have positive := balanced.owned b cell there
    have less : (h.alter b fun cell => some ⟨cell.value, cell.useCount - 1⟩) =
        h.alter b fun other => some ⟨other.value, cell.useCount - 1⟩ := by
      simp only [alter, there, Option.bind_some]
    rw [less]
    refine balanced.count there (by omega) fun a => ?_
    obtain ⟨n, count⟩ := Nat.exists_eq_add_one_of_ne_zero (Nat.ne_of_gt positive)
    rw [count, Nat.add_sub_cancel]
    ring

/-- The last pointer dies, and the object with it: its own pointers are outside from now on. -/
theorem Balanced.release_last
    (balanced : h.Balanced next hidden fun a => outside a + [b].count a)
    (ran : h.release b = some (h', some value)) (kept : ∀ c ∈ hidden, 0 < outside c) :
    h'.Balanced next hidden fun a => outside a + (next value).count a := by
  have there : h.cells b = some ⟨value, 1⟩ := (release_value ran).2 value rfl
  have gone : h' = h.alter b fun _ => none := by
    rw [Heap.release_last there] at ran
    exact (congrArg Prod.fst (Option.some.inj ran)).symm
  subst gone
  have away : (h.alter b fun _ => none).cells b = none := by
    rw [cells_alter, if_pos rfl, there, Option.bind_some]
  have one : h.useCount b = 1 := useCount_of_cells there
  have before := balanced.counts b
  rw [one, List.count_singleton_self] at before
  have visible : b ∉ hidden := fun inside => by
    have held := kept b inside
    omega
  have change : ∀ a, (h.alter b fun _ => none).incoming next hidden a + (next value).count a =
      h.incoming next hidden a := by
    intro a
    have moved : (h.alter b fun _ => none).incoming next hidden a + h.outgoing next hidden b a =
        h.incoming next hidden a + (h.alter b fun _ => none).outgoing next hidden b a :=
      incoming_change rfl (lt_fresh there) fun c other => by
        simp only [outgoing, cells_alter_of_ne _ other]
    rw [outgoing_of_cells visible there] at moved
    rw [moved, outgoing, if_neg visible, away]
    rfl
  refine ⟨fun a => ?_, fun c other inside => ?_⟩
  · have counts := balanced.counts a
    have less := change a
    by_cases same : a = b
    · subst same
      rw [useCount, away, Option.map_none, Option.getD_none]
      omega
    · rw [useCount, cells_alter_of_ne _ same, ← useCount]
      simp only [List.count_singleton, beq_iff_eq, Ne.symm same, if_false] at counts
      omega
  · have elsewhere : c ≠ b := by
      rintro rfl
      rw [away] at inside
      cases inside
    rw [cells_alter_of_ne _ elsewhere] at inside
    exact balanced.owned c other inside

/-! ## Building -/

/-- A new object has one owner; its pointers are outside. -/
theorem Balanced.make (balanced : h.Balanced next hidden outside) (value : α) :
    (h.makeShared value).1.Balanced next (h.fresh :: hidden) fun a => outside a + [h.fresh].count a := by
  have unused : h.useCount h.fresh = 0 := by
    rw [useCount, h.unused _ le_rfl, Option.map_none, Option.getD_none]
  have pointers : ∀ a, (h.makeShared value).1.incoming next (h.fresh :: hidden) a =
      h.incoming next hidden a := by
    intro a
    rw [incoming, show (h.makeShared value).1.fresh = h.fresh + 1 from rfl, Finset.sum_range_succ,
      outgoing_hidden List.mem_cons_self, Nat.add_zero]
    refine Finset.sum_congr rfl fun b inside => ?_
    have old : b ≠ h.fresh := Nat.ne_of_lt (Finset.mem_range.mp inside)
    simp only [outgoing, cells_makeShared, List.mem_cons, old, false_or, if_false]
  refine ⟨fun a => ?_, fun b cell inside => ?_⟩
  · have before := balanced.counts a
    rw [pointers]
    by_cases same : a = h.fresh
    · subst same
      rw [useCount, cells_makeShared, if_pos rfl, List.count_singleton_self]
      rw [unused] at before
      simp only [Option.map_some, Option.getD_some]
      omega
    · rw [useCount, cells_makeShared, if_neg same, ← useCount]
      simp only [List.count_singleton, beq_iff_eq, Ne.symm same, if_false]
      omega
  · rw [cells_makeShared] at inside
    split at inside
    · obtain rfl := Option.some.inj inside
      exact Nat.one_pos
    · exact balanced.owned b cell inside

theorem incoming_cons (there : h.cells b = some cell) (visible : b ∉ hidden) :
    h.incoming next hidden a = h.incoming next (b :: hidden) a + (next cell.value).count a := by
  have moved : h.incoming next hidden a + h.outgoing next (b :: hidden) b a =
      h.incoming next (b :: hidden) a + h.outgoing next hidden b a :=
    incoming_change rfl (lt_fresh there) fun c other => by
      simp only [outgoing, List.mem_cons, other, false_or]
  rwa [outgoing_hidden List.mem_cons_self, outgoing_of_cells visible there] at moved

/-- When an object is opened its pointers count as outside, until it is closed. -/
theorem balanced_cons (there : h.cells b = some cell) (visible : b ∉ hidden) :
    h.Balanced next (b :: hidden) (fun a => outside a + (next cell.value).count a) ↔
      h.Balanced next hidden outside := by
  have pointers : ∀ a, h.incoming next hidden a = _ := fun a => incoming_cons there visible
  constructor
  · intro balanced
    refine ⟨fun a => ?_, balanced.owned⟩
    rw [balanced.counts, pointers]
    omega
  · intro balanced
    refine ⟨fun a => ?_, balanced.owned⟩
    rw [balanced.counts, pointers]
    omega

theorem cells_setValue (there : h.cells b = some cell) (value : α) :
    (h.setValue b value).cells b = some ⟨value, cell.useCount⟩ := by
  rw [setValue, cells_alter, if_pos rfl, there, Option.bind_some]

/-- What is open can be assigned to. -/
theorem Balanced.assign (balanced : h.Balanced next hidden outside) (there : h.cells b = some cell)
    (inside : b ∈ hidden) (value : α) : (h.setValue b value).Balanced next hidden outside := by
  have here := cells_setValue there value
  refine ⟨fun a => ?_, fun c other found => ?_⟩
  · have pointers : (h.setValue b value).incoming next hidden a = h.incoming next hidden a :=
      incoming_congr rfl fun c => by
        by_cases same : c = b
        · rw [same, outgoing_hidden inside, outgoing_hidden inside]
        · simp only [outgoing, setValue, cells_alter_of_ne _ same]
    have same : (h.setValue b value).useCount a = h.useCount a := by
      by_cases own : a = b
      · subst own
        rw [useCount_of_cells here, useCount_of_cells there]
      · rw [useCount, setValue, cells_alter_of_ne _ own, ← useCount]
    rw [same, pointers]
    exact balanced.counts a
  · by_cases same : c = b
    · subst same
      obtain rfl := Option.some.inj (here.symm.trans found)
      exact balanced.owned c cell there
    · rw [setValue, cells_alter_of_ne _ same] at found
      exact balanced.owned c other found

/-! ## When nothing points in -/

variable (next h) in
/-- One object has a pointer to the other. -/
def Points (b a : Nat) : Prop := ∃ cell, h.cells b = some cell ∧ a ∈ next cell.value

/-- What is left is held by something that is left. -/
theorem Balanced.held (balanced : h.Balanced next [] fun _ => 0) (there : h.cells a = some cell) :
    ∃ b, h.Points next b a := by
  have counts := balanced.counts a
  have positive := balanced.owned a cell there
  rw [useCount_of_cells there, Nat.add_zero] at counts
  obtain ⟨b, _, some⟩ := Finset.exists_ne_zero_of_sum_ne_zero (counts ▸ Nat.ne_of_gt positive)
  rw [outgoing, if_neg List.not_mem_nil] at some
  rcases inside : h.cells b with _ | other
  · rw [inside] at some
    exact absurd rfl some
  · rw [inside] at some
    exact ⟨b, other, inside, List.count_pos_iff.mp (Nat.pos_of_ne_zero some)⟩

/-- So it can be reached from a cycle: going back from one object to another never ends, among
finitely many. -/
theorem Balanced.cycle (balanced : h.Balanced next [] fun _ => 0) (there : h.cells a = some cell) :
    ∃ b, Relation.TransGen (h.Points next) b b ∧ Relation.ReflTransGen (h.Points next) b a := by
  by_contra away
  let free (a : Nat) : Prop := ¬∃ b, Relation.TransGen (h.Points next) b b ∧
    Relation.ReflTransGen (h.Points next) b a
  let before (x y : Fin h.fresh) : Prop := free x.1 ∧ Relation.TransGen (h.Points next) x.1 y.1
  have : IsTrans _ before := ⟨fun _ _ _ first second => ⟨first.1, first.2.trans second.2⟩⟩
  have : Std.Irrefl before := ⟨fun x cycle => cycle.1 ⟨x.1, cycle.2, .refl⟩⟩
  have founded : WellFounded before := Finite.wellFounded_of_trans_of_irrefl before
  have absent := founded.induction (C := fun x => free x.1 → h.cells x.1 = none) ⟨a, lt_fresh there⟩
    fun x ih clear => by
      rcases inside : h.cells x.1 with _ | other
      · rfl
      · obtain ⟨b, holder, here, pointer⟩ := balanced.held inside
        have points : h.Points next b x.1 := ⟨holder, here, pointer⟩
        have clear' : free b := fun ⟨c, cycle, path⟩ => clear ⟨c, cycle, path.tail points⟩
        have absent := ih ⟨b, lt_fresh here⟩ ⟨clear', .single points⟩ clear'
        rw [here] at absent
        cases absent
  have missing := absent away
  rw [there] at missing
  cases missing

/-- Without a cycle nothing is left. -/
theorem Balanced.empty (balanced : h.Balanced next [] fun _ => 0)
    (acyclic : ∀ a, ¬Relation.TransGen (h.Points next) a a) (a : Nat) : h.cells a = none := by
  rcases there : h.cells a with _ | cell
  · rfl
  · obtain ⟨b, cycle, _⟩ := balanced.cycle there
    exact absurd cycle (acyclic b)

end Library.Heap
