import CloudLab.Library.Dependencies

/-!
# Linear extensions

What the linear extensions of dependencies have in common, and what can be had from one of them.
`foldl_eq`: if steps that are not ordered commute, all linear extensions lead to one state.
`exists_last`: of the items of a kind, any one that no other item of that kind depends on is the
last one in some linear extension.
-/
namespace Library.Dependencies

variable {I : Type} (D : Dependencies I)

/-- An item depends on another one, maybe through others. -/
def Before (d i : I) : Prop := Relation.TransGen (fun d i => i ∈ D.items ∧ d ∈ D.deps i) d i

def Unordered (i j : I) : Prop := ¬D.Before i j ∧ ¬D.Before j i

variable [DecidableEq I] {D} {done done' order order' front back : List I} {d i x : I}

/-! ## Orders -/

theorem Follows.mono (follows : D.Follows done order) (more : ∀ i ∈ done, i ∈ done')
    (fresh : ∀ i ∈ order, i ∉ done') : D.Follows done' order := by
  induction order generalizing done done' with
  | nil => trivial
  | cons i order ih =>
    obtain ⟨ready, follows⟩ := follows
    obtain ⟨listed, _, deps⟩ := mem_ready.mp ready
    refine ⟨mem_ready.mpr ⟨listed, fresh i List.mem_cons_self, fun d dep => more d (deps d dep)⟩,
      ih follows (fun j member => ?_) fun j member again => ?_⟩
    · rcases List.mem_cons.mp member with same | member
      · exact same ▸ List.mem_cons_self
      · exact List.mem_cons_of_mem _ (more j member)
    · rcases List.mem_cons.mp again with same | again
      · have nodup := (follows_iff.mp follows).1.2 j member
        exact nodup.2 (same ▸ List.mem_cons_self)
      · exact fresh j (List.mem_cons_of_mem _ member) again

/-- An item comes behind all that it depends on, or that had come before. -/
theorem Follows.before (follows : D.Follows done (front ++ i :: back)) (before : D.Before d i)
    (closed : ∀ j ∈ done, ∀ e ∈ D.deps j, e ∈ done) : d ∈ front ∨ d ∈ done := by
  have deps := (follows_iff.mp follows).2
  -- Either set is closed under dependencies, so that a whole chain of them stays inside.
  have chain : ∀ e j, D.Before e j → j ∈ front ∨ j ∈ done → e ∈ front ∨ e ∈ done := by
    intro e j before
    induction before using Relation.TransGen.head_induction_on with
    | single edge =>
      rintro (inside | gone)
      · obtain ⟨first, later, split⟩ := List.append_of_mem inside
        rcases deps first j (later ++ i :: back) (by simp [split]) _ edge.2 with member | member
        · exact .inl (by simp [split, member])
        · exact .inr member
      · exact .inr (closed j gone _ edge.2)
    | head edge _ ih =>
      intro inside
      rcases ih inside with inside | gone
      · obtain ⟨first, later, split⟩ := List.append_of_mem inside
        rcases deps first _ (later ++ i :: back) (by simp [split]) _ edge.2 with member | member
        · exact .inl (by simp [split, member])
        · exact .inr member
      · exact .inr (closed _ gone _ edge.2)
  cases before using Relation.TransGen.casesOn with
  | single edge => exact deps front i back rfl d edge.2
  | tail before edge => exact chain d _ before (deps front i back rfl _ edge.2)

theorem LinearExtension.before (linear : D.LinearExtension (front ++ i :: back))
    (before : D.Before d i) : d ∈ front := by
  have follows := (linearExtension_iff.mp linear).2
  refine (follows.before before fun j member => ?_).resolve_right List.not_mem_nil
  cases member

theorem linear_of_follows (follows : D.Follows [] order) (all : ∀ i ∈ D.items, i ∈ order) :
    D.LinearExtension order := by
  obtain ⟨⟨nodup, listed⟩, _⟩ := follows_iff.mp follows
  have perm : order.Perm D.items := (List.perm_ext_iff_of_nodup nodup D.distinct).mpr fun i =>
    ⟨fun member => (listed i member).1, all i⟩
  exact linearExtension_iff.mpr ⟨perm.length_eq, follows⟩

/-! ## From a queue -/

variable (D) in
/-- What becomes ready when an item has come, by the last pointers to it. -/
def freed (succ : I → List I) (done : List I) (i : I) : List I :=
  (succ i).dedup.filter fun u => (D.deps u).all (· ∈ i :: done)

variable (D) in
/-- The items in the order in which a queue yields them that starts with those that are ready. -/
def drain (succ : I → List I) : Nat → List I → List I → List I
  | 0, _, _ => []
  | _ + 1, _, [] => []
  | n + 1, done, i :: queue => i :: drain succ n (i :: done) (queue ++ D.freed succ done i)

/-- When an item has come, the queue has what is ready then. -/
theorem ready_cons {succ : I → List I} {queue : List I}
    (waits : ∀ i ∈ D.items, ∀ u, u ∈ succ i ↔ u ∈ D.items ∧ i ∈ D.deps u)
    (closed : ∀ j ∈ done, ∀ d ∈ D.deps j, d ∈ done) (perm : (i :: queue).Perm (D.ready done)) :
    (queue ++ D.freed succ done i).Perm (D.ready (i :: done)) := by
  obtain ⟨listed, absent, deps⟩ := mem_ready.mp (perm.mem_iff.mp List.mem_cons_self)
  have nodup := perm.nodup_iff.mpr nodup_ready
  obtain ⟨apart, nodup⟩ := List.nodup_cons.mp nodup
  have inside : ∀ {u}, u ∈ queue → u ∈ D.ready done := fun member =>
    perm.mem_iff.mp (List.mem_cons_of_mem _ member)
  have freed_iff : ∀ {u}, u ∈ D.freed succ done i ↔
      u ∈ D.items ∧ i ∈ D.deps u ∧ ∀ d ∈ D.deps u, d ∈ i :: done := fun {u} => by
    simp only [freed, List.mem_filter, List.mem_dedup, waits i listed, List.all_eq_true,
      decide_eq_true_iff, and_assoc]
  -- What waited for the item was not ready before.
  have fresh : (queue ++ D.freed succ done i).Nodup := by
    refine List.Nodup.append nodup ((List.nodup_dedup _).filter _) fun u first second => ?_
    obtain ⟨_, dep, _⟩ := freed_iff.mp second
    exact absent ((mem_ready.mp (inside first)).2.2 i dep)
  refine (List.perm_ext_iff_of_nodup fresh nodup_ready).mpr fun u => ?_
  rw [List.mem_append, freed_iff, mem_ready]
  constructor
  · rintro (waiting | ⟨member, dep, rest⟩)
    · obtain ⟨member, left, rest⟩ := mem_ready.mp (inside waiting)
      refine ⟨member, ?_, fun d dep => List.mem_cons_of_mem _ (rest d dep)⟩
      rw [List.mem_cons, not_or]
      exact ⟨fun same => apart (same ▸ waiting), left⟩
    · refine ⟨member, ?_, rest⟩
      rw [List.mem_cons, not_or]
      refine ⟨?_, fun gone => absent (closed u gone i dep)⟩
      rintro rfl
      exact D.acyclic u (.single ⟨member, dep⟩)
  · rintro ⟨member, left, rest⟩
    by_cases dep : i ∈ D.deps u
    · exact .inr ⟨member, dep, rest⟩
    · rw [List.mem_cons, not_or] at left
      have ready : u ∈ D.ready done := mem_ready.mpr ⟨member, left.2, fun d inside =>
        (List.mem_cons.mp (rest d inside)).resolve_left fun same => dep (same ▸ inside)⟩
      exact .inl ((List.mem_cons.mp (perm.mem_iff.mpr ready)).resolve_left left.1)

theorem drain_follows {succ : I → List I} {queue : List I} (n : Nat)
    (waits : ∀ i ∈ D.items, ∀ u, u ∈ succ i ↔ u ∈ D.items ∧ i ∈ D.deps u)
    (closed : ∀ j ∈ done, ∀ d ∈ D.deps j, d ∈ done) (perm : queue.Perm (D.ready done))
    (left : (D.items.filter fun j => j ∉ done).length = n) :
    D.Follows done (D.drain succ n done queue) ∧ (D.drain succ n done queue).length = n := by
  induction n generalizing done queue with
  | zero => exact ⟨trivial, rfl⟩
  | succ n ih =>
    cases queue with
    | nil =>
      -- Something is left, so something is ready.
      obtain ⟨i, member⟩ := List.exists_mem_of_length_eq_add_one left
      obtain ⟨listed, absent⟩ := List.mem_filter.mp member
      exact absurd (List.nil_perm.mp perm) (exists_ready listed (of_decide_eq_true absent))
    | cons i queue =>
      have ready := perm.mem_iff.mp List.mem_cons_self
      obtain ⟨listed, absent, deps⟩ := mem_ready.mp ready
      have fewer : (D.items.filter fun j => j ∉ i :: done).length = n := by
        have one := length_left_cons D.distinct listed absent
        omega
      have closed' : ∀ j ∈ i :: done, ∀ d ∈ D.deps j, d ∈ i :: done := by
        intro j member d dep
        rcases List.mem_cons.mp member with same | member
        · exact List.mem_cons_of_mem _ (deps d (same ▸ dep))
        · exact List.mem_cons_of_mem _ (closed j member d dep)
      obtain ⟨follows, length⟩ := ih closed' (ready_cons waits closed perm) fewer
      exact ⟨⟨ready, follows⟩, congrArg (· + 1) length⟩

/-- A queue that starts with what is ready yields a linear extension. -/
theorem drain_linear {succ : I → List I} {queue : List I}
    (waits : ∀ i ∈ D.items, ∀ u, u ∈ succ i ↔ u ∈ D.items ∧ i ∈ D.deps u)
    (perm : queue.Perm (D.ready [])) :
    D.LinearExtension (D.drain succ D.items.length [] queue) := by
  obtain ⟨follows, length⟩ := drain_follows D.items.length waits (fun j member => by cases member) perm
    (by simp)
  exact linearExtension_iff.mpr ⟨length, follows⟩

/-! ## Orders with a given front -/

/-- Items that depend on none but each other can all come before the others. -/
theorem exists_front (done : List I) {S : I → Prop} (listed : ∀ i, S i → i ∈ D.items)
    (closed : ∀ i, S i → ∀ d ∈ D.deps i, S d) (inside : ∀ i ∈ done, S i) :
    ∃ front, D.Follows done front ∧ (∀ i ∈ front, S i) ∧ ∀ i, S i → i ∈ front ∨ i ∈ done := by
  classical
  have distinct : (D.items.filter fun i => S i).Nodup := D.distinct.filter _
  have kind_iff : ∀ {i}, i ∈ D.items.filter (fun i => S i) ↔ S i := fun {i} => by
    rw [List.mem_filter, decide_eq_true_iff]
    exact ⟨fun both => both.2, fun kind => ⟨listed i kind, kind⟩⟩
  -- The induction is on how many of them are left.
  induction left : ((D.items.filter fun i => S i).filter fun i => i ∉ done).length generalizing done with
  | zero =>
    refine ⟨[], trivial, fun i member => absurd member List.not_mem_nil, fun i kind => .inr ?_⟩
    have none := List.filter_eq_nil_iff.mp (List.length_eq_zero_iff.mp left) i (kind_iff.mpr kind)
    simpa using none
  | succ n ih =>
    obtain ⟨i, kind, ready⟩ : ∃ i, S i ∧ i ∈ D.ready done := by
      by_contra none
      have all : ∀ i, i ∈ D.items → S i → i ∈ done := fun i member =>
        inductionOn (p := fun i => S i → i ∈ done) (fun j member deps kind => by
          by_contra absent
          exact none ⟨j, kind, mem_ready.mpr ⟨member, absent, fun d dep =>
            deps d dep (closed j kind d dep)⟩⟩) member
      obtain ⟨i, member⟩ := List.exists_mem_of_length_eq_add_one left
      obtain ⟨inside, absent⟩ := List.mem_filter.mp member
      exact (of_decide_eq_true absent : i ∉ done) (all i (listed i (kind_iff.mp inside)) (kind_iff.mp inside))
    have fewer : ((D.items.filter fun i => S i).filter fun j => j ∉ i :: done).length = n := by
      have one := length_left_cons distinct (kind_iff.mpr kind) (mem_ready.mp ready).2.1
      omega
    obtain ⟨front, follows, kinds, all⟩ := ih (i :: done) (fun j member => by
      rcases List.mem_cons.mp member with same | member
      · exact same ▸ kind
      · exact inside j member) fewer
    refine ⟨i :: front, ⟨ready, follows⟩, fun j member => ?_, fun j kind => ?_⟩
    · rcases List.mem_cons.mp member with same | member
      · exact same ▸ kind
      · exact kinds j member
    · have := all j kind
      simp only [List.mem_cons] at this ⊢
      tauto

theorem exists_linear (D : Dependencies I) : ∃ order, D.LinearExtension order := by
  obtain ⟨order, follows, _, all⟩ := exists_front (D := D) [] (S := (· ∈ D.items))
    (fun _ member => member) D.closed (fun i member => absurd member List.not_mem_nil)
  exact ⟨order, linear_of_follows follows fun i member =>
    (all i member).resolve_right List.not_mem_nil⟩

/-- Of the items of a kind, one that no other of them depends on can come as the last of them. -/
theorem exists_last {p : I → Prop} (listed : x ∈ D.items) (last : ∀ y ∈ D.items, p y → ¬D.Before x y) :
    ∃ front back, D.LinearExtension (front ++ x :: back) ∧ ∀ y ∈ back, ¬p y := by
  -- First what does not depend on `x`, then `x`, then what does.
  obtain ⟨front, first, kinds, all⟩ := exists_front (D := D) []
    (S := fun i => i ∈ D.items ∧ i ≠ x ∧ ¬D.Before x i) (fun i kind => kind.1)
    (fun i kind d dep => ⟨D.closed i kind.1 d dep,
      fun same => kind.2.2 (same ▸ .single ⟨kind.1, dep⟩),
      fun before => kind.2.2 (before.tail ⟨kind.1, dep⟩)⟩)
    (fun i member => absurd member List.not_mem_nil)
  have ready : x ∈ D.ready (front.reverse ++ []) := by
    refine mem_ready.mpr ⟨listed, fun member => ?_, fun d dep => ?_⟩
    · rw [List.append_nil, List.mem_reverse] at member
      exact (kinds x member).2.1 rfl
    · rw [List.append_nil, List.mem_reverse]
      refine (all d ⟨D.closed x listed d dep, ?_, ?_⟩).resolve_right List.not_mem_nil
      · rintro rfl
        exact D.acyclic d (.single ⟨listed, dep⟩)
      · exact fun before => D.acyclic x (before.tail ⟨listed, dep⟩)
  obtain ⟨back, second, _, rest⟩ := exists_front (D := D) (x :: (front.reverse ++ []))
    (S := (· ∈ D.items)) (fun i member => member) D.closed (by
      intro i member
      rcases List.mem_cons.mp member with same | member
      · exact same ▸ listed
      · rw [List.append_nil, List.mem_reverse] at member
        exact (kinds i member).1)
  have follows : D.Follows [] (front ++ x :: back) := follows_append.mpr ⟨first, ready, second⟩
  refine ⟨front, back, linear_of_follows follows fun i member => ?_, fun y member kind => ?_⟩
  · have := rest i member
    simp only [List.append_nil, List.mem_cons, List.mem_reverse, List.mem_append] at this ⊢
    tauto
  · obtain ⟨listed, late⟩ := (follows_iff.mp second).1.2 y member
    simp only [List.append_nil, List.mem_cons, List.mem_reverse, not_or] at late
    exact late.2 ((all y ⟨listed, late.1, last y listed kind⟩).resolve_right List.not_mem_nil)

/-! ## Steps that commute -/

section Commute

variable {σ : Type} {f : σ → I → σ}

omit [DecidableEq I] in
theorem foldl_move (commutes : ∀ j ∈ front, ∀ s, f (f s j) i = f (f s i) j) (s : σ) :
    (front ++ i :: back).foldl f s = (front ++ back).foldl f (f s i) := by
  induction front generalizing s with
  | nil => rfl
  | cons j front ih =>
    rw [List.cons_append, List.foldl_cons, ih fun k member => commutes k (by simp [member]),
      commutes j List.mem_cons_self]
    rfl

/-- Going on in two orders. -/
theorem Follows.foldl_eq
    (commutes : ∀ i ∈ D.items, ∀ j ∈ D.items, D.Unordered i j → ∀ s, f (f s i) j = f (f s j) i)
    (closed : ∀ j ∈ done, ∀ e ∈ D.deps j, e ∈ done) (one : D.Follows done order)
    (two : D.Follows done order') (perm : order.Perm order') (s : σ) :
    order.foldl f s = order'.foldl f s := by
  induction order generalizing done order' s with
  | nil => rw [List.nil_perm.mp perm]
  | cons i order ih =>
    obtain ⟨front, back, rfl⟩ := List.append_of_mem (perm.mem_iff.mp List.mem_cons_self)
    obtain ⟨ready, one⟩ := one
    obtain ⟨listed, absent, deps⟩ := mem_ready.mp ready
    obtain ⟨first, second⟩ := follows_append.mp two
    obtain ⟨nodup, fresh⟩ := (follows_iff.mp two).1
    have apart : i ∉ front := fun member =>
      (List.nodup_append.mp nodup).2.2 i member i List.mem_cons_self rfl
    -- What comes in front of `i` in the other order does not depend on it, nor `i` on that.
    have unordered : ∀ j ∈ front, D.Unordered j i := by
      intro j member
      have left : j ∉ done := (fresh j (List.mem_append_left _ member)).2
      constructor
      · intro before
        have whole : D.Follows done ([] ++ i :: order) := ⟨ready, one⟩
        rcases whole.before before closed with none | gone
        · cases none
        · exact left gone
      · intro before
        obtain ⟨early, late, split⟩ := List.append_of_mem member
        subst split
        rw [List.append_assoc, List.cons_append] at two
        rcases two.before before closed with inside | gone
        · exact apart (List.mem_append_left _ inside)
        · exact absent gone
    rw [List.foldl_cons, foldl_move fun j member => commutes j
      (fresh j (List.mem_append_left _ member)).1 i listed (unordered j member)]
    refine @ih (i :: done) (front ++ back) ?_ one
      (follows_append.mpr ⟨first.mono ?_ ?_, second.2.mono ?_ ?_⟩) ?_ _
    · intro j member e dep
      rcases List.mem_cons.mp member with same | member
      · exact List.mem_cons_of_mem _ (deps e (same ▸ dep))
      · exact List.mem_cons_of_mem _ (closed j member e dep)
    · exact fun j member => List.mem_cons_of_mem _ member
    · intro j member again
      rcases List.mem_cons.mp again with same | gone
      · exact apart (same ▸ member)
      · exact (fresh j (List.mem_append_left _ member)).2 gone
    · intro j member
      simp only [List.mem_cons, List.mem_append] at member ⊢
      tauto
    · intro j member again
      have outside := ((follows_iff.mp second.2).1.2 j member).2
      simp only [List.mem_cons, List.mem_append] at again outside
      tauto
    · exact (List.perm_cons i).mp (perm.trans List.perm_middle)

theorem foldl_eq
    (commutes : ∀ i ∈ D.items, ∀ j ∈ D.items, D.Unordered i j → ∀ s, f (f s i) j = f (f s j) i)
    (one : D.LinearExtension order) (two : D.LinearExtension order') (s : σ) :
    order.foldl f s = order'.foldl f s := by
  refine (linearExtension_iff.mp one).2.foldl_eq commutes (fun j member => ?_)
    (linearExtension_iff.mp two).2 (one.1.trans two.1.symm) s
  cases member

end Commute

end Library.Dependencies
