import Mathlib

/-!
# Traversals

A graph is given by the successors of its nodes, and the part that is looked at by its roots.
`depthFirst` goes depth first and marks what it comes to. It stops at what is marked, which may be a
node whose successors it is still at work on; so it ends in a graph with cycles too.
-/
namespace Library

/-- What can be reached from the roots. -/
inductive Reaches {ι : Type} (next : ι → List ι) (roots : List ι) : ι → Prop
  | root {a : ι} (member : a ∈ roots) : Reaches next roots a
  | step {a b : ι} (before : Reaches next roots a) (member : b ∈ next a) : Reaches next roots b

/-- The pointers to a node, from the roots and from what they reach. -/
noncomputable def inDegree {ι : Type} [DecidableEq ι] (next : ι → List ι) (roots : List ι) (a : ι) :
    Nat :=
  roots.count a + ∑ᶠ b ∈ {b | Reaches next roots b}, (next b).count a

section Graphs

variable {ι κ : Type} {next : ι → List ι} {roots todo : List ι} {a b : ι}

/-- Nothing else is reached than what is in a closed set. -/
theorem Reaches.least {p : ι → Prop} (first : ∀ a ∈ roots, p a)
    (closed : ∀ a, p a → ∀ b ∈ next a, p b) (reaches : Reaches next roots a) : p a := by
  induction reaches with
  | root member => exact first _ member
  | step _ member ih => exact closed _ ih _ member

theorem Reaches.trans (first : ∀ a ∈ todo, Reaches next roots a) (reaches : Reaches next todo a) :
    Reaches next roots a :=
  reaches.least first fun _ before _ member => before.step member

/-- Where the nodes that are reached are moved with their pointers, their places are reached. -/
theorem reaches_map {place : ι → κ} {next' : κ → List κ}
    (moved : ∀ a, Reaches next roots a → next' (place a) = (next a).map place) {b : κ} :
    Reaches next' (roots.map place) b ↔ ∃ a, Reaches next roots a ∧ place a = b := by
  constructor
  · intro reaches
    induction reaches with
    | root member =>
      obtain ⟨a, listed, rfl⟩ := List.mem_map.mp member
      exact ⟨a, .root listed, rfl⟩
    | step _ member ih =>
      obtain ⟨a, before, rfl⟩ := ih
      rw [moved a before] at member
      obtain ⟨c, listed, rfl⟩ := List.mem_map.mp member
      exact ⟨c, .step before listed, rfl⟩
  · rintro ⟨a, reaches, rfl⟩
    induction reaches with
    | root member => exact .root (List.mem_map_of_mem member)
    | step before member ih =>
      refine .step ih ?_
      rw [moved _ before]
      exact List.mem_map_of_mem member

theorem count_map_of_injOn [DecidableEq ι] [DecidableEq κ] {place : ι → κ} {s : Set ι}
    (apart : s.InjOn place) {list : List ι} (inside : ∀ b ∈ list, b ∈ s) (member : a ∈ s) :
    (list.map place).count (place a) = list.count a := by
  rw [List.count, List.count, List.countP_map]
  refine List.countP_congr fun b listed => ?_
  simp only [Function.comp_apply, beq_iff_eq]
  exact apart.eq_iff (inside b listed) member

/-- Then they have the pointers that the nodes have. -/
theorem inDegree_map [DecidableEq ι] [DecidableEq κ] {place : ι → κ} {next' : κ → List κ}
    (moved : ∀ a, Reaches next roots a → next' (place a) = (next a).map place)
    (apart : Set.InjOn place {a | Reaches next roots a}) (reaches : Reaches next roots a) :
    inDegree next' (roots.map place) (place a) = inDegree next roots a := by
  have image : {b | Reaches next' (roots.map place) b} = place '' {a | Reaches next roots a} :=
    Set.ext fun b => reaches_map moved
  rw [inDegree, inDegree, image, finsum_mem_image apart,
    count_map_of_injOn apart (fun b => Reaches.root) reaches]
  congr 1
  refine finsum_mem_congr rfl fun b before => ?_
  rw [moved b before]
  exact count_map_of_injOn apart (fun c => Reaches.step before) reaches

/-- The pointers of a list of all that is reached. -/
theorem inDegree_eq_count [DecidableEq ι] {list : List ι} (distinct : list.Nodup)
    (listed : ∀ b, b ∈ list ↔ Reaches next roots b) :
    inDegree next roots a = (roots ++ list.flatMap next).count a := by
  have all : {b | Reaches next roots b} = (list.toFinset : Set ι) := by
    ext b
    simp [← listed]
  rw [inDegree, all, finsum_mem_coe_finset, List.sum_toFinset _ distinct, List.count_append,
    List.count_flatMap]
  rfl

end Graphs

/-! ## Depth first -/

section DepthFirst

variable {ι : Type} (next : ι → List ι)

/-- What is marked behind the visit of a node. The fuel is the depth of the recursion. -/
def depthFirst [DecidableEq ι] : Nat → Finset ι → ι → Option (Finset ι)
  | 0, _, _ => none
  | fuel + 1, marked, a =>
    if a ∈ marked then some marked else (next a).foldlM (depthFirst fuel) (insert a marked)

/-- The nodes of `todo` are marked, and so are the successors of all that was marked for them. -/
structure Visited (marked : Finset ι) (todo : List ι) (marked' : Finset ι) : Prop where
  grows : marked ⊆ marked'
  marks : ∀ a ∈ todo, a ∈ marked'
  closed : ∀ a ∈ marked', a ∉ marked → ∀ b ∈ next a, b ∈ marked'
  reached : ∀ a ∈ marked', a ∉ marked → Reaches next todo a

variable {next} {marked marked' marked'' : Finset ι} {roots todo rest : List ι} {a : ι}

theorem Visited.nil : Visited next marked [] marked where
  grows := Finset.Subset.refl marked
  marks := nofun
  closed _ member absent := absurd member absent
  reached _ member absent := absurd member absent

theorem Visited.of_marked (member : a ∈ marked) : Visited next marked [a] marked where
  grows := Finset.Subset.refl marked
  marks b listed := by
    rw [List.mem_singleton.mp listed]
    exact member
  closed _ member absent := absurd member absent
  reached _ member absent := absurd member absent

/-- The node is done when its successors are. -/
theorem Visited.node [DecidableEq ι] (visited : Visited next (insert a marked) (next a) marked') :
    Visited next marked [a] marked' where
  grows := (Finset.subset_insert a marked).trans visited.grows
  marks b listed := by
    rw [List.mem_singleton.mp listed]
    exact visited.grows (Finset.mem_insert_self a marked)
  closed b member absent := by
    by_cases same : b = a
    · subst same
      exact visited.marks
    · exact visited.closed b member (by simp [same, absent])
  reached b member absent := by
    by_cases same : b = a
    · exact .root (List.mem_singleton.mpr same)
    · refine Reaches.trans (fun c listed => ?_) (visited.reached b member (by simp [same, absent]))
      exact .step (.root (List.mem_singleton_self a)) listed

theorem Visited.cons (first : Visited next marked [a] marked')
    (behind : Visited next marked' rest marked'') : Visited next marked (a :: rest) marked'' where
  grows := first.grows.trans behind.grows
  marks b listed := by
    rcases List.mem_cons.mp listed with rfl | listed
    · exact behind.grows (first.marks b (List.mem_singleton_self b))
    · exact behind.marks b listed
  closed b member absent c listed := by
    by_cases before : b ∈ marked'
    · exact behind.grows (first.closed b before absent c listed)
    · exact behind.closed b member before c listed
  reached b member absent := by
    by_cases before : b ∈ marked'
    · refine Reaches.trans (fun c listed => .root ?_) (first.reached b before absent)
      exact List.mem_cons.mpr (.inl (List.mem_singleton.mp listed))
    · refine Reaches.trans (fun c listed => .root ?_) (behind.reached b member before)
      exact List.mem_cons_of_mem a listed

/-- With fuel for the nodes that have no mark the visit ends. -/
theorem depthFirst_ends [DecidableEq ι] {nodes : Finset ι}
    (closed : ∀ a ∈ nodes, ∀ b ∈ next a, b ∈ nodes) {fuel : Nat}
    (members : ∀ a ∈ todo, a ∈ nodes) (enough : (nodes \ marked).card < fuel) :
    ∃ marked', todo.foldlM (depthFirst next fuel) marked = some marked' ∧
      Visited next marked todo marked' := by
  -- On the depth, and then on the nodes that are to be visited.
  induction fuel generalizing marked todo with
  | zero => omega
  | succ fuel deeper =>
    induction todo generalizing marked with
    | nil => exact ⟨marked, rfl, .nil⟩
    | cons a rest ih =>
      have first : ∃ marked', depthFirst next (fuel + 1) marked a = some marked' ∧
          Visited next marked [a] marked' := by
        rw [depthFirst]
        by_cases member : a ∈ marked
        · rw [if_pos member]
          exact ⟨marked, rfl, .of_marked member⟩
        · rw [if_neg member]
          have inside := members a List.mem_cons_self
          have fewer : (nodes \ insert a marked).card < (nodes \ marked).card := by
            refine Finset.card_lt_card ((Finset.ssubset_iff_of_subset ?_).mpr ⟨a, ?_, ?_⟩)
            · exact Finset.sdiff_subset_sdiff (Finset.Subset.refl nodes) (Finset.subset_insert a marked)
            · exact Finset.mem_sdiff.mpr ⟨inside, member⟩
            · simp
          obtain ⟨marked', ran, visited⟩ := deeper (closed a inside)
            (show (nodes \ insert a marked).card < fuel by omega)
          exact ⟨marked', ran, visited.node⟩
      obtain ⟨marked', ran, visited⟩ := first
      have fewer : (nodes \ marked').card ≤ (nodes \ marked).card :=
        Finset.card_le_card (Finset.sdiff_subset_sdiff (Finset.Subset.refl nodes) visited.grows)
      obtain ⟨marked'', runs, behind⟩ :=
        ih (fun b listed => members b (List.mem_cons_of_mem a listed)) (Nat.lt_of_le_of_lt fewer enough)
      refine ⟨marked'', ?_, visited.cons behind⟩
      rw [List.foldlM_cons, ran]
      exact runs

/-- Where nothing was marked before, all that is reached is marked behind it, and nothing else. -/
theorem Visited.mem_iff (visited : Visited next ∅ roots marked) : a ∈ marked ↔ Reaches next roots a := by
  constructor
  · exact fun member => visited.reached a member (Finset.notMem_empty a)
  · exact Reaches.least visited.marks fun b before =>
      visited.closed b before (Finset.notMem_empty b)

end DepthFirst

/-! ## Folds -/

section Folds

variable {ι κ σ τ : Type}

/-- A fold over states that stand for others. -/
theorem foldlM_simulates {f : τ → ι → Option τ} {v : σ → ι → Option σ} {state : σ → τ}
    (todo : List ι) (each : ∀ a ∈ todo, ∀ s, f (state s) a = (v s a).map state) (s : σ) :
    todo.foldlM f (state s) = (todo.foldlM v s).map state := by
  induction todo generalizing s with
  | nil => rfl
  | cons a rest ih =>
    simp only [List.foldlM_cons, each a List.mem_cons_self s]
    cases v s a with
    | none => rfl
    | some t => exact ih (fun b listed => each b (List.mem_cons_of_mem a listed)) t

theorem foldlM_flatMap (f : σ → κ → Option σ) (part : ι → List κ) (list : List ι) (s : σ) :
    (list.flatMap part).foldlM f s = list.foldlM (fun s a => (part a).foldlM f s) s := by
  induction list generalizing s with
  | nil => rfl
  | cons a rest ih =>
    rw [List.flatMap_cons, List.foldlM_append, List.foldlM_cons]
    exact bind_congr ih

end Folds

end Library
