import Mathlib

/-!
# Stores and ordered maps

`Store` is a key-value store seen from outside: what each key holds. A `Write` is on its
way to a store, and may reach it in front of earlier ones. `StdMap` is `std::map`, a list
of entries in ascending order of their keys, so that iteration over it is defined; its
`insert` leaves an entry alone that is there already. A partial function is applied to the
entries one by one with `List.mapM`.
-/
namespace Library

/-! ## Stores -/

abbrev Store (K V : Type) := K → Option V

namespace Store

variable {K V : Type} [DecidableEq K]

def empty : Store K V := fun _ => none

def put (db : Store K V) (k : K) (v : V) : Store K V := Function.update db k (some v)

def delete (db : Store K V) (k : K) : Store K V := Function.update db k none

omit [DecidableEq K] in
@[simp] theorem empty_apply (k : K) : (empty : Store K V) k = none := rfl

theorem put_apply (db : Store K V) (k j : K) (v : V) :
    db.put k v j = if j = k then some v else db j := Function.update_apply db k (some v) j

theorem delete_apply (db : Store K V) (k j : K) :
    db.delete k j = if j = k then none else db j := Function.update_apply db k none j

@[simp] theorem put_self (db : Store K V) (k : K) (v : V) : db.put k v k = some v := by
  simp [put_apply]

/-- Deleting every listed key leaves the other keys alone. -/
theorem foldl_delete (db : Store K V) (ks : List K) (j : K) :
    ks.foldl delete db j = if j ∈ ks then none else db j := by
  induction ks generalizing db with
  | nil => simp
  | cons k ks ih =>
    rw [List.foldl_cons, ih, delete_apply]
    by_cases here : j = k <;> by_cases later : j ∈ ks <;> simp [here, later]

/-- The last of a sequence of puts decides. -/
theorem foldl_put_of_not_mem (db : Store K V) (entries : List (K × V)) (j : K)
    (absent : j ∉ entries.map Prod.fst) :
    entries.foldl (fun db e => db.put e.1 e.2) db j = db j := by
  induction entries generalizing db with
  | nil => rfl
  | cons e rest ih =>
    simp only [List.map_cons, List.mem_cons, not_or] at absent
    rw [List.foldl_cons, ih _ absent.2, put_apply, if_neg absent.1]

theorem foldl_put_of_mem (db : Store K V) (entries : List (K × V))
    (distinct : (entries.map Prod.fst).Nodup) (k : K) (v : V) (member : (k, v) ∈ entries) :
    entries.foldl (fun db e => db.put e.1 e.2) db k = some v := by
  induction entries generalizing db with
  | nil => simp at member
  | cons e rest ih =>
    simp only [List.map_cons, List.nodup_cons] at distinct
    rw [List.foldl_cons]
    rcases List.mem_cons.mp member with rfl | later
    · rw [foldl_put_of_not_mem _ _ _ distinct.1, put_self]
    · exact ih _ distinct.2 later

omit [DecidableEq K] in
/-- Where each step may write a key, the last write decides. -/
theorem foldl_written {α : Type} {f : Store K V → α → Store K V} {k : K} {written : α → Option V}
    {xs : List α} (each : ∀ x ∈ xs, ∀ db : Store K V, f db x k = (written x).or (db k))
    (db : Store K V) : xs.foldl f db k = (xs.filterMap written).getLast?.or (db k) := by
  induction xs generalizing db with
  | nil => rfl
  | cons x xs ih =>
    rw [List.foldl_cons, ih fun y member => each y (List.mem_cons_of_mem _ member),
      each x List.mem_cons_self]
    rcases value : written x with _ | v
    · rw [List.filterMap_cons_none value]
      rfl
    · rw [List.filterMap_cons_some value, List.getLast?_cons]
      rcases (xs.filterMap written).getLast? with _ | w <;> rfl

/-- Entries with distinct keys are what a store filled from them holds. -/
theorem foldl_put_empty_iff (entries : List (K × V)) (distinct : (entries.map Prod.fst).Nodup)
    (k : K) (v : V) :
    entries.foldl (fun db e => db.put e.1 e.2) empty k = some v ↔ (k, v) ∈ entries := by
  constructor
  · intro held
    by_cases listed : k ∈ entries.map Prod.fst
    · obtain ⟨⟨_, w⟩, member, rfl⟩ := List.mem_map.mp listed
      rw [foldl_put_of_mem _ _ distinct _ w member] at held
      rwa [← Option.some.inj held]
    · rw [foldl_put_of_not_mem _ _ _ listed] at held
      cases held
  · exact foldl_put_of_mem _ _ distinct k v

end Store

/-! ## Writes on their way to a store -/

structure Write (T K V : Type) where
  owner : T
  key : K
  value : V
  deriving DecidableEq

section Writes

variable {T K V : Type} [DecidableEq T] [DecidableEq K]

/-- The store behind all the writes, in their order. -/
def Store.flush (db : Store K V) (writes : List (Write T K V)) : Store K V :=
  writes.foldl (fun db w => db.put w.key w.value) db

def writesTo (writes : List (Write T K V)) (k : K) : List (Write T K V) :=
  writes.filter fun w => w.key = k

/-- The last write to its key would reach the store in front of another one to it. -/
def Overtakes (writes : List (Write T K V)) (w : Write T K V) : Prop :=
  (writesTo writes w.key).getLast? = some w ∧ writesTo writes w.key ≠ [w]

instance [DecidableEq V] (writes : List (Write T K V)) (w : Write T K V) :
    Decidable (Overtakes writes w) :=
  inferInstanceAs (Decidable (_ ∧ _))

omit [DecidableEq T] in
@[simp] theorem Store.flush_nil (db : Store K V) : db.flush ([] : List (Write T K V)) = db := rfl

omit [DecidableEq T] in
theorem Store.flush_append (db : Store K V) (writes : List (Write T K V)) (w : Write T K V) :
    db.flush (writes ++ [w]) = (db.flush writes).put w.key w.value := List.foldl_append

omit [DecidableEq T] in
/-- A key ends up with the last write to it. -/
theorem Store.flush_apply (db : Store K V) (writes : List (Write T K V)) (k : K) :
    db.flush writes k = ((writesTo writes k).getLast?.map Write.value).or (db k) := by
  induction writes using List.reverseRecOn with
  | nil => rfl
  | append_singleton writes w ih =>
    rw [flush_append, put_apply, writesTo, List.filter_append]
    by_cases here : w.key = k
    · simp [here]
    · rw [if_neg fun same => here same.symm, ih, writesTo]
      simp [here]

/-- A write may reach the store in front of the others unless it overtakes one. -/
theorem Store.flush_arrived {db : Store K V} {writes : List (Write T K V)} {w : Write T K V}
    (owners : (writes.map Write.owner).Nodup) (member : w ∈ writes) (next : ¬Overtakes writes w) :
    (db.put w.key w.value).flush (writes.filter fun e => e.owner ≠ w.owner) = db.flush writes := by
  have only : ∀ e ∈ writes, e.owner = w.owner → e = w := fun e listed same =>
    List.inj_on_of_nodup_map owners listed member same
  funext k
  rw [flush_apply, flush_apply, put_apply]
  by_cases here : k = w.key
  · subst here
    have listed : w ∈ writesTo writes w.key := List.mem_filter.mpr ⟨member, by simp⟩
    obtain ⟨e, last⟩ := Option.ne_none_iff_exists'.mp fun none =>
      List.ne_nil_of_mem listed (List.getLast?_eq_none_iff.mp none)
    by_cases own : e = w
    -- The last write arrives: it is the only one, and the key has its value from now on.
    · subst own
      have alone : writesTo writes e.key = [e] := by
        by_contra others
        exact next ⟨last, others⟩
      have none : writesTo (writes.filter fun f => f.owner ≠ e.owner) e.key = [] := by
        rw [writesTo, List.filter_comm, ← writesTo, alone]
        simp
      rw [none, last]
      simp
    -- Another write comes last, and still does.
    · obtain ⟨front, split⟩ := List.getLast?_eq_some_iff.mp last
      have inside : e ∈ writes := List.mem_of_mem_filter (List.mem_of_getLast? last)
      have stays : e.owner ≠ w.owner := fun same => own (only e inside same)
      have still : (writesTo (writes.filter fun f => f.owner ≠ w.owner) w.key).getLast? = some e := by
        rw [writesTo, List.filter_comm, ← writesTo, split, List.filter_append]
        simp [stays]
      rw [still, last]
      rfl
  · have same : writesTo (writes.filter fun e => e.owner ≠ w.owner) k = writesTo writes k := by
      rw [writesTo, List.filter_comm, ← writesTo, List.filter_eq_self]
      intro e listed
      obtain ⟨inside, key⟩ := List.mem_filter.mp listed
      rw [decide_eq_true_iff] at key ⊢
      intro own
      exact here (by rw [← key, only e inside own])
    rw [same, if_neg here]

end Writes

/-! ## Partial functions on lists -/

section Lists

variable {α β : Type} {f : α → Option β}

theorem mem_of_mapM {xs : List α} {ys : List β} (all : xs.mapM f = some ys) {y : β}
    (member : y ∈ ys) : ∃ x ∈ xs, f x = some y := by
  induction xs generalizing ys with
  | nil =>
    obtain rfl : ys = [] := by simpa using all.symm
    cases member
  | cons x xs ih =>
    simp only [List.mapM_cons, Option.pure_def, Option.bind_eq_bind, Option.bind_eq_some_iff,
      Option.some.injEq] at all
    obtain ⟨z, first, zs, rest, rfl⟩ := all
    rcases List.mem_cons.mp member with rfl | later
    · exact ⟨x, by simp, first⟩
    · obtain ⟨x', hx, value⟩ := ih rest later
      exact ⟨x', by simp [hx], value⟩

theorem mapM_of_forall {g : α → β} {xs : List α} (each : ∀ x ∈ xs, f x = some (g x)) :
    xs.mapM f = some (xs.map g) := by
  induction xs with
  | nil => rfl
  | cons x xs ih =>
    have first := each x (by simp)
    have rest := ih fun y hy => each y (by simp [hy])
    simp [List.mapM_cons, first, rest]

theorem mapM_isSome_iff (xs : List α) : (xs.mapM f).isSome ↔ ∀ x ∈ xs, (f x).isSome := by
  induction xs with
  | nil => simp
  | cons x xs ih =>
    rw [List.mapM_cons, List.forall_mem_cons, ← ih]
    cases f x <;> cases xs.mapM f <;> simp

end Lists

/-! ## Ordered maps -/

structure StdMap (K V : Type) [LinearOrder K] where
  entries : List (K × V)
  sorted : entries.Pairwise fun a b => a.1 < b.1

namespace StdMap

variable {K V : Type} [LinearOrder K]

instance : EmptyCollection (StdMap K V) := ⟨⟨[], .nil⟩⟩

instance [DecidableEq V] : DecidableEq (StdMap K V) := fun m n =>
  decidable_of_iff (m.entries = n.entries) (by cases m; cases n; simp)

def findEntry (k : K) : List (K × V) → Option V
  | [] => none
  | e :: rest => if k = e.1 then some e.2 else findEntry k rest

/-- `find(k)->second`; `none` is `end()`. -/
def find? (m : StdMap K V) (k : K) : Option V := findEntry k m.entries

/-- The entry goes in front of the first greater key, unless its key is there. -/
def insertEntry (k : K) (v : V) : List (K × V) → List (K × V)
  | [] => [(k, v)]
  | e :: rest =>
    if k < e.1 then (k, v) :: e :: rest
    else if k = e.1 then e :: rest
    else e :: insertEntry k v rest

theorem mem_insertEntry {k : K} {v : V} {entries : List (K × V)} {e : K × V}
    (member : e ∈ insertEntry k v entries) : e = (k, v) ∨ e ∈ entries := by
  induction entries with
  | nil => simpa [insertEntry] using member
  | cons f rest ih =>
    unfold insertEntry at member
    split at member
    · simpa using member
    · split at member
      · exact Or.inr member
      · rcases List.mem_cons.mp member with rfl | member
        · simp
        · rcases ih member with new | old
          · exact Or.inl new
          · exact Or.inr (List.mem_cons_of_mem _ old)

theorem insertEntry_sorted (k : K) (v : V) (entries : List (K × V))
    (sorted : entries.Pairwise fun a b => a.1 < b.1) :
    (insertEntry k v entries).Pairwise fun a b => a.1 < b.1 := by
  induction entries with
  | nil => simp [insertEntry]
  | cons e rest ih =>
    obtain ⟨above, tail⟩ := List.pairwise_cons.mp sorted
    unfold insertEntry
    split
    -- The new entry comes first.
    next less =>
      refine List.pairwise_cons.mpr ⟨fun f member => ?_, sorted⟩
      rcases List.mem_cons.mp member with rfl | member
      · exact less
      · exact lt_trans less (above f member)
    -- Its key is there already, or it goes behind `e`.
    next notLess =>
      split
      · exact sorted
      next different =>
        refine List.pairwise_cons.mpr ⟨fun f member => ?_, ih tail⟩
        rcases mem_insertEntry member with rfl | old
        · exact lt_of_le_of_ne (not_lt.mp notLess) (Ne.symm different)
        · exact above f old

/-- `std::map::insert` -/
def insert (m : StdMap K V) (k : K) (v : V) : StdMap K V :=
  ⟨insertEntry k v m.entries, insertEntry_sorted k v m.entries m.sorted⟩

@[simp] theorem find?_empty (k : K) : (∅ : StdMap K V).find? k = none := rfl

private theorem findEntry_of_above {k : K} {entries : List (K × V)}
    (above : ∀ e ∈ entries, k < e.1) : findEntry k entries = none := by
  induction entries with
  | nil => rfl
  | cons e rest ih =>
    have less := above e (by simp)
    rw [findEntry, if_neg (ne_of_lt less), ih (fun f member => above f (by simp [member]))]

private theorem findEntry_insertEntry (k j : K) (v : V) (entries : List (K × V))
    (sorted : entries.Pairwise fun a b => a.1 < b.1) :
    findEntry j (insertEntry k v entries) =
      if j = k then some ((findEntry k entries).getD v) else findEntry j entries := by
  induction entries with
  | nil => simp [insertEntry, findEntry]
  | cons e rest ih =>
    obtain ⟨above, tail⟩ := List.pairwise_cons.mp sorted
    unfold insertEntry
    split
    next less =>
      have absent : findEntry k (e :: rest) = none := by
        apply findEntry_of_above
        intro f member
        rcases List.mem_cons.mp member with rfl | member
        · exact less
        · exact lt_trans less (above f member)
      rw [absent, findEntry]
      simp
    next notLess =>
      split
      next same =>
        subst same
        by_cases here : j = e.1 <;> simp [findEntry, here]
      next different =>
        simp only [findEntry, ih tail, if_neg different]
        by_cases here : j = e.1
        · have other : j ≠ k := fun same => different (same ▸ here)
          rw [if_pos here, if_neg other, if_pos here]
        · simp only [if_neg here]

/-- An entry that is there already keeps its value. -/
theorem find?_insert (m : StdMap K V) (k j : K) (v : V) :
    (m.insert k v).find? j = if j = k then some ((m.find? k).getD v) else m.find? j :=
  findEntry_insertEntry k j v m.entries m.sorted

theorem mem_entries_iff (m : StdMap K V) (k : K) (v : V) :
    (k, v) ∈ m.entries ↔ m.find? k = some v := by
  rcases m with ⟨entries, sorted⟩
  simp only [find?]
  induction entries with
  | nil => simp [findEntry]
  | cons e rest ih =>
    obtain ⟨above, tail⟩ := List.pairwise_cons.mp sorted
    rw [List.mem_cons, ih tail, findEntry]
    by_cases here : k = e.1
    · have absent : findEntry k rest = none :=
        findEntry_of_above (fun f member => here ▸ above f member)
      rw [absent, if_pos here, Option.some.injEq]
      constructor
      · rintro (rfl | impossible)
        · rfl
        · cases impossible
      · intro value
        exact Or.inl (Prod.ext here value.symm)
    · simp [here, Prod.ext_iff]

theorem keys_nodup (m : StdMap K V) : (m.entries.map Prod.fst).Nodup := by
  rw [List.nodup_iff_pairwise_ne, List.pairwise_map]
  exact m.sorted.imp fun less => ne_of_lt less

end StdMap

end Library
