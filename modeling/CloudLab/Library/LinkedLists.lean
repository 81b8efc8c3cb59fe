import Mathlib

/-!
# Linked lists

Links in memory, each with a value and the address of the next one, where no address is the null
pointer. A segment leads from one pointer to another; one that leads to the null pointer is all
that can be reached, and visits no link twice.
-/
namespace Library

/-- What is read at an address: a value, and where the next link is. -/
abbrev Links (ι α : Type) := ι → Option (α × Option ι)

namespace Links

variable {ι α : Type}

/-- The addresses and values of the links from `first` up to where `last` points. -/
def Segment (links : Links ι α) : Option ι → List (ι × α) → Option ι → Prop
  | first, [], last => first = last
  | first, link :: rest, last => first = some link.1 ∧
      ∃ next, links link.1 = some (link.2, next) ∧ links.Segment next rest last

variable {links links' : Links ι α} {first last : Option ι} {list list' : List (ι × α)}

theorem segment_append :
    links.Segment first (list ++ list') last ↔
      ∃ middle, links.Segment first list middle ∧ links.Segment middle list' last := by
  induction list generalizing first with
  | nil => simp [Segment]
  | cons link rest ih =>
    simp only [List.cons_append, Segment, ih]
    constructor
    · rintro ⟨here, next, read, middle, before, behind⟩
      exact ⟨middle, ⟨here, next, read, before⟩, behind⟩
    · rintro ⟨middle, ⟨here, next, read, before⟩, behind⟩
      exact ⟨here, next, read, middle, before, behind⟩

theorem segment_singleton {a : ι} {value : α} :
    links.Segment first [(a, value)] last ↔ first = some a ∧ links a = some (value, last) := by
  simp [Segment]

/-- Only the links of a segment matter. -/
theorem Segment.congr (segment : links.Segment first list last)
    (same : ∀ link ∈ list, links' link.1 = links link.1) : links'.Segment first list last := by
  induction list generalizing first with
  | nil => exact segment
  | cons link rest ih =>
    obtain ⟨here, next, read, behind⟩ := segment
    refine ⟨here, next, (same link List.mem_cons_self).trans read, ih behind fun other member => ?_⟩
    exact same other (List.mem_cons_of_mem link member)

/-- A link that is in the segment is there. -/
theorem Segment.isSome (segment : links.Segment first list last) {link : ι × α}
    (member : link ∈ list) : (links link.1).isSome := by
  induction list generalizing first with
  | nil => cases member
  | cons head rest ih =>
    obtain ⟨_, next, read, behind⟩ := segment
    rcases List.mem_cons.mp member with rfl | member
    · rw [read]
      rfl
    · exact ih behind member

/-- There is one way to the end. -/
theorem Segment.unique (segment : links.Segment first list none)
    (segment' : links.Segment first list' none) : list = list' := by
  induction list generalizing first list' with
  | nil =>
    obtain rfl := segment
    cases list' with
    | nil => rfl
    | cons link rest => cases segment'.1
  | cons link rest ih =>
    obtain ⟨rfl, next, read, behind⟩ := segment
    cases list' with
    | nil => cases segment'
    | cons link' rest' =>
      obtain ⟨here, next', read', behind'⟩ := segment'
      obtain ⟨a, value⟩ := link
      obtain ⟨a', value'⟩ := link'
      obtain rfl := Option.some.inj here
      obtain ⟨rfl, rfl⟩ := Prod.mk.inj (Option.some.inj (read.symm.trans read'))
      rw [ih behind behind']

/-- So none of its links comes again behind itself. -/
theorem Segment.nodup (segment : links.Segment first list none) : (list.map Prod.fst).Nodup := by
  induction list generalizing first with
  | nil => exact .nil
  | cons link rest ih =>
    have whole := segment
    obtain ⟨rfl, next, read, behind⟩ := segment
    rw [List.map_cons, List.nodup_cons]
    refine ⟨fun again => ?_, ih behind⟩
    obtain ⟨other, member, same⟩ := List.mem_map.mp again
    obtain ⟨before, after, rfl⟩ := List.append_of_mem member
    obtain ⟨middle, _, shorter⟩ := segment_append.mp behind
    obtain ⟨rfl, _⟩ := id shorter
    rw [same] at shorter
    have length := congrArg List.length (whole.unique shorter)
    simp only [List.length_cons, List.length_append] at length
    omega

theorem Segment.eq_nil_iff (segment : links.Segment first list none) :
    first = none ↔ list = [] := by
  cases list with
  | nil => exact iff_of_true segment rfl
  | cons link rest =>
    obtain ⟨rfl, _⟩ := segment
    simp

end Links

end Library
