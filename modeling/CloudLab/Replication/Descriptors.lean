import CloudLab.Replication.ClientPort

/-!
# Open descriptors (`task3/source/server.cpp`)

Neither of the loops of a server ever calls `close`: the accepted connection stays open behind
its round, and so do the connections that the leader makes for a PUT, those whose `connect`
failed included. Only sockets are counted here, not the files of the database.
-/
namespace CloudLab.Replication

/-- The descriptors of a process; their numbers are bounded by `RLIMIT_NOFILE`. -/
structure Table where
  fds : Finset Nat
  limit : Nat
  within : ∀ fd ∈ fds, fd < limit

namespace Table

/-- `accept` and `socket` take the lowest number that is free, and fail when there is none. -/
def open_ (t : Table) : Option (Nat × Table) :=
  if free : ∃ fd, fd < t.limit ∧ fd ∉ t.fds then
    some (Nat.find free,
      { t with
        fds := insert (Nat.find free) t.fds
        within := by
          intro fd member
          rcases Finset.mem_insert.mp member with rfl | old
          · exact (Nat.find_spec free).1
          · exact t.within fd old })
  else none

theorem open_spec {t t' : Table} {fd : Nat} (opened : t.open_ = some (fd, t')) :
    fd ∉ t.fds ∧ t'.fds = insert fd t.fds ∧ t'.limit = t.limit := by
  unfold open_ at opened
  split at opened
  next free =>
    cases opened
    exact ⟨(Nat.find_spec free).2, rfl, rfl⟩
  next => cases opened

/-- A table with fewer descriptors than its limit has a free number. -/
theorem open_isSome_iff (t : Table) : t.open_.isSome = true ↔ t.fds.card < t.limit := by
  have below : t.fds ⊆ Finset.range t.limit :=
    fun fd member => Finset.mem_range.mpr (t.within fd member)
  have size := Finset.card_range t.limit
  unfold open_
  constructor
  · split
    next free =>
      obtain ⟨fd, small, closed⟩ := free
      intro _
      -- A number below the limit is missing, so there are fewer than the limit.
      have missing : t.fds ≠ Finset.range t.limit := by
        intro all
        rw [all] at closed
        exact closed (Finset.mem_range.mpr small)
      have fewer := Finset.card_lt_card (below.ssubset_of_ne missing)
      rwa [size] at fewer
    next => simp
  · intro fewer
    -- If all numbers were taken, there would be as many as the limit.
    have free : ∃ fd, fd < t.limit ∧ fd ∉ t.fds := by
      by_contra full
      have all : Finset.range t.limit ⊆ t.fds := by
        intro fd small
        by_contra closed
        exact full ⟨fd, Finset.mem_range.mp small, closed⟩
      have more := Finset.card_le_card all
      omega
    rw [dif_pos free]
    rfl

end Table

/-- `connect_socket`, `up` standing for what comes behind `socket`. The descriptor is open in
either case, also when -1 is returned. -/
def openConnection (t : Table) (up : Bool) : Option Nat × Table :=
  match t.open_ with
  | some (fd, t) => (if up then some fd else none, t)
  | none => (none, t)

/-- What a server takes up: a request on the client port, with the servers it can connect to,
or a connection of the leader. -/
inductive Event where
  | request (type : OperationType) (connects : UInt16 → Bool)
  | entries

/-- One round of the loop that takes up an event. There is no next round when `accept` fails:
`read_n` does not come back from the descriptor -1. Nor does the leader accept connections to
the port for entries. -/
def Role.openRound (role : Role) (c : Cluster) (t : Table) (e : Event) : Option Table :=
  match role, e with
  | .leader, .entries => none
  | .leader, .request .put connects =>
    t.open_.map fun (_, t) => c.followers.foldl (fun t port => (openConnection t (connects port)).2) t
  | _, _ => t.open_.map Prod.snd

def Role.openRounds (role : Role) (c : Cluster) (t : Table) (events : List Event) : Option Table :=
  events.foldlM (role.openRound c) t

/-- Between two rounds the descriptors are those at the start of the loop, in every state of
the run. -/
def GivenBack (role : Role) (c : Cluster) (t : Table) (events : List Event) : Prop :=
  ∀ before after u, events = before ++ after → role.openRounds c t before = some u → u.fds = t.fds

theorem openConnection_grows (t : Table) (up : Bool) :
    t.fds ⊆ (openConnection t up).2.fds ∧ (openConnection t up).2.limit = t.limit := by
  unfold openConnection
  split
  next fd t' opened =>
    obtain ⟨_, same, limit⟩ := Table.open_spec opened
    exact ⟨same ▸ Finset.subset_insert fd t.fds, limit⟩
  next => exact ⟨subset_rfl, rfl⟩

theorem foldl_openConnection_grows (connects : UInt16 → Bool) (ports : List UInt16) (t : Table) :
    t.fds ⊆ (ports.foldl (fun t port => (openConnection t (connects port)).2) t).fds ∧
      (ports.foldl (fun t port => (openConnection t (connects port)).2) t).limit = t.limit := by
  induction ports generalizing t with
  | nil => exact ⟨subset_rfl, rfl⟩
  | cons port ports ih =>
    obtain ⟨more, limit⟩ := openConnection_grows t (connects port)
    obtain ⟨rest, limit'⟩ := ih (openConnection t (connects port)).2
    exact ⟨more.trans rest, limit'.trans limit⟩

/-- A round leaves at least the accepted connection open. -/
theorem openRound_grows {role : Role} {c : Cluster} {t t' : Table} {e : Event}
    (served : role.openRound c t e = some t') :
    t.fds.card + 1 ≤ t'.fds.card ∧ t'.limit = t.limit := by
  -- Whatever follows the `accept` only opens more.
  have accepted : ∃ fd u, t.open_ = some (fd, u) ∧ u.fds ⊆ t'.fds ∧ t'.limit = u.limit := by
    unfold Role.openRound at served
    split at served
    · cases served
    · obtain ⟨⟨fd, u⟩, opened, rfl⟩ := Option.map_eq_some_iff.mp served
      exact ⟨fd, u, opened, foldl_openConnection_grows _ c.followers u⟩
    · obtain ⟨⟨fd, u⟩, opened, rfl⟩ := Option.map_eq_some_iff.mp served
      exact ⟨fd, u, opened, subset_rfl, rfl⟩
  obtain ⟨fd, u, opened, more, limit⟩ := accepted
  obtain ⟨fresh, same, limit'⟩ := Table.open_spec opened
  constructor
  · rw [← Finset.card_insert_of_notMem fresh, ← same]
    exact Finset.card_le_card more
  · rw [limit, limit']

/-- Every round of a run costs a descriptor. -/
theorem openRounds_grows {role : Role} {c : Cluster} {t t' : Table} {events : List Event}
    (ran : role.openRounds c t events = some t') :
    t.fds.card + events.length ≤ t'.fds.card ∧ t'.limit = t.limit := by
  induction events generalizing t with
  | nil =>
    cases ran
    exact ⟨Nat.le_refl _, rfl⟩
  | cons e events ih =>
    obtain ⟨u, served, rest⟩ := Option.bind_eq_some_iff.mp ran
    obtain ⟨one, limit⟩ := openRound_grows served
    obtain ⟨others, limit'⟩ := ih rest
    constructor
    · rw [List.length_cons]
      omega
    · rw [limit', limit]

/-- So traffic alone uses the table up: no run is longer than the descriptors that were free. -/
theorem openRounds_length_le {role : Role} {c : Cluster} {t t' : Table} {events : List Event}
    (ran : role.openRounds c t events = some t') : t.fds.card + events.length ≤ t.limit := by
  obtain ⟨more, limit⟩ := openRounds_grows ran
  have below : t'.fds ⊆ Finset.range t'.limit :=
    fun fd member => Finset.mem_range.mpr (t'.within fd member)
  have size := Finset.card_le_card below
  rw [Finset.card_range, limit] at size
  omega

/-- In a run that goes through, the descriptors are given back only if nothing was accepted. -/
theorem givenBack_iff (role : Role) (c : Cluster) (t t' : Table) (events : List Event)
    (ran : role.openRounds c t events = some t') : GivenBack role c t events ↔ events = [] := by
  constructor
  · intro back
    have same := back events [] t' (by simp) ran
    obtain ⟨more, _⟩ := openRounds_grows ran
    rw [same] at more
    exact List.eq_nil_of_length_eq_zero (by omega)
  · rintro rfl before after u split run
    obtain ⟨rfl, _⟩ := List.append_eq_nil_iff.mp split.symm
    cases run
    rfl

/-- Standard input, output and error, the two ports and the two connections of the join phase,
with a limit of 1024. -/
def Table.joined : Table where
  fds := {0, 1, 2, 3, 4, 5, 6}
  limit := 1024
  within := by simp

/-- The leader serves one GET. -/
theorem openRounds_get : ∃ t', Role.leader.openRounds .three .joined
    [.request .get fun _ => true] = some t' := by
  obtain ⟨⟨fd, t'⟩, opened⟩ := Option.isSome_iff_exists.mp
    ((Table.open_isSome_iff .joined).mpr (by decide))
  exact ⟨t', by simp [Role.openRounds, Role.openRound, opened]⟩

theorem givenBack_iff_get : ∃ t', Role.leader.openRounds .three .joined
      [.request .get fun _ => true] = some t' ∧
    (GivenBack .leader .three .joined [.request .get fun _ => true] ↔
      [Event.request .get fun _ => true] = []) := by
  obtain ⟨t', ran⟩ := openRounds_get
  exact ⟨t', ran, givenBack_iff .leader .three .joined t' [.request .get fun _ => true] ran⟩

theorem not_givenBack_get :
    ¬GivenBack .leader .three .joined [.request .get fun _ => true] := by
  intro back
  obtain ⟨t', ran⟩ := openRounds_get
  have same := back [.request .get fun _ => true] [] t' rfl ran
  obtain ⟨more, _⟩ := openRounds_grows ran
  rw [same, List.length_singleton] at more
  omega

end CloudLab.Replication
