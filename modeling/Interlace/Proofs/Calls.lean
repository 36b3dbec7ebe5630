import Interlace.Proofs.Origins

/-!
# The moments of a run and the calls they fall in

A run is started once, it may park and be woken, and it ends. A job that sets other jobs going is a
call, which lasts until the agenda is what it was below that job. So what is done inside of a call
is done on its stack.
-/

namespace Interlace

variable {b : Behaviour}

namespace Schedule

variable (s : Schedule b) (world : b.World)

/-- Move `i` starts the run at `p` on a stack that has room for a frame. -/
def Starts (i : Nat) (p : Place) : Prop :=
  ∃ recipe args limit, 0 < limit ∧ s.job? world i = some (.start p recipe args limit)

/-- Move `k` steps the bottom frame of the run at `p` to its end. -/
def Ends (k : Nat) (p : Place) (o : Outcome) : Prop :=
  ∃ x r, s.job? world k = some (.drive p x) ∧
    (s.after world k).machine.nodes.find? p = some (.run r) ∧
    (r.frames.turn b x (s.after world k).machine.world).turn = .finished o

/-- Move `k` parks the run at `p`. -/
def Parks (k : Nat) (p : Place) : Prop :=
  s.job? world k = some (.check p) ∧ ∃ r u,
    (s.after world k).machine.nodes.find? p = some (.run r) ∧ r.phase = .invoking u .empty

/-- Move `k` calls the continuation that the parked run at `p` waits for. -/
def Wakes (k : Nat) (p : Place) : Prop :=
  ∃ r u o, s.job? world k = some (.deliver (r.wait :: p) o) ∧
    (s.after world k).machine.nodes.find? p = some (.run r) ∧ r.phase = .parked u

/-- The call that move `c` makes goes on from there until move `k`, and leaves `rest` alone. -/
def Lasts (c k : Nat) (rest : List (Job b)) : Prop :=
  (∃ job, (s.after world c).machine.agenda = job :: rest) ∧
    ∀ l, c < l → l < k → ∃ front, front ≠ [] ∧ (s.after world l).machine.agenda = front ++ rest

/-- Move `k` is made inside of the call that move `c` makes. -/
def Inside (c k : Nat) : Prop := c < k ∧ ∃ rest, s.Lasts world c (k + 1) rest

/-- The call that move `c` makes is over after `k` moves, and not before. -/
def Returns (c k : Nat) : Prop :=
  c < k ∧ ∃ rest, s.Lasts world c k rest ∧ (s.after world k).machine.agenda = rest

/-- Move `c` makes the call that the run at `p`, started by move `i`, was in last when move `k`
came: its start, or the call that woke it last. -/
structure LastCall (i : Nat) (p : Place) (c k : Nat) : Prop where
  before : c < k
  kind : (c = i ∧ ∀ l < k, ¬ s.Parks world l p) ∨ s.Wakes world c p ∧ ∃ l < k, s.Parks world l p
  last : ∀ l, c < l → l < k → ¬ s.Wakes world l p

/-- A job is on the agenda as the last one that belongs to the call made by move `c`. -/
def Pending (c k : Nat) (job : Job b) : Prop :=
  c < k ∧ ∃ rest front, s.Lasts world c k rest ∧
    (s.after world k).machine.agenda = front ++ job :: rest

def Closing (c k : Nat) (job : Job b) (rest : List (Job b)) : Prop :=
  c < k ∧ s.Lasts world c k rest ∧ (s.after world k).machine.agenda = job :: rest

variable {s world}

theorem Lasts.succ {c k : Nat} {rest : List (Job b)} (h : s.Lasts world c k rest)
    (front : List (Job b)) (hFront : front ≠ [])
    (hAgenda : (s.after world k).machine.agenda = front ++ rest) :
    s.Lasts world c (k + 1) rest := by
  refine ⟨h.1, fun l hcl hlk => ?_⟩
  rcases Nat.lt_succ_iff_lt_or_eq.mp hlk with hlk | rfl
  · exact h.2 l hcl hlk
  · exact ⟨front, hFront, hAgenda⟩

theorem Pending.inside {c k : Nat} {job : Job b} (h : s.Pending world c k job) :
    s.Inside world c k := by
  obtain ⟨hck, rest, front, hLasts, hAgenda⟩ := h
  refine ⟨hck, rest, hLasts.succ (front ++ [job]) (by simp) ?_⟩
  rw [hAgenda, List.append_assoc]
  rfl

theorem Pending.mem {c k : Nat} {job : Job b} (h : s.Pending world c k job) :
    job ∈ (s.after world k).machine.agenda := by
  obtain ⟨-, rest, front, -, hAgenda⟩ := h
  simp [hAgenda]

theorem pending_first {c : Nat} {job job' : Job b} {rest : List (Job b)}
    (hAgenda : (s.after world c).machine.agenda = job :: rest) (front : List (Job b))
    (hAfter : (s.after world (c + 1)).machine.agenda = front ++ job' :: rest) :
    s.Pending world c (c + 1) job' := by
  refine ⟨Nat.lt_succ_self c, rest, front, ⟨⟨job, hAgenda⟩, fun l hcl hlk => ?_⟩, hAfter⟩
  omega

theorem Closing.pending {c k : Nat} {job job' : Job b} {rest : List (Job b)}
    (h : s.Closing world c k job rest) (front : List (Job b))
    (hAfter : (s.after world (k + 1)).machine.agenda = front ++ job' :: rest) :
    s.Pending world c (k + 1) job' :=
  ⟨Nat.lt_succ_of_lt h.1, rest, front, h.2.1.succ [job] (by simp) h.2.2, hAfter⟩

theorem Closing.inside {c k : Nat} {job : Job b} {rest : List (Job b)}
    (h : s.Closing world c k job rest) : s.Inside world c k :=
  Pending.inside ⟨h.1, rest, [], h.2.1, h.2.2⟩

theorem Closing.returns {c k : Nat} {job : Job b} {rest : List (Job b)}
    (h : s.Closing world c k job rest)
    (hAfter : (s.after world (k + 1)).machine.agenda = rest) : s.Returns world c (k + 1) :=
  ⟨Nat.lt_succ_of_lt h.1, rest, h.2.1.succ [job] (by simp) h.2.2, hAfter⟩

theorem Pending.cases {c k : Nat} {job : Job b} (h : s.Pending world c k job) :
    (s.Pending world c (k + 1) job ∧
      ∀ first rest, s.job? world k = some first → (s.after world k).machine.agenda = first :: rest →
        job ∈ rest) ∨
    ∃ rest, s.Closing world c k job rest ∧ s.job? world k = some job ∧
      s.after world (k + 1) = (s.after world k).afterJob job rest := by
  obtain ⟨hck, rest, front, hLasts, hAgenda⟩ := h
  have hLasts' : s.Lasts world c (k + 1) rest := by
    refine hLasts.succ (front ++ [job]) (by simp) ?_
    rw [hAgenda, List.append_assoc]
    rfl
  -- Whatever a move puts on the agenda stands in front of the pending job.
  rcases s.after_succ world k with ⟨first, others, hJob, hFirst, hAfter⟩ | ⟨hNone, put, hAdded⟩
  · rw [hFirst] at hAgenda
    cases front with
    | nil =>
      obtain ⟨rfl, rfl⟩ := List.cons.inj hAgenda
      exact Or.inr ⟨others, ⟨hck, hLasts, hFirst⟩, hJob, hAfter⟩
    | cons f front =>
      obtain ⟨rfl, rfl⟩ := List.cons.inj hAgenda
      obtain ⟨put, hPut, -⟩ := (Machine.local_perform
        (m := { (s.after world k).machine with agenda := front ++ job :: rest }) first).agenda
      refine Or.inl ⟨⟨Nat.lt_succ_of_lt hck, rest, put ++ front, hLasts', ?_⟩, ?_⟩
      · rw [hAfter, List.append_assoc]
        exact hPut
      · intro first' others' hJob' hFirst'
        rw [hFirst] at hFirst'
        obtain ⟨rfl, rfl⟩ := List.cons.inj hFirst'
        simp
  · refine Or.inl ⟨⟨Nat.lt_succ_of_lt hck, rest, put ++ front, hLasts', ?_⟩, ?_⟩
    · rw [hAdded.agenda, hAgenda, List.append_assoc]
    · intro first others hJob
      rw [hNone] at hJob
      cases hJob

theorem does_succ {k : Nat} {job : Job b} {rest put : List (Job b)} {p : Place}
    {events : List (Event b)} {node : Option (Node b)}
    (hAfter : s.after world (k + 1) = (s.after world k).afterJob job rest)
    (hDoes : (s.after world k).Does job rest p events put node) :
    (s.after world (k + 1)).log = (s.after world k).log ++ events ∧
      (s.after world (k + 1)).machine.agenda = put ++ rest ∧
      (s.after world (k + 1)).machine.nodes.find? p = node := by
  rw [hAfter]
  exact ⟨hDoes.log, hDoes.agenda, hDoes.node⟩

/-! ## Before the start and after the end -/

theorem find?_of_dormant {i k : Nat} (hki : k ≤ i) {p : Place}
    (hp : p ∈ (s.after world i).machine.dormant) :
    (s.after world k).machine.nodes.find? p = none := by
  cases hFind : (s.after world k).machine.nodes.find? p with
  | none => rfl
  | some node =>
    exact absurd hp (not_dormant_of_touched
      ((s.kept world hki).touched p ((s.sound world k).opened_or_returned hFind)))

theorem find?_of_gone {k k' : Nat} (hkk' : k ≤ k') {p : Place}
    (hReturned : p ∈ (s.after world k).returned)
    (hFind : (s.after world k).machine.nodes.find? p = none) :
    (s.after world k').machine.nodes.find? p = none ∧ p ∈ (s.after world k').returned := by
  induction hkk' with
  | refl => exact ⟨hFind, hReturned⟩
  | @step l _ ih =>
    obtain ⟨hFind, hReturned⟩ := ih
    rcases s.after_succ world l with ⟨job, rest, -, hAgenda, hAfter⟩ | ⟨-, put, hAdded⟩
    · have hSite := (s.sound world l).site_ne_of_returned hAgenda hReturned hFind
      have hNone : (s.after world (l + 1)).machine.nodes.find? p = none := by
        rw [hAfter, History.find?_afterJob hSite, hFind]
      refine ⟨hNone, ?_⟩
      rcases (s.kept world (Nat.le_succ l)).touched p (Or.inr hReturned) with hOpened | hReturned
      · obtain ⟨node, hNode, -⟩ :=
          Table.find?_of_mem_opened (s.sound world (l + 1)).keyed hOpened
        rw [hNone] at hNode
        cases hNode
      · exact hReturned
    · refine ⟨by rw [hAdded.nodes, hFind], ?_⟩
      simp only [History.returned, Machine.returning, History.closed, hAdded.agenda, hAdded.log,
        List.flatMap_append] at hReturned ⊢
      simp only [List.mem_append] at hReturned ⊢
      rcases hReturned with h | h
      · exact Or.inl (Or.inr h)
      · exact Or.inr h

theorem find?_of_ends {l k : Nat} {p : Place} {o : Outcome} (hEnds : s.Ends world l p o)
    (hlk : l < k) : (s.after world k).machine.nodes.find? p = none := by
  obtain ⟨x, r, hJob, hFind, hTurn⟩ := hEnds
  obtain ⟨rest, hAgenda, hAfter⟩ := s.after_succ_of_job world hJob
  have hTouched := (s.kept world (Nat.le_succ l)).touched p
    (Or.inl ((s.sound world l).opened_of_run hFind))
  have hNone : (s.after world (l + 1)).machine.nodes.find? p = none := by
    rw [hAfter]
    cases (s.sound world l).run_step hAgenda hFind with
    | elsewhere hSite => exact absurd rfl hSite
    | next _ hNext | await _ hNext =>
      rw [hTurn] at hNext
      cases hNext
    | finish _ _ _ hDoes | escape _ _ _ _ _ hDoes => exact hDoes.node
  refine (find?_of_gone (Nat.succ_le_of_lt hlk) ?_ hNone).1
  rcases hTouched with hOpened | hReturned
  · obtain ⟨node, hNode, -⟩ := Table.find?_of_mem_opened (s.sound world (l + 1)).keyed hOpened
    rw [hNone] at hNode
    cases hNode
  · exact hReturned

theorem ends_unique {l l' : Nat} {p : Place} {o o' : Outcome} (hEnds : s.Ends world l p o)
    (hEnds' : s.Ends world l' p o') : l = l' ∧ o = o' := by
  have hOrder : ∀ {l l' o o'}, s.Ends world l p o → s.Ends world l' p o' → ¬ l < l' := by
    intro l l' o o' hEnds hEnds' hll'
    obtain ⟨x, r, -, hFind, -⟩ := hEnds'
    rw [find?_of_ends hEnds hll'] at hFind
    cases hFind
  obtain rfl : l = l' := by
    have := hOrder hEnds hEnds'
    have := hOrder hEnds' hEnds
    omega
  obtain ⟨x, r, hJob, hFind, hTurn⟩ := hEnds
  obtain ⟨x', r', hJob', hFind', hTurn'⟩ := hEnds'
  rw [hJob] at hJob'
  rw [hFind] at hFind'
  cases hJob'
  cases hFind'
  rw [hTurn] at hTurn'
  cases hTurn'
  exact ⟨rfl, rfl⟩

end Schedule

end Interlace
