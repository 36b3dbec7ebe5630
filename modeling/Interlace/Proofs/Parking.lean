import Interlace.Proofs.Quests
import Interlace.Proofs.Quiet

/-!
# When a run is parked

A run looks for the result of its work when the invocation of the work is over, and it is parked
just if the result has not come by then. At that moment nothing is on the agenda that has to do with
the work. So a join whose items have been started has got its answer, was given up, or is left open
because no item has failed and some item has not reported.
-/

namespace Interlace

variable {b : Behaviour}

namespace Schedule

variable {s : Schedule b} {world : b.World}

/-! ## Looking for a result -/

section

variable {l k : Nat} {p : Place} {x : Input} {r : Run b} {work : Work b.Recipe b.Note} {u : Uptake}
  (hLast : s.LastTurn world l k p x r) (hTurn : (s.turned world l x r).turn = .await work u)
  (hCheck : s.job? world k = some (.check p))
include hLast hTurn hCheck

theorem LastTurn.looks : ∃ rest, (s.after world l).machine.agenda = .drive p x :: rest ∧
    (s.after world k).machine.agenda = .check p :: rest ∧
      (s.Parks world k p ↔ ¬ s.Closed world k (r.wait :: p)) := by
  obtain ⟨rest, hAgenda, -⟩ := s.after_succ_of_job world hLast.turns.job
  have hPursues := pursues hLast.turns hTurn hAgenda hLast.before
  have hStill : ∀ n < k, ∀ y r', s.Turns world n p y r' →
      ¬ (s.quest world l p x r work u rest).Back r' := by
    intro n hnk y r' hTurns hBack
    have hWait : r'.wait = r.wait + 1 := hBack.wait
    rcases Nat.lt_trichotomy n l with hnl | rfl | hln
    · have := (wait_lt hTurns hLast.turns hnl).1
      omega
    · have hSame := hLast.turns.find.symm.trans hTurns.find
      cases hSame
      omega
    · exact hLast.last n hln hnk y hTurns.job
  obtain ⟨-, -, -, -, -, hNow⟩ := hPursues.looks hCheck hStill
  exact ⟨rest, hAgenda, hNow, hPursues.parks_iff hCheck hStill⟩

theorem LastTurn.parks_iff : s.Parks world k p ↔ ¬ s.Closed world k (r.wait :: p) := by
  obtain ⟨-, -, -, hParks⟩ := hLast.looks hTurn hCheck
  exact hParks

theorem LastTurn.quiet : (s.after world k).Quiet (r.wait :: p) := by
  obtain ⟨rest, hAgenda, hNow, -⟩ := hLast.looks hTurn hCheck
  have hAsked := agenda_of_await_at hLast.turns hTurn hAgenda
  -- The invocation of the work is done, and the agenda is what stood below it.
  rcases waits_or_done hLast.before hAsked with ⟨front, hFront⟩ | ⟨c, -, -, -, hInvoke⟩
  · rw [hNow] at hFront
    have := congrArg List.length hFront
    simp only [List.length_cons, List.length_append] at this
    omega
  · rw [History.Quiet, hNow]
    exact (s.sound world c).quiet_below hInvoke (List.mem_singleton_self _)

end

theorem LastTurn.not_check {l k : Nat} {p : Place} {x y : Input} {r : Run b}
    (hLast : s.LastTurn world l k p x r) (hTurn : (s.turned world l x r).turn = .next y) :
    s.job? world k ≠ some (.check p) := by
  intro hCheck
  obtain ⟨i, -, hLimit, recipe, args, hStart⟩ := hLast.turns.start
  have hDriven : ∀ {z}, .drive p z ∉ (s.after world k).machine.agenda := fun hDrive => by
    cases steering_unique (p := p) hCheck hDrive (by simp [Job.steers]) (by simp [Job.steers])
  cases progress hLimit hStart (Nat.lt_trans (lt_of_turns hStart hLast.turns) hLast.before) with
  | fresh _ _ hDrive | next _ _ _ hDrive | told _ _ _ _ _ hDrive => exact hDriven hDrive
  | invoking hLast' hTurn' | parked hLast' hTurn' | ended hLast' hTurn' | gone hLast' hTurn' =>
    obtain ⟨rfl, rfl, rfl⟩ := hLast.unique hLast'
    rw [hTurn] at hTurn'
    cases hTurn'

def parks? (s : Schedule b) (world : b.World) (k : Nat) (p : Place) : Bool :=
  match s.job? world k, (s.after world k).machine.nodes.find? p with
  | some (.check q), some (.run ⟨_, _, .invoking _ .empty, _⟩) => q == p
  | _, _ => false

theorem parks?_iff {k : Nat} {p : Place} : s.parks? world k p = true ↔ s.Parks world k p := by
  constructor
  · intro h
    rw [parks?] at h
    split at h
    case h_1 q _ _ u _ hJob hFind =>
      obtain rfl := eq_of_beq h
      exact ⟨hJob, _, u, hFind, rfl⟩
    case h_2 => cases h
  · rintro ⟨hJob, ⟨frames, wait, phase, wasParked⟩, u, hFind, rfl⟩
    rw [parks?, hJob, hFind]
    exact beq_self_eq_true p

/-! ## Joins -/

theorem used_some {k : Nat} {x : Place} {o : Outcome} :
    s.Used world k x (some o) ↔ .called x o ∈ (s.after world k).log := (s.called_log world).symm

theorem used_none {k : Nat} {x : Place} :
    s.Used world k x none ↔ .dropped x ∈ (s.after world k).log := (s.dropped_log world).symm

theorem closed_of_called {k : Nat} {x : Place} {o : Outcome}
    (hCalled : .called x o ∈ (s.after world k).log) : s.Closed world k x :=
  ⟨some o, used_some.mpr hCalled⟩

theorem closed_of_dropped {k : Nat} {x : Place} (hDropped : .dropped x ∈ (s.after world k).log) :
    s.Closed world k x := ⟨none, used_none.mpr hDropped⟩

theorem open_item_of_awaiting {k : Nat} {q : Place} {g : Gather}
    (hFind : (s.after world k).machine.nodes.find? q = some (.gather g))
    (hUnsettled : g.settled = false) (hQuiet : (s.after world k).Quiet q) :
    ∃ n < g.slots.length, ¬ s.Closed world k (n :: q) := by
  have hs := s.sound world k
  have hFits := hs.fits q (hs.ne_nil_of_find? hFind)
  rw [hFind] at hFits
  cases hFits with
  | gathering hAwaits hHolders hHeld =>
    have hAwaits : g.Awaits ((s.after world k).machine.parts q) := hAwaits hUnsettled
    have hStarting : (s.after world k).machine.starting q = 0 := by
      refine List.countP_eq_zero.mpr fun job hJob hStarts => ?_
      cases job with
      | items q' =>
        obtain rfl := eq_of_beq hStarts
        exact hQuiet _ hJob q' rfl (List.suffix_refl q')
      | _ => cases hStarts
    have hLength : 0 < ((s.after world k).machine.parts q).length := by
      simp only [Machine.view, hStarting] at hHolders
      omega
    obtain ⟨n, hn⟩ := List.exists_mem_of_length_pos hLength
    refine ⟨n, (List.getElem?_eq_some_iff.mp (hAwaits.vacant n hn)).1, fun hClosed => ?_⟩
    exact (List.nodup_append'.mp hs.once).2.2 (Machine.mem_parts.mp hn) hClosed.closed

/-- A join that nothing goes on with is open if no item of it has failed and some item has neither
reported nor been dropped. -/
theorem join_open_iff {c k : Nat} {q : Place} {works : List (Work b.Recipe b.Note)}
    (hWorks : works ≠ []) (hInvoke : s.job? world c = some (.invoke q (.gather works)))
    (hck : c < k) (hQuiet : (s.after world k).Quiet q) :
    ¬ s.Closed world k q ↔ (∀ n e, ¬ s.Used world k (n :: q) (some (.error e))) ∧
      ∃ n < works.length, ¬ s.Closed world k (n :: q) := by
  obtain ⟨w, ws, rfl⟩ := List.exists_cons_of_ne_nil hWorks
  have hs := s.sound world k
  obtain ⟨-, hFate⟩ := joinFate hInvoke hck
  constructor
  · intro hOpen
    cases hFate with
    | @awaiting g hFind hUnsettled hTallied =>
      refine ⟨fun n e hUsed => ?_, ?_⟩
      · have hCalled := used_some.mp hUsed
        have hReported := History.mem_reports.mpr hCalled
        exact hTallied.unfailed n ((admissible hInvoke k).inside _ hReported) e hCalled
      · obtain ⟨n, hn, hItem⟩ := open_item_of_awaiting hFind hUnsettled hQuiet
        rw [hTallied.length] at hn
        exact ⟨n, hn, hItem⟩
    | told hTold =>
      -- The outcome of the join is not on the agenda, so it was handed over.
      rcases hTold with ⟨o, hDeliver⟩ | ⟨o, hCalled⟩
      · exact absurd hDeliver (hQuiet.not_mem rfl (List.suffix_refl q))
      · exact absurd (closed_of_called hCalled) hOpen
    | gone _ hGone =>
      rcases hGone with hDrop | hDropped
      · exact absurd hDrop (hQuiet.not_mem rfl (List.suffix_refl q))
      · exact absurd (closed_of_dropped hDropped) hOpen
  · rintro ⟨hUnfailed, n, hn, hOpen⟩ hClosed
    cases hFate with
    | @awaiting g hFind hUnsettled =>
      refine not_opened_of_closed hClosed.closed (Table.mem_opened_of_find? hs.keyed hFind ?_)
      simp [Node.opened, hUnsettled]
    | told _ hWhy =>
      rcases hWhy with ⟨m, -, e, hFailed⟩ | hAll
      · exact hUnfailed m e (used_some.mpr hFailed)
      · obtain ⟨d, hCalled⟩ := hAll n hn
        exact hOpen (closed_of_called hCalled)
    | gone _ _ hAll =>
      rcases hAll n hn with ⟨d, hCalled⟩ | hDropped
      · exact hOpen (closed_of_called hCalled)
      · exact hOpen (closed_of_dropped hDropped)

end Schedule

end Interlace
