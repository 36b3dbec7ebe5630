import Interlace.Proofs.Steps.Return
import Interlace.Proofs.Steps.Run
import Interlace.Proofs.Steps.Work

/-!
# Every move keeps a history sound

-/

namespace Interlace

variable {b : Behaviour}

namespace History

variable {h : History b}

namespace Sound

theorem afterJob (hs : h.Sound) {job : Job b} {rest : List (Job b)}
    (hAgenda : h.machine.agenda = job :: rest) : Kept h (h.afterJob job rest) := by
  cases job with
  | start p recipe args limit =>
    cases limit with
    | zero => exact hs.start_refused hAgenda
    | succ limit => exact hs.start (Nat.succ_pos limit) hAgenda
  | drive p x => exact hs.drive hAgenda
  | invoke p work =>
    cases work with
    | primitive w => exact hs.invoke_primitive hAgenda
    | noted note w => exact hs.invoke_noted hAgenda
    | gather items =>
      cases items with
      | nil => exact hs.invoke_nothing hAgenda
      | cons w ws => exact hs.invoke_gather hAgenda
    | nested limit recipe => exact hs.invoke_nested hAgenda
  | check p => exact hs.check hAgenda
  | items p index rest =>
    cases rest with
    | nil => exact hs.items_nil hAgenda
    | cons w ws => exact hs.items_cons hAgenda
  | hold p hold => exact hs.hold hAgenda
  | poke k => exact hs.poke hAgenda
  | tell key found => exact hs.tell hAgenda
  | deliver p o => exact hs.deliver hAgenda
  | drop p => exact hs.drop hAgenda

/-! ## Acts from outside -/

theorem begin (hs : h.Sound) (n : Nat) (recipe : b.Recipe) (args : List Datum) (limit : Nat) :
    Kept h (h.move (.begin n recipe args limit)) := by
  by_cases hn : n ∈ h.begun
  · simpa [History.move, hn] using hs.kept
  · have hMove : h.move (.begin n recipe args limit) =
        { h.afterAct (.begin n recipe args limit) with begun := n :: h.begun } := by
      simp [History.move, hn]
    rw [hMove]
    have hc : Change h { h.afterAct (.begin n recipe args limit) with begun := n :: h.begun } [] []
        [.start [n] recipe args limit] [[n]] [] :=
      { agenda := ⟨h.machine.agenda, rfl, rfl⟩
        balance := .refl _
        closed := by simp [afterAct, closed]
        returned := by simp
        keyed := hs.keyed
        begun := fun _ hm => List.mem_cons_of_mem n hm
        made_part := by simp
        used_part := by simp
        nodes := fun _ _ => rfl
        steering := fun _ _ => rfl
        starting := fun _ _ => rfl }
    refine hs.rootChange hc (by simp) ?_ hs.find?_nil rfl rfl
    intro x hx
    rw [List.mem_singleton.mp hx]
    exact fun hOld => hn ((hs.rooted _ hOld).2 n rfl)

theorem release (hs : h.Sound) {p : Place} {held : List Held}
    (hTake : takePlace p h.machine.held = some held) (job : Job b) (hCarried : job.carried = [p])
    (hSteers : ∀ q, job.steers q = false) (hStarts : ∀ q, job.starts q = false) :
    Kept h
      { h with machine := { h.machine with held := held, agenda := job :: h.machine.agenda } } := by
  have hNodup : (h.machine.held.map Held.place).Nodup :=
    (List.nodup_append'.mp (List.nodup_append'.mp hs.nodup_states).1).2.1
  have hc : Change h
      { h with machine := { h.machine with held := held, agenda := job :: h.machine.agenda } }
      [] [] [job] [] [] :=
    { agenda := ⟨h.machine.agenda, rfl, rfl⟩
      balance := by
        have := (takePlace_perm hNodup hTake).append_right h.machine.nodes.opened
        simpa [hCarried] using this
      closed := by simp [closed]
      returned := by simp
      keyed := hs.keyed
      begun := List.Subset.refl _
      made_part := by simp
      used_part := by simp
      nodes := fun _ _ => rfl
      steering := by simp [hSteers]
      starting := by simp [hStarts] }
  exact hs.rootChange hc .nil (by simp) hs.find?_nil (by simp [hSteers]) (by simp [hStarts])

theorem call (hs : h.Sound) (p : Place) (o : Outcome) : Kept h (h.move (.call p o)) := by
  cases hTake : takePlace p h.machine.held with
  | none => simpa [move, afterAct, Machine.act, hTake] using hs.kept
  | some held =>
    have := hs.release hTake (.deliver p o) rfl (fun _ => rfl) (fun _ => rfl)
    simpa [move, afterAct, Machine.act, hTake, Machine.push] using this

theorem discard (hs : h.Sound) (p : Place) : Kept h (h.move (.drop p)) := by
  cases hTake : takePlace p h.machine.held with
  | none => simpa [move, afterAct, Machine.act, hTake] using hs.kept
  | some held =>
    have := hs.release hTake (.drop p) rfl (fun _ => rfl) (fun _ => rfl)
    simpa [move, afterAct, Machine.act, hTake, Machine.push] using this

theorem move (hs : h.Sound) (mv : Move b) : Kept h (h.move mv) := by
  cases mv with
  | work =>
    cases hAgenda : h.machine.agenda with
    | nil => simpa [History.move, hAgenda] using hs.kept
    | cons job rest => simpa [History.move, hAgenda] using hs.afterJob hAgenda
  | begin n recipe args limit => exact hs.begin n recipe args limit
  | call p o => exact hs.call p o
  | drop p => exact hs.discard p

end Sound

end History

/-- Whatever happens to a machine, its history is sound. -/
theorem Schedule.sound (s : Schedule b) (world : b.World) (k : Nat) : (s.after world k).Sound := by
  induction k with
  | zero => exact History.new_sound world
  | succ k ih => exact (ih.move (s k)).sound

end Interlace
