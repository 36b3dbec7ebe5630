import Interlace.Proofs.Steps.Join

/-!
# Calling and dropping continuations
-/

namespace Interlace

variable {b : Behaviour}

namespace History

variable {h : History b}

namespace Sound

theorem nodup_parts (hs : h.Sound) (q : Place) : (h.machine.parts q).Nodup := by
  refine (List.nodup_append'.mp hs.once).1.filterMap fun x y n hx hy => ?_
  rw [partOf_eq_some.mp hx, partOf_eq_some.mp hy]

theorem ne_nil_of_returning (hs : h.Sound) {p : Place} (job : Job b) (hJob : job ∈ h.machine.agenda)
    (hp : p ∈ job.returning) : p ≠ [] :=
  (hs.rooted p (mem_ledger_of_returned (List.mem_append_left _
    (List.mem_flatMap.mpr ⟨job, hJob, hp⟩)))).1

theorem return_top (hs : h.Sound) {job : Job b} {rest : List (Job b)} {n : Nat}
    (hAgenda : h.machine.agenda = job :: rest) (event : Event b)
    (hPerform : { h.machine with agenda := rest }.perform job =
      ([event], { h.machine with agenda := rest }))
    (hCarried : job.carried = [[n]]) (hReturning : job.returning = [[n]])
    (hClosed : event.closed? = some [n]) (hSteers : ∀ q, job.steers q = false)
    (hStarts : ∀ q, job.starts q = false) : Kept h (h.afterJob job rest) := by
  have hc : Change h (h.afterJob job rest) [] [job] [] [] [[n]] :=
    { agenda := ⟨rest, hAgenda, by simp [afterJob, hPerform]⟩
      balance := by simp [afterJob, hPerform, hCarried]
      closed := by simp [afterJob, hPerform, closed, hClosed]
      returned := by simp [hReturning]
      keyed := by simpa [afterJob, hPerform] using hs.keyed
      begun := List.Subset.refl _
      made_part := by simp
      used_part := by simp
      nodes := by simp [afterJob, hPerform]
      steering := by simp [hSteers]
      starting := by simp [hStarts] }
  exact hs.rootChange hc .nil (by simp) (by simpa [afterJob, hPerform] using hs.find?_nil)
    (by simp [hSteers]) (by simp [hStarts])

structure Awaited (h : History b) (n : Nat) (q : Place) (r : Run b) (u : Uptake) : Prop where
  find : h.machine.nodes.find? q = some (.run r)
  wait : r.wait = n
  asleep : r.frames.Asleep
  parts : h.machine.parts q = [n]
  starting : h.machine.starting q = 0
  phase : r.phase = .invoking u .empty ∧ h.machine.steering q = [.check q] ∨
    r.phase = .parked u ∧ h.machine.steering q = []

structure Gathering (h : History b) (q : Place) (g : Gather) : Prop where
  find : h.machine.nodes.find? q = some (.gather g)
  awaits : g.settled = false → g.Awaits (h.machine.parts q)
  holders : g.holders = (h.machine.parts q).length + h.machine.starting q
  steering : h.machine.steering q = []
  starting : h.machine.starting q ≤ 1

theorem part_cases (hs : h.Sound) {n : Nat} {q : Place} (hq : q ≠ []) (hn : n ∈ h.machine.parts q) :
    (∃ r u, Awaited h n q r u) ∨ ∃ g, Gathering h q g := by
  have hFits := hs.fits q hq
  generalize hNode : h.machine.nodes.find? q = node at hFits
  cases hFits with
  | vacant hParts | driving _ _ hParts | notified _ _ _ hParts =>
    have hParts : h.machine.parts q = [] := hParts
    rw [hParts] at hn
    cases hn
  | @invoking r u hPhase hFrames hParts hSteering hStarting =>
    have hParts : h.machine.parts q = [r.wait] := hParts
    rw [hParts] at hn
    cases List.mem_singleton.mp hn
    exact Or.inl ⟨r, u, hNode, rfl, hFrames, hParts, hStarting, Or.inl ⟨hPhase, hSteering⟩⟩
  | @parked r u hPhase hFrames hParts hSteering hStarting =>
    have hParts : h.machine.parts q = [r.wait] := hParts
    rw [hParts] at hn
    cases List.mem_singleton.mp hn
    exact Or.inl ⟨r, u, hNode, rfl, hFrames, hParts, hStarting, Or.inr ⟨hPhase, hSteering⟩⟩
  | @gathering g hAwaits hHolders hHeld hSteering hStarting =>
    exact Or.inr ⟨g, hNode, hAwaits, hHolders, hSteering, hStarting⟩

theorem deliver_run (hs : h.Sound) {n : Nat} {q : Place} {o : Outcome} {rest : List (Job b)}
    (hAgenda : h.machine.agenda = .deliver (n :: q) o :: rest) {r : Run b} {u : Uptake}
    (hAwaited : Awaited h n q r u) : Kept h (h.afterJob (.deliver (n :: q) o) rest) := by
  have hq := hs.ne_nil_of_find? hAwaited.find
  have hWait := hAwaited.wait
  have hSteering : rest.filter (Job.steers q) = h.machine.steering q := by
    simp [Machine.steering, hAgenda, Job.steers]
  have hStarting : rest.countP (Job.starts q) = h.machine.starting q := by
    simp [Machine.starting, hAgenda, Job.starts]
  have hWaits : ∀ m, m :: q ∈ h.ledger → m < r.wait + 1 := by
    rcases hAwaited.phase with hPhase | hPhase <;>
      simpa [Run.waits, hPhase.1] using hs.waits q r hAwaited.find
  rcases hAwaited.phase with ⟨hPhase, hSteer⟩ | ⟨hPhase, hSteer⟩
  · exact hs.update [] [n :: q] []
      { agenda := hAgenda
        ne_nil := hq
        perform := ⟨_, _, rfl, Machine.perform_deliver_invoking
          (m := { h.machine with agenda := rest }) hAwaited.find hWait hPhase⟩
        balance := by
          simp [Table.openedAt, hAwaited.find, Job.carried, Job.dormant, Job.returning, Node.opened]
        waits := by
          intro r' hr' m hm
          cases hr'
          exact hWaits m hm
        live := by simp [hAwaited.parts, partOf]
        fits := .notified rfl (by simp) hAwaited.asleep rfl (by simp [hSteering, hSteer])
          (by simp [hStarting, hAwaited.starting]) }
  · exact hs.update [] [n :: q] []
      { agenda := hAgenda
        ne_nil := hq
        perform := ⟨_, _, rfl, Machine.perform_deliver_parked
          (m := { h.machine with agenda := rest }) hAwaited.find hWait hPhase⟩
        balance := by
          simp [Table.openedAt, hAwaited.find, Job.carried, Job.dormant, Job.returning, Node.opened]
        waits := by
          intro r' hr' m hm
          cases hr'
          exact hWaits m hm
        live := by simp [hAwaited.parts, partOf]
        fits := .driving rfl (hAwaited.asleep.poised (Uptake.stage_apply u o)) rfl
          (by simp [Job.steers, hSteering, hSteer])
          (by simp [Job.starts, hStarting, hAwaited.starting]) }

theorem drop_run (hs : h.Sound) {n : Nat} {q : Place} {rest : List (Job b)}
    (hAgenda : h.machine.agenda = .drop (n :: q) :: rest) {r : Run b} {u : Uptake}
    (hAwaited : Awaited h n q r u) : Kept h (h.afterJob (.drop (n :: q)) rest) := by
  have hq := hs.ne_nil_of_find? hAwaited.find
  have hWait := hAwaited.wait
  have hSteering : rest.filter (Job.steers q) = h.machine.steering q := by
    simp [Machine.steering, hAgenda, Job.steers]
  have hStarting : rest.countP (Job.starts q) = h.machine.starting q := by
    simp [Machine.starting, hAgenda, Job.starts]
  rcases hAwaited.phase with ⟨hPhase, hSteer⟩ | ⟨hPhase, hSteer⟩
  · exact hs.update [] [n :: q] []
      { agenda := hAgenda
        ne_nil := hq
        perform := ⟨_, _, rfl, Machine.perform_drop_invoking
          (m := { h.machine with agenda := rest }) hAwaited.find hWait hPhase⟩
        balance := by
          simp [Table.openedAt, hAwaited.find, Job.carried, Job.dormant, Job.returning, Node.opened]
        waits := by
          intro r' hr' m hm
          cases hr'
          simpa [Run.waits, hPhase] using hs.waits q r hAwaited.find m hm
        live := by simp [hAwaited.parts, partOf]
        fits := .notified rfl (by simp) hAwaited.asleep rfl (by simp [hSteering, hSteer])
          (by simp [hStarting, hAwaited.starting]) }
  · exact hs.update [] [n :: q] []
      { agenda := hAgenda
        ne_nil := hq
        perform := ⟨_, _, rfl, Machine.perform_drop_parked
          (m := { h.machine with agenda := rest }) hAwaited.find hWait hPhase⟩
        balance := by
          simp [Table.openedAt, hAwaited.find, Job.carried, Job.dormant, Job.returning, Node.opened]
        live := by simp [hAwaited.parts, partOf]
        fits := .vacant rfl (by simp [Job.steers, hSteering, hSteer])
          (by simp [Job.starts, hStarting, hAwaited.starting]) }

theorem deliver_gather (hs : h.Sound) {n : Nat} {q : Place} {o : Outcome} {rest : List (Job b)}
    (hAgenda : h.machine.agenda = .deliver (n :: q) o :: rest) {g : Gather}
    (hGathering : Gathering h q g) (hn : n ∈ h.machine.parts q) :
    Kept h (h.afterJob (.deliver (n :: q) o) rest) := by
  have hPerm := List.perm_cons_erase hn
  have hNodup := hPerm.nodup_iff.mp (hs.nodup_parts q)
  have hLength := hPerm.length_eq
  have hStarting : rest.countP (Job.starts q) = h.machine.starting q := by
    simp [Machine.starting, hAgenda, Job.starts]
  have hHolders := hGathering.holders
  have hLoop := hGathering.starting
  rw [List.length_cons] at hLength
  have hParts : (([n :: q] : List Place).filterMap (partOf q) ++ (h.machine.parts q).erase n).Perm
      (h.machine.parts q) := by simpa [partOf] using hPerm.symm
  -- Whatever the report comes to, one holder and one live part are gone.
  have hSettle : ∀ {settlement g'}, g.report n o = (settlement, g') →
      (∀ f, settlement ≠ .fault f) → g'.holders = g.holders →
      (settlement.answer q : List (Job b)).flatMap Job.returning ++
        (if g'.settled then [] else [q]) =
        (if g.settled then [] else [q]) →
      (g'.settled = false → g'.Awaits ((h.machine.parts q).erase n)) →
      Kept h (h.afterJob (.deliver (n :: q) o) rest) := by
    intro settlement g' hReport hFault hSame hAnswer hAwaits
    have hPerform := Machine.perform_deliver_item (m := { h.machine with agenda := rest })
      hGathering.find hReport hFault
    refine hs.settle [n :: q] (settlement.answer q) ((h.machine.parts q).erase n) hAgenda
      hGathering.find hPerform rfl rfl rfl (by simp) (fun _ => rfl) (fun _ _ => rfl) hAnswer ?_
      hParts hAwaits (by omega) (by omega)
    intro a ha
    cases settlement with
    | done o' => exact ⟨o', List.mem_singleton.mp ha⟩
    | pending | discarded | fault => cases ha
  have hReported := Gather.report_reported hGathering.awaits hn o
  generalize hReport : g.report n o = report at hReported hSettle
  cases hReported with
  | discarded hSettled =>
    refine hSettle rfl (by simp) rfl rfl fun hOpen => ?_
    rw [hSettled] at hOpen
    cases hOpen
  | failed hSettled | completed hSettled _ =>
    exact hSettle rfl (by simp) rfl (by simp [Settlement.answer, hSettled, Job.returning]) (by simp)
  | pending hSettled hRemaining =>
    refine hSettle rfl (by simp) rfl rfl fun _ => ?_
    have hAwaits := hGathering.awaits hSettled
    have hAwaits' : g.Awaits (n :: (h.machine.parts q).erase n) :=
      ⟨hAwaits.counted, hAwaits.positive, fun i hi => hAwaits.vacant i (hPerm.mem_iff.mpr hi)⟩
    exact hAwaits'.accept hNodup hRemaining _

theorem drop_gather (hs : h.Sound) {n : Nat} {q : Place} {rest : List (Job b)}
    (hAgenda : h.machine.agenda = .drop (n :: q) :: rest) {g : Gather}
    (hGathering : Gathering h q g) (hn : n ∈ h.machine.parts q) :
    Kept h (h.afterJob (.drop (n :: q)) rest) := by
  have hPerm := List.perm_cons_erase hn
  have hLength := hPerm.length_eq
  have hStarting : rest.countP (Job.starts q) = h.machine.starting q := by
    simp [Machine.starting, hAgenda, Job.starts]
  have hHolders := hGathering.holders
  have hLoop := hGathering.starting
  rw [List.length_cons] at hLength
  have hPerform := Machine.perform_drop_item (n := n) (m := { h.machine with agenda := rest })
    hGathering.find
  refine hs.settle [n :: q] [] ((h.machine.parts q).erase n) hAgenda hGathering.find hPerform rfl
    rfl rfl (by simp) (fun _ => rfl) (fun _ _ => rfl) rfl (by simp) ?_ (fun hSettled => ?_)
    (by omega) (by omega)
  · simpa [partOf] using hPerm.symm
  · have hAwaits := hGathering.awaits hSettled
    exact ⟨hAwaits.counted, hAwaits.positive, fun i hi =>
      hAwaits.vacant i (List.mem_of_mem_erase hi)⟩

theorem mem_parts_of_agenda {n : Nat} {q : Place} {job : Job b} {rest : List (Job b)}
    (hAgenda : h.machine.agenda = job :: rest) (hJob : n :: q ∈ job.carried) :
    n ∈ h.machine.parts q := by
  rw [Machine.mem_parts, Machine.live, hAgenda, List.flatMap_cons]
  exact List.mem_append_left _ (List.mem_append_left _ hJob)

theorem deliver (hs : h.Sound) {p : Place} {o : Outcome} {rest : List (Job b)}
    (hAgenda : h.machine.agenda = .deliver p o :: rest) :
    Kept h (h.afterJob (.deliver p o) rest) := by
  cases p with
  | nil =>
    exact absurd rfl (hs.ne_nil_of_returning (.deliver [] o) (by simp [hAgenda])
      (by simp [Job.returning]))
  | cons n q =>
    by_cases hq : q = []
    · subst hq
      have hPerform := Machine.perform_deliver_top (m := { h.machine with agenda := rest }) (n := n)
        hs.find?_nil o
      exact hs.return_top hAgenda (.called [n] o) hPerform rfl rfl rfl (fun _ => rfl) (fun _ => rfl)
    · have hn : n ∈ h.machine.parts q :=
        mem_parts_of_agenda hAgenda (by simp [Job.carried, Job.returning])
      rcases hs.part_cases hq hn with ⟨r, u, hAwaited⟩ | ⟨g, hGathering⟩
      · exact hs.deliver_run hAgenda hAwaited
      · exact hs.deliver_gather hAgenda hGathering hn

theorem drop (hs : h.Sound) {p : Place} {rest : List (Job b)}
    (hAgenda : h.machine.agenda = .drop p :: rest) : Kept h (h.afterJob (.drop p) rest) := by
  cases p with
  | nil =>
    exact absurd rfl (hs.ne_nil_of_returning (.drop []) (by simp [hAgenda])
      (by simp [Job.returning]))
  | cons n q =>
    by_cases hq : q = []
    · subst hq
      have hPerform := Machine.perform_drop_top (m := { h.machine with agenda := rest }) (n := n)
        hs.find?_nil
      exact hs.return_top hAgenda (.dropped [n]) hPerform rfl rfl rfl (fun _ => rfl) (fun _ => rfl)
    · have hn : n ∈ h.machine.parts q :=
        mem_parts_of_agenda hAgenda (by simp [Job.carried, Job.returning])
      rcases hs.part_cases hq hn with ⟨r, u, hAwaited⟩ | ⟨g, hGathering⟩
      · exact hs.drop_run hAgenda hAwaited
      · exact hs.drop_gather hAgenda hGathering hn

end Sound

end History

end Interlace
