import Interlace.Proofs.Upkeep

/-!
# Jobs that go on with a run
-/

namespace Interlace

variable {b : Behaviour}

namespace History

variable {h : History b}

namespace Sound

theorem start (hs : h.Sound) {p : Place} {recipe : b.Recipe} {args : List Datum} {limit : Nat}
    {rest : List (Job b)} (hLimit : 0 < limit)
    (hAgenda : h.machine.agenda = .start p recipe args limit :: rest) :
    Kept h (h.afterJob (.start p recipe args limit) rest) := by
  have hDormant : p ∈ h.machine.dormant := by simp [Machine.dormant, hAgenda, Job.dormant]
  have hp : p ≠ [] := (hs.rooted p (mem_ledger_of_dormant hDormant)).1
  obtain ⟨hNone, hNoPart⟩ := hs.vacant_of_dormant hDormant
  have hView := hs.view_of_vacant hp hNone
  simp only [Machine.view, View.mk.injEq] at hView
  obtain ⟨hParts, hSteering, hStarting⟩ := hView
  rcases hMake : b.make recipe args h.machine.world with ⟨body, notes, world⟩
  have hSteering : rest.filter (Job.steers p) = [] := by
    simpa [Machine.steering, hAgenda, Job.steers] using hSteering
  have hStarting : rest.countP (Job.starts p) = 0 := by
    simpa [Machine.starting, hAgenda, Job.starts] using hStarting
  have hPoised : (⟨[⟨body, .ready, 0⟩], limit, 1⟩ : Frames b.Body).Poised .start :=
    ⟨hLimit, _, [], rfl, rfl, by simp⟩
  exact hs.update [] [] []
    { agenda := hAgenda
      ne_nil := hp
      perform := ⟨_, _, by simp [Event.closed?], Machine.perform_start hLimit hMake⟩
      balance := by
        simp [Table.openedAt, hNone, Job.carried, Job.dormant, Job.returning, Node.opened]
      waits := fun _ _ n hn => absurd hn (hNoPart n)
      live := by simp [hParts]
      fits := .driving rfl hPoised rfl (by simp [Job.steers, hSteering])
        (by simp [Job.starts, hStarting]) }

theorem ne_nil_of_steers (hs : h.Sound) {p : Place} (job : Job b) (hJob : job ∈ h.machine.agenda)
    (hSteers : job.steers p = true) : p ≠ [] := by
  rintro rfl
  have : job ∈ h.machine.steering [] := List.mem_filter.mpr ⟨hJob, hSteers⟩
  rw [hs.idle.1] at this
  cases this

structure Driven (h : History b) (p : Place) (x : Input) (rest : List (Job b)) (r : Run b) :
    Prop where
  ne_nil : p ≠ []
  find : h.machine.nodes.find? p = some (.run r)
  phase : r.phase = .driving
  poised : r.frames.Poised x
  parts : h.machine.parts p = []
  steering : rest.filter (Job.steers p) = []
  starting : rest.countP (Job.starts p) = 0

theorem driven (hs : h.Sound) {p : Place} {x : Input} {rest : List (Job b)}
    (hAgenda : h.machine.agenda = .drive p x :: rest) : ∃ r, Driven h p x rest r := by
  have hp : p ≠ [] := hs.ne_nil_of_steers (.drive p x) (by simp [hAgenda]) (by simp [Job.steers])
  have hSteering : h.machine.steering p = .drive p x :: rest.filter (Job.steers p) := by
    simp [Machine.steering, hAgenda, Job.steers]
  have hStarting : h.machine.starting p = rest.countP (Job.starts p) := by
    simp [Machine.starting, hAgenda, Job.starts]
  have hFits := hs.fits p hp
  generalize hNode : h.machine.nodes.find? p = node at hFits
  cases hFits with
  | vacant _ h | parked _ _ _ h | gathering _ _ _ h =>
    rw [Machine.view, hSteering] at h
    cases h
  | invoking _ _ _ h | notified _ _ _ _ h =>
    rw [Machine.view, hSteering] at h
    cases h
  | driving hPhase hFrames hParts h hStart =>
    rw [Machine.view, hSteering] at h
    obtain ⟨hJob, hRest⟩ := List.cons.inj h
    cases hJob
    exact ⟨_, hp, hNode, hPhase, hFrames, hParts, hRest, hStarting.symm.trans hStart⟩

theorem drive_next (hs : h.Sound) {p : Place} {x y : Input} {rest : List (Job b)}
    (hAgenda : h.machine.agenda = .drive p x :: rest) {r : Run b} (hDriven : Driven h p x rest r)
    (hTurn : (r.frames.turn b x h.machine.world).turn = .next y) :
    Kept h (h.afterJob (.drive p x) rest) := by
  have hSound := Frames.turn_sound hDriven.poised h.machine.world
  rw [Turned.Sound, hTurn] at hSound
  exact hs.update [] [] []
    { agenda := hAgenda
      ne_nil := hDriven.ne_nil
      perform := ⟨_, _, by simp [Machine.stepEvents, Event.closed?], Machine.perform_drive_next
        (m := { h.machine with agenda := rest }) hDriven.find hTurn⟩
      balance := by
        simp [Table.openedAt, hDriven.find, Job.carried, Job.dormant, Job.returning, Node.opened]
      waits := by
        intro r' hr' n hn
        cases hr'
        simpa [Run.waits] using hs.waits p r hDriven.find n hn
      live := by simp [hDriven.parts]
      fits := .driving hDriven.phase hSound.2 rfl (by simp [Job.steers, hDriven.steering])
        (by simp [Job.starts, hDriven.starting]) }

theorem drive_await (hs : h.Sound) {p : Place} {x : Input} {rest : List (Job b)}
    (hAgenda : h.machine.agenda = .drive p x :: rest) {r : Run b} (hDriven : Driven h p x rest r)
    {work : Work b.Recipe b.Note} {uptake : Uptake}
    (hTurn : (r.frames.turn b x h.machine.world).turn = .await work uptake) :
    Kept h (h.afterJob (.drive p x) rest) := by
  have hSound := Frames.turn_sound hDriven.poised h.machine.world
  rw [Turned.Sound, hTurn] at hSound
  have hWaits : ∀ n, n :: p ∈ h.ledger → n < r.wait := by
    simpa [Run.waits, hDriven.phase] using hs.waits p r hDriven.find
  exact hs.update [r.wait :: p] [] [r.wait]
    { agenda := hAgenda
      ne_nil := hDriven.ne_nil
      perform := ⟨_, _, by simp [Machine.stepEvents, Event.closed?], Machine.perform_drive_await
        (m := { h.machine with agenda := rest }) hDriven.find hTurn⟩
      balance := by
        simp [Table.openedAt, hDriven.find, Job.carried, Job.dormant, Job.returning, Node.opened]
      new := by
        intro y hy hOld
        rw [List.mem_singleton.mp hy] at hOld
        exact Nat.lt_irrefl _ (hWaits _ hOld)
      waits := by
        intro r' hr' n hn
        cases hr'
        rcases List.mem_cons.mp hn with hn | hn
        · cases hn
          exact Nat.lt_succ_self r.wait
        · exact Nat.lt_succ_of_lt (hWaits n hn)
      live := by simp [hDriven.parts, partOf]
      fits := .invoking rfl hSound.2 rfl (by simp [Job.steers, hDriven.steering])
        (by simp [Job.starts, hDriven.starting]) }

theorem drive_finished (hs : h.Sound) {p : Place} {x : Input} {rest : List (Job b)}
    (hAgenda : h.machine.agenda = .drive p x :: rest) {r : Run b} (hDriven : Driven h p x rest r)
    {o : Outcome} (hTurn : (r.frames.turn b x h.machine.world).turn = .finished o)
    (hEscapes : ¬ Escapes p r.wasParked o) : Kept h (h.afterJob (.drive p x) rest) := by
  exact hs.update [] [] []
    { agenda := hAgenda
      ne_nil := hDriven.ne_nil
      perform := ⟨_, _, by simp [Machine.stepEvents, Event.closed?], Machine.perform_drive_finished
        (m := { h.machine with agenda := rest }) hDriven.find hTurn hEscapes⟩
      balance := by
        simp [Table.openedAt, hDriven.find, Job.carried, Job.dormant, Job.returning, Node.opened]
      live := by simp [hDriven.parts]
      fits := .vacant rfl (by simp [Job.steers, hDriven.steering])
        (by simp [Job.starts, hDriven.starting]) }

theorem drive_escaped (hs : h.Sound) {p : Place} {x : Input} {rest : List (Job b)}
    (hAgenda : h.machine.agenda = .drive p x :: rest) {r : Run b} (hDriven : Driven h p x rest r)
    {o : Outcome} (hTurn : (r.frames.turn b x h.machine.world).turn = .finished o)
    (hEscapes : Escapes p r.wasParked o) : Kept h (h.afterJob (.drive p x) rest) := by
  obtain ⟨hParked, n, e, rfl, rfl, hUncaught⟩ := hEscapes
  exact hs.update [] [[n]] []
    { agenda := hAgenda
      ne_nil := hDriven.ne_nil
      perform := ⟨_, _, by simp [Machine.stepEvents, List.filterMap_cons, Event.closed?],
        Machine.perform_drive_escaped (m := { h.machine with agenda := rest }) hDriven.find hTurn
          hParked hUncaught⟩
      balance := by
        simp [Table.openedAt, hDriven.find, Job.carried, Job.dormant, Job.returning, Node.opened]
      live := by simp [hDriven.parts, partOf]
      fits := .vacant rfl (by simp [hDriven.steering]) (by simp [hDriven.starting]) }

theorem drive (hs : h.Sound) {p : Place} {x : Input} {rest : List (Job b)}
    (hAgenda : h.machine.agenda = .drive p x :: rest) : Kept h (h.afterJob (.drive p x) rest) := by
  obtain ⟨r, hDriven⟩ := hs.driven hAgenda
  cases hTurn : (r.frames.turn b x h.machine.world).turn with
  | next y => exact hs.drive_next hAgenda hDriven hTurn
  | await work uptake => exact hs.drive_await hAgenda hDriven hTurn
  | finished o =>
    by_cases hEscapes : Escapes p r.wasParked o
    · exact hs.drive_escaped hAgenda hDriven hTurn hEscapes
    · exact hs.drive_finished hAgenda hDriven hTurn hEscapes
  | fault f =>
    have hSound := Frames.turn_sound hDriven.poised h.machine.world
    rw [Turned.Sound, hTurn] at hSound
    exact hSound.2.elim

structure Checked (h : History b) (p : Place) (rest : List (Job b)) (r : Run b) (u : Uptake)
    (mail : Mail) : Prop where
  ne_nil : p ≠ []
  find : h.machine.nodes.find? p = some (.run r)
  phase : r.phase = .invoking u mail
  asleep : r.frames.Asleep
  parts : h.machine.parts p = match mail with | .empty => [r.wait] | _ => []
  steering : rest.filter (Job.steers p) = []
  starting : rest.countP (Job.starts p) = 0

theorem checked (hs : h.Sound) {p : Place} {rest : List (Job b)}
    (hAgenda : h.machine.agenda = .check p :: rest) : ∃ r u mail, Checked h p rest r u mail := by
  have hp : p ≠ [] := hs.ne_nil_of_steers (.check p) (by simp [hAgenda]) (by simp [Job.steers])
  have hSteering : h.machine.steering p = .check p :: rest.filter (Job.steers p) := by
    simp [Machine.steering, hAgenda, Job.steers]
  have hStarting : h.machine.starting p = rest.countP (Job.starts p) := by
    simp [Machine.starting, hAgenda, Job.starts]
  have hFits := hs.fits p hp
  generalize hNode : h.machine.nodes.find? p = node at hFits
  cases hFits with
  | vacant _ h | driving _ _ _ h | parked _ _ _ h | gathering _ _ _ h =>
    rw [Machine.view, hSteering] at h
    cases h
  | invoking hPhase hFrames hParts h hStart =>
    rw [Machine.view, hSteering] at h
    exact ⟨_, _, _, hp, hNode, hPhase, hFrames, hParts, (List.cons.inj h).2,
      hStarting.symm.trans hStart⟩
  | @notified r u mail hPhase hMail hFrames hParts h hStart =>
    rw [Machine.view, hSteering] at h
    refine ⟨_, _, mail, hp, hNode, hPhase, hFrames, ?_, (List.cons.inj h).2,
      hStarting.symm.trans hStart⟩
    cases mail with
    | empty => exact absurd rfl hMail
    | outcome o => exact hParts
    | lost => exact hParts

theorem check (hs : h.Sound) {p : Place} {rest : List (Job b)}
    (hAgenda : h.machine.agenda = .check p :: rest) : Kept h (h.afterJob (.check p) rest) := by
  obtain ⟨r, u, mail, hChecked⟩ := hs.checked hAgenda
  have hWaits : ∀ n, n :: p ∈ h.ledger → n < r.wait + 1 := by
    simpa [Run.waits, hChecked.phase] using hs.waits p r hChecked.find
  cases mail with
  | empty =>
    exact hs.update [] [] [r.wait]
      { agenda := hAgenda
        ne_nil := hChecked.ne_nil
        perform := ⟨_, _, rfl, Machine.perform_check_empty
          (m := { h.machine with agenda := rest }) hChecked.find hChecked.phase⟩
        balance := by
          simp [Table.openedAt, hChecked.find, Job.carried, Job.dormant, Job.returning, Node.opened]
        waits := by
          intro r' hr' n hn
          cases hr'
          exact hWaits n hn
        live := by simp [hChecked.parts]
        fits := .parked rfl hChecked.asleep rfl (by simp [hChecked.steering])
          (by simp [hChecked.starting]) }
  | outcome o =>
    exact hs.update [] [] []
      { agenda := hAgenda
        ne_nil := hChecked.ne_nil
        perform := ⟨_, _, rfl, Machine.perform_check_outcome
          (m := { h.machine with agenda := rest }) hChecked.find hChecked.phase⟩
        balance := by
          simp [Table.openedAt, hChecked.find, Job.carried, Job.dormant, Job.returning, Node.opened]
        waits := by
          intro r' hr' n hn
          cases hr'
          exact hWaits n hn
        live := by simp [hChecked.parts]
        fits := .driving rfl (hChecked.asleep.poised (Uptake.stage_apply u o)) rfl
          (by simp [Job.steers, hChecked.steering]) (by simp [Job.starts, hChecked.starting]) }
  | lost =>
    exact hs.update [] [] []
      { agenda := hAgenda
        ne_nil := hChecked.ne_nil
        perform := ⟨_, _, rfl, Machine.perform_check_lost
          (m := { h.machine with agenda := rest }) hChecked.find hChecked.phase⟩
        balance := by
          simp [Table.openedAt, hChecked.find, Job.carried, Job.dormant, Job.returning, Node.opened]
        live := by simp [hChecked.parts]
        fits := .vacant rfl (by simp [Job.steers, hChecked.steering])
          (by simp [Job.starts, hChecked.starting]) }

end Sound

end History

end Interlace
