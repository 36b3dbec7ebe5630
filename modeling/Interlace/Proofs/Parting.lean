import Interlace.Proofs.Abreast
import Interlace.Proofs.Routing

/-!
# Where two schedules part

Two schedules have come to the same, but for what the frame on top of one run asks for: in one of
them for a coroutine on top of it, in the other one for the same coroutine on a stack of its own.
No wait of the run is open, so the names that the child will use are new in both of them.
-/

namespace Interlace

variable {b : Behaviour}

/-! ## New names -/

theorem Relocation.covers_place {e : Relocation} {x : Place} (h : e.Covers x) :
    e.Covers (e.place x) := by
  obtain ⟨path, n, hn, rfl⟩ := h
  obtain ⟨path', m, hm, hTarget⟩ := e.covered
  refine ⟨path ++ (n - e.wait) :: path', m, hm, ?_⟩
  rw [Relocation.place_covered hn, hTarget]
  simp

namespace History.Sound

variable {h : History b} (hs : h.Sound)
include hs

theorem mem_ledger_of_find? {q : Place} {node : Node b}
    (hFind : h.machine.nodes.find? q = some node) : q ∈ h.ledger := by
  rcases hs.opened_or_returned hFind with hOpened | hReturned
  · exact mem_ledger_of_opened hOpened
  · exact mem_ledger_of_returned hReturned

theorem find?_of_starts {q : Place} {job : Job b} (hJob : job ∈ h.machine.agenda)
    (hStarts : job.starts q = true) : ∃ node, h.machine.nodes.find? q = some node := by
  have hPositive : 0 < h.machine.starting q := List.countP_pos_iff.mpr ⟨job, hJob, hStarts⟩
  have hRoot : q ≠ [] := by
    rintro rfl
    rw [hs.idle.2] at hPositive
    cases hPositive
  cases hFind : h.machine.nodes.find? q with
  | some node => exact ⟨node, rfl⟩
  | none =>
    have hView := hs.view_of_vacant hRoot hFind
    have hNone : h.machine.starting q = 0 := congrArg View.starting hView
    omega

variable {e : Relocation} {r : Run b} (hFind : h.machine.nodes.find? e.origin = some (.run r))
  (hPhase : r.phase = .driving) (hWait : r.wait = e.wait)
include hFind hPhase hWait

theorem not_covers {x : Place} (hx : x ∈ h.ledger) : ¬ e.Covers x := by
  rintro ⟨path, n, hn, rfl⟩
  induction path with
  | nil =>
    have hBefore := hs.waits e.origin r hFind n hx
    rw [Run.waits, hPhase] at hBefore
    dsimp only at hBefore
    omega
  | cons m path ih =>
    rcases hs.grown m (path ++ n :: e.origin) hx (by simp) with hSome | hReturned
    · obtain ⟨node, hNode⟩ := Option.isSome_iff_exists.mp hSome
      exact ih (hs.mem_ledger_of_find? hNode)
    · exact ih (mem_ledger_of_returned hReturned)

theorem find?_of_covers {x : Place} (hx : e.Covers x) : h.machine.nodes.find? x = none := by
  cases hNode : h.machine.nodes.find? x with
  | none => rfl
  | some node => exact absurd hx (hs.not_covers hFind hPhase hWait (hs.mem_ledger_of_find? hNode))

theorem held_same : h.machine.held.map e.held = h.machine.held := by
  refine List.map_congr_left (g := id) (fun held hHeld => ?_) |>.trans (List.map_id _)
  have hDormant : held.place ∈ h.machine.dormant :=
    List.mem_append_right _ (List.mem_map_of_mem hHeld)
  have hPlace := Relocation.place_of_not_covers
    (hs.not_covers hFind hPhase hWait (mem_ledger_of_dormant hDormant))
  rw [Relocation.held, hPlace]
  rfl

theorem job_same {job : Job b} (hJob : job ∈ h.machine.agenda)
    (hSteers : job.steers e.origin = false) : e.job job = job := by
  have hCarried : ∀ {x}, x ∈ job.carried → e.place x = x := by
    intro x hx
    have hLedger : x ∈ h.ledger := List.mem_append_left _
      (List.mem_append_left _ (List.mem_flatMap.mpr ⟨job, hJob, hx⟩))
    exact Relocation.place_of_not_covers (hs.not_covers hFind hPhase hWait hLedger)
  have hStands : ∀ {x node}, h.machine.nodes.find? x = some node → e.place x = x := fun hNode =>
    Relocation.place_of_not_covers (hs.not_covers hFind hPhase hWait (hs.mem_ledger_of_find? hNode))
  have hSteered : ∀ {x}, job.steers x = true → e.site x = x := by
    intro x hx
    have hOther : x ≠ e.origin := by
      rintro rfl
      rw [hSteers] at hx
      cases hx
    obtain ⟨r', hRun, -⟩ := hs.steered hJob hx
    rw [Relocation.site_of_ne hOther, hStands hRun]
  cases job with
  | start x recipe args limit => rw [Relocation.job, hCarried (List.mem_singleton_self x)]
  | invoke x work => rw [Relocation.job, hCarried (List.mem_singleton_self x)]
  | hold x hold => rw [Relocation.job, hCarried (List.mem_singleton_self x)]
  | deliver x o => rw [Relocation.job, hCarried (List.mem_singleton_self x)]
  | drop x => rw [Relocation.job, hCarried (List.mem_singleton_self x)]
  | drive x y => rw [Relocation.job, hSteered (by simp [Job.steers])]
  | check x => rw [Relocation.job, hSteered (by simp [Job.steers])]
  | items x index ws =>
    obtain ⟨node, hNode⟩ := hs.find?_of_starts hJob (q := x) (by simp [Job.starts])
    rw [Relocation.job, hStands hNode]
  | poke | tell => rfl

theorem agenda_same {job : Job b} {rest : List (Job b)} (hAgenda : h.machine.agenda = job :: rest)
    (hSteers : job.steers e.origin = true) : rest.map e.job = rest := by
  have hOnce := hs.steers_once hAgenda hSteers
  refine List.map_congr_left (g := id) (fun other hOther => ?_) |>.trans (List.map_id _)
  refine hs.job_same hFind hPhase hWait ?_ (hOnce other hOther)
  rw [hAgenda]
  exact List.mem_cons_of_mem _ hOther

end History.Sound

/-! ## The parting -/

/-- Two schedules that part with a step of a run. They may have come there in different ways, and
what the frame on top is like may differ before and after the step. -/
structure Parting (s s' : Schedule b) (world world' : b.World) where
  way : Way b.Note
  recipe : b.Recipe
  move : Nat
  move' : Nat
  place : Place
  input : Input
  input' : Input
  run : Run b
  frame : Frame b.Body
  frame' : Frame b.Body
  steps : s.Steps world move place input run frame
  steps' : s'.Steps world' move' place input'
    { run with frames := { run.frames with frames := frame' :: run.frames.frames.tail } } frame'
  asks : (s.stepped world move frame input).1 = .wait (.inner recipe)
  asks' : (s'.stepped world' move' frame' input').1 = .wait (way.request run.frames.limit recipe)
  worlds : (s'.stepped world' move' frame' input').2.2.2 = (s.stepped world move frame input).2.2.2
  begun : (s'.after world' move').begun = (s.after world move).begun
  held : (s'.after world' move').machine.held = (s.after world move).machine.held
  agenda : (s'.after world' move').machine.agenda.tail = (s.after world move).machine.agenda.tail
  nodes : ∀ q, q ≠ place →
    (s'.after world' move').machine.nodes.find? q = (s.after world move).machine.nodes.find? q

namespace Parting

variable {s s' : Schedule b} {world world' : b.World} (P : Parting s s' world world')

def detour : Detour b where
  way := P.way
  place := P.place
  rooted := (s.sound world P.move).ne_nil_of_find? P.steps.turns.find
  wait := P.run.wait
  limit := P.run.frames.limit
  pushed := P.run.frames.pushed
  wasParked := P.run.wasParked
  under := s.lulled world P.move P.frame P.input :: P.run.frames.frames.tail
  beside := s'.lulled world' P.move' P.frame' P.input' :: P.run.frames.frames.tail

def made : b.Body × List b.Note × b.World :=
  b.make P.recipe [] (s.stepped world P.move P.frame P.input).2.2.2

theorem after_push (hRoom : P.run.frames.depth < P.run.frames.limit) {rest : List (Job b)}
    (hAgenda : (s.after world P.move).machine.agenda = .drive P.place P.input :: rest) :
    (s.after world (P.move + 1)).machine = { (s.after world P.move).machine with
      world := P.made.2.2
      nodes := (s.after world P.move).machine.nodes.update P.place (some (.run { P.run with
        frames := ⟨⟨P.made.1, .ready, P.run.frames.pushed⟩ :: P.detour.under, P.run.frames.limit,
          P.run.frames.pushed + 1⟩ }))
      agenda := .drive P.place .start :: rest } := by
  obtain ⟨rest', hAgenda', hAfter⟩ := s.after_succ_of_job world P.steps.turns.job
  rw [hAgenda] at hAgenda'
  obtain ⟨-, rfl⟩ := List.cons.inj hAgenda'
  obtain ⟨below, hFrames, hCase⟩ := P.steps.case
  have hUnder : P.detour.under = s.lulled world P.move P.frame P.input :: below := by
    rw [detour, hFrames]
    rfl
  have hRoom' : below.length + 1 < P.run.frames.limit := by
    rwa [← Schedule.depth_of_frames hFrames]
  have hTurned := hCase.unique (.pushed P.asks hRoom')
  rw [Schedule.turned] at hTurned
  have hPerform := Machine.perform_drive_next
    (m := { (s.after world P.move).machine with agenda := rest }) P.steps.turns.find
    (congrArg Turned.turn hTurned)
  rw [hAfter, History.machine_afterJob, Machine.afterJob, hPerform, hUnder]
  dsimp only
  rw [hTurned]
  rfl

theorem after_wait {rest : List (Job b)}
    (hAgenda : (s'.after world' P.move').machine.agenda = .drive P.place P.input' :: rest) :
    (s'.after world' (P.move' + 1)).machine = { (s'.after world' P.move').machine with
      world := (s.stepped world P.move P.frame P.input).2.2.2
      nodes := (s'.after world' P.move').machine.nodes.update P.place
        (some (.run (P.detour.parent false)))
      agenda := .invoke (P.run.wait :: P.place) (P.way.work P.run.frames.limit P.recipe) ::
        .check P.place :: rest } := by
  obtain ⟨rest', hAgenda', hAfter⟩ := s'.after_succ_of_job world' P.steps'.turns.job
  rw [hAgenda] at hAgenda'
  obtain ⟨-, rfl⟩ := List.cons.inj hAgenda'
  obtain ⟨below, hFrames, hCase⟩ := P.steps'.case
  obtain ⟨-, rfl⟩ := List.cons.inj hFrames
  have hTurned := hCase.unique (.awaited P.asks' (P.way.resolve_request _ P.recipe))
  rw [Schedule.turned] at hTurned
  have hPerform := Machine.perform_drive_await
    (m := { (s'.after world' P.move').machine with agenda := rest }) P.steps'.turns.find
    (congrArg Turned.turn hTurned)
  rw [hAfter, History.machine_afterJob, Machine.afterJob, hPerform, ← P.worlds]
  dsimp only
  rw [hTurned]
  have hParked : P.run.wasParked = (P.run.wasParked || false) := (Bool.or_false _).symm
  simp only [Detour.parent, detour, ← hParked]
  rfl

theorem exists_agenda : ∃ rest,
    (s.after world P.move).machine.agenda = .drive P.place P.input :: rest ∧
    (s'.after world' P.move').machine.agenda = .drive P.place P.input' :: rest := by
  obtain ⟨rest, hAgenda, -⟩ := s.after_succ_of_job world P.steps.turns.job
  obtain ⟨rest', hAgenda', -⟩ := s'.after_succ_of_job world' P.steps'.turns.job
  have hRest := P.agenda
  rw [hAgenda, hAgenda', List.tail_cons, List.tail_cons] at hRest
  exact ⟨rest, hAgenda, hRest ▸ hAgenda'⟩

theorem find?_place {x : Place} (hx : x ≠ P.place) :
    (s'.after world' P.move').machine.nodes.find? (P.detour.relocation.place x) =
      (s.after world P.move).machine.nodes.find? x := by
  have hNone : ∀ {y}, P.detour.relocation.Covers y →
      (s.after world P.move).machine.nodes.find? y = none := fun hy =>
    (s.sound world P.move).find?_of_covers (e := P.detour.relocation) P.steps.turns.find
      P.steps.turns.driven.1 rfl hy
  rw [P.nodes _ (Relocation.place_ne_origin (e := P.detour.relocation) hx)]
  by_cases hCovers : P.detour.relocation.Covers x
  · rw [hNone hCovers, hNone (Relocation.covers_place hCovers)]
  · rw [Relocation.place_of_not_covers hCovers]

theorem depart (hRoom : P.run.frames.depth < P.run.frames.limit) :
    ∃ m, P.detour.Passes (s'.after world' (P.move' + 1)).machine m ∧
      P.detour.Abreast false (s.after world (P.move + 1)).machine m := by
  obtain ⟨rest, hAgenda, hAgenda'⟩ := P.exists_agenda
  have hs := s.sound world P.move
  have hPhase := P.steps.turns.driven.1
  have hLimit : 0 < P.detour.limit := Nat.lt_of_le_of_lt (Nat.zero_le _) hRoom
  have hRest := hs.agenda_same (e := P.detour.relocation) P.steps.turns.find hPhase rfl hAgenda
    (by simp [Job.steers, detour, Detour.relocation])
  have hHeld := hs.held_same (e := P.detour.relocation) P.steps.turns.find hPhase rfl
  rw [P.after_push hRoom hAgenda, P.after_wait hAgenda']
  obtain ⟨nodes, hWork, hNodes, hJoin⟩ := Detour.passes_work (e := P.detour)
    (m := { (s'.after world' P.move').machine with
      world := (s.stepped world P.move P.frame P.input).2.2.2
      nodes := (s'.after world' P.move').machine.nodes.update P.place
        (some (.run (P.detour.parent false)))
      agenda := .invoke (P.run.wait :: P.place) (P.way.work P.run.frames.limit P.recipe) ::
        .check P.place :: rest }) rfl
  have hStart : Machine.perform { (s'.after world' P.move').machine with
      world := (s.stepped world P.move P.frame P.input).2.2.2
      nodes := nodes
      agenda := P.detour.loop ++ (.check P.place :: rest) }
        (.start P.detour.child P.recipe [] P.detour.limit) = _ :=
    Machine.perform_start hLimit rfl
  have hPasses := hWork.trans (.one rfl rfl hStart)
  refine ⟨_, hPasses, ⟨rfl, P.held.trans hHeld.symm, fun x hx => ?_, [], rfl, rfl⟩, ?_, ?_, ?_, ?_⟩
  · have hPlace := Detour.place_ne (e := P.detour) hx (Or.inl rfl)
    refine (hPasses.nodes fun hy => Detour.place_ne hx hy rfl).trans ?_
    refine (Table.find?_update_of_ne _ _ hPlace).trans ((P.find?_place hx).trans ?_)
    exact (Table.find?_update_of_ne _ _ hx).symm
  · have hLines := Detour.Lines.first (e := P.detour) (.drive P.detour.place .start) rest
      (by simp [Job.steers])
    rw [hRest, Detour.job_drive, Detour.late, List.append_assoc] at hLines
    exact hLines
  · exact (Table.find?_update_of_ne _ _ Detour.child_ne_place.symm).trans
      ((hNodes _ Detour.aside_place).trans (Table.find?_update_self _ _ _))
  · intro hWay
    exact (Table.find?_update_of_ne _ _ fun h => Detour.aside_child hWay h.symm).trans (hJoin hWay)
  · refine ⟨_, _, Table.find?_update_self _ _ _, Table.find?_update_self _ _ _, ?_, ?_⟩
    · exact ⟨rfl, rfl, rfl, rfl, rfl, rfl, hPhase⟩
    · exact (Bool.or_false _).symm

end Parting

end Interlace
