import Interlace.Proofs.Ownership

/-!
# Sound histories

What stands at a place fits the continuations of its parts that are live and the jobs that go on
with it. A history is `Sound` if this holds everywhere and no continuation occurs twice in the
ledger. A step that changes what stands at one place keeps a history sound if it balances the
ledger (`Change`) and leaves that place fitting.
-/

namespace Interlace

variable {b : Behaviour}

/-- What the rest of a machine has to do with a place: the live parts of what stands there, and the
jobs that go on with it. -/
structure View (b : Behaviour) where
  parts : List Nat
  steering : List (Job b)
  starting : Nat

def Machine.view (m : Machine b) (q : Place) : View b := ⟨m.parts q, m.steering q, m.starting q⟩

structure Gather.Awaits (g : Gather) (parts : List Nat) : Prop where
  counted : g.remaining = g.slots.countP Option.isNone
  positive : 0 < g.remaining
  vacant : ∀ n ∈ parts, g.slots[n]? = some none

/-- What may stand at `q` under a view. -/
inductive View.Fits (q : Place) (v : View b) : Option (Node b) → Prop where
  | vacant (hParts : v.parts = []) (hSteering : v.steering = []) (hStarting : v.starting = 0) :
      Fits q v none
  | driving {r : Run b} {x : Input} (hPhase : r.phase = .driving) (hFrames : r.frames.Poised x)
      (hParts : v.parts = []) (hSteering : v.steering = [.drive q x]) (hStarting : v.starting = 0) :
      Fits q v (some (.run r))
  | invoking {r : Run b} {u : Uptake} (hPhase : r.phase = .invoking u .empty)
      (hFrames : r.frames.Asleep) (hParts : v.parts = [r.wait])
      (hSteering : v.steering = [.check q])
      (hStarting : v.starting = 0) : Fits q v (some (.run r))
  | notified {r : Run b} {u : Uptake} {mail : Mail} (hPhase : r.phase = .invoking u mail)
      (hMail : mail ≠ .empty) (hFrames : r.frames.Asleep) (hParts : v.parts = [])
      (hSteering : v.steering = [.check q]) (hStarting : v.starting = 0) : Fits q v (some (.run r))
  | parked {r : Run b} {u : Uptake} (hPhase : r.phase = .parked u) (hFrames : r.frames.Asleep)
      (hParts : v.parts = [r.wait]) (hSteering : v.steering = []) (hStarting : v.starting = 0) :
      Fits q v (some (.run r))
  | gathering {g : Gather} (hAwaits : g.settled = false → g.Awaits v.parts)
      (hHolders : g.holders = v.parts.length + v.starting) (hHeld : 0 < g.holders)
      (hSteering : v.steering = []) (hStarting : v.starting ≤ 1) : Fits q v (some (.gather g))

theorem View.Fits.perm {q : Place} {v v' : View b} {node : Option (Node b)} (h : v.Fits q node)
    (hParts : v'.parts.Perm v.parts) (hSteering : v'.steering = v.steering)
    (hStarting : v'.starting = v.starting) : v'.Fits q node := by
  obtain ⟨parts, steering, starting⟩ := v'
  dsimp only at hParts hSteering hStarting
  subst hSteering hStarting
  cases h with
  | vacant h =>
    rw [h] at hParts
    exact .vacant hParts.eq_nil ‹_› ‹_›
  | driving hPhase hFrames h =>
    rw [h] at hParts
    exact .driving hPhase hFrames hParts.eq_nil ‹_› ‹_›
  | invoking hPhase hFrames h =>
    rw [h] at hParts
    exact .invoking hPhase hFrames (List.perm_singleton.mp hParts) ‹_› ‹_›
  | notified hPhase hMail hFrames h =>
    rw [h] at hParts
    exact .notified hPhase hMail hFrames hParts.eq_nil ‹_› ‹_›
  | parked hPhase hFrames h =>
    rw [h] at hParts
    exact .parked hPhase hFrames (List.perm_singleton.mp hParts) ‹_› ‹_›
  | gathering hAwaits hHolders hHeld hSteering hStarting =>
    refine .gathering (fun h => ?_) ?_ hHeld hSteering hStarting
    · have := hAwaits h
      exact ⟨this.counted, this.positive, fun n hn => this.vacant n (hParts.mem_iff.mp hn)⟩
    · rw [hHolders, hParts.length_eq]

def Run.waits (r : Run b) : Nat :=
  match r.phase with
  | .driving => r.wait
  | _ => r.wait + 1

namespace History

/-- What no move breaks. No continuation occurs twice, and each is made for a part of something that
is there or has come to its end. No job goes on with anything at the root, and what stands at any
other place fits the rest of the machine. -/
structure Sound (h : History b) : Prop where
  keyed : h.machine.nodes.Keyed
  once : h.ledger.Nodup
  rooted : ∀ x ∈ h.ledger, x ≠ [] ∧ ∀ n, x = [n] → n ∈ h.begun
  grown : ∀ n q, n :: q ∈ h.ledger → q ≠ [] → (h.machine.nodes.find? q).isSome ∨ q ∈ h.returned
  settled : ∀ q g, h.machine.nodes.find? q = some (.gather g) → g.settled = true → q ∈ h.returned
  waits : ∀ q r, h.machine.nodes.find? q = some (.run r) → ∀ n, n :: q ∈ h.ledger → n < r.waits
  fits : ∀ q, q ≠ [] → (h.machine.view q).Fits q (h.machine.nodes.find? q)
  idle : h.machine.steering [] = [] ∧ h.machine.starting [] = 0

variable {h : History b}

theorem new_sound (world : b.World) : (new world : History b).Sound where
  keyed := Table.keyed_empty
  once := List.nodup_nil
  rooted _ hx := nomatch hx
  grown _ _ hx := nomatch hx
  settled _ _ hq := nomatch hq
  waits _ _ hq := nomatch hq
  fits _ _ := .vacant rfl rfl rfl
  idle := ⟨rfl, rfl⟩

theorem mem_ledger_of_dormant {x : Place} (hx : x ∈ h.machine.dormant) : x ∈ h.ledger :=
  h.ledger_perm.mem_iff.mpr (List.mem_append_left _ hx)

theorem mem_ledger_of_opened {x : Place} (hx : x ∈ h.machine.nodes.opened) : x ∈ h.ledger :=
  h.ledger_perm.mem_iff.mpr (List.mem_append_right _ (List.mem_append_left _ hx))

theorem mem_ledger_of_returned {x : Place} (hx : x ∈ h.returned) : x ∈ h.ledger :=
  h.ledger_perm.mem_iff.mpr (List.mem_append_right _ (List.mem_append_right _ hx))

namespace Sound

theorem nodup_states (hs : h.Sound) :
    (h.machine.dormant ++ (h.machine.nodes.opened ++ h.returned)).Nodup :=
  h.ledger_perm.nodup_iff.mp hs.once

theorem not_opened_of_dormant (hs : h.Sound) {x : Place} (hx : x ∈ h.machine.dormant) :
    x ∉ h.machine.nodes.opened := fun hx' =>
  (List.nodup_append'.mp hs.nodup_states).2.2 hx (List.mem_append_left _ hx')

theorem not_returned_of_dormant (hs : h.Sound) {x : Place} (hx : x ∈ h.machine.dormant) :
    x ∉ h.returned := fun hx' =>
  (List.nodup_append'.mp hs.nodup_states).2.2 hx (List.mem_append_right _ hx')

theorem not_returned_of_opened (hs : h.Sound) {x : Place} (hx : x ∈ h.machine.nodes.opened) :
    x ∉ h.returned := fun hx' =>
  (List.nodup_append'.mp (List.nodup_append'.mp hs.nodup_states).2.1).2.2 hx hx'

theorem opened_or_returned (hs : h.Sound) {q : Place} {node : Node b}
    (hFind : h.machine.nodes.find? q = some node) :
    q ∈ h.machine.nodes.opened ∨ q ∈ h.returned := by
  have hOpened : ∀ x ∈ node.opened q, x ∈ h.machine.nodes.opened := fun x hx =>
    Table.mem_opened_of_find? hs.keyed hFind hx
  cases node with
  | run r => exact Or.inl (hOpened q (by simp [Node.opened]))
  | gather g =>
    by_cases hg : g.settled = true
    · exact Or.inr (hs.settled q g hFind hg)
    · exact Or.inl (hOpened q (by simp [Node.opened, hg]))

theorem opened_of_run (hs : h.Sound) {q : Place} {r : Run b}
    (hFind : h.machine.nodes.find? q = some (.run r)) : q ∈ h.machine.nodes.opened :=
  Table.mem_opened_of_find? hs.keyed hFind (by simp [Node.opened])

theorem find?_nil (hs : h.Sound) : h.machine.nodes.find? [] = none := by
  cases hFind : h.machine.nodes.find? [] with
  | none => rfl
  | some node =>
    rcases hs.opened_or_returned hFind with hx | hx
    · exact absurd rfl (hs.rooted [] (mem_ledger_of_opened hx)).1
    · exact absurd rfl (hs.rooted [] (mem_ledger_of_returned hx)).1

theorem ne_nil_of_find? (hs : h.Sound) {q : Place} {node : Node b}
    (hFind : h.machine.nodes.find? q = some node) : q ≠ [] := by
  rintro rfl
  rw [hs.find?_nil] at hFind
  cases hFind

/-- Nothing stands yet at a dormant continuation, and there was never a part of it. -/
theorem vacant_of_dormant (hs : h.Sound) {q : Place} (hq : q ∈ h.machine.dormant) :
    h.machine.nodes.find? q = none ∧ ∀ n, n :: q ∉ h.ledger := by
  have hNone : h.machine.nodes.find? q = none := by
    cases hFind : h.machine.nodes.find? q with
    | none => rfl
    | some node =>
      rcases hs.opened_or_returned hFind with hx | hx
      · exact absurd hx (hs.not_opened_of_dormant hq)
      · exact absurd hx (hs.not_returned_of_dormant hq)
  refine ⟨hNone, fun n hn => ?_⟩
  rcases hs.grown n q hn (hs.rooted q (mem_ledger_of_dormant hq)).1 with hx | hx
  · rw [hNone] at hx
    cases hx
  · exact hs.not_returned_of_dormant hq hx

theorem view_of_vacant (hs : h.Sound) {q : Place} (hq : q ≠ [])
    (hNone : h.machine.nodes.find? q = none) : h.machine.view q = ⟨[], [], 0⟩ := by
  have hFits := hs.fits q hq
  rw [hNone] at hFits
  rcases hView : h.machine.view q with ⟨parts, steering, starting⟩
  rw [hView] at hFits
  cases hFits with
  | vacant hParts hSteering hStarting =>
    dsimp only at hParts hSteering hStarting
    rw [hParts, hSteering, hStarting]

end Sound

end History

end Interlace
