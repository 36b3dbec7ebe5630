import Interlace.Proofs.Budget
import Interlace.Proofs.Traces

/-!
# What a capture brings

A coroutine that has an item captured is resumed for it, if ever, with a pair: the absent half is
`null`, and the other one is the value or the error of the item. Failures of any kind end there.
They are not thrown in, and no run that works for the item keeps its failure from whoever waits for
it; what escapes was raised by the bottom frame of the top-level run itself.
-/

namespace Interlace

variable {b : Behaviour}

theorem Datum.ofOutcome_cases (o : Outcome) : ∃ first second, ofOutcome o = .list [first, second] ∧
    ((∃ v, o = .ok v ∧ first = .null ∧ second = v) ∨
      ∃ e, o = .error e ∧ first = .error e.problem ∧ second = .null) ∧
    (first = .null ↔ ∃ v, o = .ok v) := by
  cases o with
  | ok v => exact ⟨.null, v, rfl, Or.inl ⟨v, rfl, rfl, rfl⟩, by simp⟩
  | error e => exact ⟨.error e.problem, .null, rfl, Or.inr ⟨e, rfl, rfl, rfl⟩, by simp⟩

/-! ## What escapes -/

namespace Machine

theorem escaped_perform {m : Machine b} {job : Job b} {n : Nat} {e : Failure}
    (h : .escaped n e ∈ (m.perform job).1) : e.isUncaught = true ∧ ∃ x r, job = .drive [n] x ∧
      m.nodes.find? [n] = some (.run r) ∧
        (r.frames.turn b x m.world).turn = .finished (.error e) := by
  cases shows_of_mem h with
  | escaped hFind hTurn _ hUncaught => exact ⟨hUncaught, _, _, rfl, hFind, hTurn⟩

end Machine

namespace Schedule

variable {s : Schedule b} {world : b.World}

theorem escaped_log {k n : Nat} {e : Failure} (h : .escaped n e ∈ (s.after world k).log) :
    e.isUncaught = true ∧ ∃ l < k, s.Ends world l [n] (.error e) := by
  induction k with
  | zero => cases h
  | succ k ih =>
    have hEarlier (h : .escaped n e ∈ (s.after world k).log) :
        e.isUncaught = true ∧ ∃ l < k + 1, s.Ends world l [n] (.error e) := by
      obtain ⟨hUncaught, l, hlk, hEnds⟩ := ih h
      exact ⟨hUncaught, l, Nat.lt_succ_of_lt hlk, hEnds⟩
    rcases s.after_succ world k with ⟨job, rest, hJob, -, hAfter⟩ | ⟨-, put, hAdded⟩
    · rw [hAfter, History.afterJob, List.mem_append] at h
      rcases h with h | h
      · exact hEarlier h
      · obtain ⟨hUncaught, x, r, rfl, hFind, hTurn⟩ := Machine.escaped_perform h
        exact ⟨hUncaught, k, Nat.lt_succ_self k, x, r, hJob, hFind, hTurn⟩
    · rw [hAdded.log] at h
      exact hEarlier h

theorem Ends.raised {l : Nat} {p : Place} {e : Failure} (h : s.Ends world l p (.error e))
    (hUncaught : e.isUncaught = true) : ∃ x r f, s.Steps world l p x r f ∧ r.frames.frames = [f] ∧
      (s.stepped world l f x).1 = .raise e := by
  obtain ⟨x, r, hDrive, hFind, hTurn⟩ := h
  have hTurns : s.Turns world l p x r := ⟨hDrive, hFind⟩
  obtain ⟨f, hStep⟩ := hTurns.steps
  obtain ⟨below, hFrames, hCase⟩ := hStep.case
  rw [← turned] at hTurn
  generalize s.turned world l x r = turned at hTurn hCase
  cases hCase with
  | returned | pushed | refused | awaited => cases hTurn
  | finished hEnded hBelow =>
    cases hTurn
    refine ⟨x, r, f, hStep, by rw [hFrames, hBelow], ?_⟩
    rw [stepped]
    cases hAnswer : (b.step f.body x (s.after world l).machine.world).1 with
    | wait request =>
      rw [hAnswer] at hEnded
      cases hEnded
    | raise e' =>
      rw [hAnswer] at hEnded
      cases hEnded
      rfl
    | give d =>
      rw [hAnswer] at hEnded
      cases d <;> cases hEnded
      cases hUncaught

/-- A run that is not a top-level one hands over its outcome, whatever it is, and lets nothing
escape. -/
theorem Ends.handed {l : Nat} {p : Place} {o : Outcome} (h : s.Ends world l p o)
    (hNested : 2 ≤ p.length) :
    (∃ rest, (s.after world (l + 1)).machine.agenda = .deliver p o :: rest) ∧
      ∃ events, (s.after world (l + 1)).log = (s.after world l).log ++ events ∧
        ∀ n e, .escaped n e ∉ events := by
  obtain ⟨x, r, hDrive, hFind, hTurn⟩ := h
  obtain ⟨rest, hAgenda, hAfter⟩ := s.after_succ_of_job world hDrive
  rw [hAfter]
  cases (s.sound world l).run_step hAgenda hFind with
  | elsewhere hSite => exact absurd rfl hSite
  | next _ hTurn' | await _ hTurn' =>
    rw [hTurn] at hTurn'
    cases hTurn'
  | finish _ hTurn' _ hDoes =>
    rw [hTurn] at hTurn'
    cases hTurn'
    exact ⟨⟨rest, hDoes.agenda⟩, _, hDoes.log, fun n e => by simp [Machine.stepEvents]⟩
  | escape hp =>
    rw [hp] at hNested
    simp at hNested

/-! ## What a frame that asked is stepped with -/

theorem Asked.same {i i' j : Nat} {p : Place} {r r' : Run b}
    {request request' : Request b.Recipe b.Note} {f : Frame b.Body}
    (h : s.Asked world i j p r request f) (h' : s.Asked world i' j p r' request' f) :
    i = i' ∧ r = r' ∧ request = request' := by
  obtain ⟨x, g, hStep, hSerial, hAnswer, -⟩ := h.step
  obtain ⟨x', g', hStep', hSerial', hAnswer', -⟩ := h'.step
  rcases Nat.lt_trichotomy i i' with hii' | rfl | hii'
  · exact absurd hSerial' (h.dozes i' hii' h'.before x' r' g' hStep')
  · obtain ⟨rfl, rfl, rfl⟩ := hStep.unique hStep'
    exact ⟨rfl, rfl, Answer.wait.inj (hAnswer.symm.trans hAnswer')⟩
  · exact absurd hSerial (h'.dozes i hii' h.before x r g hStep)

/-- A frame that has asked for something is stepped next with what settles that. -/
theorem Asked.settles {i j : Nat} {p : Place} {x : Input} {r r' : Run b}
    {request : Request b.Recipe b.Note} {f : Frame b.Body} (h : s.Asked world i j p r request f)
    (hStep : s.Steps world j p x r' f) : ∃ d, s.Settles world i d j p r request x := by
  cases (stacked_routed hStep).2 with
  | first hNever =>
    obtain ⟨y, g, hAsks, hSerial, -⟩ := h.step
    exact absurd hSerial (hNever i h.before y r g hAsks)
  | @settled i' d r'' request' x hAsked hSettles =>
    obtain ⟨rfl, rfl, rfl⟩ := h.same hAsked
    exact ⟨d, hSettles⟩

theorem Turns.lt_ends {i l : Nat} {p : Place} {x : Input} {r : Run b} {o : Outcome}
    (h : s.Turns world i p x r) (hEnds : s.Ends world l (r.wait :: p) o) : i < l := by
  obtain ⟨y, r', -, hFind, -⟩ := hEnds
  by_contra hli
  have hOpened := (s.sound world l).opened_of_run hFind
  have hLedger := (s.kept world (Nat.le_of_not_lt hli)).ledger _
    (History.mem_ledger_of_opened hOpened)
  have hWaits := (s.sound world i).waits _ _ h.find _ hLedger
  rw [Run.waits, h.driven.1] at hWaits
  exact Nat.lt_irrefl _ hWaits

/-! ## Captures -/

variable (s world)

/-- What a schedule keeps to when a coroutine has an item captured. A frame that asked for it and is
stepped again is resumed with a pair, for what the item has come to by then: its value, or its
error. The two are told apart by the first half. A run that works for the item, however far down,
hands over its outcome when it ends: nothing that it fails with, uncaught or not, is kept back or
escapes. What escapes was raised by the bottom frame of the top-level run. -/
structure Captures : Prop where
  resumed : ∀ i j p x r r' item f, s.Asked world i j p r (.caught item) f →
    s.Steps world j p x r' f → ∃ d o, i < d ∧ d < j ∧
      s.job? world d = some (.deliver (r.wait :: p) o) ∧
      s.Result world d (r.wait :: p) (item.toWork r.frames.limit).core o ∧
      (∀ recipe, item = .coroutine recipe → ∃ l, i < l ∧ l < d ∧ s.Ends world l (r.wait :: p) o) ∧
      ∃ first second, x = .value (.list [first, second]) ∧
        ((∃ v, o = .ok v ∧ first = .null ∧ second = v) ∨
          ∃ e, o = .error e ∧ first = .error e.problem ∧ second = .null) ∧
        (first = .null ↔ ∃ v, o = .ok v)
  handed : ∀ i p x r f item, s.Steps world i p x r f →
    (s.stepped world i f x).1 = .wait (.caught item) → ∀ l q o, (r.wait :: p) <:+ q →
      s.Ends world l q o →
        (∃ rest, (s.after world (l + 1)).machine.agenda = .deliver q o :: rest) ∧
          ∃ events, (s.after world (l + 1)).log = (s.after world l).log ++ events ∧
            ∀ n e, .escaped n e ∉ events
  escapes : ∀ k n e, .escaped n e ∈ (s.after world k).log → ∃ l < k, ∃ x r f,
    s.Steps world l [n] x r f ∧ r.frames.frames = [f] ∧ (s.stepped world l f x).1 = .raise e

variable {s world}

theorem captures (s : Schedule b) (world : b.World) : s.Captures world where
  resumed i j p x r r' item f hAsked hStep := by
    obtain ⟨d, hSettles⟩ := hAsked.settles hStep
    obtain ⟨y, hTurns⟩ := hAsked.turns
    cases hSettles with
    | @result _ work u c n o hResolve _ hic hDeliver hcd hdj hResult =>
      cases hResolve
      refine ⟨d, o, Nat.lt_trans hic hcd, hdj, hDeliver, hResult, ?_, ?_⟩
      · rintro recipe rfl
        obtain ⟨-, -, hLimit, -⟩ := hTurns.start
        generalize r.frames.limit = limit at hResult hLimit
        cases hResult with
        | refused => exact absurd hLimit (Nat.lt_irrefl 0)
        | ended _ hl hEnds => exact ⟨_, hTurns.lt_ends hEnds, hl, hEnds⟩
      · obtain ⟨first, second, hPair, hHalves⟩ := Datum.ofOutcome_cases o
        exact ⟨first, second, by rw [Uptake.apply, hPair], hHalves⟩
  handed i p x r f item hStep hAnswer l q o hBelow hEnds := by
    refine hEnds.handed ?_
    have hPlace : 1 ≤ p.length :=
      List.length_pos_iff_ne_nil.mpr ((s.sound world i).ne_nil_of_find? hStep.turns.find)
    exact Nat.le_trans (Nat.succ_le_succ hPlace) hBelow.length_le
  escapes k n e hEscaped := by
    obtain ⟨hUncaught, l, hlk, hEnds⟩ := escaped_log hEscaped
    exact ⟨l, hlk, hEnds.raised hUncaught⟩

end Schedule

end Interlace
