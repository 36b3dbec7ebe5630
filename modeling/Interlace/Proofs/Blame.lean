import Interlace.Proofs.Captures
import Interlace.Proofs.Starting
import Interlace.Proofs.Trees
import Interlace.Script.Coroutine

/-!
# What a failed fan-out tells

The failure that is thrown into a frame for several items names the item that failed first and
gives its message. Both can be read off from it again, also when the message names an item itself,
since the item is from a fan-out further down. Nothing else is told: neither the code of the item's
failure nor where it came from.
-/

namespace Interlace

variable {b : Behaviour}

namespace Failure

theorem colon_notMem_toDigits (n : Nat) : ':' ∉ Nat.toDigits 10 n := by
  intro hColon
  have hDigit := Nat.isDigit_of_mem_toDigits (by decide) (Nat.le_refl 10) hColon
  exact absurd hDigit (by decide)

theorem before_colon_inj {ds ds' cs cs' : List Char} (hDs : ':' ∉ ds) (hDs' : ':' ∉ ds')
    (hSame : ds ++ ':' :: cs = ds' ++ ':' :: cs') : ds = ds' ∧ cs = cs' := by
  rcases List.append_eq_append_iff.mp hSame with ⟨more, rfl, hRest⟩ | ⟨more, rfl, hRest⟩
  · cases more with
    | nil => exact ⟨(List.append_nil ds).symm, (List.cons.inj hRest).2⟩
    | cons c more =>
      obtain ⟨rfl, -⟩ := List.cons.inj hRest
      exact absurd (List.mem_append_right ds List.mem_cons_self) hDs'
  · cases more with
    | nil => exact ⟨List.append_nil ds', (List.cons.inj hRest).2.symm⟩
    | cons c more =>
      obtain ⟨rfl, -⟩ := List.cons.inj hRest
      exact absurd (List.mem_append_right ds' List.mem_cons_self) hDs

theorem message_ofItem (n : Nat) (cause : Failure) : (ofItem n cause).message.toList =
    "item ".toList ++ (Nat.toDigits 10 n ++ ':' :: ' ' :: cause.message.toList) := by
  simp [ofItem, message, Nat.toString_eq_repr, Nat.toList_repr]

theorem message_ofItem_eq_iff {n n' : Nat} {cause cause' : Failure} :
    (ofItem n cause).message = (ofItem n' cause').message ↔
      n = n' ∧ cause.message = cause'.message := by
  constructor
  · intro hSame
    have hChars := congrArg String.toList hSame
    rw [message_ofItem, message_ofItem] at hChars
    obtain ⟨hDigits, hRest⟩ := before_colon_inj (colon_notMem_toDigits n)
      (colon_notMem_toDigits n') (List.append_cancel_left hChars)
    have hNumber := congrArg (Nat.ofDigitChars 10 · 0) hDigits
    rw [Nat.ofDigitChars_ten_toDigits, Nat.ofDigitChars_ten_toDigits] at hNumber
    exact ⟨hNumber, String.toList_inj.mp (List.cons.inj hRest).2⟩
  · rintro ⟨rfl, hMessage⟩
    simp only [ofItem, message] at hMessage ⊢
    rw [hMessage]

theorem ofItem_eq_iff {n n' : Nat} {cause cause' : Failure} :
    ofItem n cause = ofItem n' cause' ↔ n = n' ∧ cause.message = cause'.message := by
  rw [← message_ofItem_eq_iff]
  constructor
  · intro hSame
    rw [hSame]
  · intro hSame
    simp only [ofItem, message] at hSame ⊢
    rw [hSame]

end Failure

/-- Two failures that went up through fan-outs are told alike just if one path goes on where the
other ends, and the message there names the rest of it. -/
theorem Tree.message_wrapped_eq_iff {path path' : List Nat} {cause cause' : Failure} :
    (wrapped path cause).message = (wrapped path' cause').message ↔ ∃ more,
      (path' = path ++ more ∧ cause.message = (wrapped more cause').message) ∨
        (path = path' ++ more ∧ (wrapped more cause).message = cause'.message) := by
  induction path generalizing path' with
  | nil =>
    constructor
    · intro hSame
      exact ⟨path', Or.inl ⟨rfl, hSame⟩⟩
    · rintro ⟨more, ⟨rfl, hMessage⟩ | ⟨hNil, hMessage⟩⟩
      · exact hMessage
      · obtain ⟨rfl, rfl⟩ := List.append_eq_nil_iff.mp hNil.symm
        exact hMessage
  | cons i path ih =>
    cases path' with
    | nil =>
      constructor
      · intro hSame
        exact ⟨i :: path, Or.inr ⟨rfl, hSame⟩⟩
      · rintro ⟨more, ⟨hNil, -⟩ | ⟨rfl, hMessage⟩⟩
        · cases hNil
        · exact hMessage
    | cons i' path' =>
      rw [wrapped, wrapped, Failure.message_ofItem_eq_iff, ih]
      simp only [List.cons_append, List.cons.injEq]
      constructor
      · rintro ⟨rfl, more, hMore⟩
        exact ⟨more, hMore.imp (And.imp_left (And.intro rfl)) (And.imp_left (And.intro rfl))⟩
      · rintro ⟨more, ⟨⟨rfl, hPath⟩, hMessage⟩ | ⟨⟨rfl, hPath⟩, hMessage⟩⟩
        · exact ⟨rfl, more, Or.inl ⟨hPath, hMessage⟩⟩
        · exact ⟨rfl, more, Or.inr ⟨hPath, hMessage⟩⟩

namespace Schedule

variable (s : Schedule b) (world : b.World)

/-- Of the items of the join with the continuation `q`, the item `n` is the first that has failed
when `k` moves are made, and `cause` is what it failed with. -/
def FailsFirst (k : Nat) (q : Place) (n : Nat) (cause : Failure) : Prop :=
  ∃ before after, (s.after world k).reports q = before ++ (n, .error cause) :: after ∧
    ∀ report ∈ before, ∃ d, report.2 = .ok d

/-- Move `j` throws `e` into the frame `f`, which asked for several items with its step at move `i`.
The item `n` was the first of them to fail, with `cause`. -/
structure Throws (i j : Nat) (p : Place) (r : Run b) (items : List (Item b.Recipe b.Note))
    (f : Frame b.Body) (n : Nat) (cause e : Failure) : Prop where
  asked : s.Asked world i j p r (.all items) f
  step : ∃ r', s.Steps world j p (.failure e) r' f
  first : s.FailsFirst world j (r.wait :: p) n cause

variable {s world}

namespace FailsFirst

variable {k k' : Nat} {q : Place} {n n' : Nat} {cause cause' : Failure}

theorem mono (hkk' : k ≤ k') (h : s.FailsFirst world k q n cause) :
    s.FailsFirst world k' q n cause := by
  obtain ⟨before, after, hSplit, hBefore⟩ := h
  have hPrefix : (s.after world k).reports q <+: (s.after world k').reports q := reports_mono hkk' q
  obtain ⟨more, hMore⟩ := hPrefix
  refine ⟨before, after ++ more, ?_, hBefore⟩
  rw [← hMore, hSplit, List.append_assoc, List.cons_append]

theorem unique (h : s.FailsFirst world k q n cause) (h' : s.FailsFirst world k' q n' cause') :
    n = n' ∧ cause = cause' := by
  obtain ⟨before, after, hSplit, hBefore⟩ := h.mono (Nat.le_max_left k k')
  obtain ⟨before', after', hSplit', hBefore'⟩ := h'.mono (Nat.le_max_right k k')
  exact Gather.firstFailure_unique (hSplit.symm.trans hSplit') hBefore hBefore'

theorem reported (h : s.FailsFirst world k q n cause) :
    ∃ d < k, s.job? world d = some (.deliver (n :: q) (.error cause)) := by
  obtain ⟨before, after, hSplit, -⟩ := h
  refine (s.called_log world).mp (History.mem_reports.mp ?_)
  rw [hSplit]
  exact List.mem_append_right before List.mem_cons_self

end FailsFirst

theorem Result.core {d : Nat} {x : Place} {work : Work b.Recipe b.Note} {o : Outcome}
    (h : s.Result world d x work o) : work.core = work := by
  cases h <;> rfl

section

variable {i k : Nat} {q : Place} {works : List (Work b.Recipe b.Note)} {e : Failure}
  (hInvoke : s.job? world i = some (.invoke q (.gather works)))
include hInvoke

theorem failsFirst_of_deliver {d : Nat} (hDeliver : s.job? world d = some (.deliver q (.error e)))
    (hResult : s.Result world d q (.gather works) (.error e)) (hdk : d < k) :
    ∃ n cause, s.FailsFirst world k q n cause ∧ e = .ofItem n cause := by
  cases works with
  | nil => cases hResult
  | cons w ws =>
    have hCalled := (s.called_log world).mpr ⟨d, hdk, hDeliver⟩
    have hCourse := Gather.course (Nat.succ_pos ws.length) (admissible hInvoke k)
    obtain ⟨before, n, cause, after, hSplit, hBefore, hEq⟩ :=
      (hCourse.fails e).mp (calls_of_told hInvoke (Or.inr hCalled))
    exact ⟨n, cause, ⟨before, after, hSplit, hBefore⟩, hEq⟩

theorem told_of_failsFirst {n : Nat} {cause : Failure} (hWorks : works ≠ [])
    (h : s.FailsFirst world k q n cause) :
    .deliver q (.error (.ofItem n cause)) ∈ (s.after world k).machine.agenda ∨
      .called q (.error (.ofItem n cause)) ∈ (s.after world k).log := by
  obtain ⟨w, ws, rfl⟩ := List.exists_cons_of_ne_nil hWorks
  obtain ⟨before, after, hSplit, hBefore⟩ := h
  have hCourse := Gather.course (Nat.succ_pos ws.length) (admissible hInvoke k)
  refine told_of_calls hInvoke ((hCourse.fails _).mpr ?_)
  exact ⟨before, n, cause, after, hSplit, hBefore, rfl⟩

theorem failsFirst_nested {n : Nat} {cause : Failure} {whole : Work b.Recipe b.Note}
    {parts : List (Work b.Recipe b.Note)} (h : s.FailsFirst world k q n cause)
    (hItem : works[n]? = some whole) (hNested : whole.core = .gather parts) :
    ∃ m inner, s.FailsFirst world k (n :: q) m inner ∧ cause = .ofItem m inner := by
  have hWorks : works ≠ [] := by
    rintro rfl
    cases hItem
  obtain ⟨w, ws, rfl⟩ := List.exists_cons_of_ne_nil hWorks
  obtain ⟨d, hdk, hDeliver⟩ := h.reported
  have hPlace := nested_of_gather hInvoke
  obtain ⟨c, -, work, hPart, hResult⟩ :=
    handed_of_deliver (mem_agenda_of_job hDeliver) (by simp only [List.length_cons]; omega)
  obtain ⟨whole', hItem', hCore⟩ := item_of_invoke hInvoke hPart
  cases hItem.symm.trans hItem'
  obtain rfl : work = .gather parts := by rw [← hResult.core, ← hCore, hNested]
  exact failsFirst_of_deliver hPart hDeliver hResult hdk

end

section

variable {i j : Nat} {p : Place} {r r' : Run b} {items : List (Item b.Recipe b.Note)}
  {f : Frame b.Body} {n : Nat} {cause e : Failure}

theorem Asked.fails (hAsked : s.Asked world i j p r (.all items) f)
    (hStep : s.Steps world j p (.failure e) r' f) :
    ∃ n cause, s.FailsFirst world j (r.wait :: p) n cause ∧ e = .ofItem n cause := by
  obtain ⟨d, hSettles⟩ := hAsked.settles hStep
  generalize hInput : Input.failure e = x at hSettles
  cases hSettles with
  | @result _ work u c k o hResolve hInvoke hic hDeliver hcd hdj hResult =>
    cases hResolve
    cases o with
    | ok d => cases hInput
    | error e' =>
      cases hInput
      exact failsFirst_of_deliver hInvoke hDeliver hResult hdj

theorem Throws.eq (h : s.Throws world i j p r items f n cause e) : e = .ofItem n cause := by
  obtain ⟨r', hStep⟩ := h.step
  obtain ⟨n', cause', hFirst, rfl⟩ := h.asked.fails hStep
  obtain ⟨rfl, rfl⟩ := h.first.unique hFirst
  rfl

theorem Throws.result (h : s.Throws world i j p r items f n cause e) :
    ∃ item d, items[n]? = some item ∧ i < d ∧ d < j ∧
      s.job? world d = some (.deliver (n :: r.wait :: p) (.error cause)) ∧
      s.Result world d (n :: r.wait :: p) (item.toWork r.frames.limit).core (.error cause) := by
  obtain ⟨x, g, hAsks, -, hAnswer, -⟩ := h.asked.step
  obtain ⟨d, hdj, hDeliver⟩ := h.first.reported
  obtain ⟨c, hcd, work, hPart, hResult⟩ :=
    handed_of_deliver (mem_agenda_of_job hDeliver) (by simp)
  obtain ⟨l, item, hil, hlc, -, hItem, hCore⟩ := item_of_request hAsks hAnswer hPart
  rw [← hResult.core, ← hCore] at hResult
  exact ⟨item, d, hItem, by omega, hdj, hDeliver, hResult⟩

theorem Steps.throws {k : Nat} {x : Input} (hStep : s.Steps world i p x r f)
    (hAnswer : (s.stepped world i f x).1 = .wait (.all items)) (hRest : (s.after world k).AtRest)
    (hFirst : s.FailsFirst world k (r.wait :: p) n cause) :
    ∃ j < k, ∃ f', s.Throws world i j p r items f' n cause (.ofItem n cause) := by
  obtain ⟨d, -, hReport⟩ := hFirst.reported
  obtain ⟨c, hInvoke, hWorks⟩ := gather_of_report hStep hAnswer hReport
  rcases told_of_failsFirst hInvoke hWorks hFirst with hPending | hCalled
  · exact absurd hPending (not_mem_of_rest hRest _)
  · obtain ⟨a, hak, hDeliver⟩ := (s.called_log world).mp hCalled
    have hia := Nat.lt_trans (hStep.turns.lt_invoke hInvoke) (lt_of_invoke_deliver hInvoke hDeliver)
    obtain ⟨j, hjk, -, r', f', request, hNext, hAsked, -⟩ :=
      hStep.turns.told_by_rest hRest (gather_turn hStep hAnswer) hDeliver hia hak
    obtain ⟨y, g, hAsks, -, hAnswer', -⟩ := hAsked.step
    obtain ⟨rfl, -, rfl⟩ := hStep.unique hAsks
    obtain rfl : Request.all items = request := Answer.wait.inj (hAnswer.symm.trans hAnswer')
    obtain ⟨n', cause', hFirst', -⟩ := hAsked.fails hNext
    obtain ⟨rfl, rfl⟩ := hFirst'.unique hFirst
    exact ⟨j, hjk, f', hAsked, ⟨r', hNext⟩, hFirst'⟩

end

/-! ## What is told -/

variable (s world)

/-- What a schedule keeps to when items fail a frame that asked for several of them. When an item
has failed and all jobs are done, a failure was thrown in, because of the item that failed first: it
gives the number of this item and the message of the item's own result. An item that is a fan-out
itself fails with the number of its own item that failed first. Failures of any two fan-outs differ
just if the numbers of the items or the messages do. If they went up through other fan-outs before,
they agree just if the whole paths do, and the messages at their ends; or the message at the end of
one path looks like the rest of the other. -/
structure Blames : Prop where
  because : ∀ i j p r r' items f e, s.Asked world i j p r (.all items) f →
    s.Steps world j p (.failure e) r' f → ∃ n cause, s.Throws world i j p r items f n cause e
  own : ∀ i j p r items f n cause e, s.Throws world i j p r items f n cause e →
    ∃ item d, items[n]? = some item ∧ i < d ∧ d < j ∧
      s.job? world d = some (.deliver (n :: r.wait :: p) (.error cause)) ∧
      s.Result world d (n :: r.wait :: p) (item.toWork r.frames.limit).core (.error cause)
  reaches : ∀ i k p x r f items n cause, s.Steps world i p x r f →
    (s.stepped world i f x).1 = .wait (.all items) → (s.after world k).AtRest →
      s.FailsFirst world k (r.wait :: p) n cause →
        ∃ j < k, ∃ f', s.Throws world i j p r items f' n cause (.ofItem n cause)
  names : ∀ i j p r items f n cause e, s.Throws world i j p r items f n cause e →
    e = ⟨.joined, "JoinFailed", "item " ++ toString n ++ ": " ++ cause.message⟩
  nested : ∀ i k q works n cause whole parts, s.job? world i = some (.invoke q (.gather works)) →
    s.FailsFirst world k q n cause → works[n]? = some whole → whole.core = .gather parts →
      ∃ m inner, s.FailsFirst world k (n :: q) m inner ∧ cause = .ofItem m inner
  apart : ∀ (b' : Behaviour) (s' : Schedule b') (world' : b'.World) i i' j j' p p' r r' items items'
    f f' n n' cause cause' e e', s.Throws world i j p r items f n cause e →
      s'.Throws world' i' j' p' r' items' f' n' cause' e' →
        (e = e' ↔ n = n' ∧ cause.message = cause'.message)
  deep : ∀ (b' : Behaviour) (s' : Schedule b') (world' : b'.World) i i' j j' p p' r r' items items'
    f f' n n' path path' cause cause' e e',
      s.Throws world i j p r items f n (Tree.wrapped path cause) e →
      s'.Throws world' i' j' p' r' items' f' n' (Tree.wrapped path' cause') e' →
        (e = e' ↔ n = n' ∧ ∃ more,
          (path' = path ++ more ∧ cause.message = (Tree.wrapped more cause').message) ∨
            (path = path' ++ more ∧ (Tree.wrapped more cause).message = cause'.message))

variable {s world}

theorem Throws.eq_iff {b' : Behaviour} {s' : Schedule b'} {world' : b'.World} {i i' j j' : Nat}
    {p p' : Place} {r : Run b} {r' : Run b'} {items : List (Item b.Recipe b.Note)}
    {items' : List (Item b'.Recipe b'.Note)} {f : Frame b.Body} {f' : Frame b'.Body} {n n' : Nat}
    {cause cause' e e' : Failure} (h : s.Throws world i j p r items f n cause e)
    (h' : s'.Throws world' i' j' p' r' items' f' n' cause' e') :
    e = e' ↔ n = n' ∧ cause.message = cause'.message := by
  rw [h.eq, h'.eq, Failure.ofItem_eq_iff]

/-- A frame is told which of the items that it asked for has failed first, and with what message. -/
theorem told_apart (s : Schedule b) (world : b.World) : s.Blames world where
  because i j p r r' items f e hAsked hStep := by
    obtain ⟨n, cause, hFirst, -⟩ := hAsked.fails hStep
    exact ⟨n, cause, hAsked, ⟨r', hStep⟩, hFirst⟩
  own i j p r items f n cause e hThrows := hThrows.result
  reaches i k p x r f items n cause hStep hAnswer hRest hFirst := hStep.throws hAnswer hRest hFirst
  names i j p r items f n cause e hThrows := hThrows.eq
  nested i k q works n cause whole parts hInvoke hFirst hItem hNested :=
    failsFirst_nested hInvoke hFirst hItem hNested
  apart b' s' world' i i' j j' p p' r r' items items' f f' n n' cause cause' e e' hThrows
      hThrows' :=
    hThrows.eq_iff hThrows'
  deep b' s' world' i i' j j' p p' r r' items items' f f' n n' path path' cause cause' e e' hThrows
      hThrows' := by
    rw [hThrows.eq_iff hThrows', Tree.message_wrapped_eq_iff]

end Schedule

/-! ## What is not told -/

namespace Script

def failing (code : String) : Library :=
  [("failing",
    #[.yield (.fan [.deed (.failure (.ofProblem (.text code) (.text "boom")))]) "x" none])]

def failure (code : String) : Schedule (behaviour (failing code) 3) :=
  .alone (.program "failing" []) [] 3

/-- Failures with different codes are thrown in alike. -/
theorem code_untold : ∃ j j' r r' items items' f f' e,
    (failure "NotFound").Throws .new 2 j [0] r items f 0 ⟨.operation, "NotFound", "boom"⟩ e ∧
    (failure "Busy").Throws .new 2 j' [0] r' items' f' 0 ⟨.operation, "Busy", "boom"⟩ e := by
  have hStep : (failure "NotFound").Steps .new 2 [0] .start _ _ := ⟨⟨rfl, rfl⟩, rfl⟩
  have hStep' : (failure "Busy").Steps .new 2 [0] .start _ _ := ⟨⟨rfl, rfl⟩, rfl⟩
  have hRest : ((failure "NotFound").after .new 13).AtRest := rfl
  have hRest' : ((failure "Busy").after .new 13).AtRest := rfl
  have hFails : (failure "NotFound").FailsFirst .new 13 [0, 0] 0 ⟨.operation, "NotFound", "boom"⟩ :=
    ⟨[], [], rfl, nofun⟩
  have hFails' : (failure "Busy").FailsFirst .new 13 [0, 0] 0 ⟨.operation, "Busy", "boom"⟩ :=
    ⟨[], [], rfl, nofun⟩
  obtain ⟨j, -, f, hThrows⟩ := hStep.throws rfl hRest hFails
  obtain ⟨j', -, f', hThrows'⟩ := hStep'.throws rfl hRest' hFails'
  have hSame : Failure.ofItem 0 ⟨.operation, "Busy", "boom"⟩ =
      .ofItem 0 ⟨.operation, "NotFound", "boom"⟩ := Failure.ofItem_eq_iff.mpr ⟨rfl, rfl⟩
  exact ⟨j, j', _, _, _, _, f, f', _, hThrows, hSame ▸ hThrows'⟩

end Script

end Interlace
