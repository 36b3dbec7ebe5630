import Interlace.Proofs.Programs

/-!
# Which top-level run a job is for

All places of a top-level run and of what it has started end in its number, and so do those of the
jobs that are done for it. A poke has no place. It is done for the operation that makes it, and what
comes after it on the agenda waits for this operation.
-/

namespace Interlace

variable {b : Behaviour}

/-- The number of the top-level run that a place belongs to. -/
def topOf (p : Place) : Option Nat := p.getLast?

theorem topOf_cons {p : Place} {n : Nat} (hp : topOf p = some n) (m : Nat) :
    topOf (m :: p) = some n := by
  cases p with
  | nil => cases hp
  | cons => exact hp

theorem exists_topOf {p : Place} (hp : p ≠ []) : ∃ n, topOf p = some n :=
  ⟨_, List.getLast?_eq_some_getLast hp⟩

def Job.top? : Job b → Option Nat
  | .start p _ _ _ | .drive p _ | .invoke p _ | .check p | .items p _ _ | .hold p _
  | .deliver p _ | .drop p => topOf p
  | .poke _ | .tell _ _ => none

def owner? : List (Job b) → Option Nat
  | [] => none
  | job :: rest => job.top?.or (owner? rest)

def jobsOf (n : Nat) : List (Job b) → List (Job b)
  | [] => []
  | job :: rest => if owner? (job :: rest) = some n then job :: jobsOf n rest else jobsOf n rest

/-- Work is invoked for the same run as what comes after it. -/
def Tended : List (Job b) → Prop
  | .invoke p _ :: rest => owner? rest = topOf p ∧ Tended rest
  | _ :: rest => Tended rest
  | [] => True

/-- Jobs to be put on an agenda for the top-level run `n`. A job that needs one behind it that is
done for this run has one among these jobs, or on the agenda if it is `owned`. -/
inductive Led (n : Nat) (owned : Prop) : List (Job b) → Prop where
  | nil : Led n owned []
  | placed {job : Job b} {put : List (Job b)} (hTop : job.top? = some n)
      (hWork : ∀ p work, job ≠ .invoke p work) (h : Led n owned put) : Led n owned (job :: put)
  | leans {job : Job b} {put : List (Job b)} (hTop : job.top? = none ∨ job.top? = some n)
      (hWork : ∀ work, job ≠ .invoke [] work) (hBehind : put ≠ [] ∨ owned) (h : Led n owned put) :
      Led n owned (job :: put)

theorem owner?_of_top (job : Job b) {n : Nat} (hTop : job.top? = some n) (rest : List (Job b)) :
    owner? (job :: rest) = some n := by
  rw [owner?, hTop]
  rfl

theorem owner?_of_none {job : Job b} (hTop : job.top? = none) (rest : List (Job b)) :
    owner? (job :: rest) = owner? rest := by
  rw [owner?, hTop]
  rfl

theorem jobsOf_of_owner {n : Nat} {job : Job b} {rest : List (Job b)}
    (hOwner : owner? (job :: rest) = some n) : jobsOf n (job :: rest) = job :: jobsOf n rest :=
  if_pos hOwner

theorem jobsOf_of_other {n : Nat} {job : Job b} {rest : List (Job b)}
    (hOwner : owner? (job :: rest) ≠ some n) : jobsOf n (job :: rest) = jobsOf n rest :=
  if_neg hOwner

theorem tended_tail {job : Job b} {rest : List (Job b)} (h : Tended (job :: rest)) :
    Tended rest := by
  cases job with
  | invoke => exact h.2
  | _ => exact h

namespace Led

variable {n : Nat} {owned : Prop} {put rest : List (Job b)}

theorem append {put' : List (Job b)} (h : Led n owned put) (h' : Led n owned put') :
    Led n owned (put ++ put') := by
  induction h with
  | nil => exact h'
  | placed hTop hWork _ ih => exact .placed hTop hWork ih
  | leans hTop hWork hBehind _ ih =>
    refine .leans hTop hWork ?_ ih
    rcases hBehind with hPut | hOwned
    · exact Or.inl (List.append_ne_nil_of_left_ne_nil hPut _)
    · exact Or.inr hOwned

theorem tail {job : Job b} (h : Led n owned (job :: put)) : Led n owned put := by
  cases h with
  | placed _ _ h | leans _ _ _ h => exact h

section

variable (hOwned : owned → owner? rest = some n)
include hOwned

theorem owner (h : Led n owned put) (hBehind : put ≠ [] ∨ owned) :
    owner? (put ++ rest) = some n := by
  induction h with
  | nil => exact hOwned (hBehind.resolve_left (by simp))
  | placed hTop => exact owner?_of_top _ hTop _
  | leans hTop _ hNext _ ih =>
    rcases hTop with hTop | hTop
    · rw [List.cons_append, owner?_of_none hTop]
      exact ih hNext
    · exact owner?_of_top _ hTop _

theorem owner_cons {job : Job b} (h : Led n owned (job :: put)) :
    owner? (job :: (put ++ rest)) = some n :=
  h.owner hOwned (Or.inl (List.cons_ne_nil _ _))

theorem jobsOf_same (h : Led n owned put) : jobsOf n (put ++ rest) = put ++ jobsOf n rest := by
  induction put with
  | nil => rfl
  | cons job put ih =>
    rw [List.cons_append, jobsOf_of_owner (h.owner_cons hOwned), ih h.tail]
    rfl

theorem jobsOf_other {m : Nat} (h : Led n owned put) (hm : n ≠ m) :
    jobsOf m (put ++ rest) = jobsOf m rest := by
  induction put with
  | nil => rfl
  | cons job put ih =>
    rw [List.cons_append, jobsOf_of_other, ih h.tail]
    rw [h.owner_cons hOwned]
    exact fun hSame => hm (Option.some.inj hSame)

theorem tended (h : Led n owned put) (hRest : Tended rest) : Tended (put ++ rest) := by
  induction h with
  | nil => exact hRest
  | @placed job put hTop hWork hPut ih =>
    cases job with
    | invoke p work => exact absurd rfl (hWork p work)
    | _ => exact ih
  | @leans job put hTop hWork hBehind hPut ih =>
    cases job with
    | invoke p work =>
      have hp : p ≠ [] := fun hNil => hWork work (hNil ▸ rfl)
      obtain ⟨m, hm⟩ := exists_topOf hp
      have hPlace : topOf p = some n := hTop.resolve_left (by simp [Job.top?, hm])
      exact ⟨(hPut.owner hOwned hBehind).trans hPlace.symm, ih⟩
    | _ => exact ih

end

end Led

end Interlace
