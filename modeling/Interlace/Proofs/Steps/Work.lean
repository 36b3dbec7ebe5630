import Interlace.Proofs.Upkeep

/-!
# Jobs that only hand continuations along
-/

namespace Interlace

variable {b : Behaviour}

namespace History

variable {h : History b}

namespace Sound

theorem hold (hs : h.Sound) {p : Place} {hold : Hold} {rest : List (Job b)}
    (hAgenda : h.machine.agenda = .hold p hold :: rest) :
    Kept h (h.afterJob (.hold p hold) rest) := by
  refine hs.handOver [] hAgenda rfl rfl ?_ rfl (fun _ => rfl) (fun _ => rfl)
  rw [List.map_append]
  exact List.perm_append_singleton p _

theorem tell (hs : h.Sound) {key : String} {found : Bool} {rest : List (Job b)}
    (hAgenda : h.machine.agenda = .tell key found :: rest) :
    Kept h (h.afterJob (.tell key found) rest) :=
  hs.handOver [] hAgenda rfl rfl (List.Perm.refl _) rfl (fun _ => rfl) (fun _ => rfl)

theorem poke (hs : h.Sound) {k : Poke} {rest : List (Job b)}
    (hAgenda : h.machine.agenda = .poke k :: rest) : Kept h (h.afterJob (.poke k) rest) := by
  cases hTake : takeKeyed k.key h.machine.held with
  | none =>
    exact hs.handOver [.tell k.key false] hAgenda (Machine.perform_poke_none hTake) rfl
      (List.Perm.refl _) rfl (fun _ => rfl) (fun _ => rfl)
  | some found =>
    obtain ⟨p, others⟩ := found
    exact hs.handOver [.deliver p k.outcome, .tell k.key true] hAgenda (Machine.perform_poke hTake)
      rfl (takeKeyed_perm hTake) rfl (fun _ => rfl) (fun _ => rfl)

theorem items_cons (hs : h.Sound) {p : Place} {index : Nat} {w : Work b.Recipe b.Note}
    {ws : List (Work b.Recipe b.Note)} {rest : List (Job b)}
    (hAgenda : h.machine.agenda = .items p index (w :: ws) :: rest) :
    Kept h (h.afterJob (.items p index (w :: ws)) rest) := by
  refine hs.handOver [.invoke (index :: p) w, .items p (index + 1) ws] hAgenda rfl rfl ?_ rfl
    (fun _ => rfl) (fun _ => ?_)
  · simp [Job.carried, Job.dormant, Job.returning]
  · simp [Job.starts]

theorem start_refused (hs : h.Sound) {p : Place} {recipe : b.Recipe} {args : List Datum}
    {rest : List (Job b)} (hAgenda : h.machine.agenda = .start p recipe args 0 :: rest) :
    Kept h (h.afterJob (.start p recipe args 0) rest) := by
  rcases hMake : b.make recipe args h.machine.world with ⟨body, notes, world⟩
  refine hs.handOver [.deliver p (.error (.tooDeep 0))] hAgenda
    (Machine.perform_start_zero hMake) ?_
    (List.Perm.refl _) rfl (fun _ => rfl) (fun _ => rfl)
  simp [Event.closed?]

theorem invoke_noted (hs : h.Sound) {p : Place} {note : b.Note} {w : Work b.Recipe b.Note}
    {rest : List (Job b)} (hAgenda : h.machine.agenda = .invoke p (.noted note w) :: rest) :
    Kept h (h.afterJob (.invoke p (.noted note w)) rest) :=
  hs.handOver [.invoke p w] hAgenda rfl rfl (List.Perm.refl _) rfl (fun _ => rfl) (fun _ => rfl)

theorem invoke_nested (hs : h.Sound) {p : Place} {limit : Nat} {recipe : b.Recipe}
    {rest : List (Job b)} (hAgenda : h.machine.agenda = .invoke p (.nested limit recipe) :: rest) :
    Kept h (h.afterJob (.invoke p (.nested limit recipe)) rest) :=
  hs.handOver [.start p recipe [] limit] hAgenda rfl rfl (List.Perm.refl _) rfl (fun _ => rfl)
    (fun _ => rfl)

theorem invoke_nothing (hs : h.Sound) {p : Place} {rest : List (Job b)}
    (hAgenda : h.machine.agenda = .invoke p (.gather []) :: rest) :
    Kept h (h.afterJob (.invoke p (.gather [])) rest) :=
  hs.handOver [.deliver p (.ok (.list []))] hAgenda rfl rfl (List.Perm.refl _) rfl (fun _ => rfl)
    (fun _ => rfl)

theorem invoke_primitive (hs : h.Sound) {p : Place} {w : Primitive} {rest : List (Job b)}
    (hAgenda : h.machine.agenda = .invoke p (.primitive w) :: rest) :
    Kept h (h.afterJob (.invoke p (.primitive w)) rest) := by
  refine hs.handOver (w.before.map .poke ++ Machine.fateJob p w.fate :: w.after.map .poke) hAgenda
    (Machine.perform_invoke_primitive p w) rfl ?_ rfl (fun q => ?_) (fun q => ?_)
  · have hNone : ∀ pokes : List Poke, pokes.flatMap (fun _ => ([] : List Place)) = [] := by simp
    simp only [List.flatMap_append, List.flatMap_cons, List.flatMap_map, Job.carried_poke, hNone,
      Machine.carried_fateJob]
    exact .refl _
  · simp [List.filter_map, Function.comp_def]
    rfl
  · simp [List.countP_map, Function.comp_def]
    rfl

end Sound

end History

end Interlace
