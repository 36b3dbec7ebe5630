import Interlace.Proofs.Upkeep

/-!
# Jobs that go on with a join

Whatever lets go of a holder of a join, a report, the end of the starting loop or a dropped
continuation, is one lemma (`Sound.settle`).

-/

namespace Interlace

variable {b : Behaviour}

theorem Gather.new_awaits {width : Nat} (hWidth : 0 < width) (parts : List Nat)
    (hParts : ∀ n ∈ parts, n < width) : (Gather.new width).Awaits parts where
  counted := by simp [Gather.new, List.countP_replicate]
  positive := hWidth
  vacant n hn := by simp [Gather.new, hParts n hn]

/-- What a report comes to. -/
inductive Gather.Reported (g : Gather) (n : Nat) : Outcome → Settlement × Gather → Prop where
  | discarded {o : Outcome} (hSettled : g.settled = true) : Reported g n o (.discarded, g)
  | failed {e : Failure} (hSettled : g.settled = false) :
      Reported g n (.error e) (.done (.error (.ofItem n e)), { g with settled := true })
  | pending {d : Datum} (hSettled : g.settled = false) (hRemaining : 1 < g.remaining) :
      Reported g n (.ok d)
        (.pending, { g with slots := g.slots.set n (some d), remaining := g.remaining - 1 })
  | completed {d : Datum} (hSettled : g.settled = false) (hRemaining : g.remaining = 1) :
      Reported g n (.ok d)
        (.done (.ok (.list ((g.slots.set n (some d)).map (·.getD .null)))),
          { g with slots := [], remaining := 0, settled := true })

theorem Gather.report_reported {g : Gather} {parts : List Nat}
    (hAwaits : g.settled = false → g.Awaits parts) {n : Nat} (hn : n ∈ parts) (o : Outcome) :
    g.Reported n o (g.report n o) := by
  rw [Gather.report.eq_def]
  by_cases hSettled : g.settled = true
  · rw [if_pos hSettled]
    exact .discarded hSettled
  · rw [if_neg hSettled]
    have hSettled := Bool.eq_false_iff.mpr hSettled
    cases o with
    | error e => exact .failed hSettled
    | ok d =>
      have hSlot := (hAwaits hSettled).vacant n hn
      have hPositive := (hAwaits hSettled).positive
      simp only [Gather.accept, hSlot]
      by_cases hRemaining : 0 < g.remaining - 1
      · rw [if_pos hRemaining]
        exact .pending hSettled (by omega)
      · rw [if_neg hRemaining]
        have hOne : g.remaining = 1 := by omega
        rw [hOne]
        exact .completed hSettled hOne

theorem Gather.Awaits.accept {g : Gather} {n : Nat} {parts : List Nat} (h : g.Awaits (n :: parts))
    (hNodup : (n :: parts).Nodup) (hRemaining : 1 < g.remaining) (d : Datum) :
    Gather.Awaits { g with slots := g.slots.set n (some d), remaining := g.remaining - 1 }
      parts := by
  have hSlot := h.vacant n List.mem_cons_self
  obtain ⟨hLength, hSlot⟩ := List.getElem?_eq_some_iff.mp hSlot
  refine ⟨?_, by dsimp only; omega, fun i hi => ?_⟩
  · have hCount := h.counted
    have hCountSet := List.countP_set (p := Option.isNone) (a := some d) hLength
    simp only [hSlot, Option.isNone_none, Option.isNone_some, if_true, Bool.false_eq_true,
      if_false] at hCountSet
    dsimp only
    omega
  · have hNe : n ≠ i := by
      rintro rfl
      exact (List.nodup_cons.mp hNodup).1 hi
    rw [List.getElem?_set_ne hNe]
    exact h.vacant i (List.mem_cons_of_mem n hi)

@[simp] theorem Gather.settled_release (g : Gather) :
    g.release.settled = g.settled := rfl

theorem Gather.dropped_remains (g : Gather) (q : Place) :
    (g.dropped q : List (Job b)).flatMap Job.carried ++
      ((g.remains : Option (Node b)).map (Node.opened q)).getD [] =
        if g.settled then [] else [q] := by
  rw [Gather.dropped, Gather.remains]
  by_cases hHolders : g.release.holders = 0 <;> by_cases hSettled : g.settled = true <;>
    simp [hHolders, hSettled, Job.carried, Job.dormant, Job.returning, Node.opened]

namespace History

variable {h : History b}

namespace Sound

theorem invoke_gather (hs : h.Sound) {p : Place} {w : Work b.Recipe b.Note}
    {ws : List (Work b.Recipe b.Note)} {rest : List (Job b)}
    (hAgenda : h.machine.agenda = .invoke p (.gather (w :: ws)) :: rest) :
    Kept h (h.afterJob (.invoke p (.gather (w :: ws))) rest) := by
  have hDormant : p ∈ h.machine.dormant := by simp [Machine.dormant, hAgenda, Job.dormant]
  have hp : p ≠ [] := (hs.rooted p (mem_ledger_of_dormant hDormant)).1
  obtain ⟨hNone, hNoPart⟩ := hs.vacant_of_dormant hDormant
  have hView := hs.view_of_vacant hp hNone
  simp only [Machine.view, View.mk.injEq] at hView
  obtain ⟨hParts, hSteering, hStarting⟩ := hView
  have hSteering : rest.filter (Job.steers p) = [] := by
    simpa [Machine.steering, hAgenda, Job.steers] using hSteering
  have hStarting : rest.countP (Job.starts p) = 0 := by
    simpa [Machine.starting, hAgenda, Job.starts] using hStarting
  have hItem : ∀ x ∈ itemPlaces p 0 (ws.length + 1), ∃ n, x = n :: p := by
    intro x hx
    obtain ⟨n, -, -, hn⟩ := mem_itemPlaces.mp hx
    exact ⟨n, hn⟩
  exact hs.update (itemPlaces p 0 (ws.length + 1)) [] (List.range' 0 (ws.length + 1))
    { agenda := hAgenda
      ne_nil := hp
      perform := ⟨_, _, rfl, Machine.perform_invoke_gather p w ws⟩
      balance := by
        simp [Table.openedAt, hNone, Job.carried, Job.dormant, Job.returning, Node.opened,
          Gather.new]
      made_part := hItem
      nodup := nodup_itemPlaces ..
      new := by
        intro x hx
        obtain ⟨n, rfl⟩ := hItem x hx
        exact hNoPart n
      settled := by
        intro g hg hSettled
        cases hg
        cases hSettled
      live := by
        rw [filterMap_partOf_itemPlaces, hParts]
        simp
      fits := by
        refine .gathering (fun _ => Gather.new_awaits (Nat.succ_pos _) _ ?_) ?_ (Nat.succ_pos _)
          ?_ ?_
        · simp [List.mem_range'_1]
        · simp [Gather.new, Job.starts, hStarting]
        · simp [Job.steers, hSteering]
        · simp [Job.starts, hStarting] }

theorem settle (hs : h.Sound) (used : List Place) (answer : List (Job b)) (parts : List Nat)
    {job : Job b} {rest : List (Job b)} (hAgenda : h.machine.agenda = job :: rest) {q : Place}
    {g g' : Gather} (hFind : h.machine.nodes.find? q = some (.gather g))
    {events : List (Event b)}
    (hPerform : { h.machine with agenda := rest }.perform job =
      (events, { h.machine with
        nodes := h.machine.nodes.update q g'.remains
        agenda := (answer ++ g'.dropped q) ++ rest }))
    (hClosed : events.filterMap Event.closed? = used)
    (hCarried : job.carried = used) (hReturning : job.returning = used)
    (hUsed : ∀ x ∈ used, ∃ n, x = n :: q)
    (hSteering : ∀ p, job.steers p = false) (hStarting : ∀ p, p ≠ q → job.starts p = false)
    (hAnswer : answer.flatMap Job.returning ++ (if g'.settled then [] else [q]) =
      if g.settled then [] else [q])
    (hDeliver : ∀ a ∈ answer, ∃ o, a = .deliver q o)
    (hParts : (used.filterMap (partOf q) ++ parts).Perm (h.machine.parts q))
    (hAwaits : g'.settled = false → g'.Awaits parts)
    (hCount : g'.holders = parts.length + rest.countP (Job.starts q) + 1)
    (hLoop : rest.countP (Job.starts q) ≤ 1) :
    Kept h (h.afterJob job rest) := by
  have hq : q ≠ [] := hs.ne_nil_of_find? hFind
  have hRest : rest.filter (Job.steers q) = [] := by
    have hFits := hs.fits q hq
    rw [hFind] at hFits
    cases hFits with
    | gathering _ _ _ h => simpa [Machine.view, Machine.steering, hAgenda, hSteering] using h
  have hAnswerCarried : answer.flatMap Job.carried = answer.flatMap Job.returning := by
    refine List.flatMap_congr fun a ha => ?_
    obtain ⟨o, rfl⟩ := hDeliver a ha
    rfl
  have hAnswerSteers : ∀ p, answer.filter (Job.steers p) = [] := by
    intro p
    rw [List.filter_eq_nil_iff]
    intro a ha
    obtain ⟨o, rfl⟩ := hDeliver a ha
    simp [Job.steers]
  have hAnswerStarts : ∀ p, answer.countP (Job.starts p) = 0 := by
    intro p
    rw [List.countP_eq_zero]
    intro a ha
    obtain ⟨o, rfl⟩ := hDeliver a ha
    simp [Job.starts]
  have hDroppedSteers : ∀ p, (g'.dropped q : List (Job b)).filter (Job.steers p) = [] := by
    intro p
    rw [Gather.dropped]
    split <;> rfl
  have hDroppedStarts : ∀ p, (g'.dropped q : List (Job b)).countP (Job.starts p) = 0 := by
    intro p
    rw [Gather.dropped]
    split <;> rfl
  have hHolders : g'.release.holders = parts.length + rest.countP (Job.starts q) := by
    simp [Gather.release, hCount]
  have hReturned : g'.settled = true → q ∈ answer.flatMap Job.returning ∨ q ∈ h.returned := by
    intro hSettled
    by_cases hOld : g.settled = true
    · exact Or.inr (hs.settled q g hFind hOld)
    · refine Or.inl ?_
      simp only [hSettled, hOld, if_true, List.append_nil] at hAnswer
      simp [hAnswer]
  have hGone : (g'.remains : Option (Node b)).isSome ∨
      q ∈ (answer ++ g'.dropped q).flatMap Job.returning ++ (used ++ h.returned) := by
    by_cases hEmpty : g'.release.holders = 0
    · refine Or.inr ?_
      by_cases hSettled : g'.settled = true
      · rcases hReturned hSettled with hMem | hMem
        · simp [hMem, List.flatMap_append]
        · simp [hMem]
      · simp [Gather.dropped, hEmpty, hSettled, Job.returning]
    · exact Or.inl (by simp [Gather.remains, hEmpty])
  have hSteers : (answer ++ g'.dropped q).filter (Job.steers q) ++
      rest.filter (Job.steers q) = [] := by
    simp [hAnswerSteers, hDroppedSteers, hRest]
  have hStarts : (answer ++ g'.dropped q).countP (Job.starts q) + rest.countP (Job.starts q) =
      rest.countP (Job.starts q) := by
    simp [hAnswerStarts, hDroppedStarts]
  have hFits : View.Fits q ⟨parts, [], rest.countP (Job.starts q)⟩
      (g'.remains : Option (Node b)) := by
    rw [Gather.remains]
    by_cases hEmpty : g'.release.holders = 0
    · rw [if_pos hEmpty]
      have hLength : parts.length = 0 := by omega
      have hOver : rest.countP (Job.starts q) = 0 := by omega
      exact .vacant (List.length_eq_zero_iff.mp hLength) rfl hOver
    · rw [if_neg hEmpty]
      refine .gathering (fun hSettled => ?_) hHolders (Nat.pos_of_ne_zero hEmpty) rfl hLoop
      have := hAwaits hSettled
      exact ⟨this.counted, this.positive, this.vacant⟩
  exact hs.update [] used parts
    { agenda := hAgenda
      ne_nil := hq
      perform := ⟨_, _, hClosed, hPerform⟩
      balance := by
        have hOld : h.machine.nodes.openedAt q = if g.settled then [] else [q] := by
          simp [Table.openedAt, hFind, Node.opened]
        rw [List.flatMap_append, hAnswerCarried, List.append_assoc, Gather.dropped_remains, hAnswer,
          hOld, hCarried]
        exact .refl _
      returning := by simp [hReturning]
      used_part := by
        intro x hx
        obtain ⟨n, hn⟩ := hUsed x hx
        exact ⟨n, q, hn, Or.inl rfl⟩
      steering := fun p _ => by simp [hAnswerSteers, hDroppedSteers, hSteering]
      starting := fun p hp => by simp [hAnswerStarts, hDroppedStarts, hStarting p hp]
      gone := hGone
      settled := by
        intro g'' hg hSettled
        rw [Gather.remains] at hg
        split at hg
        · cases hg
        · cases hg
          rcases hReturned hSettled with hMem | hMem
          · simp [hMem, List.flatMap_append]
          · simp [hMem]
      waits := by
        intro r hr
        rw [Gather.remains] at hr
        split at hr <;> cases hr
      live := by simpa
      fits := by
        rw [hSteers, hStarts]
        exact hFits }

theorem items_nil (hs : h.Sound) {p : Place} {index : Nat} {rest : List (Job b)}
    (hAgenda : h.machine.agenda = .items p index [] :: rest) :
    Kept h (h.afterJob (.items p index []) rest) := by
  have hStarting : h.machine.starting p = rest.countP (Job.starts p) + 1 := by
    simp [Machine.starting, hAgenda, Job.starts]
  have hp : p ≠ [] := by
    rintro rfl
    have := hs.idle.2
    omega
  have hFits := hs.fits p hp
  generalize hNode : h.machine.nodes.find? p = node at hFits
  cases hFits with
  | vacant _ _ h | driving _ _ _ _ h | parked _ _ _ _ h =>
    rw [Machine.view, hStarting] at h
    cases h
  | invoking _ _ _ _ h | notified _ _ _ _ _ h =>
    rw [Machine.view, hStarting] at h
    cases h
  | @gathering g hAwaits hHolders hHeld hSteering hLoop =>
    rw [Machine.view, hStarting] at hHolders hLoop
    dsimp only at hHolders hLoop
    have hPerform := Machine.perform_items_nil (m := { h.machine with agenda := rest }) hNode index
    exact hs.settle [] [] (h.machine.parts p) hAgenda hNode hPerform rfl rfl rfl (by simp)
      (fun _ => rfl) (fun q hq => by simp [Job.starts, Ne.symm hq]) rfl (by simp) (.refl _) hAwaits
      (by omega) (by omega)

end Sound

end History

end Interlace
