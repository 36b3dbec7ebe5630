import Interlace.Proofs.Effects
import Interlace.Proofs.Soundness

/-!
# Upkeep of a sound history

What a job has to meet to keep a history sound: one that only hands continuations along
(`Sound.handOver`), and one that changes what stands at a place (`Sound.update`).
-/

namespace Interlace

variable {b : Behaviour}

namespace History

/-- What a step does that changes only what stands at `q`: it takes jobs from the front of the
agenda and puts others there, makes continuations for parts of `q`, and uses some up. -/
structure Change (h h' : History b) (q : Place) (took put : List (Job b))
    (made used : List Place) : Prop where
  agenda : ∃ rest, h.machine.agenda = took ++ rest ∧ h'.machine.agenda = put ++ rest
  balance : (used ++ (put.flatMap Job.carried ++
      (h'.machine.held.map Held.place ++ h'.machine.nodes.opened))).Perm
    (made ++ (took.flatMap Job.carried ++
      (h.machine.held.map Held.place ++ h.machine.nodes.opened)))
  closed : h'.closed = h.closed ++ used
  returned : ∀ x ∈ took.flatMap Job.returning, x ∈ used
  keyed : h'.machine.nodes.Keyed
  begun : h.begun ⊆ h'.begun
  made_part : ∀ x ∈ made, ∃ n, x = n :: q ∧ (q = [] → n ∈ h'.begun)
  used_part : ∀ x ∈ used, ∃ n p, x = n :: p ∧ (p = q ∨ p = [])
  nodes : ∀ p, p ≠ q → h'.machine.nodes.find? p = h.machine.nodes.find? p
  steering : ∀ p, p ≠ q → put.filter (Job.steers p) = took.filter (Job.steers p)
  starting : ∀ p, p ≠ q → put.countP (Job.starts p) = took.countP (Job.starts p)

namespace Change

variable {h h' : History b} {q : Place} {took put : List (Job b)} {made used : List Place}

theorem live (hc : Change h h' q took put made used) :
    (used ++ h'.machine.live).Perm (made ++ h.machine.live) := by
  obtain ⟨rest, hTook, hPut⟩ := hc.agenda
  have hBalance := hc.balance
  rw [List.perm_iff_count] at hBalance ⊢
  intro x
  have := hBalance x
  simp only [Machine.live, hTook, hPut, List.flatMap_append, List.count_append] at this ⊢
  omega

theorem ledger (hc : Change h h' q took put made used) :
    h'.ledger.Perm (made ++ h.ledger) := by
  have hLive := hc.live
  rw [List.perm_iff_count] at hLive ⊢
  intro x
  have := hLive x
  simp only [History.ledger, hc.closed, List.count_append] at this ⊢
  omega

theorem mem_returned (hc : Change h h' q took put made used) {x : Place} (hx : x ∈ h.returned) :
    x ∈ h'.returned := by
  obtain ⟨rest, hTook, hPut⟩ := hc.agenda
  simp only [History.returned, Machine.returning, hTook, hPut, hc.closed, List.flatMap_append,
    List.mem_append] at hx ⊢
  rcases hx with (hx | hx) | hx
  · exact Or.inr (Or.inr (hc.returned x hx))
  · exact Or.inl (Or.inr hx)
  · exact Or.inr (Or.inl hx)

theorem parts (hc : Change h h' q took put made used) {p : Place} (hp : p ≠ q) (hp' : p ≠ []) :
    (h'.machine.parts p).Perm (h.machine.parts p) := by
  have hUsed : used.filterMap (partOf p) = [] := by
    rw [List.filterMap_eq_nil_iff]
    intro x hx
    obtain ⟨n, p', rfl, hp''⟩ := hc.used_part x hx
    have : p' ≠ p := by
      rintro rfl
      exact hp''.elim hp hp'
    simp [partOf, this]
  have hMade : made.filterMap (partOf p) = [] := by
    rw [List.filterMap_eq_nil_iff]
    intro x hx
    obtain ⟨n, rfl, -⟩ := hc.made_part x hx
    simp [partOf, Ne.symm hp]
  have hLive := hc.live.filterMap (partOf p)
  rwa [List.filterMap_append, List.filterMap_append, hUsed, hMade, List.nil_append,
    List.nil_append] at hLive

theorem steering_eq (hc : Change h h' q took put made used) {p : Place}
    (hp : put.filter (Job.steers p) = took.filter (Job.steers p)) :
    h'.machine.steering p = h.machine.steering p := by
  obtain ⟨rest, hTook, hPut⟩ := hc.agenda
  simp [Machine.steering, hTook, hPut, hp]

theorem starting_eq (hc : Change h h' q took put made used) {p : Place}
    (hp : put.countP (Job.starts p) = took.countP (Job.starts p)) :
    h'.machine.starting p = h.machine.starting p := by
  obtain ⟨rest, hTook, hPut⟩ := hc.agenda
  simp [Machine.starting, hTook, hPut, hp]

theorem view (hc : Change h h' q took put made used) {p : Place} (hp : p ≠ q) (hp' : p ≠ [])
    {node : Option (Node b)} (hFits : (h.machine.view p).Fits p node) :
    (h'.machine.view p).Fits p node :=
  hFits.perm (hc.parts hp hp') (hc.steering_eq (hc.steering p hp))
    (hc.starting_eq (hc.starting p hp))

end Change

/-- A sound history that another one leads to. No continuation is forgotten, and none that
something stood at becomes dormant again. -/
structure Kept (h h' : History b) : Prop where
  sound : h'.Sound
  ledger : ∀ x ∈ h.ledger, x ∈ h'.ledger
  begun : h.begun ⊆ h'.begun
  touched : ∀ x, x ∈ h.machine.nodes.opened ∨ x ∈ h.returned →
    x ∈ h'.machine.nodes.opened ∨ x ∈ h'.returned

theorem Sound.kept {h : History b} (hs : h.Sound) : Kept h h :=
  ⟨hs, fun _ hx => hx, List.Subset.refl _, fun _ hx => hx⟩

theorem Kept.trans {h h' h'' : History b} (hk : Kept h h') (hk' : Kept h' h'') : Kept h h'' :=
  ⟨hk'.sound, fun x hx => hk'.ledger x (hk.ledger x hx), List.Subset.trans hk.begun hk'.begun,
    fun x hx => hk'.touched x (hk.touched x hx)⟩

theorem Sound.change {h h' : History b} {q : Place} {took put : List (Job b)}
    {made used : List Place} (hs : h.Sound) (hc : Change h h' q took put made used)
    (hNodup : made.Nodup) (hNew : ∀ x ∈ made, x ∉ h.ledger)
    (hParent : made ≠ [] → q ≠ [] → (h'.machine.nodes.find? q).isSome)
    (hGone : (h'.machine.nodes.find? q).isSome ∨ q ∈ h'.returned ∨
      h.machine.nodes.find? q = none)
    (hSettled : ∀ g, h'.machine.nodes.find? q = some (.gather g) → g.settled = true →
      q ∈ h'.returned)
    (hWaits : ∀ r, h'.machine.nodes.find? q = some (.run r) →
      ∀ n, n :: q ∈ h'.ledger → n < r.waits)
    (hFits : q ≠ [] → (h'.machine.view q).Fits q (h'.machine.nodes.find? q))
    (hIdle : q = [] → h'.machine.steering [] = [] ∧ h'.machine.starting [] = 0) : Kept h h' := by
  have hLedger : ∀ x ∈ h.ledger, x ∈ h'.ledger := fun x hx =>
    hc.ledger.mem_iff.mpr (List.mem_append_right _ hx)
  have hSound : h'.Sound :=
    { keyed := hc.keyed
      once := hc.ledger.nodup_iff.mpr
        (List.nodup_append'.mpr ⟨hNodup, hs.once, fun _ hx hx' => hNew _ hx hx'⟩)
      rooted := by
        intro x hx
        rcases List.mem_append.mp (hc.ledger.mem_iff.mp hx) with hx | hx
        · obtain ⟨n, rfl, hn⟩ := hc.made_part x hx
          refine ⟨by simp, fun m hm => ?_⟩
          obtain ⟨rfl, hq⟩ := List.cons.inj hm
          exact hn hq
        · obtain ⟨hNil, hBegun⟩ := hs.rooted x hx
          exact ⟨hNil, fun n hn => hc.begun (hBegun n hn)⟩
      grown := by
        intro n p hx hp
        rcases List.mem_append.mp (hc.ledger.mem_iff.mp hx) with hx | hx
        · obtain ⟨m, hm, -⟩ := hc.made_part _ hx
          obtain ⟨rfl, rfl⟩ := List.cons.inj hm
          exact Or.inl (hParent (List.ne_nil_of_mem hx) hp)
        · by_cases hq : p = q
          · subst hq
            rcases hGone with hGone | hGone | hGone
            · exact Or.inl hGone
            · exact Or.inr hGone
            · rcases hs.grown n p hx hp with h | h
              · rw [hGone] at h
                cases h
              · exact Or.inr (hc.mem_returned h)
          · rw [hc.nodes p hq]
            exact (hs.grown n p hx hp).imp_right hc.mem_returned
      settled := by
        intro p g hp hg
        by_cases hq : p = q
        · subst hq
          exact hSettled g hp hg
        · rw [hc.nodes p hq] at hp
          exact hc.mem_returned (hs.settled p g hp hg)
      waits := by
        intro p r hp n hn
        by_cases hq : p = q
        · subst hq
          exact hWaits r hp n hn
        · rw [hc.nodes p hq] at hp
          rcases List.mem_append.mp (hc.ledger.mem_iff.mp hn) with hn | hn
          · obtain ⟨m, hm, -⟩ := hc.made_part _ hn
            exact absurd (List.cons.inj hm).2 hq
          · exact hs.waits p r hp n hn
      fits := by
        intro p hp
        by_cases hq : p = q
        · subst hq
          exact hFits hp
        · rw [hc.nodes p hq]
          exact hc.view hq hp (hs.fits p hp)
      idle := by
        by_cases hq : q = []
        · exact hIdle hq
        · rw [hc.steering_eq (hc.steering [] (Ne.symm hq)),
            hc.starting_eq (hc.starting [] (Ne.symm hq))]
          exact hs.idle }
  refine ⟨hSound, hLedger, hc.begun, fun x hx => ?_⟩
  rcases hx with hx | hx
  · obtain ⟨node, hFind, hNode⟩ := Table.find?_of_mem_opened hs.keyed hx
    by_cases hq : x = q
    · subst hq
      rcases hGone with hGone | hGone | hGone
      · obtain ⟨node', hFind'⟩ := Option.isSome_iff_exists.mp hGone
        exact hSound.opened_or_returned hFind'
      · exact Or.inr hGone
      · rw [hGone] at hFind
        cases hFind
    · rw [← hc.nodes x hq] at hFind
      exact Or.inl (Table.mem_opened_of_find? hSound.keyed hFind hNode)
  · exact Or.inr (hc.mem_returned hx)

variable {h : History b}

namespace Sound

theorem rootChange (hs : h.Sound) {h' : History b} {took put : List (Job b)}
    {made used : List Place} (hc : Change h h' [] took put made used)
    (hNodup : made.Nodup) (hNew : ∀ x ∈ made, x ∉ h.ledger)
    (hNil : h'.machine.nodes.find? [] = none)
    (hSteering : put.filter (Job.steers []) = took.filter (Job.steers []))
    (hStarting : put.countP (Job.starts []) = took.countP (Job.starts [])) : Kept h h' := by
  have hIdle : h'.machine.steering [] = [] ∧ h'.machine.starting [] = 0 := by
    rw [hc.steering_eq hSteering, hc.starting_eq hStarting]
    exact hs.idle
  refine hs.change hc hNodup hNew (fun _ hq => absurd rfl hq) (Or.inr (Or.inr hs.find?_nil)) ?_ ?_
    (fun hq => absurd rfl hq) (fun _ => hIdle)
  · intro g hg
    rw [hNil] at hg
    cases hg
  · intro r hr
    rw [hNil] at hr
    cases hr

theorem handOver (hs : h.Sound) {job : Job b} {rest : List (Job b)} (put : List (Job b))
    (hAgenda : h.machine.agenda = job :: rest) {events : List (Event b)} {world : b.World}
    {held : List Held}
    (hPerform : { h.machine with agenda := rest }.perform job =
      (events, { h.machine with world := world, held := held, agenda := put ++ rest }))
    (hClosed : events.filterMap Event.closed? = [])
    (hBalance : (put.flatMap Job.carried ++ held.map Held.place).Perm
      (job.carried ++ h.machine.held.map Held.place))
    (hReturning : job.returning = [])
    (hSteering : ∀ p, put.filter (Job.steers p) = [job].filter (Job.steers p))
    (hStarting : ∀ p, put.countP (Job.starts p) = [job].countP (Job.starts p)) :
    Kept h (h.afterJob job rest) := by
  have hc : Change h (h.afterJob job rest) [] [job] put [] [] :=
    { agenda := ⟨rest, hAgenda, by simp [afterJob, hPerform]⟩
      balance := by
        have := hBalance.append_right h.machine.nodes.opened
        simpa [afterJob, hPerform, List.append_assoc] using this
      closed := by simp [afterJob, hPerform, closed, hClosed]
      returned := by simp [hReturning]
      keyed := by simpa [afterJob, hPerform] using hs.keyed
      begun := List.Subset.refl _
      made_part := by simp
      used_part := by simp
      nodes := by simp [afterJob, hPerform]
      steering := fun p _ => hSteering p
      starting := fun p _ => hStarting p }
  exact hs.rootChange hc .nil (by simp) (by simpa [afterJob, hPerform] using hs.find?_nil)
    (hSteering []) (hStarting [])

structure Update (h : History b) (job : Job b) (rest : List (Job b)) (p : Place)
    (made used : List Place) (parts : List Nat) (put : List (Job b)) (node : Option (Node b)) :
    Prop where
  agenda : h.machine.agenda = job :: rest
  ne_nil : p ≠ []
  perform : ∃ events world, events.filterMap Event.closed? = used ∧
    { h.machine with agenda := rest }.perform job = (events, { h.machine with
      world := world
      nodes := h.machine.nodes.update p node
      agenda := put ++ rest })
  balance : (used ++ (put.flatMap Job.carried ++ (node.map (Node.opened p)).getD [])).Perm
    (made ++ (job.carried ++ h.machine.nodes.openedAt p))
  returning : ∀ x ∈ job.returning, x ∈ used := by simp [Job.returning]
  made_part : ∀ x ∈ made, ∃ n, x = n :: p := by simp
  nodup : made.Nodup := by simp
  new : ∀ x ∈ made, x ∉ h.ledger := by simp
  used_part : ∀ x ∈ used, ∃ n q, x = n :: q ∧ (q = p ∨ q = []) := by simp
  steering : ∀ q, q ≠ p → put.filter (Job.steers q) = [job].filter (Job.steers q) := by
    intro q hq
    simp [Job.steers, Ne.symm hq]
  starting : ∀ q, q ≠ p → put.countP (Job.starts q) = [job].countP (Job.starts q) := by
    intro q hq
    simp [Job.starts, Ne.symm hq]
  parent : made ≠ [] → node.isSome := by simp
  gone : node.isSome ∨ p ∈ put.flatMap Job.returning ++ (used ++ h.returned) := by
    simp [Job.returning]
  settled : ∀ g, node = some (.gather g) → g.settled = true →
    p ∈ put.flatMap Job.returning ++ (used ++ h.returned) := by simp
  waits : ∀ r, node = some (.run r) → ∀ n, n :: p ∈ made ++ h.ledger → n < r.waits := by simp
  live : (used.filterMap (partOf p) ++ parts).Perm
    (made.filterMap (partOf p) ++ h.machine.parts p)
  fits : View.Fits p ⟨parts, put.filter (Job.steers p) ++ rest.filter (Job.steers p),
    put.countP (Job.starts p) + rest.countP (Job.starts p)⟩ node

theorem update (hs : h.Sound) (made used : List Place) (parts : List Nat) {job : Job b}
    {rest put : List (Job b)} {p : Place} {node : Option (Node b)}
    (hUpdate : Update h job rest p made used parts put node) : Kept h (h.afterJob job rest) := by
  obtain ⟨events, world, hClosed, hPerform⟩ := hUpdate.perform
  have hNode : (h.afterJob job rest).machine.nodes.find? p = node := by
    simp [afterJob, hPerform]
  have hc : Change h (h.afterJob job rest) p [job] put made used :=
    { agenda := ⟨rest, hUpdate.agenda, by simp [afterJob, hPerform]⟩
      balance := by
        have hOpened := Table.opened_update hs.keyed p node
        have hBalance := hUpdate.balance
        rw [List.perm_iff_count] at hBalance hOpened ⊢
        intro x
        have hBalance := hBalance x
        have hOpened := hOpened x
        simp only [afterJob, hPerform, List.count_append, List.flatMap_cons, List.flatMap_nil,
          List.append_nil] at hBalance hOpened ⊢
        omega
      closed := by simp [afterJob, hPerform, closed, hClosed]
      returned := by simpa using hUpdate.returning
      keyed := by simpa [afterJob, hPerform] using hs.keyed.update p node
      begun := List.Subset.refl _
      made_part := fun x hx => (hUpdate.made_part x hx).imp fun n hn =>
        ⟨hn, fun hNil => absurd hNil hUpdate.ne_nil⟩
      used_part := hUpdate.used_part
      nodes := fun q hq => by simpa [afterJob, hPerform] using Table.find?_update_of_ne _ node hq
      steering := hUpdate.steering
      starting := hUpdate.starting }
  have hParts' : ((h.afterJob job rest).machine.parts p).Perm parts := by
    have hLive := hc.live.filterMap (partOf p)
    rw [List.filterMap_append, List.filterMap_append] at hLive
    exact (List.perm_append_left_iff _).mp (hLive.trans hUpdate.live.symm)
  have hReturned : p ∈ put.flatMap Job.returning ++ (used ++ h.returned) →
      p ∈ (h.afterJob job rest).returned := by
    intro hMem
    rcases List.mem_append.mp hMem with hMem | hMem
    · simp [returned, Machine.returning, afterJob, hPerform, List.mem_flatMap.mp hMem]
    · rcases List.mem_append.mp hMem with hMem | hMem
      · exact List.mem_append_right _ (by rw [hc.closed]; exact List.mem_append_right _ hMem)
      · exact hc.mem_returned hMem
  refine hs.change hc hUpdate.nodup hUpdate.new (fun hMade _ => ?_) ?_ ?_ ?_ (fun _ => ?_)
    (fun hNil => absurd hNil hUpdate.ne_nil)
  · rw [hNode]
    exact hUpdate.parent hMade
  · rw [hNode]
    exact hUpdate.gone.imp_right (Or.inl ∘ hReturned)
  · rw [hNode]
    exact fun g hg hg' => hReturned (hUpdate.settled g hg hg')
  · rw [hNode]
    exact fun r hr n hn => hUpdate.waits r hr n (hc.ledger.mem_iff.mp hn)
  · rw [hNode]
    refine hUpdate.fits.perm hParts' ?_ ?_
    · simp [Machine.view, Machine.steering, afterJob, hPerform]
    · simp [Machine.view, Machine.starting, afterJob, hPerform]

end Sound

end History

end Interlace
