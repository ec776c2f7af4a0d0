import TreeWatch.Proofs.Tracker.Backlog

/-!
# Catching up

Taking in what waits, one event after the other. The end of a watch comes in two events, of which
the first frees the entry and retires the root and the second forgets the watch; the news of a
directory has whatever stands at its place covered. Nothing fails as long as there is room, and the
backlog gets shorter by what was taken in.
-/

namespace TreeWatch

open FileTree

namespace Tracker

open TreeWatch.Action

variable {tree : FileTree} {t u : Tracker} {id : WatchId} {notices rest : List Notice}
  {location : Location} {name : Bytes} {directory : DirectoryId} {now n : Nat}

/-- A source from which one event was taken. -/
structure Took (source next : Source) (queue : List Event) : Prop where
  live : next.live = source.live
  queue : next.queue = queue
  nextId : next.nextId = source.nextId
  refused : next.refused = source.refused

theorem Took.aligned {source : Source} {queue : List Event} (htook : Took t.source source queue)
    (h : Backlog tree t notices) : Aligned tree { t with source } where
  sound := h.sound.of_sublist (htook.live ▸ List.Sublist.refl _) htook.nextId
  ids := h.ids
  live entry hentry := by
    obtain ⟨directory, hlive⟩ := h.aligned.live entry hentry
    exact ⟨directory, htook.live ▸ hlive⟩
  known watch hwatch := h.known watch (htook.live ▸ hwatch)
  placed hlive hget := (h.standing (htook.live ▸ hlive) hget).1

/-- What taking in one event can come to while `notices` wait. -/
inductive Takes (tree : FileTree) (t : Tracker) : List Notice → Tracker → List Notice → Prop
  /-- Nothing waits. -/
  | nothing (hdraining : t.draining = []) : Takes tree t [] t []
  /-- A watch that was on its way out is forgotten. -/
  | forgets {notices : List Notice} {id : WatchId} {source : Source} {counts : Counts}
      (hdraining : t.draining = [id])
      (htook : Took (t.source.forget id) source (notices.flatMap Notice.events)) :
      Takes tree t notices { t with source, draining := [], counts } notices
  /-- A directory was removed: its entry is freed, and the root at its path is retired. -/
  | ends {rest : List Notice} {id : WatchId} {path : Path} {slot : Nat} {source : Source}
      {roots : Roots} {counts : Counts} (hdraining : t.draining = [])
      (hslot : t.table.get? slot = some ⟨id, path⟩)
      (hroots : roots.live = t.roots.live.eraseP (·.path.same path))
      (htook : Took t.source source (.onWatch id .ignored :: rest.flatMap Notice.events)) :
      Takes tree t (.removed id :: rest)
        { t with source, table := t.table.erase slot, roots, counts, draining := [id] } rest
  /-- A directory was made: what stands at its place now is covered. -/
  | arrives {rest : List Notice} {id : WatchId} {name : Bytes} {location : Location}
      {source : Source} {u : Tracker} {n : Nat} (hdraining : t.draining = [])
      (hentry : ⟨id, pathOf location⟩ ∈ t.table.entries)
      (hplace : IsPlace (location ++ [name]))
      (htook : Took t.source source (rest.flatMap Notice.events))
      (haside : Aside t u) (hroots : u.roots = t.roots)
      (hgrown : Grown tree (location ++ [name] <+: ·) { t with source } u n) :
      Takes tree t (.made id name :: rest) u rest

theorem exists_took {source : Source} {event : Event} {queue : List Event}
    (hqueue : source.queue = event :: queue) : ∃ next, source.next? = some (event, next) ∧
      Took (if event.kind = .ignored then source.forget event.watch else source) next queue := by
  cases hnext : source.next? with
  | none => simp [Source.next?, hqueue] at hnext
  | some found =>
    obtain ⟨first, next⟩ := found
    obtain ⟨more, hfirst, hmore, hlive, hid, hrefused⟩ := Source.next?_eq_some hnext
    obtain ⟨rfl, rfl⟩ := List.cons.inj (hqueue.symm.trans hfirst)
    refine ⟨next, rfl, hlive, hmore, ?_, ?_⟩
    · split <;> exact hid
    · split <;> exact hrefused

/-- Pumping takes in one event, and fails only for want of room. -/
theorem Backlog.ends_pump_of_draining (h : Backlog tree t notices) (hdraining : t.draining = [id]) :
    pump.Ends ⟨tree, now⟩ t (fun _ u => ∃ rest, Takes tree t notices u rest)
      fun _ _ => Obstructed tree t := by
  have hqueue := h.queue
  rw [hdraining] at hqueue
  obtain ⟨source, hnext, htook⟩ := exists_took hqueue
  rw [Tracker.ends_pump, hnext]
  have habsent : ∀ entry ∈ t.table.entries, entry.id ≠ id := by
    intro entry hentry heq
    have hnot := (h.entry hentry).1
    rw [hdraining, heq] at hnot
    exact hnot (List.mem_singleton_self _)
  refine Ends.mono (ends_handle_ignored h.departures habsent) (fun _ u hu => ?_)
    fun _ _ => False.elim
  obtain ⟨counts, rfl⟩ := hu
  have hnone : [id].filter (· != id) = [] := by simp
  simp only [hdraining, hnone]
  exact ⟨notices, .forgets hdraining htook⟩

theorem Backlog.ends_pump_of_made (h : Backlog tree t (.made id name :: rest))
    (hwf : tree.WellFormed) (hdraining : t.draining = []) :
    pump.Ends ⟨tree, now⟩ t (fun _ u => Takes tree t (.made id name :: rest) u rest)
      fun _ _ => Obstructed tree t := by
  have hqueue := h.queue
  rw [hdraining, List.map_nil, List.nil_append] at hqueue
  obtain ⟨source, hnext, htook⟩ := exists_took hqueue
  obtain ⟨location, hentry, hplace, hclear⟩ := h.made (List.mem_cons_self ..)
  rw [Tracker.ends_pump, hnext]
  refine Ends.mono (ends_handle_arrival hwf h.departures (by simp [hdraining]) (.inl rfl) rfl rfl
    hentry hplace hclear.linkFree (hclear _ List.prefix_rfl) (htook.aligned h)) (fun _ u hu => ?_)
    fun _ _ hfull => ?_
  · obtain ⟨haside, hroots, n, hgrown⟩ := hu
    exact .arrives hdraining hentry hplace htook ⟨haside.1, haside.2, haside.3⟩ hroots hgrown
  · rwa [Obstructed, htook.refused] at hfull

theorem Backlog.ends_pump_of_removed (h : Backlog tree t (.removed id :: rest))
    (hdraining : t.draining = []) :
    pump.Ends ⟨tree, now⟩ t (fun _ u => Takes tree t (.removed id :: rest) u rest)
      fun _ _ => Obstructed tree t := by
  have hqueue := h.queue
  rw [hdraining, List.map_nil, List.nil_append] at hqueue
  obtain ⟨source, hnext, htook⟩ := exists_took hqueue
  obtain ⟨path, hentry⟩ := h.removed (List.mem_cons_self ..)
  rw [Tracker.ends_pump, hnext]
  refine Ends.mono (ends_handle_deleteSelf h.departures (by simp [hdraining]) (htook.aligned h)
    hentry) (fun _ u hu => ?_) fun _ _ => False.elim
  obtain ⟨slot, roots, counts, hslot, hroots, rfl⟩ := hu
  simp only [hdraining, List.nil_append]
  exact .ends hdraining hslot hroots htook

theorem Backlog.ends_pump (h : Backlog tree t notices) (hwf : tree.WellFormed) :
    pump.Ends ⟨tree, now⟩ t (fun _ u => ∃ rest, Takes tree t notices u rest)
      fun _ _ => Obstructed tree t := by
  rcases h.draining_cases with hdraining | ⟨id, hdraining⟩
  · cases notices with
    | nil =>
      have hqueue := h.queue
      rw [hdraining, List.map_nil, List.nil_append] at hqueue
      have hnone : t.source.next? = none := by simp [Source.next?, hqueue]
      rw [Tracker.ends_pump, hnone]
      exact ⟨[], .nothing hdraining⟩
    | cons notice rest =>
      cases notice with
      | made id name => exact (h.ends_pump_of_made hwf hdraining).imp fun _ _ htakes => ⟨_, htakes⟩
      | removed id => exact (h.ends_pump_of_removed hdraining).imp fun _ _ htakes => ⟨_, htakes⟩
  · exact h.ends_pump_of_draining hdraining

namespace Backlog

theorem gone_of_front {notice : Notice} {other : WatchId} (h : Backlog tree t (notice :: rest))
    (hdraining : t.draining = []) (hwatch : (other, directory) ∈ t.source.live)
    (hnone : ∀ place, tree.get? place ≠ some (.directory directory)) :
    notice = .removed other ∨ .removed other ∈ rest := by
  rcases h.gone hwatch hnone with hdrains | hnotice
  · rw [hdraining] at hdrains
    exact absurd hdrains List.not_mem_nil
  · exact (List.mem_cons.mp hnotice).imp_left Eq.symm

theorem forget (h : Backlog tree t notices) {source : Source} {counts : Counts}
    (hdraining : t.draining = [id])
    (htook : Took (t.source.forget id) source (notices.flatMap Notice.events)) :
    Backlog tree { t with source, draining := [], counts } notices := by
  have hlive {watch : WatchId × DirectoryId} : watch ∈ source.live ↔
      watch ∈ t.source.live ∧ watch.1 ≠ id := by rw [htook.live, Source.mem_live_forget]
  have hleaves {other : WatchId} (hnot : other ∉ t.draining) : other ≠ id := by
    rwa [hdraining, List.mem_singleton] at hnot
  exact
    { sound := h.sound.of_sublist (htook.live ▸ List.filter_sublist) htook.nextId
      refused := htook.refused.trans h.refused
      departures := h.departures
      draining := Nat.zero_le _
      queue := htook.queue
      short := h.short
      ids := h.ids
      known := fun watch hwatch => h.known watch (hlive.mp hwatch).1
      entry := fun hentry => by
        obtain ⟨hnot, ⟨directory, hwatch⟩, hplace⟩ := h.entry hentry
        exact ⟨List.not_mem_nil, ⟨directory, hlive.mpr ⟨hwatch, hleaves hnot⟩⟩, hplace⟩
      standing := fun hwatch => h.standing (hlive.mp hwatch).1
      gone := fun hwatch hnone => by
        apply (h.gone (hlive.mp hwatch).1 hnone).imp_left
        intro hmem
        rw [hdraining, List.mem_singleton] at hmem
        exact absurd hmem (hlive.mp hwatch).2
      removed := h.removed
      made := h.made
      last := h.last
      covered := fun {id' directory location name child} hwatch hget hchild => by
        refine (h.covered (hlive.mp hwatch).1 hget hchild).imp_left ?_
        rintro ⟨other, hother⟩
        exact ⟨other, hlive.mpr ⟨hother, hleaves (h.entry (h.standing hother hchild).1).1⟩⟩
      successive := h.successive }

theorem release (h : Backlog tree t (.removed id :: rest)) {path : Path} {slot : Nat}
    {source : Source} {roots : Roots} {counts : Counts} (hdraining : t.draining = [])
    (hslot : t.table.get? slot = some ⟨id, path⟩)
    (htook : Took t.source source (.onWatch id .ignored :: rest.flatMap Notice.events)) :
    Backlog tree
      { t with source, table := t.table.erase slot, roots, counts, draining := [id] } rest := by
  have hmem {entry : Entry} : entry ∈ (t.table.erase slot).entries ↔
      entry ∈ t.table.entries ∧ entry.id ≠ id := WatchTable.mem_entries_erase_iff h.ids hslot
  have hlater : ∀ notice ∈ rest, notice.watch ≠ id := by
    intro notice hnotice heq
    exact (List.pairwise_cons.mp h.last).1 notice hnotice (by rw [heq])
  exact
    { sound := h.sound.of_sublist (htook.live ▸ List.Sublist.refl _) htook.nextId
      refused := htook.refused.trans h.refused
      departures := h.departures
      draining := Nat.le_refl _
      queue := htook.queue
      short := h.short
      ids := (WatchTable.nodup_ids_erase h.ids hslot).1
      known := fun watch hwatch => h.known watch (htook.live ▸ hwatch)
      entry := fun hentry => by
        obtain ⟨hentry, hne⟩ := hmem.mp hentry
        obtain ⟨-, ⟨directory, hwatch⟩, hplace⟩ := h.entry hentry
        exact ⟨fun heq => hne (List.mem_singleton.mp heq), ⟨directory, htook.live ▸ hwatch⟩, hplace⟩
      standing := fun hwatch hget => by
        obtain ⟨hentry, hnot⟩ := h.standing (htook.live ▸ hwatch) hget
        refine ⟨hmem.mpr ⟨hentry, ?_⟩, fun hlater => hnot (List.mem_cons_of_mem _ hlater)⟩
        rintro rfl
        exact hnot (List.mem_cons_self ..)
      gone := fun hwatch hnone => by
        apply (h.gone_of_front hdraining (htook.live ▸ hwatch) hnone).imp_left
        exact fun heq => List.mem_singleton.mpr (Notice.removed.inj heq).symm
      removed := fun hnotice => by
        obtain ⟨path, hentry⟩ := h.removed (List.mem_cons_of_mem _ hnotice)
        exact ⟨path, hmem.mpr ⟨hentry, hlater _ hnotice⟩⟩
      made := fun hnotice => by
        obtain ⟨location, hentry, hplace⟩ := h.made (List.mem_cons_of_mem _ hnotice)
        exact ⟨location, hmem.mpr ⟨hentry, hlater _ hnotice⟩, hplace⟩
      last := (List.pairwise_cons.mp h.last).2
      covered := fun hwatch hget hchild => by
        rcases h.covered (htook.live ▸ hwatch) hget hchild with ⟨other, hother⟩ | hnotice
        · exact .inl ⟨other, htook.live ▸ hother⟩
        · exact .inr ((List.mem_cons.mp hnotice).resolve_left (by simp))
      successive := fun hfirst hsecond hlt => by
        apply (h.successive (hmem.mp hfirst).1 (hmem.mp hsecond).1 hlt).tail
        exact fun heq => (hmem.mp hfirst).2 (Notice.removed.inj heq).symm }

section Arrival

variable {source : Source} {place : Location} {step : Bytes} {child : DirectoryId} {other : WatchId}
  {path : Path} (htook : Took t.source source (rest.flatMap Notice.events))
  (hgrown : Grown tree (location ++ [name] <+: ·) { t with source } u n)

include htook hgrown

theorem live_arrive {watch : WatchId × DirectoryId} (hwatch : watch ∈ t.source.live) :
    watch ∈ u.source.live := hgrown.live (htook.live.symm ▸ hwatch)

theorem newWatch_arrive {watch : WatchId × DirectoryId} (hwatch : watch ∈ u.source.live) :
    watch ∈ t.source.live ∨
      ∃ place, location ++ [name] <+: place ∧ tree.get? place = some (.directory watch.2) := by
  rcases hgrown.newWatch watch hwatch with hold | ⟨place, hregion, -, hget, -⟩
  · exact .inl (htook.live ▸ hold)
  · exact .inr ⟨place, hregion, hget⟩

variable (h : Backlog tree t (.made id name :: rest))

include h

theorem notMem_removed_arrive (hwatch : (other, directory) ∈ u.source.live)
    (hget : tree.get? place = some (.directory directory)) : .removed other ∉ rest := by
  intro hmem
  obtain ⟨path, hremoved⟩ := h.removed (List.mem_cons_of_mem _ hmem)
  obtain ⟨-, ⟨found, hfound⟩, -⟩ := h.entry hremoved
  obtain rfl := hgrown.aligned.sound.eq_of_id hwatch (live_arrive htook hgrown hfound)
  exact (h.standing hfound hget).2 (List.mem_cons_of_mem _ hmem)

/-- A directory in a watched directory is watched since, or another notice tells of it. -/
theorem covered_arrive (hwf : tree.WellFormed) (hentry : ⟨id, pathOf location⟩ ∈ t.table.entries)
    (hlocation : IsPlace location) (hwatch : (other, directory) ∈ u.source.live)
    (hget : tree.get? place = some (.directory directory))
    (hchild : tree.get? (place ++ [step]) = some (.directory child)) :
    (∃ found, (found, child) ∈ u.source.live) ∨ .made other step ∈ rest := by
  have hregion (hbelow : location ++ [name] <+: place ++ [step]) :
      ∃ found, (found, child) ∈ u.source.live :=
    hgrown.covered hbelow (h.short hchild) hchild
  rcases newWatch_arrive htook hgrown hwatch with hold | ⟨found, hbelow, hfound⟩
  · rcases h.covered hold hget hchild with ⟨found, hfound⟩ | hmem
    · exact .inl ⟨found, live_arrive htook hgrown hfound⟩
    · rcases List.mem_cons.mp hmem with heq | hmem
      · obtain ⟨rfl, rfl⟩ := Notice.made.inj heq
        rw [h.place_eq hwf hentry hlocation hold hget] at hregion
        exact .inl (hregion List.prefix_rfl)
      · exact .inr hmem
  · rw [hwf.unique hfound hget] at hbelow
    exact .inl (hregion (hbelow.trans (List.prefix_append _ _)))

/-- Of two watches with one path, one of which may be new, the older ends first. -/
theorem successive_arrive (hwf : tree.WellFormed) (hdraining : t.draining = [])
    {first second : WatchId} (hfirst : ⟨first, path⟩ ∈ u.table.entries)
    (hsecond : ⟨second, path⟩ ∈ u.table.entries) (hlt : first.raw < second.raw) :
    Notice.Precedes rest first second := by
  have hdiffer : first ≠ second := fun heq => Int.lt_irrefl _ (heq ▸ hlt)
  rcases hgrown.newEntry _ hfirst with hold | ⟨place, directory, -, -, hget, -, hwatch, hid⟩
  · rcases hgrown.newEntry _ hsecond with hold' | ⟨place, directory, -, -, hget, -, hwatch, -⟩
    · exact (h.successive hold hold' hlt).tail (by simp)
    · -- The older entry has the path of what stands there now, so its own directory is gone.
      obtain ⟨-, ⟨other, hother⟩, -⟩ := h.entry hold
      have hlive := live_arrive htook hgrown hother
      have hgone : ∀ place, tree.get? place ≠ some (.directory other) := fun found hfound =>
        hdiffer (hgrown.aligned.eq_of_path hwf hfirst hsecond hlive hfound hwatch hget)
      exact .of_notMem ((h.gone_of_front hdraining hother hgone).resolve_left nofun)
        (notMem_removed_arrive htook hgrown h hwatch hget)
  · rcases hgrown.newEntry _ hsecond with hold' | ⟨place', directory', -, -, hget', -, hwatch', -⟩
    · -- The new watch has a higher number than any from before.
      obtain ⟨-, ⟨other, hother⟩, -⟩ := h.entry hold'
      obtain ⟨number, hnumber, hissued⟩ := h.sound.issued _ hother
      have hraw : second.raw = number := congrArg WatchId.raw hnumber
      have hnext : (t.source.nextId : Int) ≤ first.raw := htook.nextId ▸ hid
      omega
    · exact absurd (hgrown.aligned.eq_of_path hwf hfirst hsecond hwatch hget hwatch' hget') hdiffer

end Arrival

theorem arrive (h : Backlog tree t (.made id name :: rest)) (hwf : tree.WellFormed)
    {source : Source} (hdraining : t.draining = [])
    (hentry : ⟨id, pathOf location⟩ ∈ t.table.entries) (hplace : IsPlace (location ++ [name]))
    (htook : Took t.source source (rest.flatMap Notice.events)) (haside : Aside t u)
    (hgrown : Grown tree (location ++ [name] <+: ·) { t with source } u n) :
    Backlog tree u rest := by
  have hdrained : u.draining = [] := haside.draining.trans hdraining
  exact
    { sound := hgrown.aligned.sound
      refused := hgrown.refused.trans (htook.refused.trans h.refused)
      departures := haside.departures.trans h.departures
      draining := by simp [hdrained]
      queue := by rw [hdrained, hgrown.queue, htook.queue]; rfl
      short := h.short
      ids := hgrown.aligned.ids
      known := hgrown.aligned.known
      entry := fun hmem => by
        rw [hdrained]
        rcases hgrown.newEntry _ hmem with hold | ⟨place, directory, -, -, hget, hpath, hwatch, -⟩
        · obtain ⟨-, ⟨directory, hwatch⟩, hnamed⟩ := h.entry hold
          exact ⟨List.not_mem_nil, ⟨directory, live_arrive htook hgrown hwatch⟩, hnamed⟩
        · exact ⟨List.not_mem_nil, ⟨directory, hwatch⟩, place, hpath, hwf.isPlace hget,
            hwf.clear hget⟩
      standing := fun hwatch hget =>
        ⟨hgrown.aligned.placed hwatch hget, notMem_removed_arrive htook hgrown h hwatch hget⟩
      gone := fun hwatch hnone => by
        rcases newWatch_arrive htook hgrown hwatch with hold | ⟨place, -, hget⟩
        · exact .inr ((h.gone_of_front hdraining hold hnone).resolve_left nofun)
        · exact absurd hget (hnone place)
      removed := fun hmem => by
        obtain ⟨path, hold⟩ := h.removed (List.mem_cons_of_mem _ hmem)
        exact ⟨path, hgrown.entries hold⟩
      made := fun hmem => by
        obtain ⟨place, hold, hnamed⟩ := h.made (List.mem_cons_of_mem _ hmem)
        exact ⟨place, hgrown.entries hold, hnamed⟩
      last := (List.pairwise_cons.mp h.last).2
      covered := covered_arrive htook hgrown h hwf hentry hplace.left
      successive := successive_arrive htook hgrown h hwf hdraining }

/-- What waits after an event was taken in is still all that is missing. -/
theorem takes (h : Backlog tree t notices) (hwf : tree.WellFormed)
    (htakes : Takes tree t notices u rest) :
    Backlog tree u rest := by
  cases htakes with
  | nothing => exact h
  | forgets hdraining htook => exact h.forget hdraining htook
  | ends hdraining hslot _ htook => exact h.release hdraining hslot htook
  | arrives hdraining hentry hplace htook haside _ hgrown =>
    exact h.arrive hwf hdraining hentry hplace htook haside hgrown

end Backlog

end Tracker

end TreeWatch
