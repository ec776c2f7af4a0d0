import TreeWatch.Proofs.Tracker.Requests
import TreeWatch.Proofs.WatchTable.Entries
import Mathlib.Logic.Relation

/-!
# What an event changes

Handling an event is a row of small changes. First things go: entries, watches on their way out,
roots. If the event tells of a directory that arrived, things come after that: watches and entries
for what is found there, or old entries under new paths. Each kind of small change is one
constructor here, so what every handler keeps is shown once for each constructor.

Two things are told apart from this, as they keep less: the event that announces the end of a watch,
and a rebuild.
-/

namespace TreeWatch

/-- Whether an event means something only together with its watch. -/
def Event.NeedsWatch (event : Event) : Prop := event.kind ≠ .overflow ∧ event.kind ≠ .ignored

/-- Whether an event tells of a directory that was made or moved to where it is. -/
def Event.Arrives (event : Event) : Prop :=
  event.isDirectory = true ∧ (event.kind = .create ∨ event.kind = .movedTo)

namespace Tracker

open TreeWatch.Action Relation

variable {moment : Moment} {tree : FileTree} {fits : Path → Prop} {t u v : Tracker} {path : Path}
  {event : Event} {failed : Fault → Tracker → Prop}

/-- One thing goes, or is noted beside the table. -/
inductive Sheds : Tracker → Tracker → Prop
  | noted (t : Tracker) (departures : Departures) (counts : Counts)
      (hrebuilds : counts.rebuilds = t.counts.rebuilds) : Sheds t { t with departures, counts }
  | retired (t : Tracker) (path : Path) : Sheds t (t.withoutRoot path)
  | drained (t : Tracker) (id : WatchId) : Sheds t (t.drained id)
  /-- A watch is given up with its entry, and the root there is retired. -/
  | gaveUp {t : Tracker} {slot : Nat} {entry : Entry} (hget : t.table.get? slot = some entry) :
      Sheds t ({ t.relinquished entry.id with table := t.table.erase slot }.withoutRoot entry.path)
  /-- A watch that is on its way out loses its entry, and the root there is retired. -/
  | freed {t : Tracker} {slot : Nat} {entry : Entry} (hget : t.table.get? slot = some entry)
      (hdraining : entry.id ∈ t.draining) (counts : Counts)
      (hrebuilds : counts.rebuilds = t.counts.rebuilds) :
      Sheds t ({ t with table := t.table.erase slot, counts }.withoutRoot entry.path)

/-- One thing comes, at paths that fit. -/
inductive Gathers (tree : FileTree) (fits : Path → Prop) : Tracker → Tracker → Prop
  | noted (t : Tracker) (counts : Counts) (hrebuilds : counts.rebuilds = t.counts.rebuilds) :
      Gathers tree fits t { t with counts }
  | retired (t : Tracker) (path : Path) : Gathers tree fits t (t.withoutRoot path)
  /-- A watch that has an entry is asked for again. -/
  | requested {t : Tracker} {path : Path} {id : WatchId} {source : Source}
      (hadd : t.source.add tree path = .ok (id, source))
      (hentry : ∃ entry ∈ t.table.entries, entry.id = id) : Gathers tree fits t { t with source }
  /-- A watch is asked for and gets an entry. -/
  | entered {t : Tracker} {path : Path} {id : WatchId} {source : Source} {slot : Nat}
      {table : WatchTable} (hadd : t.source.add tree path = .ok (id, source))
      (hslot : t.table.slotOf? id = none) (hinsert : t.table.insert? id path = some (slot, table))
      (hfits : fits path) : Gathers tree fits t { t with source, table }
  /-- Entries move, and the root that they leave is retired. -/
  | moved {t : Tracker} {source target : Path} (hheld : t.table.holdsPath source = true)
      (hfits : fits target) :
      Gathers tree fits t ({ t with table := t.table.relocate source target }.withoutRoot source)

/-- Any number of things go. -/
abbrev Shed : Tracker → Tracker → Prop := ReflTransGen Sheds

/-- Any number of things come. -/
abbrev Gathered (tree : FileTree) (fits : Path → Prop) : Tracker → Tracker → Prop :=
  ReflTransGen (Gathers tree fits)

/-- After some things came, the source refuses a watch, or gives one that finds no room in the
table. -/
def Stalled (tree : FileTree) (fits : Path → Prop) (t : Tracker) (fault : Fault) (u : Tracker) :
    Prop :=
  ∃ v, Gathered tree fits t v ∧
    ((∃ error ≠ .resetRefused, fault = .source error) ∧ u = v ∨
      (∃ capacity, fault = .noRoom capacity) ∧
        ∃ path id source, v.source.add tree path = .ok (id, source) ∧ u = { v with source })

/-- A path that fits, and with it the directories that a walk from there meets. -/
def Suits (tree : FileTree) (fits : Path → Prop) (path : Path) : Prop :=
  fits path ∧ ∀ found, .entry found true ∈ tree.walk path → fits found

theorem suits_true : Suits tree (fun _ => True) path := ⟨trivial, fun _ _ => trivial⟩

section Shedding

theorem source_relinquished (t : Tracker) (id : WatchId) :
    (t.relinquished id).source.live = t.source.live ∧
        (t.relinquished id).source.nextId = t.source.nextId ∨
      (t.relinquished id).source.live = (t.source.forget id).live ∧
        (t.relinquished id).source.nextId = t.source.nextId := by
  unfold relinquished released
  split
  · exact .inl ⟨rfl, rfl⟩
  · rw [source_drained]
    split
    · next hremove =>
      obtain ⟨-, rfl⟩ := Source.remove_eq_ok_iff.mp hremove
      exact .inr ⟨rfl, rfl⟩
    · exact .inl ⟨rfl, rfl⟩

theorem mem_live_relinquished {id : WatchId} {watch : WatchId × DirectoryId}
    (hwatch : watch ∈ t.source.live) (hne : watch.1 ≠ id) :
    watch ∈ (t.relinquished id).source.live := by
  obtain ⟨hlive, -⟩ | ⟨hlive, -⟩ := source_relinquished t id
  · exact hlive ▸ hwatch
  · exact hlive ▸ Source.mem_live_forget.mpr ⟨hwatch, hne⟩

theorem Sheds.source (h : Sheds t u) :
    u.source.live.Sublist t.source.live ∧ u.source.nextId = t.source.nextId := by
  cases h with
  | noted departures counts hrebuilds => exact ⟨List.Sublist.refl _, rfl⟩
  | retired path => simp
  | drained id => simp
  | @gaveUp slot entry hget =>
    rw [source_withoutRoot]
    obtain ⟨hlive, hnext⟩ | ⟨hlive, hnext⟩ := source_relinquished t entry.id
    · exact ⟨hlive ▸ List.Sublist.refl _, hnext⟩
    · exact ⟨hlive ▸ List.filter_sublist, hnext⟩
  | freed hget hdraining counts hrebuilds => simp

theorem Shed.source (h : Shed t u) :
    u.source.live.Sublist t.source.live ∧ u.source.nextId = t.source.nextId := by
  induction h with
  | refl => exact ⟨List.Sublist.refl _, rfl⟩
  | tail _ hstep ih => exact ⟨hstep.source.1.trans ih.1, hstep.source.2.trans ih.2⟩

theorem Sheds.entries (h : Sheds t u) : u.table.entries ⊆ t.table.entries := by
  cases h with
  | noted departures counts hrebuilds => exact List.Subset.refl _
  | retired path => simp
  | drained id => simp
  | gaveUp hget => simpa using WatchTable.entries_erase_subset hget
  | freed hget hdraining counts hrebuilds => simpa using WatchTable.entries_erase_subset hget

theorem Shed.entries (h : Shed t u) : u.table.entries ⊆ t.table.entries := by
  induction h with
  | refl => exact List.Subset.refl _
  | tail _ hstep ih => exact List.Subset.trans hstep.entries ih

theorem withoutWatch_eq_or (t : Tracker) (id : WatchId) (count : Counts → Counts) :
    t.withoutWatch id count = t ∧ t.table.slotOf? id = none ∨
      ∃ slot entry, t.table.get? slot = some entry ∧ entry.id = id ∧ t.withoutWatch id count =
        { t with
          table := t.table.erase slot
          counts := count t.counts }.withoutRoot entry.path := by
  unfold withoutWatch
  cases hslot : t.table.slotOf? id with
  | none => exact .inl ⟨rfl, rfl⟩
  | some slot =>
    obtain ⟨entry, hget, hid⟩ := WatchTable.slotOf?_eq_some hslot
    simp only [hget]
    exact .inr ⟨slot, entry, hget, hid, rfl⟩

theorem shed_givenUp (t : Tracker) (slot : Nat) : Shed t (t.givenUp slot) := by
  cases hget : t.table.get? slot with
  | none => rw [givenUp_of_free hget]
  | some entry => exact givenUp_of_get? hget ▸ .single (.gaveUp hget)

theorem givingUp_shed : GivingUp Shed :=
  ⟨.trans, shed_givenUp, fun t _ _ _ => .single (.noted t _ _ rfl)⟩

theorem shed_withoutSubtree (t : Tracker) (path : Path) : Shed t (t.withoutSubtree path) :=
  givingUp_shed.withoutSubtree t path

theorem shed_withoutMoved (t : Tracker) (path : Path) : Shed t (t.withoutMoved path) :=
  givingUp_shed.withoutMoved t path

theorem shed_expired (t : Tracker) : Shed t t.expired := givingUp_shed.expired t

theorem shed_received (t : Tracker) (event : Event) : Shed t (t.received event) :=
  givingUp_shed.received t event

theorem shed_selfMoved (t : Tracker) (id : WatchId) : Shed t (t.selfMoved id) := by
  unfold selfMoved
  split
  · exact .refl
  · split
    · exact .head (.retired t _) (shed_withoutSubtree _ _)
    · exact .refl

theorem shed_unmounted (t : Tracker) (id : WatchId) : Shed t (t.unmounted id) := by
  unfold unmounted
  split
  · exact .single (.drained t id)
  · exact .head (.drained t id) (shed_withoutSubtree _ _)

theorem shed_deleted (t : Tracker) (id : WatchId) :
    Shed t ((t.drained id).withoutWatch id fun counts =>
      { counts with deleted := counts.deleted + 1 }) := by
  refine .head (.drained t id) ?_
  obtain ⟨heq, -⟩ | ⟨slot, entry, hget, hid, heq⟩ := withoutWatch_eq_or (t.drained id) id
    fun counts => { counts with deleted := counts.deleted + 1 }
  · rw [heq]
  · exact heq ▸ .single (.freed hget (mem_draining_drained.mpr (.inl hid)) _ rfl)

end Shedding

section Gathering

theorem Stalled.of_source {error : SourceError} (herror : error ≠ .resetRefused)
    (h : Gathered tree fits t u) : Stalled tree fits t (.source error) u :=
  ⟨u, h, .inl ⟨⟨error, herror, rfl⟩, rfl⟩⟩

theorem Stalled.of_gathered {fault : Fault} (h : Gathered tree fits t u)
    (hv : Stalled tree fits u fault v) : Stalled tree fits t fault v :=
  hv.imp fun _ => And.imp_left h.trans

/-- While things come, every entry keeps to such paths as those that fit, if an entry that moves
takes this along. -/
theorem Gathers.entries (holds : Path → Prop) (hu : Gathers tree fits t u)
    (h : ∀ entry ∈ t.table.entries, holds entry.path)
    (hfits : ∀ path, fits path → holds path.bounded)
    (hmoves : ∀ source target path moved, t.table.holdsPath source = true → fits target →
      holds path →
      WatchTable.moved? source target path = some moved → holds moved.bounded) :
    ∀ entry ∈ u.table.entries, holds entry.path := by
  cases hu with
  | noted counts hrebuilds => exact h
  | retired path => simpa using h
  | requested hadd hentry => exact h
  | entered hadd hslot hinsert hfit =>
    intro entry hentry
    rcases List.mem_cons.mp ((WatchTable.entries_insert? hinsert).mem_iff.mp hentry) with
      rfl | hentry
    · exact hfits _ hfit
    · exact h entry hentry
  | @moved source target hheld hfit =>
    intro entry hentry
    rw [table_withoutRoot, WatchTable.entries_relocate] at hentry
    obtain ⟨before, hbefore, rfl⟩ := List.mem_map.mp hentry
    unfold WatchTable.movedEntry
    split
    · next hmoved => exact hmoves source target _ _ hheld hfit (h before hbefore) hmoved
    · exact h before hbefore

/-- An action that only lets things come. -/
def Gathering {α : Type} (moment : Moment) (fits : Path → Prop) (t : Tracker)
    (x : Action Tracker α) :
    Prop :=
  x.Ends moment t (fun _ u => Gathered moment.tree fits t u) (Stalled moment.tree fits t)

theorem Gathering.pure {α : Type} (a : α) : Gathering moment fits t (pure a : Action Tracker α) :=
  .refl

theorem Gathering.say {lines : List Log.Line} : Gathering moment fits t (say lines) := .refl

theorem Gathering.bind {α β : Type} {x : Action Tracker α} {f : α → Action Tracker β}
    (hx : Gathering moment fits t x)
    (hf : ∀ a u, Gathered moment.tree fits t u → Gathering moment fits u (f a)) :
    Gathering moment fits t (x >>= f) := by
  rw [Gathering, ends_bind]
  apply hx.imp
  intro a u hu
  exact (hf a u hu).mono (fun _ _ => hu.trans) fun _ _ => .of_gathered hu

theorem gathering_watchDirectory (t : Tracker) (hfits : fits path) :
    Gathering moment fits t (watchDirectory path) := by
  rw [Gathering, watchDirectory, ends_bind, ends_requestWatch]
  cases hadd : t.source.add moment.tree path with
  | error error =>
    simp only
    split
    · exact .of_source (Source.ne_resetRefused_of_add hadd) .refl
    · exact ends_pure.mpr .refl
  | ok found =>
    obtain ⟨id, source⟩ := found
    simp only [ends_bind, ends_state]
    cases hslot : t.table.slotOf? id with
    | none =>
      simp only [ends_bind, ends_addEntry]
      cases hinsert : t.table.insert? id path with
      | none => exact ⟨t, .refl, .inr ⟨⟨_, rfl⟩, path, id, source, hadd, rfl⟩⟩
      | some next => exact ends_pure.mpr (.single (.entered hadd hslot hinsert hfits))
    | some slot =>
      obtain ⟨entry, hget, hid⟩ := WatchTable.slotOf?_eq_some hslot
      have hentry := WatchTable.mem_entries_of_get? hget
      have hknown : Gathered moment.tree fits t { t with source } :=
        .single (.requested hadd ⟨entry, hentry, hid⟩)
      simp only [hget, Option.map_some]
      split
      · exact hknown
      · simp only [ends_bind, ends_say, ends_moveEntries, ends_retireRoot, ends_pure]
        have hheld : t.table.holdsPath entry.path = true :=
          WatchTable.holdsPath_iff.mpr ⟨entry, hentry, Path.same_refl _⟩
        exact hknown.tail (.moved hheld hfits)

theorem gathering_watchItems (t : Tracker) (start : Path) {items : List FileTree.WalkItem}
    (hfits : ∀ found, .entry found true ∈ items → fits found) :
    Gathering moment fits t (watchItems start items) := by
  induction items generalizing t with
  | nil => exact .pure 0
  | cons item rest ih =>
    have hrest := fun t => ih t fun found hfound => hfits found (List.mem_cons_of_mem _ hfound)
    cases item with
    | failed path error => exact Gathering.say.bind fun _ u _ => hrest u
    | entry path isDirectory =>
      cases isDirectory with
      | false => exact hrest t
      | true =>
        apply (gathering_watchDirectory t (hfits path List.mem_cons_self)).bind
        intro watched u _
        split
        · exact (hrest u).bind fun more v _ => .pure (more + 1)
        · exact hrest u

theorem gathering_coverSubtree (t : Tracker) (hfits : Suits moment.tree fits path) :
    Gathering moment fits t (coverSubtree path) :=
  ends_coverSubtree.mpr (gathering_watchItems t path hfits.2)

theorem ends_coverRoot_gathered (t : Tracker)
    (hfits : moment.tree.isDirectory path = true → Suits moment.tree fits path) :
    (coverRoot path).Ends moment t
      (fun _ u => ∃ v, Gathered moment.tree fits t v ∧
        (u = v ∧ v.table.holdsPath path = true ∨ u = v.withoutRoot path))
      (Stalled moment.tree fits t) := by
  rw [coverRoot, ends_bind, ends_tree]
  split
  · next hdirectory =>
    rw [ends_bind, ends_say, ends_bind]
    apply (gathering_coverSubtree t (hfits hdirectory)).imp
    intro watched u hu
    rw [ends_bind, ends_state]
    split
    · simp only [ends_bind, ends_retireRoot, ends_pure]
      exact ⟨u, hu, .inr rfl⟩
    · next hheld => exact ⟨u, hu, .inl ⟨rfl, by simpa using hheld⟩⟩
  · simp only [ends_bind, ends_say, ends_retireRoot, ends_pure]
    exact ⟨t, .refl, .inr rfl⟩

theorem gathering_coverRoots (t : Tracker) {paths : List Path}
    (hfits : ∀ path ∈ paths, moment.tree.isDirectory path = true → Suits moment.tree fits path) :
    Gathering moment fits t (coverRoots paths) := by
  induction paths generalizing t with
  | nil => exact .pure 0
  | cons path rest ih =>
    have hroot : Gathering moment fits t (coverRoot path) := by
      apply (ends_coverRoot_gathered t (hfits path List.mem_cons_self)).imp
      rintro _ u ⟨v, hv, ⟨rfl, -⟩ | rfl⟩
      · exact hv
      · exact hv.tail (.retired v path)
    exact hroot.bind fun watched u _ =>
      (ih u fun path hpath => hfits path (List.mem_cons_of_mem _ hpath)).bind
        fun more v _ => .pure (watched + more)

theorem gathering_cover (t : Tracker)
    (hfits : ∀ root ∈ t.roots.live, moment.tree.isDirectory root.path = true →
      Suits moment.tree fits root.path) : Gathering moment fits t cover := by
  rw [Gathering, cover, ends_bind, ends_state]
  exact gathering_coverRoots t fun path hpath => by
    obtain ⟨root, hroot, rfl⟩ := List.mem_map.mp hpath
    exact hfits root hroot

theorem gathering_welcome (t : Tracker) (hfits : Suits moment.tree fits path) :
    Gathering moment fits t (welcome path) := by
  apply (gathering_coverSubtree t hfits).bind
  intro watched u _
  split
  · exact ends_change.mpr (.single (.noted u _ rfl))
  · exact .pure ()

theorem exists_mem_entries_at {table : WatchTable} {id : WatchId}
    (h : table.idAt? path = some id) :
    ∃ entry ∈ table.entries, entry.id = id ∧ entry.path.same path = true := by
  obtain ⟨slot, hslot, hget⟩ := Option.bind_eq_some_iff.mp h
  obtain ⟨entry, hentry, hsame⟩ := WatchTable.slotAt?_eq_some hslot
  rw [hentry, Option.map_some, Option.some_inj] at hget
  exact ⟨entry, WatchTable.mem_entries_of_get? hentry, hget, hsame⟩

theorem gathering_rename (t : Tracker) (source : Path) {target : Path}
    (hfits : Suits moment.tree fits target) : Gathering moment fits t (rename source target) := by
  rw [Gathering, rename, ends_bind, ends_change]
  generalize hcounted : ({ t with
    counts := { t.counts with renamed := t.counts.renamed + 1 } } : Tracker) = u
  have hu : Gathered moment.tree fits t u := hcounted ▸ .single (.noted t _ rfl)
  suffices h : Ends _ moment u (fun _ v => Gathered moment.tree fits u v)
      (Stalled moment.tree fits u) from
    h.mono (fun _ _ => hu.trans) fun _ _ => .of_gathered hu
  have hheld {id : WatchId} (h : u.table.idAt? source = some id) :
      u.table.holdsPath source = true := by
    obtain ⟨entry, hentry, -, hsame⟩ := exists_mem_entries_at h
    exact WatchTable.holdsPath_iff.mpr ⟨entry, hentry, hsame⟩
  simp only [ends_bind, ends_state, ends_requestWatch]
  cases hadd : u.source.add moment.tree target with
  | error error =>
    simp only
    split
    · exact .of_source (Source.ne_resetRefused_of_add hadd) .refl
    · rw [ends_say]
      split
      · next hcached =>
        obtain ⟨id, hid⟩ := Option.isSome_iff_exists.mp hcached
        simp only [ends_bind, ends_moveEntries, ends_retireRoot]
        exact .single (.moved (hheld hid) hfits.1)
      · exact .refl
  | ok found =>
    obtain ⟨id, next⟩ := found
    simp only
    split
    · next hcached =>
      obtain ⟨entry, hentry, hid, -⟩ := exists_mem_entries_at hcached
      simp only [ends_bind, ends_moveEntries, ends_say, ends_retireRoot]
      have hknown : Gathered moment.tree fits u { u with source := next } :=
        .single (.requested hadd ⟨entry, hentry, hid⟩)
      exact hknown.tail (.moved (hheld hcached) hfits.1)
    · rw [ends_bind, ends_say, ends_bind, ends_coverSubtree_of_add hadd]
      exact gathering_coverSubtree u hfits

end Gathering

section Handling

/-- With the end of a watch taken in. -/
def ended (t : Tracker) (id : WatchId) : Tracker :=
  { t with draining := t.draining.filter (· != id) }.withoutWatch id fun counts => counts

theorem ended_eq_or (t : Tracker) (id : WatchId) :
    t.ended id = { t with draining := t.draining.filter (· != id) } ∧ t.table.slotOf? id = none ∨
      ∃ slot entry, t.table.get? slot = some entry ∧ entry.id = id ∧ t.ended id =
        { t with table := t.table.erase slot, draining := t.draining.filter (· != id) }.withoutRoot
          entry.path :=
  withoutWatch_eq_or { t with draining := t.draining.filter (· != id) } id fun counts => counts

@[simp] theorem source_ended (t : Tracker) (id : WatchId) : (t.ended id).source = t.source := by
  obtain ⟨h, -⟩ | ⟨slot, entry, -, -, h⟩ := ended_eq_or t id <;> simp [h]

@[simp] theorem draining_ended (t : Tracker) (id : WatchId) :
    (t.ended id).draining = t.draining.filter (· != id) := by
  obtain ⟨h, -⟩ | ⟨slot, entry, -, -, h⟩ := ended_eq_or t id <;> simp [h]

theorem entries_ended (t : Tracker) (id : WatchId) :
    (t.ended id).table.entries ⊆ t.table.entries := by
  obtain ⟨h, -⟩ | ⟨slot, entry, hget, -, h⟩ := ended_eq_or t id
  · simp [h]
  · simpa [h] using WatchTable.entries_erase_subset hget

@[simp] theorem policy_ended (t : Tracker) (id : WatchId) : (t.ended id).policy = t.policy := by
  obtain ⟨h, -⟩ | ⟨slot, entry, -, -, h⟩ := ended_eq_or t id <;> simp [h]

@[simp] theorem rebuilds_ended (t : Tracker) (id : WatchId) :
    (t.ended id).counts.rebuilds = t.counts.rebuilds := by
  obtain ⟨h, -⟩ | ⟨slot, entry, -, -, h⟩ := ended_eq_or t id <;> simp [h]

variable {P done : Tracker → Prop} (h : P t)
  (hdone : ∀ {u}, P u → done u)
  (hgathered : event.Arrives → ∀ u v, P u → Gathered moment.tree fits u v → done v)
  (hstalled : event.Arrives → ∀ fault u v, P u → Stalled moment.tree fits u fault v →
    failed fault v)
  (hfits : event.Arrives → ∀ entry ∈ t.table.entries, ∀ name, event.name = some name →
    Suits moment.tree fits (entry.path.child name))
  (hdistrust : event.NeedsWatch → t.table.slotOf? event.watch = none →
    (resolveDistrust (.unknownWatch event.watch)).Ends moment t (fun _ u => done u) failed)

include h hdone hdistrust

theorem ends_onMovedFrom_of (hwaits : ∀ {u} departures, P u → P { u with departures })
    (hmoved : ∀ {u} path, P u → P (u.withoutMoved path)) (hkind : event.kind = .movedFrom) :
    (onMovedFrom event).Ends moment t (fun _ u => done u) failed := by
  unfold onMovedFrom
  split
  · rw [ends_bind]
    refine ends_subject_of (fun _ => hdone h) ?_ (hdistrust (by simp [Event.NeedsWatch, hkind]))
    intro entry _ _ name _
    cases event.cookie with
    | none => exact ends_giveUpMoved.mpr (hdone (hmoved _ h))
    | some cookie =>
      simp only [ends_bind, ends_say, ends_now, ends_state, ends_change]
      have hnoted := hwaits
        (t.departures.insert ⟨cookie, event.watch, entry.path.child name, moment.now⟩) h
      cases t.departures.get? cookie with
      | none => exact hdone hnoted
      | some superseded => exact ends_settle.mpr (hdone (hmoved _ hnoted))
  · exact hdone h

include hgathered hstalled hfits

theorem ends_onCreate_of (hkind : event.kind = .create) :
    (onCreate event).Ends moment t (fun _ u => done u) failed := by
  unfold onCreate
  split
  · next hdirectory =>
    have harrives : event.Arrives := ⟨hdirectory, .inl hkind⟩
    rw [ends_bind]
    refine ends_subject_of (fun _ => hdone h) ?_ (hdistrust (by simp [Event.NeedsWatch, hkind]))
    intro entry hentry _ name hname
    exact (gathering_welcome t (hfits harrives entry hentry name hname)).mono
      (fun _ u hu => hgathered harrives t u h hu)
      fun fault u hu => hstalled harrives fault t u h hu
  · exact hdone h

theorem ends_onMovedTo_of (hwaits : ∀ {u} departures, P u → P { u with departures })
    (hkind : event.kind = .movedTo) :
    (onMovedTo event).Ends moment t (fun _ u => done u) failed := by
  unfold onMovedTo
  split
  · next hdirectory =>
    have harrives : event.Arrives := ⟨hdirectory, .inr hkind⟩
    rw [ends_bind]
    refine ends_subject_of (fun _ => hdone h) ?_ (hdistrust (by simp [Event.NeedsWatch, hkind]))
    intro entry hentry _ name hname
    have hsuits := hfits harrives entry hentry name hname
    have harrived {α : Type} {x : Action Tracker α} {u : Tracker} (hu : P u)
        (hx : Gathering moment fits u x) : x.Ends moment u (fun _ v => done v) failed :=
      hx.mono (fun _ v hv => hgathered harrives u v hu hv)
        fun fault v hv => hstalled harrives fault u v hu hv
    rw [ends_bind, ends_claim]
    cases event.cookie with
    | none => exact ends_bind.mpr (ends_say.mpr (harrived h (gathering_welcome t hsuits)))
    | some cookie =>
      have hclaimed := hwaits (t.departures.erase cookie) h
      simp only
      cases t.departures.get? cookie with
      | none => exact ends_bind.mpr (ends_say.mpr (harrived hclaimed (gathering_welcome _ hsuits)))
      | some departure => exact harrived hclaimed (gathering_rename _ departure.path hsuits)
  · exact hdone h

end Handling

section Whole

variable {P done : Tracker → Prop}

/-- What holds after an event was applied holds after everything that an event can do. What is kept
while subtrees are given up may be chosen; the events that tell of a watched directory itself do
more. -/
theorem ends_applyEvent_of_kept (h : P t) (hwaits : ∀ {u} departures, P u → P { u with departures })
    (hmoved : ∀ {u} path, P u → P (u.withoutMoved path))
    (hdone : event.kind ≠ .ignored → ∀ {u}, P u → done u)
    (hgathered : event.Arrives → ∀ u v, P u → Gathered moment.tree fits u v → done v)
    (hstalled : event.Arrives → ∀ fault u v, P u → Stalled moment.tree fits u fault v →
      failed fault v)
    (hfits : event.Arrives → ∀ entry ∈ t.table.entries, ∀ name, event.name = some name →
      Suits moment.tree fits (entry.path.child name))
    (hdistrust : event.NeedsWatch → t.table.slotOf? event.watch = none →
      (resolveDistrust (.unknownWatch event.watch)).Ends moment t (fun _ u => done u) failed)
    (hoverflow : event.kind = .overflow → onOverflow.Ends moment t (fun _ u => done u) failed)
    (hended : event.kind = .ignored → done (t.ended event.watch))
    (hdeleted : event.kind = .deleteSelf → done ((t.drained event.watch).withoutWatch event.watch
      fun counts => { counts with deleted := counts.deleted + 1 }))
    (hselfMoved : event.kind = .moveSelf → done (t.selfMoved event.watch))
    (hunmounted : event.kind = .unmount → done (t.unmounted event.watch)) :
    (applyEvent event).Ends moment t (fun _ u => done u) failed := by
  unfold applyEvent
  cases hkind : event.kind with
  | ignored => exact ends_onIgnored.mpr (hended hkind)
  | overflow => exact hoverflow hkind
  | create =>
    exact ends_onCreate_of h (hdone (by simp [hkind])) hgathered hstalled hfits hdistrust hkind
  | movedTo =>
    exact ends_onMovedTo_of h (hdone (by simp [hkind])) hgathered hstalled hfits hdistrust
      hwaits hkind
  | movedFrom => exact ends_onMovedFrom_of h (hdone (by simp [hkind])) hdistrust hwaits hmoved hkind
  | deleteSelf => exact ends_onDeleteSelf.mpr (hdeleted hkind)
  | moveSelf => exact ends_onMoveSelf.mpr (hselfMoved hkind)
  | unmount => exact ends_onUnmount.mpr (hunmounted hkind)
  | other => exact ends_pure.mpr (hdone (by simp [hkind]) h)

theorem ends_applyEvent_of (hshed : event.kind ≠ .ignored → ∀ u, Shed t u → done u)
    (hgathered : event.Arrives → ∀ u v, Shed t u → Gathered moment.tree fits u v → done v)
    (hstalled : event.Arrives → ∀ fault u v, Shed t u → Stalled moment.tree fits u fault v →
      failed fault v)
    (hfits : event.Arrives → ∀ entry ∈ t.table.entries, ∀ name, event.name = some name →
      Suits moment.tree fits (entry.path.child name))
    (hdistrust : event.NeedsWatch → t.table.slotOf? event.watch = none →
      (resolveDistrust (.unknownWatch event.watch)).Ends moment t (fun _ u => done u) failed)
    (hoverflow : event.kind = .overflow → onOverflow.Ends moment t (fun _ u => done u) failed)
    (hended : event.kind = .ignored → done (t.ended event.watch)) :
    (applyEvent event).Ends moment t (fun _ u => done u) failed := by
  refine ends_applyEvent_of_kept (P := Shed t) .refl ?_ ?_ (fun hkind _ => hshed hkind _) hgathered
    hstalled hfits hdistrust hoverflow hended ?_ ?_ ?_
  · exact fun departures hu => hu.tail (.noted _ departures _ rfl)
  · exact fun path hu => hu.trans (shed_withoutMoved _ path)
  · exact fun hkind => hshed (by simp [hkind]) _ (shed_deleted t event.watch)
  · exact fun hkind => hshed (by simp [hkind]) _ (shed_selfMoved t event.watch)
  · exact fun hkind => hshed (by simp [hkind]) _ (shed_unmounted t event.watch)

/-- What holds after an event was handled holds after everything that an event can do to a tracker
that has begun with it. -/
theorem ends_handle_of (hshed : event.kind ≠ .ignored → ∀ u, Shed (t.received event) u → done u)
    (hgathered : event.Arrives → ∀ u v, Shed (t.received event) u →
      Gathered moment.tree fits u v → done v)
    (hstalled : event.Arrives → ∀ fault u v, Shed (t.received event) u →
      Stalled moment.tree fits u fault v → failed fault v)
    (hfits : event.Arrives → ∀ entry ∈ (t.received event).table.entries, ∀ name,
      event.name = some name → Suits moment.tree fits (entry.path.child name))
    (hdistrust : event.NeedsWatch → (t.received event).isStale event = false →
      (t.received event).table.slotOf? event.watch = none →
      (resolveDistrust (.unknownWatch event.watch)).Ends moment (t.received event)
        (fun _ u => done u) failed)
    (hoverflow : event.kind = .overflow →
      onOverflow.Ends moment (t.received event) (fun _ u => done u) failed)
    (hended : event.kind = .ignored → done ((t.received event).ended event.watch)) :
    (handle event).Ends moment t (fun _ u => done u) failed := by
  rw [ends_handle]
  split
  · next hstale =>
    have hkind : event.kind ≠ .ignored := fun hkind => by simp [isStale, hkind] at hstale
    exact hshed hkind _ (.single (.noted _ _ _ rfl))
  · next hstale =>
    exact ends_applyEvent_of hshed hgathered hstalled hfits
      (fun hneeds => hdistrust hneeds (Bool.eq_false_iff.mpr hstale)) hoverflow hended

end Whole

section Invariants

/-- What is kept when directories of a tree come, and when the work starts over. -/
structure Grows (tree : FileTree) (P : Tracker → Prop) : Prop where
  gathers : ∀ {t u}, P t → Gathers tree (fun _ => True) t u → P u
  wiped : ∀ {t}, P t → P t.wiped

namespace Grows

variable {P : Tracker → Prop}

theorem gathered (hP : Grows tree P) (h : P t) (hu : Gathered tree (fun _ => True) t u) : P u := by
  induction hu with
  | refl => exact h
  | tail _ hstep ih => exact hP.gathers ih hstep

/-- A fault leaves what is kept, unless a watch was asked for and there is no room for its entry. -/
theorem stalled {fault : Fault} (hP : Grows tree P) (h : P t)
    (hu : Stalled tree (fun _ => True) t fault u) : P u ∨ ∃ capacity, fault = .noRoom capacity := by
  obtain ⟨v, hv, ⟨-, rfl⟩ | ⟨hfault, -⟩⟩ := hu
  · exact .inl (hP.gathered h hv)
  · exact .inr hfault

theorem ends_cover (hP : Grows moment.tree P) (h : P t) :
    cover.Ends moment t (fun _ u => P u) fun fault u => P u ∨
      ∃ capacity, fault = .noRoom capacity :=
  (gathering_cover t fun _ _ _ => suits_true).mono (fun _ _ => hP.gathered h) fun _ _ =>
    hP.stalled h

theorem ends_rebuild (hP : Grows moment.tree P) (h : P t) :
    rebuild.Ends moment t (fun _ u => P u) fun fault u => P u ∨
      ∃ capacity, fault = .noRoom capacity := by
  rw [Tracker.ends_rebuild]
  split
  · exact .inl h
  · exact hP.ends_cover (hP.wiped h)

theorem ends_resolveDistrust {why : Distrust} (hP : Grows moment.tree P) (h : P t) :
    (resolveDistrust why).Ends moment t (fun _ u => P u)
      fun fault u => P u ∨ ∃ capacity, fault = .noRoom capacity := by
  rw [Tracker.ends_resolveDistrust]
  split
  · exact .inl h
  · exact hP.ends_rebuild h

theorem ends_check (hP : Grows moment.tree P) (h : P t) :
    check.Ends moment t (fun _ u => P u) fun fault u => P u ∨
      ∃ capacity, fault = .noRoom capacity := by
  rw [Tracker.ends_check]
  split
  · exact hP.ends_resolveDistrust h
  · exact h

end Grows

/-- What every small change keeps, and starting over too. -/
structure Stable (P : Tracker → Prop) : Prop where
  sheds : ∀ {t u}, P t → Sheds t u → P u
  gathers : ∀ {tree t u}, P t → Gathers tree (fun _ => True) t u → P u
  wiped : ∀ {t}, P t → P t.wiped

namespace Stable

variable {P done : Tracker → Prop}

theorem grows (hP : Stable P) : Grows tree P := ⟨hP.gathers, hP.wiped⟩

theorem shed (hP : Stable P) (h : P t) (hu : Shed t u) : P u := by
  induction hu with
  | refl => exact h
  | tail _ hstep ih => exact hP.sheds ih hstep

theorem ends_handle (hP : Stable P) (h : P t)
    (hother : event.kind ≠ .ignored → ∀ u, P u → done u)
    (hended : event.kind = .ignored → ∀ u, Shed t u → P u → done (u.ended event.watch)) :
    (handle event).Ends moment t (fun _ u => done u)
      fun fault u => done u ∨ ∃ capacity, fault = .noRoom capacity := by
  have hreceived := hP.shed h (shed_received t event)
  have hkind (harrives : event.Arrives) : event.kind ≠ .ignored := by
    rcases harrives.2 with hkind | hkind <;> simp [hkind]
  apply ends_handle_of
  · exact fun hkind u hu => hother hkind u (hP.shed hreceived hu)
  · exact fun harrives u v hu hv =>
      hother (hkind harrives) v (hP.grows.gathered (hP.shed hreceived hu) hv)
  · exact fun harrives fault u v hu hv =>
      (hP.grows.stalled (hP.shed hreceived hu) hv).imp_left (hother (hkind harrives) v)
  · exact fun _ _ _ _ _ => suits_true
  · exact fun hneeds _ _ => (hP.grows.ends_resolveDistrust hreceived).mono
      (fun _ u => hother hneeds.2 u)
      fun _ u => Or.imp_left (hother hneeds.2 u)
  · intro hoverflow
    have hkind : event.kind ≠ .ignored := by simp [hoverflow]
    have hoverran : P (t.received event).overran := hP.sheds hreceived (.noted _ _ _ rfl)
    rw [ends_onOverflow]
    split
    · exact .inl (hother hkind _ hoverran)
    · exact (hP.grows.ends_rebuild hoverran).mono (fun _ u => hother hkind u)
        fun _ u => Or.imp_left (hother hkind u)
  · exact fun hkind => hended hkind _ (shed_received t event) hreceived

end Stable

end Invariants

end Tracker

end TreeWatch
