import TreeWatch.Proofs.FileTree.Identity
import TreeWatch.Proofs.Tracker.Arrangement
import TreeWatch.Proofs.Tracker.Arrivals

/-!
# Which links are crossed

A directory that arrives is watched with all below it, and no link that is met on the way is
followed. The one link that is followed stands where the directory was told to be: a walk that
starts at a link goes through it. A rename that is completed leaves no way even for that, since its
target is looked at before it is walked.
-/

namespace TreeWatch

namespace Tracker

open TreeWatch.Action
open FileTree (walkPath pathOf)

variable {moment : Moment} {tree : FileTree} {path source : Path} {t u v : Tracker} {event : Event}
  {completing : Bool} {entry : Entry}

/-- Names lead from a path down to a directory, by directories only. A link may stand at the path
itself, unless a rename is being completed. -/
structure Enters (tree : FileTree) (completing : Bool) (path : Path) (names : Location)
    (directory : DirectoryId) : Prop where
  bottom : tree.inspect (walkPath path names) = .ok (.directory directory)
  way : ∀ front, front ≠ [] → front <+: names → tree.isDirectory (walkPath path front) = true
  top : tree.isDirectory path = true ∨ completing = false ∧ names ≠ [] ∧ tree.LinksToDirectory path

/-- New watches and entries are for directories that names lead to, and the entries have the paths
of these directories if the path is one of a directory and all was arranged. -/
structure Brings (tree : FileTree) (completing : Bool) (path : Path) (t u : Tracker) : Prop where
  live : ∀ watch ∈ u.source.live, watch ∉ t.source.live →
    ∃ names, Enters tree completing path names watch.2
  entries : ∀ entry ∈ u.table.entries, entry.id ∉ t.table.entries.map (·.id) →
    ∃ names directory, Enters tree completing path names directory ∧
    (entry.id, directory) ∈ u.source.live ∧
      (tree.isDirectory path = true → Arranged tree path t →
        (walkPath path names).same entry.path = true)

theorem Brings.of_subset (hlive : u.source.live ⊆ t.source.live)
    (hids : u.table.entries.map (·.id) ⊆ t.table.entries.map (·.id)) :
    Brings tree completing path t u where
  live _ hwatch hnew := absurd (hlive hwatch) hnew
  entries _ hentry hnew := absurd (hids (List.mem_map_of_mem hentry)) hnew

theorem Brings.of_shed (hv : Shed t v) (hsource : u.source = v.source)
    (hids : u.table.entries.map (·.id) = v.table.entries.map (·.id)) :
    Brings tree completing path t u :=
  .of_subset (hsource ▸ hv.source.1.subset) (hids ▸ List.map_subset _ hv.entries)

/-- What a walk brings is on its way, and the walk of a rename's target starts at a directory. -/
theorem Brings.of_watchesEach (hwf : tree.WellFormed) (h : Registered none t) (hv : Shed t v)
    (htop : completing = false ∨ tree.isDirectory path = true)
    (hu : WatchesEach tree (met tree path) v u) : Brings tree completing path t u := by
  have hregistered : Registered none v := (Registered.lasts tree none).shed h hv
  have hlast : Registered none u := hregistered.of_watchesEach hu
  have hprovides := hu.provides
  have henters {place : Path} {found : DirectoryId} (hmet : place ∈ met tree path)
      (hinspect : tree.inspect place = .ok (.directory found)) :
      ∃ names, place = walkPath path names ∧ Enters tree completing path names found := by
    have hsurvey := FileTree.mem_survey_iff.mpr ⟨mem_filterMap_directory?.mp hmet, hinspect⟩
    obtain ⟨names, rfl, hway, hstart⟩ := FileTree.exists_of_mem_survey hwf hsurvey
    refine ⟨names, rfl, hinspect, hway, ?_⟩
    rcases htop with rfl | hreal
    · exact hstart.imp_right fun hlinks => ⟨rfl, hlinks⟩
    · exact .inl hreal
  constructor
  · intro watch hwatch hnew
    rcases hprovides.live watch hwatch with hold | ⟨place, hmet, hinspect⟩
    · exact absurd (hv.source.1.subset hold) hnew
    · obtain ⟨names, -, hnames⟩ := henters hmet hinspect
      exact ⟨names, hnames⟩
  · intro entry hentry hnew
    rcases hprovides.entries entry hentry with ⟨old, hold, hid⟩ | ⟨place, hmet, found,
      hinspect, hlive⟩
    · exact absurd (hid ▸ List.mem_map_of_mem (hv.entries hold)) hnew
    · obtain ⟨names, rfl, hnames⟩ := henters hmet hinspect
      refine ⟨names, found, hnames, hlive, fun hreal harranged => ?_⟩
      obtain ⟨location, start, hfind⟩ := FileTree.exists_find_of_isDirectory hreal
      obtain ⟨-, -, hsettled⟩ := (harranged.of_shed h hv).of_watchesEach hwf hfind hregistered
        (fun _ => mem_filterMap_directory?.mp) hu
      obtain ⟨other, hother, hwatch, hsame⟩ := hsettled _ hmet found hinspect
      -- A directory has one watch, and a watch has one entry.
      have hid : other.id = entry.id := hlast.sound.eq_of_directory hwatch hlive
      obtain rfl := List.inj_on_of_nodup_map hlast.ids hother hentry hid
      exact hsame

/-- What completing a rename brings, it brings below a target that is a directory. -/
theorem ends_rename_brings (hwf : moment.tree.WellFormed) (h : Registered none t) (hv : Shed t v) :
    (rename source path).Ends moment v (fun _ u => Brings moment.tree completing path t u)
      fun _ _ => True := by
  have hregistered : Registered none v := (Registered.lasts moment.tree none).shed h hv
  have hmoved : (v.table.relocate source path).entries.map (·.id) = v.table.entries.map (·.id) :=
    WatchTable.ids_relocate ..
  apply ends_rename_of hregistered
  · rintro - u hsource (htable | htable)
    · exact .of_shed hv hsource (by rw [htable])
    · exact .of_shed hv hsource (by rw [htable, hmoved])
  · intro id directory _ _ _ u hsource htable
    exact .of_shed hv hsource (by rw [htable, hmoved])
  · intro directory hinspect _ counts u hrebuilds hu
    have hreal := FileTree.isDirectory_of_inspect hinspect
    exact .of_watchesEach hwf h (hv.tail (.noted v v.departures counts hrebuilds)) (.inr hreal) hu

theorem ends_handle_brings {name : Bytes} (hwf : moment.tree.WellFormed) (h : Registered none t)
    (harrives : event.Arrives) (hname : event.name = some name) (hentry : entry ∈ t.table.entries)
    (hwatch : entry.id = event.watch) :
    (handle event).Ends moment t
      (fun _ u => u.counts.rebuilds = t.counts.rebuilds →
        Brings moment.tree (t.completes event) (entry.path.child name) t u)
      fun _ _ => True := by
  have hreceived := shed_received t event
  have hrebuilds : (t.received event).counts.rebuilds = t.counts.rebuilds :=
    (Keeps.received t event).rebuilds
  have hsame {other : Entry} (hother : other ∈ (t.received event).table.entries)
      (hid : other.id = event.watch) : other = entry :=
    List.inj_on_of_nodup_map h.ids (hreceived.entries hother) hentry (hid.trans hwatch.symm)
  apply ends_handle_arrives harrives hname
  · exact fun _ counts _ => .of_shed hreceived rfl rfl
  · intro _
    rw [ends_resolveDistrust]
    split
    · trivial
    · refine ends_rebuild_rebuilds.mono (fun _ u hu heq => ?_) fun _ _ _ => trivial
      omega
  · intro hcompletes other hother hid departures
    obtain rfl := hsame hother hid
    rw [hcompletes]
    have hshed : Shed t { t.received event with departures } :=
      hreceived.tail (.noted _ departures _ rfl)
    refine ends_welcome_of ((Registered.lasts moment.tree none).shed h hshed) fun u hu
      counts _ => ?_
    have hbrings : Brings moment.tree false (other.path.child name) t u :=
      .of_watchesEach hwf h hshed (.inl rfl) hu
    exact ⟨hbrings.live, hbrings.entries⟩
  · intro cookie departure _ _ _ other hother hid departures
    obtain rfl := hsame hother hid
    have hshed : Shed t { t.received event with departures } :=
      hreceived.tail (.noted _ departures _ rfl)
    exact (ends_rename_brings hwf h hshed).imp fun _ _ hu _ => hu

theorem Brings.of_source {source : Source} (h : Brings tree completing path { t with source } u)
    (hlive : source.live = t.source.live) : Brings tree completing path t u where
  live watch hwatch hnew := h.live watch hwatch (hlive ▸ hnew)
  entries entry hentry hnew := by
    obtain ⟨names, directory, henters, hwatch, hpath⟩ := h.entries entry hentry hnew
    refine ⟨names, directory, henters, hwatch, fun hreal harranged => hpath hreal ?_⟩
    exact harranged.of_subset (List.Subset.refl _) fun _ _ _ => hlive ▸ Iff.rfl

section Runs

variable {admits : Transition → Prop} {first : Source} {roots : Roots} {policy : Policy}
  {history : List Transition} {transition : Transition} {name : Bytes}

/-- Whatever happened before, and whatever the tree has become since the event: all that a handled
arrival brings is for directories at and below the path that the event names, with directories only
on the way. There is one exception to that. Where a link stands at the path now and the arrival is
not the second half of a rename, the link is followed, and directories elsewhere come to be
watched. -/
theorem arrivals_bring_directories_below (hlive : first.live = [])
    (h : Run admits (ofRoots first roots policy) history t) (hbefore : transition.before = t)
    (hwf : transition.moment.tree.WellFormed) (hevent : transition.event? = some event)
    (harrives : event.Arrives) (hname : event.name = some name) (hentry : entry ∈ t.table.entries)
    (hwatch : entry.id = event.watch) (hok : transition.Succeeds)
    (hrebuilds : transition.after.counts.rebuilds = t.counts.rebuilds) :
    Brings transition.moment.tree (t.completes event) (entry.path.child name) t
      transition.after := by
  subst hbefore
  have hregistered := h.registered hlive
  have hends : transition.step.act.Ends transition.moment transition.before
      (fun _ u => u.counts.rebuilds = transition.before.counts.rebuilds →
        Brings transition.moment.tree (transition.before.completes event) (entry.path.child name)
          transition.before u)
      fun _ _ => True := by
    apply Transition.ends_arrival hevent harrives
    intro source hsource hnextId
    have htaken : Registered none { transition.before with source } :=
      hregistered.of_same hsource hnextId rfl
    exact (ends_handle_brings hwf htaken harrives hname hentry hwatch).imp
      fun _ u hu heq => (hu heq).of_source hsource
  exact hok.of_ends hends hrebuilds

/-- A directory is moved in that holds a link to the root and a directory. The link is left
alone. -/
theorem arrivals_bring_directories_below_of_link :
    let before := FileTree.empty.putDirectory [[114]]
    let outer := before.putDirectory [[114], [97]]
    let after := (outer.putDirectory [[114], [97], [98]]).put [[114], [97],
      [99]] (.link (pathOf [[114]]))
    let t := outcome (ofRoots .empty ⟨[some ⟨pathOf [[114]], 1⟩], 0⟩ ⟨true, .rescan⟩)
      [(⟨before, 0⟩, .start)]
    let last : Transition := ⟨⟨after, 0⟩, t, .handle ⟨⟨1⟩, .movedTo, true, some 7, some [97]⟩⟩
    Arranged after (pathOf [[114], [97]]) t ∧ last.Succeeds ∧
      last.after.table.entries = [⟨⟨1⟩, pathOf [[114]]⟩, ⟨⟨2⟩, pathOf [[114], [97]]⟩,
        ⟨⟨3⟩, pathOf [[114], [97], [98]]⟩] ∧
      Brings after false (pathOf [[114], [97]]) t last.after := by
  intro before outer after t last
  have hafter : after.WellFormed := by decide +kernel
  have hrun : Run (fun _ => True) (ofRoots .empty ⟨[some ⟨pathOf [[114]], 1⟩], 0⟩ ⟨true, .rescan⟩)
      (transitions _ [(⟨before, 0⟩, .start)]) t := run_transitions fun _ _ => trivial
  have hlast : last.before = t := by dsimp only [last]
  have hevent : last.event? = some ⟨⟨1⟩, .movedTo, true, some 7, some [97]⟩ := rfl
  have hentry : ⟨⟨1⟩, pathOf [[114]]⟩ ∈ t.table.entries := by decide +kernel
  have hok : last.Succeeds := by decide +kernel
  have hcompletes : t.completes ⟨⟨1⟩, .movedTo, true, some 7, some [97]⟩ = false := by
    decide +kernel
  have hpath : (pathOf [[114]]).child [97] = pathOf [[114], [97]] := by decide
  have hbrings := arrivals_bring_directories_below rfl hrun hlast hafter hevent ⟨rfl, .inr rfl⟩ rfl
    hentry rfl hok (by decide +kernel)
  rw [hcompletes, hpath] at hbrings
  exact ⟨by decide +kernel, hok, by decide +kernel, hbrings⟩

/-- A directory was made in a root, and a link to another directory stands in its place when the
event is handled. What is in the other directory, outside the root, comes to be watched. -/
theorem replaced_directory_is_followed :
    let before := ((FileTree.empty.putDirectory [[111]]).putDirectory [[111], [115]]).putDirectory
      [[114]]
    let after := before.put [[114], [120]] (.link (pathOf [[111]]))
    let t := outcome (ofRoots .empty ⟨[some ⟨pathOf [[114]], 3⟩], 0⟩ ⟨true, .rescan⟩)
      [(⟨before, 0⟩, .start)]
    let last : Transition := ⟨⟨after, 0⟩, t, .handle ⟨⟨1⟩, .create, true, none, some [120]⟩⟩
    last.Succeeds ∧ last.after.counts.rebuilds = t.counts.rebuilds ∧
      after.isDirectory (pathOf [[114], [120]]) = false ∧
      after.inspect (pathOf [[111], [115]]) = .ok (.directory 2) ∧
      t.table.entries = [⟨⟨1⟩, pathOf [[114]]⟩] ∧
      last.after.table.entries = [⟨⟨1⟩, pathOf [[114]]⟩, ⟨⟨2⟩, pathOf [[114], [120], [115]]⟩] ∧
      last.after.source.live = [(⟨1⟩, 3), (⟨2⟩, 2)] := by
  decide +kernel

end Runs

end Tracker

end TreeWatch
