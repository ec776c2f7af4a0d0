import TreeWatch.Proofs.FileTree.Identity
import TreeWatch.Proofs.FileTree.Leading
import TreeWatch.Proofs.Roots.Naming
import TreeWatch.Proofs.Roots.Retirement
import TreeWatch.Proofs.Tracker.Auditing
import TreeWatch.Proofs.Tracker.Laws

/-!
# What a rebuild heals

A rebuild enters directories only, but under one path or another: through links a directory is met
again, and its entry moves there with all entries below it. Their paths still lead where they led,
since they begin with another way to the same directory. So after a rebuild in which no path was
cut, no entry names anything but a directory, as long as the tree stays as it is.
-/

namespace TreeWatch

open FileTree

/-- No line tells of a path that was cut. -/
def Log.Uncut (log : List Log.Line) : Prop := ∀ path, ∀ line ∈ WatchTable.cutLines path, line ∉ log

namespace Log.Uncut

variable {log more : List Log.Line} {path : Path}

theorem append_iff : Uncut (log ++ more) ↔ Uncut log ∧ Uncut more := by
  simp only [Uncut, List.mem_append, not_or]
  exact ⟨fun h => ⟨fun path line hline => (h path line hline).1, fun path line hline =>
    (h path line hline).2⟩,
    fun h path line hline => ⟨h.1 path line hline, h.2 path line hline⟩⟩

theorem subset (h : Uncut log) (hsub : more ⊆ log) : Uncut more :=
  fun path line hline hmem => h path line hline (hsub hmem)

theorem of_level (h : ∀ line ∈ log, line.level ≠ .warn) : Uncut log := by
  intro path line hline hmem
  unfold WatchTable.cutLines at hline
  split at hline
  · obtain rfl := List.mem_singleton.mp hline
    exact h _ hmem rfl
  · cases hline

theorem bounded (h : Uncut log) (hsub : WatchTable.cutLines path ⊆ log) : path.bounded = path := by
  unfold WatchTable.cutLines at hsub
  unfold Path.bounded
  split at hsub
  · next hlong =>
    exact absurd (hsub List.mem_cons_self) (h path _ (by simp [WatchTable.cutLines, hlong]))
  · next hshort => rw [if_neg hshort]

end Log.Uncut

namespace WatchTable

/-- Of every entry that moves it is told whether its path is cut. -/
theorem cutLines_subset_relocateLines {table : WatchTable} {entry : Entry}
    {source target path : Path} (hentry : entry ∈ table.entries)
    (hmoved : moved? source target entry.path = some path) :
    cutLines path ⊆ table.relocateLines source target := by
  obtain ⟨slot, hget⟩ := exists_get?_of_mem_entries hentry
  intro line hline
  refine List.mem_flatMap.mpr ⟨(slot, entry), mem_active_iff.mpr hget, ?_⟩
  simp only [hmoved]
  exact List.mem_cons_of_mem _ hline

end WatchTable

/-- Each live root has the path of a place. -/
def Roots.Spelled (roots : Roots) : Prop :=
  ∀ root ∈ roots.live, ∃ location, root.path = pathOf location ∧ IsPlace location

theorem Roots.ShrinksTo.spelled {before : FileTree} {named roots : Roots} {paths : List Path}
    (hwf : before.WellFormed) (hnamed : Roots.ofPaths before paths = .ok named)
    (h : named.ShrinksTo roots) :
    roots.Spelled := fun root hroot => by
  obtain ⟨location, hpath, hget⟩ :=
    (Roots.ofPaths_eq_ok hnamed).1 root (h.live_sublist.subset hroot)
  exact ⟨location, hpath, hwf.isPlace hget⟩

namespace Tracker

open TreeWatch.Action

variable {moment : Moment} {tree : FileTree} {now : Nat} {t u : Tracker} {names location : Location}
  {path : Path} {paths : List Path} {entry : Entry}

/-- An entry whose names lead to the directory of its watch. -/
def Leading (tree : FileTree) (source : Source) (entry : Entry) : Prop :=
  ∃ names directory, entry.path = pathOf names ∧ IsPlace names ∧ tree.Leads names directory ∧
    (entry.id, directory) ∈ source.live

/-- All entries are for directories that their names lead to. -/
structure Led (tree : FileTree) (t : Tracker) : Prop where
  sound : t.source.Sound
  leads : ∀ entry ∈ t.table.entries, Leading tree t.source entry

theorem Leading.mono {source next : Source} (h : Leading tree source entry)
    (hlive : source.live ⊆ next.live) :
    Leading tree next entry := by
  obtain ⟨names, directory, hpath, hplace, hleads, hmem⟩ := h
  exact ⟨names, directory, hpath, hplace, hleads, hlive hmem⟩

/-- As long as no path is cut, all entries stay led. -/
def StaysLed (tree : FileTree) (t : Tracker) (log : List Log.Line) (u : Tracker) : Prop :=
  Led tree t → Log.Uncut log → Led tree u

theorem law_staysLed (tree : FileTree) : Law (StaysLed tree) where
  rest _ h _ := h
  next h h' ht hlog := by
    obtain ⟨hfirst, hsecond⟩ := Log.Uncut.append_iff.mp hlog
    exact h' (h ht hfirst) hsecond

namespace Led

theorem add {id : WatchId} {source : Source} (h : Led tree t)
    (hadd : t.source.add tree path = .ok (id, source)) :
    Led tree { t with source } where
  sound := h.sound.add hadd
  leads entry hentry := (h.leads entry hentry).mono (Source.live_subset_of_add hadd)

theorem of_same (h : Led tree t) (hsource : u.source = t.source) (htable : u.table = t.table) :
    Led tree u where
  sound := hsource ▸ h.sound
  leads := by
    rw [hsource, htable]
    exact h.leads

theorem withoutRoot (h : Led tree t) (path : Path) : Led tree (t.withoutRoot path) :=
  h.of_same source_withoutRoot table_withoutRoot

theorem wiped (t : Tracker) : Led tree t.wiped where
  sound := .of_live_eq_nil rfl
  leads _ hentry := absurd hentry (by simp)

theorem insert {id : WatchId} {slot : Nat} {table : WatchTable} (h : Led tree t)
    (hplace : IsPlace names) {directory : DirectoryId}
    (hinspect : tree.inspect (pathOf names) = .ok (.directory directory))
    (hlive : (id, directory) ∈ t.source.live)
    (hinsert : t.table.insert? id (pathOf names) = some (slot, table)) :
    Led tree { t with table } where
  sound := h.sound
  leads entry hentry := by
    have hshort : IsShort names := length_lt_of_isDirectory (isDirectory_of_inspect hinspect)
    rcases List.mem_cons.mp ((WatchTable.entries_insert? hinsert).mem_iff.mp hentry) with
      rfl | hentry
    · exact ⟨names, directory, bounded_pathOf hshort, hplace, .of_inspect hplace hinspect, hlive⟩
    · exact h.leads entry hentry

/-- Entries that move to another way to the same directory stay led, if no path is cut. -/
theorem relocate {before : Location} (hwf : tree.WellFormed) (h : Led tree t)
    {directory : DirectoryId} (hbefore : IsPlace before) (hplace : IsPlace names)
    (hfrom : tree.Leads before directory) (hto : tree.Leads names directory)
    (hlog : Log.Uncut (t.table.relocateLines (pathOf before) (pathOf names))) :
    Led tree { t with table := t.table.relocate (pathOf before) (pathOf names) } where
  sound := h.sound
  leads entry hentry := by
    rw [WatchTable.entries_relocate] at hentry
    obtain ⟨old, hold, rfl⟩ := List.mem_map.mp hentry
    obtain ⟨place, target, hpath, hat, hleads, hlive⟩ := h.leads old hold
    by_cases hbelow : before <+: place
    · -- What follows the old names follows the new ones from now on, which lead to the same place.
      obtain ⟨more, rfl⟩ := hbelow
      have hmoved : WatchTable.moved? (pathOf before) (pathOf names) old.path =
          some (pathOf (names ++ more)) := by
        rw [hpath]
        exact WatchTable.moved?_pathOf hbefore hplace hat.right
      have hwhole := hlog.bounded (WatchTable.cutLines_subset_relocateLines hold hmoved)
      simp only [WatchTable.movedEntry, hmoved]
      exact ⟨names ++ more, target, hwhole, hplace.append hat.right, hfrom.exchange hwf hto hleads,
        hlive⟩
    · have hmoved : WatchTable.moved? (pathOf before) (pathOf names) old.path = none := by
        rw [hpath]
        exact WatchTable.moved?_pathOf_of_not_below hbefore hat hbelow _
      rw [WatchTable.movedEntry, hmoved]
      exact ⟨place, target, hpath, hat, hleads, hlive⟩

end Led

section Covering

theorem staysLed_say {lines : List Log.Line} : (say lines).Obeys (StaysLed tree) := fun _ _ h _ => h

theorem exists_add_of_requestWatch {id : WatchId}
    (h : (requestWatch path moment t).result = .ok (some id)) :
    ∃ source, t.source.add moment.tree path = .ok (id, source) ∧
      (requestWatch path moment t).state = { t with source } := by
  have hends : (requestWatch path).Ends moment t (fun watch u => watch = some id →
      ∃ source, t.source.add moment.tree path = .ok (id, source) ∧ u = { t with source })
      fun _ _ => True := by
    rw [ends_requestWatch]
    split
    · next found source hadd =>
      rintro heq
      obtain rfl := Option.some.inj heq
      exact ⟨source, hadd, rfl⟩
    · split
      · trivial
      · exact fun heq => absurd heq (by simp)
  exact hends.of_ok h rfl

theorem staysLed_requestWatch : (requestWatch path).ObeysFrom ⟨tree, now⟩ t (StaysLed tree) := by
  intro h _
  apply Ends.state
  rw [ends_requestWatch]
  split
  · next hadd => exact h.add hadd
  · split <;> exact h

theorem staysLed_addEntry {id : WatchId} {directory : DirectoryId} (hplace : IsPlace names)
    (hinspect : tree.inspect (pathOf names) = .ok (.directory directory))
    (hlive : (id, directory) ∈ t.source.live) :
    (addEntry id (pathOf names)).ObeysFrom ⟨tree, now⟩ t (StaysLed tree) := by
  intro h _
  apply Ends.state
  rw [ends_addEntry]
  split
  · next hinsert => exact h.insert hplace hinspect hlive hinsert
  · exact h

theorem staysLed_retireRoot : (retireRoot path).Obeys (StaysLed tree) := by
  intro moment t h _
  rw [state_retireRoot]
  exact h.withoutRoot path

variable (hwf : tree.WellFormed)

include hwf

theorem staysLed_moveEntries {directory : DirectoryId} (hentry : entry ∈ t.table.entries)
    (hlive : (entry.id, directory) ∈ t.source.live) (hplace : IsPlace names)
    (hto : tree.Leads names directory) :
    (moveEntries entry.path (pathOf names)).ObeysFrom ⟨tree, now⟩ t (StaysLed tree) := by
  intro h hlog
  obtain ⟨before, other, hpath, hbefore, hfrom, hother⟩ := h.leads entry hentry
  obtain rfl := h.sound.eq_of_id hlive hother
  have hmoved : Log.Uncut (t.table.relocateLines entry.path (pathOf names)) := by
    simpa [moveEntries, bind_apply] using hlog
  rw [hpath] at hmoved ⊢
  exact h.relocate hwf hbefore hplace hfrom hto hmoved

theorem staysLed_watchDirectory (hplace : IsPlace names) :
    (watchDirectory (pathOf names)).ObeysFrom ⟨tree, now⟩ t (StaysLed tree) := by
  have hlaw := law_staysLed tree
  refine hlaw.bindAt staysLed_requestWatch fun watch hwatch => ?_
  cases watch with
  | none => exact hlaw.pure _ _ _
  | some id =>
    obtain ⟨source, hadd, hstate⟩ := exists_add_of_requestWatch hwatch
    obtain ⟨directory, hinspect, hlive⟩ := Source.mem_live_of_add hadd
    rw [hstate]
    refine hlaw.bindAt (hlaw.state _ _) fun tracker htracker => ?_
    obtain rfl : { t with source } = tracker := Except.ok.inj htracker
    dsimp only
    cases hslot : t.table.slotOf? id with
    | none => exact hlaw.bindFrom (staysLed_addEntry hplace hinspect hlive) fun _ => hlaw.pure _
    | some slot =>
      obtain ⟨entry, hget, rfl⟩ := WatchTable.slotOf?_eq_some hslot
      simp only [hget, Option.map_some]
      split
      · exact hlaw.pure _ _ _
      · refine hlaw.bindAt (staysLed_say _ _) fun _ _ => ?_
        have hentry := WatchTable.mem_entries_of_get? hget
        exact hlaw.bindFrom (staysLed_moveEntries hwf hentry hlive hplace
          (.of_inspect hplace hinspect))
          fun _ => hlaw.bind staysLed_retireRoot fun _ => hlaw.pure _

theorem staysLed_watchItems (start : Path) {items : List WalkItem}
    (hitems : ∀ path, .entry path true ∈ items → ∃ names, path = pathOf names ∧ IsPlace names) :
    (watchItems start items).ObeysFrom ⟨tree, now⟩ t (StaysLed tree) := by
  have hlaw := law_staysLed tree
  induction items generalizing t with
  | nil => exact hlaw.pure 0 _ _
  | cons item rest ih =>
    have hrest {u : Tracker} := @ih u fun path hpath => hitems path (List.mem_cons_of_mem _ hpath)
    cases item with
    | failed path error => exact hlaw.bindAt (staysLed_say _ _) fun _ _ => hrest
    | entry path isDirectory =>
      cases isDirectory with
      | false => exact hrest
      | true =>
        obtain ⟨names, rfl, hplace⟩ := hitems path List.mem_cons_self
        refine hlaw.bindAt (staysLed_watchDirectory hwf hplace) fun watched _ => ?_
        split
        · exact hlaw.bindAt hrest fun _ _ => hlaw.pure _ _ _
        · exact hrest

theorem staysLed_coverSubtree (hplace : IsPlace location) :
    (coverSubtree (pathOf location)).ObeysFrom ⟨tree, now⟩ t (StaysLed tree) := by
  have hlaw := law_staysLed tree
  refine hlaw.bindAt (hlaw.tree _ _) fun seen hseen => ?_
  obtain rfl : tree = seen := Except.ok.inj hseen
  refine hlaw.bindAt (staysLed_watchItems hwf _ fun path hpath => ?_) fun _ _ =>
    hlaw.bind staysLed_say (fun _ => hlaw.pure _) _ _
  obtain ⟨names, hnames, rfl⟩ := exists_walkPath_of_mem_walk hwf hpath
  exact ⟨location ++ names, walkPath_pathOf hplace hnames, hplace.append hnames⟩

theorem staysLed_coverRoot (hplace : IsPlace location) :
    (coverRoot (pathOf location)).ObeysFrom ⟨tree, now⟩ t (StaysLed tree) := by
  have hlaw := law_staysLed tree
  refine hlaw.bindAt (hlaw.tree _ _) fun seen hseen => ?_
  split
  · refine hlaw.bindAt (staysLed_say _ _) fun _ _ => ?_
    refine hlaw.bindAt (staysLed_coverSubtree hwf hplace) fun _ _ =>
      hlaw.look (fun tracker => ?_) _ _
    split
    · exact hlaw.bind staysLed_retireRoot fun _ => hlaw.pure _
    · exact hlaw.pure _
  · exact hlaw.bind staysLed_say (fun _ => hlaw.bind staysLed_retireRoot fun _ => hlaw.pure _) _ _

theorem staysLed_coverRoots (hpaths : ∀ path ∈ paths, ∃ location, path = pathOf location ∧
    IsPlace location) :
    (coverRoots paths).ObeysFrom ⟨tree, now⟩ t (StaysLed tree) := by
  have hlaw := law_staysLed tree
  induction paths generalizing t with
  | nil => exact hlaw.pure 0 _ _
  | cons path rest ih =>
    obtain ⟨location, rfl, hplace⟩ := hpaths path List.mem_cons_self
    refine hlaw.bindAt (staysLed_coverRoot hwf hplace) fun _ _ => ?_
    exact hlaw.bindAt (ih fun path hpath => hpaths path (List.mem_cons_of_mem _ hpath)) fun _ _ =>
      hlaw.pure _ _ _

/-- After a rebuild in which no path was cut, every entry is led. -/
theorem led_rebuild (hroots : t.roots.Spelled) (hreset : t.source.refusesReset = false)
    (hlog : Log.Uncut (rebuild ⟨tree, now⟩ t).log) : Led tree (rebuild ⟨tree, now⟩ t).state := by
  have hlaw := law_staysLed tree
  have hcover : cover.ObeysFrom ⟨tree, now⟩ t.wiped (StaysLed tree) := by
    refine staysLed_coverRoots hwf fun path hpath => ?_
    obtain ⟨root, hroot, rfl⟩ := List.mem_map.mp hpath
    exact hroots root hroot
  have hagain : (do
      let watched ← cover
      say [.info s!"rebuilt watch cache: {watched} directories"]
      pure watched : Action Tracker Nat).ObeysFrom ⟨tree, now⟩ t.wiped (StaysLed tree) :=
    hlaw.bindFrom hcover fun _ => hlaw.bind staysLed_say fun _ => hlaw.pure _
  have hcleared : t.source.reset =
      .ok { t.source with live := [], queue := [], resets := t.source.resets + 1 } := by
    simp [Source.reset, hreset]
  unfold rebuild at hlog ⊢
  rw [bind_apply, state_apply] at hlog ⊢
  simp only [hcleared] at hlog ⊢
  exact hagain (.wiped t) (hlog.subset fun _ hline => List.mem_cons_of_mem _ hline)

end Covering

/-- An audit of entries that are all led finds directories only. -/
theorem Led.notDirectories (h : Led tree t) : (Audit.run tree t.table).notDirectories = [] := by
  rw [Audit.notDirectories_eq, List.filter_eq_nil_iff]
  intro entry hentry hfound
  obtain ⟨names, directory, hpath, hplace, hleads, -⟩ := h.leads entry hentry
  obtain ⟨object, hinspect, hobject⟩ := Audit.find_eq_otherObject_iff.mp (of_decide_eq_true hfound)
  rw [hpath] at hinspect
  obtain rfl := hleads.eq_of_inspect hplace hinspect
  exact Bool.true_eq_false.mp hobject

section Checking

theorem refusesReset_of_rebuild {watched : Nat} (h : (rebuild moment t).result = .ok watched) :
    t.source.refusesReset = false := by
  have hends : rebuild.Ends moment t (fun _ _ => t.source.refusesReset = false)
    fun _ _ => True := by
    rw [ends_rebuild]
    split
    · trivial
    · next hreset => exact .of_forall (fun _ _ => by simpa using hreset) fun _ _ => trivial
  exact hends.of_ok h

theorem notDirectories_of_check {report : Audit.Report} (hwf : moment.tree.WellFormed)
    (hroots : t.roots.Spelled) (hpolicy : t.policy.abortsOnProblem = false)
    (hcheck : (check moment t).result = .ok report)
    (hlog : (Audit.run moment.tree t.table).notDirectories ≠ [] →
      Log.Uncut (rebuild moment t).log) :
    (Audit.run moment.tree (check moment t).state.table).notDirectories = [] := by
  have hchecked := checked moment t
  by_cases hsound : (Audit.run moment.tree t.table).notDirectories = []
  · rwa [hchecked.intact (.inl hsound)]
  · obtain ⟨hresult, hstate⟩ := hchecked.rebuilds hsound hpolicy
    rw [hstate]
    cases hrebuild : (rebuild moment t).result with
    | error fault => simp [hresult, hrebuild, Except.map] at hcheck
    | ok watched =>
      exact (led_rebuild hwf hroots (refusesReset_of_rebuild hrebuild) (hlog hsound)).notDirectories

/-- An audit sorts the entries by what their paths lead to, and a check fails or rebuilds as the
policy says if some lead to something other than a directory. Where it rebuilds and ends well, and
no path was cut on the way, checks of the same tree find nothing of the kind from then on and change
nothing, even if roots lead to one directory through links by now. -/
theorem check_classifies_and_heals (moment : Moment) (t : Tracker) :
    Audit.Classifies moment.tree t.table (Audit.run moment.tree t.table) ∧
    Checked moment t (Audit.run moment.tree t.table) (check moment t) ∧
    ∀ before paths named report, before.WellFormed → Roots.ofPaths before paths = .ok named →
      named.ShrinksTo t.roots → moment.tree.WellFormed → t.policy.abortsOnProblem = false →
      (check moment t).result = .ok report →
      ((Audit.run moment.tree t.table).notDirectories ≠ [] → Log.Uncut (rebuild moment t).log) →
      ∀ later : Moment, later.tree = moment.tree →
        let healed := (check moment t).state
        (Audit.run later.tree healed.table).notDirectories = [] ∧
          check later healed = ⟨.ok (Audit.run later.tree healed.table), healed,
            Audit.lines later.tree healed.table⟩ := by
  refine ⟨Audit.run_classifies _ _, checked moment t, ?_⟩
  intro before paths named report hbefore hnamed hshrinks hwf hpolicy hcheck hlog later hlater
  have hhealed := notDirectories_of_check hwf (hshrinks.spelled hbefore hnamed) hpolicy hcheck hlog
  rw [← hlater] at hhealed
  exact ⟨hhealed, check_of_sound hhealed⟩

/-- Below `/a`, the directory `f` has become a link to the directory `x`, and `y` is gone; and `/l`,
where `/l/x` was a root, has become a link to `/a`. The check rebuilds, `/a/x` is met again as
`/l/x` and stays there, and the next check has nothing to say against that. -/
theorem check_heals_behind_link :
    let before : FileTree := ⟨[([[97]], .directory 1), ([[97], [102]], .directory 2),
      ([[97], [120]], .directory 3), ([[97], [121]], .directory 4), ([[108]], .directory 5),
      ([[108], [120]], .directory 6)], 7⟩
    let tree : FileTree := ⟨[([[97]], .directory 1), ([[97], [102]], .link ⟨[120]⟩),
      ([[97], [120]], .directory 3), ([[108]], .link ⟨[97]⟩)], 7⟩
    let named : Roots := ⟨[some ⟨pathOf [[97]], 1⟩, some ⟨pathOf [[108], [120]], 6⟩], 0⟩
    let t := outcome (ofRoots .empty named ⟨false, .rescan⟩) [(⟨before, 0⟩, .start)]
    let found := Audit.run tree t.table
    let healed := (check ⟨tree, 0⟩ t).state
    found.checked = 5 ∧ found.missing = 1 ∧
      found.notDirectories = [⟨⟨2⟩, pathOf [[97], [102]]⟩] ∧
      healed.table.entries.map (·.path) = [pathOf [[97]], pathOf [[108], [120]]] ∧
      (check ⟨tree, 1⟩ healed).result = .ok (Audit.run tree healed.table) ∧
      (check ⟨tree, 1⟩ healed).state = healed := by
  intro before tree named t found healed
  have hbefore : before.WellFormed := by decide +kernel
  have hnamed : Roots.ofPaths before [pathOf [[97]], pathOf [[108], [120]]] = .ok named := by
    decide +kernel
  have hshrinks : named.ShrinksTo t.roots := by
    rw [show t.roots = named by decide +kernel]
    exact .refl named
  have hwf : tree.WellFormed := by decide +kernel
  have hpolicy : t.policy.abortsOnProblem = false := by decide +kernel
  have hresult : (check ⟨tree, 0⟩ t).result = .ok found := by decide +kernel
  have hlog : Log.Uncut (rebuild ⟨tree, 0⟩ t).log := .of_level (by decide +kernel)
  have hfound : found.checked = 5 ∧ found.missing = 1 ∧
      found.notDirectories = [⟨⟨2⟩, pathOf [[97], [102]]⟩] := by decide +kernel
  have hplaces : healed.table.entries.map (·.path) = [pathOf [[97]], pathOf [[108], [120]]] := by
    decide +kernel
  clear_value t
  obtain ⟨-, -, hheals⟩ := check_classifies_and_heals ⟨tree, 0⟩ t
  obtain ⟨-, hcheck⟩ := hheals before _ named found hbefore hnamed hshrinks hwf hpolicy hresult
    (fun _ => hlog) ⟨tree, 1⟩ rfl
  have hresult := congrArg Reply.result hcheck
  have hstate := congrArg Reply.state hcheck
  exact ⟨hfound.1, hfound.2.1, hfound.2.2, hplaces, hresult, hstate⟩

end Checking

end Tracker

end TreeWatch
