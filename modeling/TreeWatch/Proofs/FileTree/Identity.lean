import TreeWatch.Proofs.FileTree.Resolution
import Mathlib.Data.List.Pairwise

/-!
# Identities of directories

A directory keeps its identity wherever it goes, and an identity that is gone does not come back:
what is new carries a number that was not given out before. Every change of a file tree is of this
kind.

That no two directories share one is the last thing that makes a tree well-formed, so whether it is
can be read off its list of objects.
-/

namespace TreeWatch

namespace FileTree

variable {tree next before after later : FileTree} {location source target : Location}
  {object : Object} {path : Path} {directory : DirectoryId}

/-- The identity of an object, if it is a directory. -/
def identity? : Location × Object → Option DirectoryId
  | (_, .directory directory) => some directory
  | _ => none

def directories (tree : FileTree) : List DirectoryId := rootId :: tree.objects.filterMap identity?

/-- What was given out is below the number that is given out next. -/
def Known (tree : FileTree) : Prop := ∀ directory ∈ tree.directories, directory < tree.nextId

/-- What a tree becomes when things happen in it, and no identity is ever used for a second
directory. -/
structure Evolves (before after : FileTree) : Prop where
  nextId : before.nextId ≤ after.nextId
  known : after.Known
  kept : ∀ directory ∈ after.directories, directory ∈ before.directories ∨ before.nextId ≤ directory

theorem mem_directories_iff : directory ∈ tree.directories ↔
    directory = rootId ∨ ∃ location, (location, .directory directory) ∈ tree.objects := by
  rw [directories, List.mem_cons, List.mem_filterMap]
  refine or_congr_right ⟨?_, fun ⟨location, h⟩ => ⟨_, h, rfl⟩⟩
  rintro ⟨⟨location, object⟩, hmem, hidentity⟩
  cases object with
  | directory id =>
    obtain rfl : id = directory := Option.some.inj hidentity
    exact ⟨location, hmem⟩
  | file content mode => cases hidentity
  | link target => cases hidentity

theorem mem_objects_of_get? (hne : location ≠ []) (h : tree.get? location = some object) :
    (location, object) ∈ tree.objects := by
  rw [get?_of_ne_nil tree hne] at h
  obtain ⟨front, back, hobjects, -⟩ := List.lookup_eq_some_iff.mp h
  exact hobjects ▸ List.mem_append_right front List.mem_cons_self

theorem mem_directories_of_get? (h : tree.get? location = some (.directory directory)) :
    directory ∈ tree.directories := by
  rw [mem_directories_iff]
  cases location with
  | nil => exact .inl (Object.directory.inj (Option.some.inj h)).symm
  | cons name rest => exact .inr ⟨_, mem_objects_of_get? (List.cons_ne_nil name rest) h⟩

theorem mem_directories_of_inspect (h : tree.inspect path = .ok (.directory directory)) :
    directory ∈ tree.directories := by
  obtain ⟨location, hfind⟩ := inspect_eq_ok_iff.mp h
  exact mem_directories_of_get? (get?_of_find hfind)

namespace Evolves

theorem refl (h : tree.Known) : tree.Evolves tree := ⟨Nat.le_refl _, h, fun _ => .inl⟩

theorem trans (h : before.Evolves after) (h' : after.Evolves later) : before.Evolves later where
  nextId := Nat.le_trans h.nextId h'.nextId
  known := h'.known
  kept directory hmem :=
    (h'.kept directory hmem).elim (h.kept directory) fun hle => .inr (Nat.le_trans h.nextId hle)

theorem of_subset (h : tree.Known) (hnextId : next.nextId = tree.nextId)
    (hsubset : next.directories ⊆ tree.directories) : tree.Evolves next :=
  ⟨Nat.le_of_eq hnextId.symm, fun directory hmem => hnextId ▸ h directory (hsubset hmem),
    fun _ hmem => .inl (hsubset hmem)⟩

theorem of_objects (h : tree.Known) (hnextId : next.nextId = tree.nextId)
    (hobjects : ∀ {location directory}, (location, .directory directory) ∈ next.objects →
      ∃ location, (location, .directory directory) ∈ tree.objects) : tree.Evolves next := by
  refine of_subset h hnextId fun directory hmem => ?_
  rw [mem_directories_iff] at hmem ⊢
  exact hmem.imp_right fun ⟨_, hmem⟩ => hobjects hmem

theorem put (h : tree.Known) (hobject : object.isDirectory = false) :
    tree.Evolves (tree.put location object) := by
  refine of_objects h rfl fun {place directory} hmem => ?_
  rcases mem_insertSorted hmem with heq | hmem
  · obtain rfl := (Prod.mk.inj heq).2
    cases hobject
  · exact ⟨place, hmem⟩

theorem putDirectory (h : tree.Known) : tree.Evolves (tree.putDirectory location) := by
  have hor : ∀ directory ∈ (tree.putDirectory location).directories,
      directory ∈ tree.directories ∨ directory = tree.nextId := by
    intro directory hmem
    rw [mem_directories_iff] at hmem ⊢
    rcases hmem with hroot | ⟨place, hmem⟩
    · exact .inl (.inl hroot)
    · rcases mem_insertSorted hmem with heq | hmem
      · exact .inr (Object.directory.inj (Prod.mk.inj heq).2)
      · exact .inl (.inr ⟨place, hmem⟩)
  exact ⟨Nat.le_succ _,
    fun directory hmem => (hor directory hmem).elim (fun hold =>
      Nat.lt_succ_of_lt (h directory hold))
      fun hnew => hnew ▸ Nat.lt_succ_self _,
    fun directory hmem => (hor directory hmem).imp_right fun hnew => Nat.le_of_eq hnew.symm⟩

theorem erase (h : tree.Known) : tree.Evolves (tree.erase location) :=
  of_objects h rfl fun hmem => ⟨_, List.mem_of_mem_filter hmem⟩

theorem relocate (h : tree.Known) : tree.Evolves (tree.relocate source target) := by
  have hmoved : ∀ (moved : List (Location × Object)) (kept : FileTree),
      (∀ entry ∈ moved, entry ∈ tree.objects) →
      (∀ entry ∈ kept.objects, ∃ location, (location, entry.2) ∈ tree.objects) →
      let next := moved.foldl
        (fun tree entry => tree.put (target ++ entry.1.drop source.length) entry.2) kept
      next.nextId = kept.nextId ∧ ∀ entry ∈ next.objects, ∃ location,
          (location, entry.2) ∈ tree.objects := by
    intro moved
    induction moved with
    | nil => exact fun kept _ hkept => ⟨rfl, hkept⟩
    | cons head rest ih =>
      intro kept hall hkept
      refine ih (kept.put _ head.2) (fun entry hentry =>
        hall entry (List.mem_cons_of_mem _ hentry)) ?_
      intro entry hentry
      rcases mem_insertSorted hentry with rfl | hentry
      · exact ⟨head.1, hall head List.mem_cons_self⟩
      · exact hkept entry hentry
  obtain ⟨hnextId, hobjects⟩ := hmoved (tree.objects.filter fun entry => source.isPrefixOf entry.1)
    (tree.erase source) (fun _ => List.mem_of_mem_filter)
    fun entry hentry => ⟨entry.1, List.mem_of_mem_filter hentry⟩
  exact of_objects h hnextId fun hmem => hobjects _ hmem

theorem makeDirectory (h : tree.Known) (hnext : tree.makeDirectory path = .ok next) :
    tree.Evolves next := by
  unfold FileTree.makeDirectory at hnext
  split at hnext
  · cases hnext
    exact putDirectory h
  · cases hnext
  · split at hnext <;> cases hnext

theorem orExisting {made : Except IoError FileTree} (h : tree.Known)
    (hmade : ∀ next, made = .ok next → tree.Evolves next)
    (hnext : tree.orExisting path made = .ok next) :
    tree.Evolves next := by
  unfold FileTree.orExisting at hnext
  split at hnext
  · exact hmade _ (congrArg _ (Except.ok.inj hnext))
  · split at hnext
    · cases hnext
      exact refl h
    · cases hnext

theorem makeOutward {paths : List Path} (h : tree.Known)
    (hnext : tree.makeOutward paths = .ok next) :
    tree.Evolves next := by
  induction paths generalizing next with
  | nil =>
    cases hnext
    exact refl h
  | cons path above ih =>
    unfold FileTree.makeOutward at hnext
    split at hnext
    · cases habove : tree.makeOutward above with
      | error error => simp [habove, bind, Except.bind] at hnext
      | ok outer =>
        rw [habove] at hnext
        have houter := ih habove
        exact houter.trans (orExisting houter.known (fun _ => makeDirectory houter.known) hnext)
    · exact orExisting h (fun _ => makeDirectory h) hnext

theorem writeFile {content : Bytes} {mode : Nat} (h : tree.Known)
    (hnext : tree.writeFile path content mode = .ok next) : tree.Evolves next := by
  unfold FileTree.writeFile at hnext
  split at hnext
  · split at hnext
    · cases hnext
    · split at hnext <;> cases hnext
  · split at hnext
    · cases hnext
    · cases hnext
      exact put h rfl
    · cases hnext
    · cases hnext
      exact put h rfl

/-- Whatever change is made, no identity comes back. -/
theorem changed? {change : Change} (h : tree.Known) (hnext : tree.changed? change = some next) :
    tree.Evolves next := by
  have hok {made : Except IoError FileTree} (hmade : made.toOption = some next) :
      made = .ok next := by
    cases made with
    | error error => cases hmade
    | ok made => exact congrArg _ (Option.some.inj hmade)
  cases change with
  | directory path => exact makeOutward h (hok hnext)
  | file path content => exact writeFile h (hok hnext)
  | link path target =>
    simp only [FileTree.changed?] at hnext
    split at hnext
    · cases hnext
      exact put h rfl
    · cases hnext
  | move source target =>
    simp only [FileTree.changed?] at hnext
    split at hnext
    · split at hnext
      · cases hnext
      · cases hnext
        exact relocate h
    · cases hnext
  | remove path =>
    simp only [FileTree.changed?] at hnext
    split at hnext
    · split at hnext
      · cases hnext
      · cases hnext
        exact erase h
    · cases hnext

theorem applyAll (changes : List Change) (h : tree.Known) :
    tree.Evolves (tree.applyAll changes).1 := by
  induction changes generalizing tree with
  | nil => exact refl h
  | cons change rest ih =>
    unfold FileTree.applyAll
    split
    · next next hnext =>
      have hchanged := changed? h hnext
      exact hchanged.trans (ih hchanged.known)
    · exact ih h

end Evolves

section Deciding

variable {entry other : Location × Object}

theorem identity?_eq_some : identity? entry = some directory ↔ entry.2 = .directory directory := by
  obtain ⟨location, object⟩ := entry
  cases object <;> simp [identity?]

theorem nodup_filterMap_identity?_iff {objects : List (Location × Object)} :
    (objects.filterMap identity?).Nodup ↔
      objects.Pairwise fun first second => ∀ directory, first.2 = .directory directory →
        second.2 ≠ .directory directory := by
  rw [List.Nodup, List.pairwise_filterMap]
  apply List.Pairwise.iff
  intro first second
  simp only [identity?_eq_some]
  constructor
  · exact fun h directory hfirst hsecond => h directory hfirst directory hsecond rfl
  · rintro h directory hfirst _ hsecond rfl
    exact h directory hfirst hsecond

theorem nodup_directories (h : tree.WellFormed) : tree.directories.Nodup := by
  have hget {entry : Location × Object} (hentry : entry ∈ tree.objects) :
      tree.get? entry.1 = some entry.2 := (h.mem_objects_iff.mp hentry).2
  refine List.nodup_cons.mpr ⟨fun hroot => ?_, ?_⟩
  · obtain ⟨entry, hentry, hidentity⟩ := List.mem_filterMap.mp hroot
    have hdirectory := (hget hentry).trans (congrArg some (identity?_eq_some.mp hidentity))
    exact h.nonroot entry hentry (h.unique hdirectory (get?_nil tree))
  · refine nodup_filterMap_identity?_iff.mpr (h.sorted.imp_of_mem ?_)
    intro first second hfirst hsecond hlt directory hone htwo
    have hplace := h.unique ((hget hfirst).trans (congrArg some hone))
      ((hget hsecond).trans (congrArg some htwo))
    exact List.lt_irrefl _ (hplace ▸ hlt)

theorem eq_of_nodup_directories (h : tree.directories.Nodup)
    (hsource : tree.get? source = some (.directory directory))
    (htarget : tree.get? target = some (.directory directory)) : source = target := by
  obtain ⟨hroot, hobjects⟩ := List.nodup_cons.mp h
  have hnil {location : Location} (hget : tree.get? location = some (.directory rootId)) :
      location = [] := by
    by_contra hne
    exact hroot (List.mem_filterMap.mpr ⟨_, mem_objects_of_get? hne hget, rfl⟩)
  by_cases hempty : source = [] ∨ target = []
  · have hrootId : directory = rootId := by
      rcases hempty with rfl | rfl
      · exact (Object.directory.inj (Option.some.inj hsource)).symm
      · exact (Object.directory.inj (Option.some.inj htarget)).symm
    subst hrootId
    rw [hnil hsource, hnil htarget]
  · rw [not_or] at hempty
    by_contra hne
    have hsymm : Std.Symm fun first second : Location × Object =>
        ∀ directory, first.2 = .directory directory → second.2 ≠ .directory directory :=
      ⟨fun _ _ h directory hsecond hfirst => h directory hfirst hsecond⟩
    have hdistinct := (nodup_filterMap_identity?_iff.mp hobjects).forall
      (mem_objects_of_get? hempty.1 hsource) (mem_objects_of_get? hempty.2 htarget)
    exact hdistinct (fun heq => hne (congrArg Prod.fst heq)) directory rfl rfl

/-- Everything in a tree has its place if its list of objects shows that. -/
theorem wellFormed_iff : tree.WellFormed ↔
    tree.objects.Pairwise (·.1 < ·.1) ∧ tree.Known ∧ tree.directories.Nodup ∧
      ∀ entry ∈ tree.objects, entry.1 ≠ [] ∧ IsPlace entry.1 ∧
        ∃ directory ∈ tree.directories,
          tree.get? entry.1.dropLast = some (.directory directory) := by
  constructor
  · intro h
    refine ⟨h.sorted, fun directory hmem => ?_, nodup_directories h, fun entry hentry => ?_⟩
    · rcases mem_directories_iff.mp hmem with rfl | ⟨location, hlocation⟩
      · exact h.known (get?_nil tree)
      · exact h.known (h.mem_objects_iff.mp hlocation).2
    · have hget := (h.mem_objects_iff.mp hentry).2
      have hne := h.nonroot entry hentry
      have hsplit := List.dropLast_append_getLast hne
      obtain ⟨directory, hparent⟩ := h.parent (hsplit ▸ hget)
      exact ⟨hne, h.isPlace hget, directory, mem_directories_of_get? hparent, hparent⟩
  · rintro ⟨hsorted, hknown, hnodup, hentries⟩
    constructor
    case sorted => exact hsorted
    case nonroot => exact fun entry hentry => (hentries entry hentry).1
    case isPlace =>
      intro location object hget
      by_cases hne : location = []
      · exact hne ▸ .nil
      · exact (hentries _ (mem_objects_of_get? hne hget)).2.1
    case parent =>
      intro location name object hget
      obtain ⟨-, -, directory, -, hparent⟩ := hentries _ (mem_objects_of_get? (by simp) hget)
      rw [List.dropLast_concat] at hparent
      exact ⟨directory, hparent⟩
    case known => exact fun hget => hknown _ (mem_directories_of_get? hget)
    case unique => exact eq_of_nodup_directories hnodup

instance (tree : FileTree) : Decidable tree.Known :=
  inferInstanceAs (Decidable (∀ directory ∈ tree.directories, directory < tree.nextId))

instance (tree : FileTree) : Decidable tree.WellFormed := decidable_of_iff' _ wellFormed_iff

end Deciding

end FileTree

end TreeWatch
