import Mathlib.Data.List.Pairwise
import TreeWatch.Proofs.FileTree.Identity
import TreeWatch.Proofs.FileTree.Survey
import TreeWatch.Proofs.Roots.Nesting

/-!
# Which paths make roots

Paths make roots if they lead to directories and no two of them to the same one; they may be
relative, have dots and lead through links. The root of a path then has a path on which there is
nothing of this. Other paths are refused, for the first of them that is at fault.

Following a path once for the directory and once for its place comes to the same directory, and so
different directories are all that different paths need.
-/

namespace TreeWatch

namespace FileTree

variable {tree : FileTree} {location : Location} {path : Path} {directory : DirectoryId}
  {object : Object}

theorem find_followLast (h : tree.find false path = .ok (location, .directory directory)) :
    tree.find true path = .ok (location, .directory directory) := by
  rw [find_eq_ok_iff] at h ⊢
  exact ⟨h.1, h.2.1, h.2.2.1, follow_of_undotted rfl h.2.2.2⟩

end FileTree

open FileTree

namespace Roots

variable {tree : FileTree} {roots : Roots} {root : Root} {known : List Root} {path : Path}
  {paths front more back : List Path} {error : RootError}

/-- Paths that lead to directories, no two of them to the same one. -/
structure Admissible (tree : FileTree) (paths : List Path) : Prop where
  directory : ∀ path ∈ paths, ∃ directory canonical,
    tree.inspectTarget path = .ok (.directory directory) ∧ tree.canonical path = .ok canonical
  distinct : paths.Pairwise fun first second => tree.inspectTarget first ≠ tree.inspectTarget second

/-- Why a path is refused after the paths of `front` have been taken. -/
inductive Fault (tree : FileTree) (front : List Path) (path : Path) : RootError → Prop where
  | notFound (h : tree.inspectTarget path = .error .noEntry) : Fault tree front path
      (.notFound path)
  | cannotInspect {error : IoError} (h : tree.inspectTarget path = .error error)
      (hentry : error ≠ .noEntry) : Fault tree front path (.cannotInspect path error)
  | notADirectory {object : Object} (h : tree.inspectTarget path = .ok object)
      (hobject : object.isDirectory = false) : Fault tree front path (.notADirectory path)
  | noCanonical {directory : DirectoryId} {error : IoError}
      (h : tree.inspectTarget path = .ok (.directory directory))
      (hcanonical : tree.canonical path = .error error) : Fault tree front path
        (.cannotInspect path error)
  | duplicate {first canonical named : Path} {directory : DirectoryId}
      (h : tree.inspectTarget path = .ok (.directory directory))
      (hcanonical : tree.canonical path = .ok canonical) (hfirst : first ∈ front)
      (hsame : tree.inspectTarget first = .ok (.directory directory))
      (hnamed : tree.canonical first = .ok named) : Fault tree front path (.duplicate named path)

theorem admissible_nil : Admissible tree [] := ⟨by simp, .nil⟩

/-! ## One path after others -/

theorem identify_eq_ok_iff : identify tree path = .ok root ↔
    tree.inspectTarget path = .ok (.directory root.directory) ∧
    tree.canonical path = .ok root.path := by
  obtain ⟨canonical, directory⟩ := root
  unfold identify
  cases hinspect : tree.inspectTarget path with
  | error error => cases error <;> simp
  | ok object =>
    cases object with
    | directory id => cases hcanonical : tree.canonical path <;> simp [and_comm]
    | file content mode => simp
    | link target => simp

theorem Admissible.concat_or (h : Admissible tree front) (path : Path) :
    Admissible tree (front ++ [path]) ∨ ∃ error, Fault tree front path error := by
  cases hinspect : tree.inspectTarget path with
  | error error =>
    by_cases hentry : error = .noEntry
    · exact .inr ⟨_, .notFound (hentry ▸ hinspect)⟩
    · exact .inr ⟨_, .cannotInspect hinspect hentry⟩
  | ok object =>
    cases object with
    | file content mode => exact .inr ⟨_, .notADirectory hinspect rfl⟩
    | link target => exact .inr ⟨_, .notADirectory hinspect rfl⟩
    | directory id =>
      cases hcanonical : tree.canonical path with
      | error error => exact .inr ⟨_, .noCanonical hinspect hcanonical⟩
      | ok canonical =>
        by_cases hdup : ∃ first ∈ front, tree.inspectTarget first = .ok (.directory id)
        · obtain ⟨first, hfirst, hsame⟩ := hdup
          obtain ⟨_, named, -, hnamed⟩ := h.directory first hfirst
          exact .inr ⟨_, .duplicate hinspect hcanonical hfirst hsame hnamed⟩
        · refine .inl ⟨fun other hother => ?_, List.pairwise_append.mpr ⟨h.distinct, by simp, ?_⟩⟩
          · rcases List.mem_append.mp hother with hother | hother
            · exact h.directory other hother
            · obtain rfl := List.mem_singleton.mp hother
              exact ⟨id, canonical, hinspect, hcanonical⟩
          · intro first hfirst other hother heq
            obtain rfl := List.mem_singleton.mp hother
            exact hdup ⟨first, hfirst, heq.trans hinspect⟩

/-- All paths may be taken, or there is a first one that is at fault. -/
theorem Admissible.append_or (h : Admissible tree front) (paths : List Path) :
    Admissible tree (front ++ paths) ∨ ∃ more path back error, paths = more ++ path :: back ∧
      Admissible tree (front ++ more) ∧ Fault tree (front ++ more) path error := by
  induction paths generalizing front with
  | nil => exact .inl (by rwa [List.append_nil])
  | cons path rest ih =>
    rcases h.concat_or path with hpath | ⟨error, hfault⟩
    · rcases ih hpath with hrest | ⟨more, other, back, error, rfl, hmore, hfault⟩
      · exact .inl (by simpa using hrest)
      · exact .inr ⟨path :: more, other, back, error, rfl, by simpa using hmore,
          by simpa using hfault⟩
    · exact .inr ⟨[], path, rest, error, rfl, by rwa [List.append_nil], by rwa [List.append_nil]⟩

/-- The roots of paths that were taken. -/
def Taken (tree : FileTree) (front : List Path) (known : List Root) : Prop :=
  List.Forall₂ (fun path root => identify tree path = .ok root) front known

theorem exists_of_mem_forall₂ {α β : Type} {R : α → β → Prop} {as : List α} {bs : List β} {a : α}
    (h : List.Forall₂ R as bs) (ha : a ∈ as) : ∃ b ∈ bs, R a b := by
  induction h with
  | nil => simp at ha
  | cons hrel _ ih =>
    rcases List.mem_cons.mp ha with rfl | ha
    · exact ⟨_, List.mem_cons_self, hrel⟩
    · obtain ⟨b, hb, hrel⟩ := ih ha
      exact ⟨b, List.mem_cons_of_mem _ hb, hrel⟩

theorem Taken.exists_path (h : Taken tree front known) (hroot : root ∈ known) :
    ∃ path ∈ front, identify tree path = .ok root :=
  exists_of_mem_forall₂ (List.Forall₂.flip h) hroot

theorem enroll_append (hknown : Taken tree front known) (h : Admissible tree (front ++ more)) :
    ∃ added, Taken tree more added ∧
      ∀ back, enroll tree known (more ++ back) = enroll tree (known ++ added) back := by
  induction more generalizing front known with
  | nil => exact ⟨[], .nil, by simp⟩
  | cons path rest ih =>
    obtain ⟨directory, canonical, hinspect, hcanonical⟩ := h.directory path (by simp)
    have hidentify : identify tree path = .ok ⟨canonical, directory⟩ :=
      identify_eq_ok_iff.mpr ⟨hinspect, hcanonical⟩
    have hfresh : known.find? (·.directory == directory) = none := by
      refine List.find?_eq_none.mpr fun root hroot hsame => ?_
      obtain ⟨first, hfirst, hfirstIdentify⟩ := hknown.exists_path hroot
      have hdiffers := (List.pairwise_append.mp h.distinct).2.2 first hfirst path (by simp)
      obtain rfl : root.directory = directory := by simpa using hsame
      exact hdiffers ((identify_eq_ok_iff.mp hfirstIdentify).1.trans hinspect.symm)
    obtain ⟨added, hadded, henroll⟩ :=
      ih (List.rel_append hknown (.cons hidentify .nil)) (by simpa using h)
    refine ⟨⟨canonical, directory⟩ :: added, .cons hidentify hadded, fun back => ?_⟩
    rw [List.cons_append, enroll, hidentify]
    simp only [hfresh]
    rw [henroll, List.append_assoc, List.singleton_append]

theorem enroll_of_fault (hknown : Taken tree front known) (h : Admissible tree front)
    (hfault : Fault tree front path error) (back : List Path) :
    enroll tree known (path :: back) = (known, some error) := by
  cases hfault with
  | notFound hinspect => simp [enroll, identify, hinspect]
  | cannotInspect hinspect hentry => simp [enroll, identify, hinspect]
  | @notADirectory object hinspect hobject =>
    cases object with
    | directory id => cases hobject
    | file content mode => simp [enroll, identify, hinspect]
    | link target => simp [enroll, identify, hinspect]
  | noCanonical hinspect hcanonical => simp [enroll, identify, hinspect, hcanonical]
  | @duplicate first canonical named directory hinspect hcanonical hfirst hsame hnamed =>
    obtain ⟨root, hroot, hidentify⟩ := exists_of_mem_forall₂ hknown hfirst
    obtain ⟨hinspectFirst, hcanonicalFirst⟩ := identify_eq_ok_iff.mp hidentify
    have hdirectory : root.directory = directory :=
      Object.directory.inj (Except.ok.inj (hinspectFirst.symm.trans hsame))
    have hsome : (known.find? (·.directory == directory)).isSome :=
      List.find?_isSome.mpr ⟨root, hroot, by simpa using hdirectory⟩
    obtain ⟨found, hfound⟩ := Option.isSome_iff_exists.mp hsome
    have hmem := List.mem_of_find?_eq_some hfound
    have hfoundDirectory : found.directory = directory := by simpa using List.find?_some hfound
    -- Only one of the paths that were taken leads to the directory.
    obtain ⟨other, hother, hotherIdentify⟩ := hknown.exists_path hmem
    obtain ⟨hotherInspect, hotherCanonical⟩ := identify_eq_ok_iff.mp hotherIdentify
    rw [hfoundDirectory] at hotherInspect
    obtain rfl : other = first := by
      by_contra hne
      have : Std.Symm fun a b : Path => tree.inspectTarget a ≠ tree.inspectTarget b :=
        ⟨fun _ _ => Ne.symm⟩
      exact h.distinct.forall hother hfirst hne (hotherInspect.trans hsame.symm)
    have hnames : found.path = named := Except.ok.inj (hotherCanonical.symm.trans hnamed)
    simp [enroll, identify, hinspect, hcanonical, hfound, hnames]

/-! ## All paths -/

theorem ofPaths_of_admissible (hne : paths ≠ []) (h : Admissible tree paths) :
    ∃ known, Taken tree paths known ∧ ofPaths tree paths = .ok ⟨known.map some, 0⟩ := by
  obtain ⟨known, hknown, henroll⟩ := enroll_append (.nil : Taken tree [] []) h
  have hall := henroll []
  rw [List.append_nil, List.nil_append, enroll] at hall
  exact ⟨known, hknown, by simp [ofPaths, hne, hall]⟩

theorem ofPaths_of_fault (h : Admissible tree front) (hfault : Fault tree front path error)
    (back : List Path) :
    ofPaths tree (front ++ path :: back) = .error error := by
  obtain ⟨known, hknown, henroll⟩ := enroll_append (.nil : Taken tree [] []) h
  have hall := henroll (path :: back)
  rw [List.nil_append, enroll_of_fault hknown h hfault back] at hall
  simp [ofPaths, hall]

/-- There are no paths, or all may be taken, or one is the first at fault. -/
theorem admissible_cases (tree : FileTree) (paths : List Path) :
    paths = [] ∨ paths ≠ [] ∧ Admissible tree paths ∨ ∃ front path back error,
      paths = front ++ path :: back ∧
      Admissible tree front ∧ Fault tree front path error := by
  by_cases hne : paths = []
  · exact .inl hne
  · exact .inr ((admissible_nil.append_or paths).imp (⟨hne, ·⟩) id)

theorem ofPaths_eq_ok_iff :
    (∃ roots, ofPaths tree paths = .ok roots) ↔ paths ≠ [] ∧ Admissible tree paths := by
  constructor
  · rintro ⟨roots, hroots⟩
    rcases admissible_cases tree paths with rfl | hadmissible | ⟨front, path, back, error, rfl,
      hfront, hfault⟩
    · cases hroots
    · exact hadmissible
    · cases hroots.symm.trans (ofPaths_of_fault hfront hfault back)
  · rintro ⟨hne, hadmissible⟩
    obtain ⟨known, -, hroots⟩ := ofPaths_of_admissible hne hadmissible
    exact ⟨_, hroots⟩

theorem ofPaths_eq_error_iff : ofPaths tree paths = .error error ↔ paths = [] ∧ error = .empty ∨
    ∃ front path back, paths = front ++ path :: back ∧ Admissible tree front ∧
      Fault tree front path error := by
  constructor
  · intro herror
    rcases admissible_cases tree paths with
      rfl | ⟨hne, hadmissible⟩ | ⟨front, path, back, first, rfl, hfront, hfault⟩
    · cases herror
      exact .inl ⟨rfl, rfl⟩
    · obtain ⟨known, -, hroots⟩ := ofPaths_of_admissible hne hadmissible
      cases herror.symm.trans hroots
    · cases herror.symm.trans (ofPaths_of_fault hfront hfault back)
      exact .inr ⟨front, path, back, rfl, hfront, hfault⟩
  · rintro (⟨rfl, rfl⟩ | ⟨front, path, back, rfl, hfront, hfault⟩)
    · rfl
    · exact ofPaths_of_fault hfront hfault back

/-- A root stands for a path: it is the directory that the path leads to, and from the root of the
tree to it there are only directories. -/
structure StandsFor (tree : FileTree) (path : Path) (root : Root) : Prop where
  canonical : tree.canonical path = .ok root.path
  argument : tree.inspectTarget path = .ok (.directory root.directory)
  target : tree.inspectTarget root.path = .ok (.directory root.directory)
  absolute : root.path.isAbsolute = true
  noDots : ∀ segment ∈ root.path.segments, segment ≠ dot ∧ segment ≠ dotDot
  noLinks : ∃ location, root.path = pathOf location ∧
    ∀ above, above <+: location → ∃ directory, tree.get? above = some (.directory directory)

theorem standsFor_of_identify (hwf : tree.WellFormed) (h : identify tree path = .ok root) :
    StandsFor tree path root := by
  obtain ⟨hargument, hcanonical⟩ := identify_eq_ok_iff.mp h
  obtain ⟨location, object, hfind, hshort, hpath⟩ := canonical_eq_ok_iff.mp hcanonical
  obtain ⟨other, hother⟩ := inspectTarget_eq_ok_iff.mp hargument
  cases hfind.symm.trans hother
  have hget := get?_of_find hfind
  have hplace := hwf.isPlace hget
  have hfound := find_followLast (find_pathOf_of_get? hwf hshort hget)
  refine ⟨hcanonical, hargument, ?_, hpath ▸ isAbsolute_pathOf location, ?_, location, hpath, ?_⟩
  · rw [hpath]
    exact inspectTarget_eq_ok_iff.mpr ⟨location, hfound⟩
  · intro segment hsegment
    rw [hpath, segments_pathOf hplace] at hsegment
    rcases List.mem_cons.mp hsegment with rfl | hsegment
    · decide
    · split at hsegment
      · obtain rfl := List.mem_singleton.mp hsegment
        decide
      · exact ⟨(hplace segment hsegment).ne_dot, (hplace segment hsegment).ne_dotDot⟩
  · rintro above ⟨below, rfl⟩
    exact hwf.exists_directory_above hget

/-- Roots whose paths differ are found under their paths, each at its own place. -/
theorem locate?_of_distinct (h : known.Pairwise fun a b => a.path.same b.path = false) {i : Nat}
    (hi : known[i]? = some root) : (⟨known.map some, 0⟩ : Roots).locate? root.path = some i := by
  obtain ⟨hlt, rfl⟩ := List.getElem?_eq_some_iff.mp hi
  refine List.findIdx?_eq_some_iff_getElem.mpr ⟨by simpa using hlt, by simp, fun j hj => ?_⟩
  have hdiffers := List.pairwise_iff_getElem.mp h j i (Nat.lt_trans hj hlt) hlt hj
  simpa using hdiffers

/-- Paths make roots exactly if there are some, all lead to directories and no two to the same one.
Then each has its root, in their order, and the root is found under its path. Otherwise the first
path at fault says what is wrong. -/
theorem ofPaths_takes_distinct_directories (hwf : tree.WellFormed) (paths : List Path) :
    ((∃ roots, ofPaths tree paths = .ok roots) ↔ paths ≠ [] ∧ Admissible tree paths) ∧
    (∀ roots, ofPaths tree paths = .ok roots →
      roots.places.length = paths.length ∧
      (∀ i path, paths[i]? = some path → ∃ root, roots.places[i]? = some (some root) ∧
        StandsFor tree path root ∧ roots.locate? root.path = some i) ∧
      roots.live.Pairwise fun a b => a.path.same b.path = false) ∧
    ∀ error, ofPaths tree paths = .error error ↔ paths = [] ∧ error = .empty ∨
      ∃ front path back, paths = front ++ path :: back ∧ Admissible tree front ∧
        Fault tree front path error := by
  refine ⟨ofPaths_eq_ok_iff, fun roots hroots => ?_, fun error => ofPaths_eq_error_iff⟩
  have hdistinct := (proper_of_ofPaths hwf hroots).distinct
  obtain ⟨hne, hadmissible⟩ := ofPaths_eq_ok_iff.mp ⟨roots, hroots⟩
  obtain ⟨known, hknown, hknownRoots⟩ := ofPaths_of_admissible hne hadmissible
  cases hroots.symm.trans hknownRoots
  have hlive : (⟨known.map some, 0⟩ : Roots).live = known := by simp [live, List.filterMap_map]
  rw [hlive] at hdistinct ⊢
  obtain ⟨hlength, heach⟩ := List.forall₂_iff_get.mp hknown
  refine ⟨by simpa using hlength.symm, fun i path hpath => ?_, hdistinct⟩
  obtain ⟨hi, rfl⟩ := List.getElem?_eq_some_iff.mp hpath
  have hi' : i < known.length := hlength ▸ hi
  have hroot : known[i]? = some known[i] := List.getElem?_eq_getElem hi'
  exact ⟨known[i], by simp [hroot], standsFor_of_identify hwf (heach i hi hi'),
    locate?_of_distinct hdistinct hroot⟩

/-- The link `/l` leads to the directory `/r`. With `s` behind it the link is taken for that
directory; taken after `r` it is refused, and the fault names `/r`. -/
theorem aliased_path_is_refused :
    let tree : FileTree :=
      ⟨[([[108]], .link ⟨[114]⟩), ([[114]], .directory 1), ([[115]], .directory 2)], 3⟩
    tree.WellFormed ∧
      (∃ roots, ofPaths tree [⟨[47, 108]⟩, ⟨[115]⟩] = .ok roots ∧
        roots.locate? (pathOf [[114]]) = some 0 ∧ roots.locate? (pathOf [[115]]) = some 1) ∧
      ofPaths tree [⟨[114]⟩, ⟨[47, 108]⟩, ⟨[120]⟩] =
          .error (.duplicate ⟨[47, 114]⟩ ⟨[47, 108]⟩) := by
  intro tree
  have hwf : tree.WellFormed := by decide
  have hboth : Admissible tree [⟨[47, 108]⟩, ⟨[115]⟩] := by
    have hlink : tree.inspectTarget ⟨[47, 108]⟩ = .ok (.directory 1) := rfl
    have hother : tree.inspectTarget ⟨[115]⟩ = .ok (.directory 2) := rfl
    constructor
    · simpa using ⟨⟨⟨1, hlink⟩, _, rfl⟩, ⟨2, hother⟩, _, rfl⟩
    · exact List.pairwise_pair.mpr (by simp [hlink, hother])
  have hfront : Admissible tree [⟨[114]⟩] := ⟨by simpa using ⟨⟨1, rfl⟩, _, rfl⟩, by simp⟩
  have hfault : Fault tree [⟨[114]⟩] ⟨[47, 108]⟩ (.duplicate ⟨[47, 114]⟩ ⟨[47, 108]⟩) :=
    .duplicate rfl rfl (List.mem_singleton_self _) rfl rfl
  obtain ⟨roots, hroots⟩ :=
    (ofPaths_takes_distinct_directories hwf _).1.mpr ⟨List.cons_ne_nil _ _, hboth⟩
  obtain ⟨-, heach, -⟩ := (ofPaths_takes_distinct_directories hwf _).2.1 roots hroots
  obtain ⟨first, -, hfirst, hlocated⟩ := heach 0 _ rfl
  obtain ⟨second, -, hsecond, hlocated'⟩ := heach 1 _ rfl
  have hnames : first.path = pathOf [[114]] := Except.ok.inj (hfirst.canonical.symm.trans rfl)
  have hnames' : second.path = pathOf [[115]] := Except.ok.inj (hsecond.canonical.symm.trans rfl)
  refine ⟨hwf, ⟨roots, hroots, hnames ▸ hlocated, hnames' ▸ hlocated'⟩, ?_⟩
  exact ((ofPaths_takes_distinct_directories hwf _).2.2 _).mpr
    (.inr ⟨[⟨[114]⟩], ⟨[47, 108]⟩, [⟨[120]⟩], rfl, hfront, hfault⟩)

end Roots

end TreeWatch
