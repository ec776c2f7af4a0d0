import TreeWatch.Proofs.FileTree.Writing
import TreeWatch.Proofs.Settings.Documents
import TreeWatch.Settings.Load

/-!
# Settings and their file

Settings that are written to a file are loaded from it as they were. Whatever file settings are
loaded from, they are in range, and each key has the value that the file gives it or the default.
-/

namespace TreeWatch

namespace Settings

variable {tree next : FileTree} {path : Path} {settings : Settings} {text : List Char} {mode : Nat}

/-- What the file at a path says of settings: the document in it gives all their values. If there is
no file, all keys have their defaults. -/
def AreInFile (tree : FileTree) (path : Path) (settings : Settings) : Prop :=
  if tree.holds path = true then
    ∃ text contents, tree.readText path = .ok text ∧ Toml.read? text = some contents ∧
      ∀ key, Gives contents key (settings.get key)
  else settings = default

theorem ofDocument?_eq_some_iff : ofDocument? text = some settings ↔
    ∃ contents, Toml.read? text = some contents ∧ ∀ key, Gives contents key (settings.get key) := by
  unfold ofDocument?
  rw [Option.bind_eq_bind, Option.bind_eq_some_iff]
  exact exists_congr fun contents => and_congr_right fun _ => ofContents?_eq_some_iff

/-- Settings are loaded exactly if they are in the file and in range. -/
theorem load_eq_ok_iff : load tree path = .ok settings ↔
    AreInFile tree path settings ∧ settings.rangeError? = none := by
  unfold load AreInFile
  cases hholds : tree.holds path with
  | false =>
    simp only [Bool.not_false, if_true, Bool.false_eq_true, if_false, Except.ok.injEq]
    constructor
    · rintro rfl
      exact ⟨rfl, by decide⟩
    · exact fun h => h.1.symm
  | true =>
    simp only [Bool.not_true, Bool.false_eq_true, if_false, if_true]
    cases htext : tree.readText path with
    | error error => simp
    | ok text =>
      simp only [Except.ok.injEq, exists_and_left, exists_eq_left', ← ofDocument?_eq_some_iff]
      cases hsettings : ofDocument? text with
      | none => simp
      | some found =>
        constructor
        · intro h
          cases hrange : found.rangeError? with
          | none =>
            simp only [hrange, Except.ok.injEq] at h
            exact h ▸ ⟨rfl, hrange⟩
          | some error => simp [hrange] at h
        · rintro ⟨hfound, hrange⟩
          obtain rfl := Option.some.inj hfound
          simp [hrange]

theorem readText_of_writeFile (h : tree.writeFile path (Utf8.encode text) mode = .ok next) :
    next.holds path = true ∧ next.readText path = .ok text := by
  obtain ⟨location, mode, hfind⟩ := FileTree.exists_find_of_writeFile h
  constructor
  · rw [FileTree.holds, hfind]
    rfl
  · have htarget : next.inspectTarget path = .ok (.file (Utf8.encode text) mode) := by
      rw [FileTree.inspectTarget, hfind]
      rfl
    rw [FileTree.readText, htarget]
    simp

theorem areInFile_of_writeFile (hwrite : tree.writeFile path (Utf8.encode text) mode = .ok next)
    (hread : ofDocument? text = some settings) : AreInFile next path settings := by
  obtain ⟨hholds, htext⟩ := readText_of_writeFile hwrite
  obtain ⟨contents, hcontents, hgives⟩ := ofDocument?_eq_some_iff.mp hread
  exact (if_pos hholds).mpr ⟨text, contents, htext, hcontents, hgives⟩

/-- Settings in range whose values can be written are loaded from their file as they were. From any
file, whatever is loaded is in range and has for each key what the file gives it, or else the
default; and what the file has under other keys does not count. -/
theorem settings_survive_their_file :
    (∀ settings : Settings, settings.rangeError? = none →
      (∀ key : Key, key.Fits (settings.get key)) →
      ∃ text, settings.toDocument? = some text ∧ ∀ (tree next : FileTree) path mode,
        tree.writeFile path (Utf8.encode text) mode = .ok next → load next path = .ok settings) ∧
    (∀ tree path settings, load tree path = .ok settings ↔
      AreInFile tree path settings ∧ settings.rangeError? = none) ∧
    ∀ (contents : Toml.Contents) keep, (∀ entry, IsOfKey entry.1 → keep entry = true) →
      ofContents? (contents.filter keep) = ofContents? contents := by
  refine ⟨fun settings hrange hfits => ?_, fun _ _ _ => load_eq_ok_iff,
    fun _ _ => ofContents?_filter⟩
  obtain ⟨text, hdocument, hread⟩ := exists_document hfits
  exact ⟨text, hdocument, fun tree next path mode hwrite =>
    load_eq_ok_iff.mpr ⟨areInFile_of_writeFile hwrite hread, hrange⟩⟩

/-- A log file whose name has quotes of both kinds, a backslash, a line end and a bell, an empty
stop file and the largest number. -/
theorem settings_survive_their_file_of_odd_paths :
    let settings : Settings := { default with
      logFile := some ⟨Utf8.encode ['\x22', '\x27', '\\', '\n', '\x07']⟩
      stopFile := some ⟨[]⟩
      duration := 9223372036854775807 }
    settings.rangeError? = none ∧ (∀ key : Key, key.Fits (settings.get key)) ∧
      ∃ text next, settings.toDocument? = some text ∧
        FileTree.empty.writeFile ⟨[99]⟩ (Utf8.encode text) 0o644 = .ok next ∧
        load next ⟨[99]⟩ = .ok settings := by
  intro settings
  have hrange : settings.rangeError? = none := by decide
  have hfits : ∀ key : Key, key.Fits (settings.get key) := by
    intro key
    cases key with
    | verbosity | abortsOnProblem | overflow => exact trivial
    | logFile =>
      rintro _ ⟨⟩
      exact Option.isSome_iff_exists.mpr ⟨_, Utf8.decode?_encode _⟩
    | stopFile =>
      rintro _ ⟨⟩
      exact Option.isSome_iff_exists.mpr ⟨_, Utf8.decode?_encode []⟩
    | checkInterval | maxChecks => exact (by decide : 0 < numberLimit)
    | duration => exact (by decide : 9223372036854775807 < numberLimit)
    | renameWindow => exact (by decide : 50 < numberLimit)
  obtain ⟨text, hdocument, hload⟩ := settings_survive_their_file.1 settings hrange hfits
  exact ⟨hrange, hfits, text, _, hdocument, rfl, hload FileTree.empty _ ⟨[99]⟩ 0o644 rfl⟩

end Settings

end TreeWatch
