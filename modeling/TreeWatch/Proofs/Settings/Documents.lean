import Mathlib.Data.List.Nodup
import TreeWatch.Proofs.Text.Encoding
import TreeWatch.Proofs.Toml.Documents
import TreeWatch.Settings.Document

/-!
# Settings and their document

Settings give each key a value of its kind. A document gives a key the value that its node means, or
the default if there is none, and it holds settings exactly if it gives all their values. What it
has under other keys does not count. The document that settings are written to holds them.
-/

namespace TreeWatch

theorem OverflowPolicy.ofName?_eq_some_iff {name : List Char} {policy : OverflowPolicy} :
    ofName? name = some policy ↔ name = policy.label.toList := by
  have hlabel : ∀ policy : OverflowPolicy, policy ∈ [rescan, abort] := by rintro ⟨⟩ <;> decide
  have hinj : ∀ first second : OverflowPolicy, first.label.toList = second.label.toList →
      first = second := by
    rintro ⟨⟩ ⟨⟩ <;> decide
  have hsome : ∀ {name : List Char} {found : OverflowPolicy},
      ofName? name = some found → found.label.toList = name := by
    intro name found h
    simpa using List.find?_some (show [rescan, abort].find? (fun policy =>
      policy.label.toList == name) = _ from h)
  constructor
  · exact fun h => (hsome h).symm
  · rintro rfl
    cases hfound : ofName? policy.label.toList with
    | none => simpa using List.find?_eq_none.mp hfound policy (hlabel policy)
    | some found => rw [hinj _ _ (hsome hfound)]

namespace Settings

def Key.Value : Key → Type
  | .verbosity => Log.Mask
  | .logFile | .stopFile => Option Path
  | .abortsOnProblem => Bool
  | .overflow => OverflowPolicy
  | .checkInterval | .maxChecks | .duration | .renameWindow => Nat

def get (settings : Settings) : (key : Key) → key.Value
  | .verbosity => settings.verbosity
  | .logFile => settings.logFile
  | .abortsOnProblem => settings.abortsOnProblem
  | .stopFile => settings.stopFile
  | .overflow => settings.overflow
  | .checkInterval => settings.checkInterval
  | .maxChecks => settings.maxChecks
  | .duration => settings.duration
  | .renameWindow => settings.renameWindow

variable {contents : Toml.Contents} {settings other : Settings} {node : Toml.Node}

theorem eq_of_get (h : ∀ key, settings.get key = other.get key) : settings = other := by
  obtain ⟨⟩ := settings
  obtain ⟨⟩ := other
  congr
  · exact h .verbosity
  · exact h .logFile
  · exact h .abortsOnProblem
  · exact h .stopFile
  · exact h .overflow
  · exact h .checkInterval
  · exact h .maxChecks
  · exact h .duration
  · exact h .renameWindow

/-- A node that is a number below the limit. -/
def IsNumber (node : Toml.Node) (n : Nat) : Prop := node = .integer n ∧ n < numberLimit

/-- A node that is the text of a path. -/
def IsPath (node : Toml.Node) (path : Option Path) : Prop :=
  ∃ chars, node = .text chars ∧ path = some ⟨Utf8.encode chars⟩

/-- A node that is the name of an overflow policy, or a table that holds nothing but the name, with
nothing in it. -/
def IsPolicy (contents : Toml.Contents) (node : Toml.Node) (policy : OverflowPolicy) : Prop :=
  node = .text policy.label.toList ∨
    (node = .inlineTable ∨ ∃ origin, node = .table origin) ∧
      contents.steps Key.overflow.place = [.key policy.label.toList] ∧
      isVoid contents (Key.overflow.place ++ [.key policy.label.toList]) = true

/-- What a node means as the value of a key. -/
def Key.Means (contents : Toml.Contents) (node : Toml.Node) : (key : Key) → key.Value → Prop
  | .verbosity, mask => node = .integer mask.toNat
  | .logFile, path | .stopFile, path => IsPath node path
  | .abortsOnProblem, aborts => node = .boolean aborts
  | .overflow, policy => IsPolicy contents node policy
  | .checkInterval, n | .maxChecks, n | .duration, n | .renameWindow, n => IsNumber node n

/-- What a document says of a key: the meaning of its node there, or the default if there is
none. -/
def Gives (contents : Toml.Contents) (key : Key) (value : key.Value) : Prop :=
  match contents.get? key.place with
  | none => value = default.get key
  | some node => key.Means contents node value

/-! ## Reading -/

theorem numberBelow?_eq_some_iff {limit n : Nat} :
    numberBelow? limit node = some n ↔ node = .integer n ∧ n < limit := by
  unfold numberBelow?
  split
  · next value =>
    rw [Option.ite_none_right_eq_some, Option.some_inj, Toml.Node.integer.injEq]
    omega
  · next hnode => exact ⟨nofun, fun h => absurd h.1 (hnode _)⟩

theorem mask_eq_some_iff {mask : Log.Mask} :
    (numberBelow? (Nat.pow 2 32) node).map UInt32.ofNat = some mask ↔
      node = .integer mask.toNat := by
  rw [Option.map_eq_some_iff]
  constructor
  · rintro ⟨n, hn, rfl⟩
    obtain ⟨rfl, hlt⟩ := numberBelow?_eq_some_iff.mp hn
    rw [UInt32.toNat_ofNat_of_lt' hlt]
  · rintro rfl
    exact ⟨mask.toNat, numberBelow?_eq_some_iff.mpr ⟨rfl, mask.toNat_lt⟩, UInt32.ofNat_toNat⟩

theorem path?_eq_some_iff {path : Option Path} :
    (path? node).map some = some path ↔ IsPath node path := by
  rw [Option.map_eq_some_iff]
  unfold path? IsPath
  split
  · next chars => simp [eq_comm]
  · next hnode => exact ⟨nofun, fun ⟨chars, heq, _⟩ => absurd heq (hnode chars)⟩

theorem boolean?_eq_some_iff {b : Bool} : boolean? node = some b ↔ node = .boolean b := by
  unfold boolean?
  split
  · simp
  · next hnode => exact ⟨nofun, fun heq => absurd heq (hnode b)⟩

theorem ofName?_ite_isVoid_eq_some_iff {name : List Char} {policy : OverflowPolicy}
    (hsteps : contents.steps Key.overflow.place = [.key name]) :
    (if isVoid contents (Key.overflow.place ++ [.key name]) then OverflowPolicy.ofName? name
      else none) =
        some policy ↔
      contents.steps Key.overflow.place = [.key policy.label.toList] ∧
        isVoid contents (Key.overflow.place ++ [.key policy.label.toList]) = true := by
  rw [hsteps, Option.ite_none_right_eq_some, OverflowPolicy.ofName?_eq_some_iff, List.singleton_inj,
    Toml.Step.key.injEq]
  constructor
  · rintro ⟨hvoid, rfl⟩
    exact ⟨rfl, hvoid⟩
  · rintro ⟨rfl, hvoid⟩
    exact ⟨hvoid, rfl⟩

theorem overflow?_eq_some_iff {policy : OverflowPolicy} :
    overflow? contents node = some policy ↔ IsPolicy contents node policy := by
  unfold overflow? IsPolicy
  cases node with
  | text chars => simp [OverflowPolicy.ofName?_eq_some_iff]
  | inlineTable | table =>
    simp only [reduceCtorEq, false_or, or_false, Toml.Node.table.injEq, exists_eq', or_true,
      exists_false, true_and]
    split
    · next hsteps => exact ofName?_ite_isVoid_eq_some_iff hsteps
    · next hsteps =>
      simp only [reduceCtorEq, false_iff]
      exact fun h => hsteps _ h.1
  | _ => simp

def Key.read? (contents : Toml.Contents) (node : Toml.Node) : (key : Key) → Option key.Value
  | .verbosity => (numberBelow? (Nat.pow 2 32) node).map UInt32.ofNat
  | .logFile | .stopFile => (path? node).map some
  | .abortsOnProblem => boolean? node
  | .overflow => overflow? contents node
  | .checkInterval | .maxChecks | .duration | .renameWindow => numberBelow? numberLimit node

theorem Key.read?_eq_some_iff {key : Key} {value : key.Value} :
    key.read? contents node = some value ↔ key.Means contents node value := by
  cases key with
  | verbosity => exact mask_eq_some_iff
  | logFile | stopFile => exact path?_eq_some_iff
  | abortsOnProblem => exact boolean?_eq_some_iff
  | overflow => exact overflow?_eq_some_iff
  | checkInterval | maxChecks | duration | renameWindow => exact numberBelow?_eq_some_iff

theorem setting?_eq_some_iff {key : Key} {value : key.Value} :
    setting? contents key (default.get key) (key.read? contents) = some value ↔
      Gives contents key value := by
  unfold setting? Gives
  cases contents.get? key.place with
  | none => exact Option.some_inj.trans eq_comm
  | some node => exact Key.read?_eq_some_iff

/-- A document holds settings exactly if it gives each key its value. -/
theorem ofContents?_eq_some_iff :
    ofContents? contents = some settings ↔ ∀ key, Gives contents key (settings.get key) := by
  simp only [ofContents?, Option.bind_eq_bind, Option.bind_eq_some_iff, Option.some_inj]
  constructor
  · rintro ⟨_, hverbosity, _, hlogFile, _, haborts, _, hstopFile, _, hoverflow, _, hinterval,
      _, hchecks, _, hduration, _, hwindow, rfl⟩ key
    apply setting?_eq_some_iff.mp
    cases key with
    | verbosity => exact hverbosity
    | logFile => exact hlogFile
    | abortsOnProblem => exact haborts
    | stopFile => exact hstopFile
    | overflow => exact hoverflow
    | checkInterval => exact hinterval
    | maxChecks => exact hchecks
    | duration => exact hduration
    | renameWindow => exact hwindow
  · intro h
    have hsetting (key : Key) := setting?_eq_some_iff.mpr (h key)
    exact ⟨_, hsetting .verbosity, _, hsetting .logFile, _, hsetting .abortsOnProblem, _,
      hsetting .stopFile, _, hsetting .overflow, _, hsetting .checkInterval, _, hsetting .maxChecks,
      _, hsetting .duration, _, hsetting .renameWindow, rfl⟩

/-! ## Other keys -/

/-- Whether a place is that of a key or below it. -/
def IsOfKey (place : Toml.Place) : Prop := ∃ key : Key, key.place <+: place

theorem get?_filter {keep : Toml.Place × Toml.Node → Bool} {place : Toml.Place}
    (h : ∀ node, keep (place, node) = true) :
    Toml.Contents.get? (contents.filter keep) place = contents.get? place := by
  unfold Toml.Contents.get?
  induction contents with
  | nil => rfl
  | cons entry contents ih =>
    by_cases hplace : place = entry.1
    · subst hplace
      rw [List.filter_cons_of_pos (h entry.2), List.lookup_cons, List.lookup_cons, beq_self_eq_true]
    · rw [List.filter_cons]
      split
      · rw [List.lookup_cons, List.lookup_cons, beq_eq_false_iff_ne.mpr hplace, ih]
      · rw [List.lookup_cons, beq_eq_false_iff_ne.mpr hplace, ih]

theorem steps_filter {keep : Toml.Place × Toml.Node → Bool} {place : Toml.Place}
    (h : ∀ entry, place <+: entry.1 → keep entry = true) :
    Toml.Contents.steps (contents.filter keep) place = contents.steps place := by
  unfold Toml.Contents.steps
  rw [List.filterMap_filter]
  congr 1
  funext entry
  by_cases hkeep : keep entry = true
  · rw [if_pos hkeep]
  · rw [if_neg hkeep, if_neg]
    exact fun hbelow => hkeep (h entry (List.isPrefixOf_iff_prefix.mp hbelow.1))

theorem ofContents?_filter {keep : Toml.Place × Toml.Node → Bool}
    (h : ∀ entry, IsOfKey entry.1 → keep entry = true) :
    ofContents? (contents.filter keep) = ofContents? contents := by
  have hget (key : Key) (more : Toml.Place) :
      Toml.Contents.get? (contents.filter keep) (key.place ++ more) =
      contents.get? (key.place ++ more) :=
    get?_filter fun node => h _ ⟨key, List.prefix_append _ _⟩
  have hsteps (key : Key) (more : Toml.Place) :
      Toml.Contents.steps (contents.filter keep) (key.place ++ more) =
      contents.steps (key.place ++ more) :=
    steps_filter fun entry hbelow => h _ ⟨key, (List.prefix_append _ _).trans hbelow⟩
  -- Only a policy may be given by more than the node of its key.
  have hpolicy (node : Toml.Node) (policy : OverflowPolicy) :
      IsPolicy (contents.filter keep) node policy ↔ IsPolicy contents node policy := by
    have htable := hsteps .overflow []
    rw [List.append_nil] at htable
    unfold IsPolicy isVoid
    rw [htable, hget, hsteps]
  have hmeans (key : Key) (node : Toml.Node) (value : key.Value) :
      key.Means (contents.filter keep) node value ↔ key.Means contents node value := by
    cases key with
    | overflow => exact hpolicy node value
    | _ => exact Iff.rfl
  have hgives (key : Key) (value : key.Value) :
      Gives (contents.filter keep) key value ↔ Gives contents key value := by
    have hnode := hget key []
    rw [List.append_nil] at hnode
    unfold Gives
    rw [hnode]
    cases contents.get? key.place with
    | none => exact Iff.rfl
    | some node => exact hmeans key node value
  apply Option.ext
  intro settings
  rw [ofContents?_eq_some_iff, ofContents?_eq_some_iff]
  exact forall_congr' fun key => hgives key _

/-! ## Writing -/

namespace Key

def all : List Key :=
  [.verbosity, .logFile, .abortsOnProblem, .stopFile, .overflow, .checkInterval, .maxChecks,
    .duration, .renameWindow]

theorem mem_all (key : Key) : key ∈ all := by
  cases key <;> decide

theorem nodup_labels : (all.map fun key => key.label.toList).Nodup := by
  decide

/-- A value that can be written: a number below the limit, or a path that is text. -/
def Fits : (key : Key) → key.Value → Prop
  | .logFile, path | .stopFile, path => IsText path
  | .checkInterval, n | .maxChecks, n | .duration, n | .renameWindow, n => IsSmall n
  | .verbosity, _ | .abortsOnProblem, _ | .overflow, _ => True
where
  IsText (path : Option Path) : Prop := ∀ p ∈ path, (Utf8.decode? p.bytes).isSome
  IsSmall (n : Nat) : Prop := n < numberLimit

def line? : (key : Key) → key.Value → Option (List Char)
  | .verbosity, mask => numberLine? .verbosity (UInt32.toNat mask)
  | .logFile, path => pathLine? .logFile path
  | .abortsOnProblem, aborts => some (Toml.writtenPair (label .abortsOnProblem)
    (Toml.writtenBoolean aborts))
  | .stopFile, path => pathLine? .stopFile path
  | .overflow, policy =>
    some (Toml.writtenPair (label .overflow)
      (Toml.writtenString (OverflowPolicy.label policy).toList))
  | .checkInterval, n => numberLine? .checkInterval n
  | .maxChecks, n => numberLine? .maxChecks n
  | .duration, n => numberLine? .duration n
  | .renameWindow, n => numberLine? .renameWindow n

/-- The node that a value is written as. -/
def node? : (key : Key) → key.Value → Option Toml.Node
  | .verbosity, mask => some (.integer (UInt32.toNat mask))
  | .logFile, path | .stopFile, path => pathNode? path
  | .abortsOnProblem, aborts => some (.boolean aborts)
  | .overflow, policy => some (.text (OverflowPolicy.label policy).toList)
  | .checkInterval, n | .maxChecks, n | .duration, n | .renameWindow,
    n => some (.integer (Int.ofNat n))
where
  pathNode? (path : Option Path) : Option Toml.Node :=
    path.bind fun path => (Utf8.decode? path.bytes).map .text

end Key

theorem toDocument?_eq_some {line : Key → List Char}
    (h : ∀ key, key.line? (settings.get key) = some (line key)) :
    settings.toDocument? = some (Key.all.flatMap line) := by
  have hverbosity : numberLine? .verbosity settings.verbosity.toNat = _ := h .verbosity
  have hlogFile : pathLine? .logFile settings.logFile = _ := h .logFile
  have haborts := Option.some.inj (h .abortsOnProblem)
  have hstopFile : pathLine? .stopFile settings.stopFile = _ := h .stopFile
  have hoverflow := Option.some.inj (h .overflow)
  have hinterval : numberLine? .checkInterval settings.checkInterval = _ := h .checkInterval
  have hchecks : numberLine? .maxChecks settings.maxChecks = _ := h .maxChecks
  have hduration : numberLine? .duration settings.duration = _ := h .duration
  have hwindow : numberLine? .renameWindow settings.renameWindow = _ := h .renameWindow
  simp only [get] at haborts hoverflow
  simp [toDocument?, Key.all, hverbosity, hlogFile, haborts, hstopFile, hoverflow, hinterval,
    hchecks, hduration, hwindow]

namespace Key

variable {key : Key}

theorem isBareName_label (key : Key) : Toml.IsBareName key.label.toList := by
  have hbare : key.label.toList.all Toml.isBare = true := by cases key <;> decide
  exact ⟨by cases key <;> decide, List.all_eq_true.mp hbare⟩

def row (key : Key) (value : key.Value) : Toml.Table :=
  ((key.node? value).map (key.label.toList, ·)).toList

theorem exists_numberLine {n : Nat} (h : n < numberLimit) : ∃ line, numberLine? key n = some line ∧
    Toml.Lines line [(key.label.toList, .integer n)] := by
  have hlimit : Toml.integerBounds.2 = (numberLimit : Int) := by decide
  have hwritten : Toml.writtenNumber? n = some (Nat.toDigits 10 n) :=
    if_pos (hlimit ▸ Int.ofNat_lt.mpr h)
  exact ⟨_, by rw [numberLine?, hwritten, Option.map_some],
    .single key.isBareName_label (Toml.spells_number hwritten)⟩

theorem exists_pathLine {path : Option Path} (h : Fits.IsText path) :
    ∃ line, pathLine? key path = some line ∧
    Toml.Lines line ((node?.pathNode? path).map (key.label.toList, ·)).toList := by
  cases path with
  | none => exact ⟨[], rfl, .nil⟩
  | some path =>
    obtain ⟨chars, hchars⟩ := Option.isSome_iff_exists.mp (h path rfl)
    have hline : pathLine? key (some path) =
        some (Toml.writtenPair key.label (Toml.writtenString chars)) := by
      simp [pathLine?, writtenPath?, hchars]
    refine ⟨_, hline, ?_⟩
    simpa [node?.pathNode?, hchars] using Toml.Lines.single key.isBareName_label
      (Toml.spells_string chars)

theorem exists_line {value : key.Value} (h : key.Fits value) :
    ∃ line, key.line? value = some line ∧ Toml.Lines line (key.row value) := by
  cases key with
  | verbosity => exact exists_numberLine (Nat.lt_trans (UInt32.toNat_lt value) (by decide))
  | logFile | stopFile => exact exists_pathLine h
  | abortsOnProblem => exact ⟨_, rfl, .single (isBareName_label _) (Toml.spells_boolean value)⟩
  | overflow => exact ⟨_, rfl, .single (isBareName_label _) (Toml.spells_string _)⟩
  | checkInterval | maxChecks | duration | renameWindow => exact exists_numberLine h

theorem eq_of_label {first second : Key} (h : first.label.toList = second.label.toList) :
    first = second :=
  List.inj_on_of_nodup_map nodup_labels (mem_all first) (mem_all second) h

end Key

def table (settings : Settings) : Toml.Table :=
  Key.all.flatMap fun key => key.row (settings.get key)

theorem lines_flatMap {line : Key → List Char}
    (h : ∀ key, Toml.Lines (line key) (key.row (settings.get key))) (keys : List Key) :
    Toml.Lines (keys.flatMap line) (keys.flatMap fun key => key.row (settings.get key)) := by
  induction keys with
  | nil => exact .nil
  | cons key keys ih =>
    rw [List.flatMap_cons, List.flatMap_cons]
    exact (h key).append ih

theorem names_sublist (settings : Settings) (keys : List Key) :
    ((keys.flatMap fun key => key.row (settings.get key)).map Prod.fst).Sublist
      (keys.map fun key => key.label.toList) := by
  induction keys with
  | nil => exact .slnil
  | cons key keys ih =>
    rw [List.flatMap_cons, List.map_append, List.map_cons, Key.row]
    cases key.node? (settings.get key) with
    | none => exact ih.cons _
    | some node => exact ih.cons_cons _

theorem lookup_table (settings : Settings) (key : Key) :
    settings.table.lookup key.label.toList = key.node? (settings.get key) := by
  -- Said of any keys, since the rows are made key by key.
  have hlookup : ∀ keys : List Key,
    (keys.flatMap fun key => key.row (settings.get key)).lookup key.label.toList =
      if key ∈ keys then key.node? (settings.get key) else none := by
    intro keys
    induction keys with
    | nil => rfl
    | cons first keys ih =>
      rw [List.flatMap_cons]
      by_cases hfirst : first = key
      · subst hfirst
        rw [if_pos List.mem_cons_self, Key.row]
        cases hnode : first.node? (settings.get first) with
        | none => simpa [hnode] using ih
        | some node => simp
      · have hlabel : (key.label.toList == first.label.toList) = false :=
          beq_eq_false_iff_ne.mpr fun heq => hfirst (Key.eq_of_label heq.symm)
        have hskip (rest : Toml.Table) :
          (first.row (settings.get first) ++ rest).lookup key.label.toList =
            rest.lookup key.label.toList := by
          rw [Key.row]
          cases first.node? (settings.get first) <;> simp [List.lookup_cons, hlabel]
        simp [hskip, ih, Ne.symm hfirst]
  exact (hlookup Key.all).trans (if_pos key.mem_all)

theorem isPath_of_pathNode? {path : Option Path} (h : Key.Fits.IsText path) :
    match Key.node?.pathNode? path with
    | none => path = none
    | some node => IsPath node path := by
  cases path with
  | none => rfl
  | some path =>
    obtain ⟨chars, hchars⟩ := Option.isSome_iff_exists.mp (h path rfl)
    simp only [Key.node?.pathNode?, Option.bind_some, hchars, Option.map_some]
    exact ⟨chars, rfl, by rw [← Utf8.decode?_eq_some_iff.mp hchars]⟩

/-- The node that a value is written as means the value. -/
theorem gives_contentsOf_table {key : Key} (h : key.Fits (settings.get key)) :
    Gives (Toml.contentsOf settings.table) key (settings.get key) := by
  unfold Gives
  rw [Key.place, Toml.get?_contentsOf, lookup_table]
  cases key with
  | verbosity | abortsOnProblem => exact rfl
  | logFile | stopFile => exact isPath_of_pathNode? h
  | overflow => exact .inl rfl
  | checkInterval | maxChecks | duration | renameWindow => exact ⟨rfl, h⟩

/-- Settings that can be written have a document, and it holds them. -/
theorem exists_document (h : ∀ key : Key, key.Fits (settings.get key)) :
    ∃ text, settings.toDocument? = some text ∧ ofDocument? text = some settings := by
  choose line hline hlines using fun key => Key.exists_line (h key)
  have hread : Toml.read? (Key.all.flatMap line) = some (Toml.contentsOf settings.table) :=
    (lines_flatMap hlines Key.all).read?_eq
      (Key.nodup_labels.sublist (names_sublist settings Key.all))
  have hgives := ofContents?_eq_some_iff.mpr fun key => gives_contentsOf_table (h key)
  exact ⟨_, toDocument?_eq_some hline, Option.bind_eq_some_iff.mpr ⟨_, hread, hgives⟩⟩

end Settings

end TreeWatch
