import TreeWatch.Text.Utf8
import TreeWatch.Text.Lines
import TreeWatch.Text.Blank

/-!
# Paths

A path keeps the bytes it was written with; what it names is its list of components. Empty segments
and inner `.` segments say nothing, so `/r//a/` and `/r/./a` have the components of `/r/a`, while
`..` is a component like any other. Two paths are the same place in a listing when their components
are equal.
-/

namespace TreeWatch

def slash : UInt8 := 47

def dot : Bytes := [46]

def dotDot : Bytes := [46, 46]

structure Path where
  bytes : Bytes
  deriving DecidableEq, Repr, Inhabited

/-- One step of a path. A leading `.` counts, since `./a` says where it starts and `a` does not. -/
inductive Component where
  | root
  | here
  | up
  | name (bytes : Bytes)
  deriving DecidableEq, Repr

/-- The component that a segment stands for, if it stands for one. -/
def Component.ofSegment? (segment : Bytes) : Option Component :=
  if segment = [] ∨ segment = dot then none
  else if segment = dotDot then some .up
  else some (.name segment)

/-- A segment that stands for no component. -/
def isSilent (segment : Bytes) : Bool := (Component.ofSegment? segment).isNone

/-- Orders components: the root, a leading dot, the parent, then names by their bytes. -/
def Component.key : Component → List Nat
  | .root => [0]
  | .here => [1]
  | .up => [2]
  | .name bytes => 3 :: bytes.map UInt8.toNat

namespace Path

def ofString (text : String) : Path := ⟨.ofString text⟩

def display (p : Path) : String := p.bytes.display

def isEmpty (p : Path) : Bool := p.bytes.isEmpty

/-- The stretches between slashes. -/
def segments (p : Path) : List Bytes := splitAtEach slash p.bytes

def isAbsolute (p : Path) : Bool := p.bytes.head? == some slash

/-- The component that the beginning of the path stands for, if that is the root or a dot. -/
def lead (p : Path) : List Component :=
  if p.isAbsolute then [.root]
  else if p.segments.head? = some dot then [.here]
  else []

def components (p : Path) : List Component := p.lead ++ p.segments.filterMap Component.ofSegment?

/-- Whether two paths have the same components. -/
def same (p q : Path) : Bool := p.components == q.components

@[simp] theorem same_refl (p : Path) : p.same p = true := beq_self_eq_true _

theorem same_symm {p q : Path} (h : p.same q = true) : q.same p = true :=
  beq_iff_eq.mpr (beq_iff_eq.mp h).symm

theorem same_comm (p q : Path) : p.same q = q.same p :=
  Bool.eq_iff_iff.mpr ⟨same_symm, same_symm⟩

theorem same_trans {p q r : Path} (h : p.same q = true) (h' : q.same r = true) : p.same r = true :=
  beq_iff_eq.mpr ((beq_iff_eq.mp h).trans (beq_iff_eq.mp h'))

/-- The order in which listings give paths: component by component. -/
def key (p : Path) : List (List Nat) := p.components.map Component.key

def precedes (p q : Path) : Bool := p.key < q.key

/-- Whether the components of `p` begin with those of `base`. Every path is below the empty one. -/
def isBelow (p base : Path) : Bool := base.components.isPrefixOf p.components

/-- `p` continued by `q`: an absolute `q` replaces `p`, any other follows a slash. -/
def join (p q : Path) : Path :=
  if q.isAbsolute then q
  else if p.bytes = [] ∨ p.bytes.getLast? = some slash then ⟨p.bytes ++ q.bytes⟩
  else ⟨p.bytes ++ slash :: q.bytes⟩

/-- The entry called `name` in the directory at `p`. -/
def child (p : Path) (name : Bytes) : Path := p.join ⟨name⟩

def ofSegments (segments : List Bytes) : Path := ⟨joinWith slash segments⟩

/-- What follows the first `count` segments that stand for a component. -/
def dropSteps : (count : Nat) → List Bytes → List Bytes
  | 0, segments => segments
  | _ + 1, [] => []
  | count + 1, segment :: more =>
    if isSilent segment then dropSteps (count + 1) more else dropSteps count more

/-- The path without the silent segments at its end; its lead always stays. -/
def tidyEnd (p : Path) : Path :=
  let kept := p.lead.length
  let rest := splitAtEach slash (p.bytes.drop kept)
  ⟨p.bytes.take kept ++ joinWith slash (dropWhileEnd isSilent rest)⟩

/-- What follows the first `count` components, without silent segments around it. -/
def after (p : Path) (count : Nat) : Path :=
  if count = 0 then p.tidyEnd
  else
    ofSegments <| dropWhileEnd isSilent <|
      (dropSteps (count - p.lead.length) p.segments).dropWhile isSilent

/-- What of `p` is left below `base`, if it is below it. -/
def below? (p base : Path) : Option Path :=
  if p.isBelow base then some (p.after base.components.length) else none

/-- The name of the entry that the path leads to; none if it ends in `..` or leads to a start. -/
def fileName? (p : Path) : Option Bytes :=
  match p.components.getLast? with
  | some (.name bytes) => some bytes
  | _ => none

/-- The path of the directory that holds the entry; none for the empty path and the root
directory. -/
def parent? (p : Path) : Option Path :=
  match p.components.getLast? with
  | none | some .root => none
  | some .here => some ⟨[]⟩
  | some _ =>
    let kept := p.lead.length
    let steps := dropWhileEnd isSilent (splitAtEach slash (p.bytes.drop kept))
    some ⟨p.bytes.take kept ++ joinWith slash (dropWhileEnd isSilent steps.dropLast)⟩

end Path

end TreeWatch
