import TreeWatch.Proofs.Source.Registry

/-!
# Histories of an event source

What a source hands out over a whole history of calls, made in a tree that may be another each time.
A number is given out once and for one directory; the events that were queued are, in their order,
those that left the queue and those that wait.
-/

namespace TreeWatch

namespace Source

variable {source next : Source} {id : WatchId} {directory : DirectoryId} {path : Path}
  {tree : FileTree}

/-- What can be done with a source. -/
inductive Request where
  | add (path : Path)
  | remove (id : WatchId)
  | next
  | reset
  | push (event : Event)
  /-- No events come any more but those that wait. -/
  | close
  /-- The next look for an event is going to fail. -/
  | fail
  /-- Which paths are refused from now on, and whether starting over is. -/
  | regulate (refused : List Path) (refusesReset : Bool)

/-- A request with the tree in which it is made. -/
structure Call where
  tree : FileTree
  request : Request

/-- A source after a call. What it does not do leaves it alone. -/
def serve (source : Source) (call : Call) : Source :=
  match call.request with
  | .add path =>
    match source.add call.tree path with
    | .ok (_, next) => next
    | .error _ => source
  | .remove id =>
    match source.remove id with
    | .ok next => next
    | .error _ => source
  | .next =>
    match source.next? with
    | some (_, next) => next
    | none => source
  | .reset =>
    match source.reset with
    | .ok next => next
    | .error _ => source
  | .push event => source.push event
  | .close => { source with closed := true }
  | .fail => { source with failing := true }
  | .regulate refused refusesReset => { source with refused, refusesReset }

def outcome (source : Source) (calls : List Call) : Source := calls.foldl serve source

/-- What the calls of a history come to, in order. -/
def along {α : Type} (f : Source → Call → List α) (source : Source) : List Call → List α
  | [] => []
  | call :: rest => f source call ++ along f (source.serve call) rest

theorem along_append {α : Type} (f : Source → Call → List α) (source : Source)
    (calls more : List Call) :
    along f source (calls ++ more) = along f source calls ++ along f (source.outcome calls)
      more := by
  induction calls generalizing source with
  | nil => rfl
  | cons call rest ih =>
    rw [List.cons_append, along, along, ih, List.append_assoc]
    rfl

theorem outcome_append (source : Source) (calls more : List Call) :
    source.outcome (calls ++ more) = (source.outcome calls).outcome more :=
  List.foldl_append

section Numbers

/-- The watch that a call gives out, for a directory that has none. -/
def issued (source : Source) (call : Call) : List (WatchId × DirectoryId) :=
  match call.request with
  | .add path =>
    match source.add call.tree path, call.tree.inspect path with
    | .ok (id, _), .ok (.directory directory) => if source.isLive id then [] else [(id, directory)]
    | _, _ => []
  | _ => []

theorem Sound.isLive_nextId (h : source.Sound) : source.isLive ⟨source.nextId⟩ = false := by
  rw [Bool.eq_false_iff, ne_eq, isLive_iff]
  rintro ⟨directory, hmem⟩
  obtain ⟨n, hn, hlt⟩ := h.issued _ hmem
  have hraw : (source.nextId : Int) = n := congrArg WatchId.raw hn
  omega

theorem live_forget_sublist (source : Source) (id : WatchId) :
    (source.forget id).live.Sublist source.live := List.filter_sublist

/-- Nothing but an addition brings a watch to life. -/
theorem serve_of_not_add (call : Call) (hcall : ∀ path, call.request ≠ .add path) :
    (source.serve call).live.Sublist source.live ∧ (source.serve call).nextId = source.nextId := by
  obtain ⟨tree, request⟩ := call
  have hsame : source.live.Sublist source.live ∧ source.nextId = source.nextId :=
    ⟨List.Sublist.refl _, rfl⟩
  cases request with
  | add path => exact absurd rfl (hcall path)
  | remove id =>
    simp only [serve]
    cases hremove : source.remove id with
    | error error => exact hsame
    | ok next =>
      obtain ⟨-, rfl⟩ := remove_eq_ok_iff.mp hremove
      exact ⟨live_forget_sublist source id, rfl⟩
  | next =>
    simp only [serve]
    cases hnext : source.next? with
    | none => exact hsame
    | some taken =>
      obtain ⟨event, next⟩ := taken
      obtain ⟨rest, -, -, hlive, hnumber, -⟩ := next?_eq_some hnext
      constructor
      · rw [hlive]
        split
        · exact live_forget_sublist source event.watch
        · exact List.Sublist.refl _
      · exact hnumber
  | reset =>
    simp only [serve]
    cases hreset : source.reset with
    | error error => exact hsame
    | ok next =>
      obtain ⟨-, rfl⟩ := reset_eq_ok_iff.mp hreset
      exact ⟨List.nil_sublist _, rfl⟩
  | push event => exact hsame
  | close => exact hsame
  | fail => exact hsame
  | regulate refused refusesReset => exact hsame

/-- A call gives out the next number for a directory that has no watch, or it gives out none and
ends some watches at most. -/
theorem Sound.issued_cases (h : source.Sound) (call : Call) :
    (∃ directory, source.watchOf? directory = none ∧
      source.issued call = [(⟨source.nextId⟩, directory)] ∧
      source.serve call = source.enrolled directory) ∨
    source.issued call = [] ∧ (source.serve call).live.Sublist source.live ∧
      (source.serve call).nextId = source.nextId := by
  by_cases hcall : ∃ path, call.request = .add path
  · obtain ⟨path, hpath⟩ := hcall
    simp only [Source.issued, serve, hpath]
    cases hadd : source.add call.tree path with
    | error error => exact .inr ⟨rfl, List.Sublist.refl _, rfl⟩
    | ok taken =>
      obtain ⟨id, next⟩ := taken
      obtain ⟨-, directory, hinspect, ⟨hwatch, rfl⟩ | ⟨hwatch, rfl, rfl⟩⟩ := add_eq_ok_iff.mp hadd
      · have hlive : next.isLive id = true := isLive_iff.mpr ⟨directory, watchOf?_eq_some hwatch⟩
        rw [hinspect]
        exact .inr ⟨if_pos hlive, List.Sublist.refl _, rfl⟩
      · rw [hinspect]
        exact .inl ⟨directory, hwatch, if_neg (Bool.eq_false_iff.mp h.isLive_nextId), rfl⟩
  · have hnone : source.issued call = [] := by
      rw [Source.issued]
      split
      · next hpath => exact absurd ⟨_, hpath⟩ hcall
      · rfl
    exact .inr ⟨hnone, serve_of_not_add call fun path hpath => hcall ⟨path, hpath⟩⟩

/-- What is known of the watches that were given out so far. -/
structure Numbered (source : Source) (given : List (WatchId × DirectoryId)) : Prop where
  sound : source.Sound
  ascending : given.Pairwise fun first second => first.1.raw < second.1.raw
  bounded : ∀ watch ∈ given, watch.1.raw < source.nextId
  live : source.live ⊆ given

namespace Numbered

variable {given : List (WatchId × DirectoryId)}

theorem empty : Source.empty.Numbered [] where
  sound := .of_live_eq_nil rfl
  ascending := List.Pairwise.nil
  bounded := nofun
  live := List.Subset.refl _

theorem serve (h : source.Numbered given) (call : Call) :
    (source.serve call).Numbered (given ++ source.issued call) := by
  rcases h.sound.issued_cases call with ⟨directory, hwatch, hissued, hserve⟩ | ⟨hissued,
    hlive, hnext⟩
  · rw [hissued, hserve]
    constructor
    · exact h.sound.enrolled hwatch
    · rw [List.pairwise_append]
      refine ⟨h.ascending, List.pairwise_singleton _ _, ?_⟩
      intro watch hmem new hnew
      rw [List.mem_singleton.mp hnew]
      exact h.bounded watch hmem
    · intro watch hmem
      have hlt : (source.nextId : Int) < (source.enrolled directory).nextId := by
        change (source.nextId : Int) < (source.nextId + 1 : Nat)
        omega
      rcases List.mem_append.mp hmem with hmem | hmem
      · exact Int.lt_trans (h.bounded watch hmem) hlt
      · rwa [List.mem_singleton.mp hmem]
    · intro watch hmem
      rcases List.mem_append.mp hmem with hmem | hmem
      · exact List.mem_append_left _ (h.live hmem)
      · exact List.mem_append_right _ hmem
  · rw [hissued, List.append_nil]
    exact ⟨h.sound.of_sublist hlive hnext, h.ascending, fun watch hmem =>
      hnext ▸ h.bounded watch hmem, List.Subset.trans hlive.subset h.live⟩

theorem outcome (h : source.Numbered given) (calls : List Call) :
    (source.outcome calls).Numbered (given ++ along issued source calls) := by
  induction calls generalizing source given with
  | nil =>
    rw [along, List.append_nil]
    exact h
  | cons call rest ih =>
    rw [along, ← List.append_assoc]
    exact ih (h.serve call)

theorem directory_eq (h : source.Numbered given) {first second : DirectoryId}
    (hfirst : (id, first) ∈ given) (hsecond : (id, second) ∈ given) : first = second := by
  have hids : (given.map (·.1)).Nodup := by
    rw [List.nodup_iff_pairwise_ne, List.pairwise_map]
    exact h.ascending.imp fun hlt heq => by rw [heq] at hlt; exact Int.lt_irrefl _ hlt
  exact congrArg Prod.snd (List.inj_on_of_nodup_map hids hfirst hsecond rfl)

end Numbered

end Numbers

section Events

/-- How an event leaves the queue. -/
inductive Fate where
  | handedOut
  | thrownAway
  deriving DecidableEq, Repr

/-- The events that a call puts into the queue. -/
def arriving (source : Source) (call : Call) : List Event :=
  match call.request with
  | .push event => [event]
  | .remove id =>
    match source.remove id with
    | .ok _ => [.onWatch id .ignored]
    | .error _ => []
  | _ => []

/-- The events that leave the queue with a call. -/
def leaving (source : Source) (call : Call) : List (Event × Fate) :=
  match call.request with
  | .next =>
    match source.next? with
    | some (event, _) => [(event, .handedOut)]
    | none => []
  | .reset =>
    match source.reset with
    | .ok _ => source.queue.map (·, .thrownAway)
    | .error _ => []
  | _ => []

theorem queue_of_add (h : source.add tree path = .ok (id, next)) : next.queue = source.queue := by
  obtain ⟨-, directory, -, ⟨-, rfl⟩ | ⟨-, -, rfl⟩⟩ := add_eq_ok_iff.mp h <;> rfl

theorem queue_of_remove (h : source.remove id = .ok next) :
    next.queue = source.queue ++ [.onWatch id .ignored] := by
  obtain ⟨-, rfl⟩ := remove_eq_ok_iff.mp h
  rfl

/-- What waits and what comes is what goes and what waits then. -/
theorem queue_serve (source : Source) (call : Call) :
    source.queue ++ source.arriving call =
      (source.leaving call).map (·.1) ++ (source.serve call).queue := by
  obtain ⟨tree, request⟩ := call
  cases request with
  | add path =>
    simp only [arriving, leaving, serve, List.append_nil, List.map_nil, List.nil_append]
    cases hadd : source.add tree path with
    | error error => rfl
    | ok taken => exact (queue_of_add hadd).symm
  | remove id =>
    simp only [arriving, leaving, serve, List.map_nil, List.nil_append]
    cases hremove : source.remove id with
    | error error => exact List.append_nil _
    | ok next => exact (queue_of_remove hremove).symm
  | next =>
    simp only [arriving, leaving, serve, List.append_nil]
    cases hnext : source.next? with
    | none => rfl
    | some taken =>
      obtain ⟨rest, hqueue, hrest, -⟩ := next?_eq_some hnext
      rw [hqueue]
      exact congrArg _ hrest.symm
  | reset =>
    simp only [arriving, leaving, serve, List.append_nil]
    cases hreset : source.reset with
    | error error => rfl
    | ok next =>
      obtain ⟨-, rfl⟩ := reset_eq_ok_iff.mp hreset
      simp [Function.comp_def]
  | push event => rfl
  | close => exact List.append_nil _
  | fail => exact List.append_nil _
  | regulate refused refusesReset => exact List.append_nil _

theorem queue_outcome (source : Source) (calls : List Call) :
    source.queue ++ along arriving source calls =
      (along leaving source calls).map (·.1) ++ (source.outcome calls).queue := by
  induction calls generalizing source with
  | nil => exact List.append_nil _
  | cons call rest ih =>
    calc source.queue ++ along arriving source (call :: rest)
        = (source.queue ++ source.arriving call) ++ along arriving (source.serve call) rest := by
          rw [along, List.append_assoc]
      _ = (source.leaving call).map (·.1) ++
            ((source.serve call).queue ++ along arriving (source.serve call) rest) := by
          rw [queue_serve, List.append_assoc]
      _ = (along leaving source (call :: rest)).map (·.1) ++
            (source.outcome (call :: rest)).queue := by
          rw [ih, along, List.map_append, List.append_assoc]
          rfl

variable {calls more : List Call}

def handedOut (source : Source) (calls : List Call) : List Event :=
  (along leaving source calls).filterMap fun left =>
    if left.2 = .handedOut then some left.1 else none

theorem handedOut_append :
    source.handedOut (calls ++ more) = source.handedOut calls ++ (source.outcome calls).handedOut
      more := by
  rw [handedOut, along_append, List.filterMap_append]
  rfl

theorem handedOut_cons {call : Call} :
    source.handedOut (call :: calls) = source.handedOut [call] ++ (source.serve call).handedOut
      calls := by
  rw [← List.singleton_append, handedOut_append]
  rfl

theorem serve_of_not_next {call : Call} (h : call.request ≠ .next) :
    source.handedOut [call] = [] ∧ (source.serve call).received = source.received := by
  obtain ⟨tree, request⟩ := call
  cases request with
  | next => exact absurd rfl h
  | add path =>
    refine ⟨rfl, ?_⟩
    simp only [serve]
    cases hadd : source.add tree path with
    | error error => rfl
    | ok taken =>
      obtain ⟨id, next⟩ := taken
      obtain ⟨-, directory, -, ⟨-, rfl⟩ | ⟨-, -, rfl⟩⟩ := add_eq_ok_iff.mp hadd <;> rfl
  | remove id =>
    refine ⟨rfl, ?_⟩
    simp only [serve]
    cases hremove : source.remove id with
    | error error => rfl
    | ok next =>
      obtain ⟨-, rfl⟩ := remove_eq_ok_iff.mp hremove
      rfl
  | reset =>
    simp only [handedOut, along, leaving, serve, List.append_nil]
    cases hreset : source.reset with
    | error error => exact ⟨rfl, rfl⟩
    | ok next =>
      obtain ⟨-, rfl⟩ := reset_eq_ok_iff.mp hreset
      simp
  | push event => exact ⟨rfl, rfl⟩
  | close => exact ⟨rfl, rfl⟩
  | fail => exact ⟨rfl, rfl⟩
  | regulate refused refusesReset => exact ⟨rfl, rfl⟩

theorem handedOut_eq_nil (h : ∀ call ∈ calls, call.request ≠ .next) :
    source.handedOut calls = [] := by
  induction calls generalizing source with
  | nil => rfl
  | cons call rest ih =>
    obtain ⟨hcall, hrest⟩ := List.forall_mem_cons.mp h
    rw [handedOut_cons, (serve_of_not_next hcall).1, ih hrest]
    rfl

theorem received_of_next? {event : Event} {next : Source} (h : source.next? = some (event, next)) :
    next.received = source.received + 1 := by
  unfold next? at h
  cases hqueue : source.queue with
  | nil => simp [hqueue] at h
  | cons first rest =>
    simp only [hqueue, Option.some.injEq, Prod.mk.injEq] at h
    obtain ⟨rfl, rfl⟩ := h
    split <;> rfl

theorem serve_of_next? (tree : FileTree) {event : Event} {next : Source}
    (h : source.next? = some (event, next)) :
    source.handedOut [⟨tree, .next⟩] = [event] ∧ source.serve ⟨tree, .next⟩ = next := by
  simp [handedOut, along, leaving, serve, h]

theorem received_outcome :
    (source.outcome calls).received = source.received + (source.handedOut calls).length := by
  induction calls generalizing source with
  | nil => rfl
  | cons call rest ih =>
    have hcall : (source.serve call).received = source.received +
        (source.handedOut [call]).length := by
      by_cases hnext : call.request = .next
      · obtain ⟨tree, request⟩ := call
        obtain rfl : request = .next := hnext
        cases htaken : source.next? with
        | none => simp [serve, handedOut, along, leaving, htaken]
        | some taken =>
          obtain ⟨hhanded, hserve⟩ := serve_of_next? tree htaken
          rw [hhanded, hserve]
          exact received_of_next? htaken
      · rw [(serve_of_not_next hnext).1, (serve_of_not_next hnext).2]
        rfl
    rw [handedOut_cons, List.length_append, ← Nat.add_assoc, ← hcall]
    exact ih

end Events

end Source

end TreeWatch
