import TreeWatch.Proofs.Tracker.Runs

/-!
# Laws of actions

A law ties together the state in which an action begins, the lines that it writes, and the state in
which it ends, with a value or with a fault. Where a law allows to do nothing and to do one thing
after the other, an action obeys it as soon as its parts do.

The parts that a tracker is made of are few: it asks the source, changes the table and the list of
the watches on their way out, retires roots, counts, starts over, and lets departures wait. So a law
about all that is ever done comes down to one line about each of these.
-/

namespace TreeWatch

namespace Action

variable {σ α β : Type}

/-- However an action ends, what it wrote and what it left are as a law says. -/
def Obeys (x : Action σ α) (R : σ → List Log.Line → σ → Prop) : Prop :=
  ∀ moment s, R s (x moment s).log (x moment s).state

/-- An action that begins in one state does as a law says. -/
def ObeysFrom (x : Action σ α) (moment : Moment) (s : σ) (R : σ → List Log.Line → σ → Prop) :
    Prop :=
  R s (x moment s).log (x moment s).state

/-- A law that allows to do nothing, and one thing after the other. -/
structure Law (R : σ → List Log.Line → σ → Prop) : Prop where
  rest : ∀ s, R s [] s
  next : ∀ {s u v first second}, R s first u → R u second v → R s (first ++ second) v

namespace Law

variable {R : σ → List Log.Line → σ → Prop} (hR : Law R)

include hR

theorem pure (a : α) : (pure a : Action σ α).Obeys R := fun _ s => hR.rest s

theorem fail (fault : Fault) : (fail fault : Action σ α).Obeys R := fun _ s => hR.rest s

theorem state : (state : Action σ σ).Obeys R := fun _ s => hR.rest s

theorem tree : (tree : Action σ FileTree).Obeys R := fun _ s => hR.rest s

theorem now : (now : Action σ Nat).Obeys R := fun _ s => hR.rest s

/-- What comes second may obey the law only where the first leaves off. -/
theorem bindAt {x : Action σ α} {f : α → Action σ β} {moment : Moment} {s : σ}
    (hx : x.ObeysFrom moment s R)
    (hf : ∀ a, (x moment s).result = .ok a → (f a).ObeysFrom moment (x moment s).state R) :
    (x >>= f).ObeysFrom moment s R := by
  unfold ObeysFrom at hx hf ⊢
  rw [bind_apply]
  rcases hreply : x moment s with ⟨result, u, log⟩
  rw [hreply] at hx hf
  cases result with
  | error fault => exact hx
  | ok a => exact hR.next hx (hf a rfl)

theorem bindFrom {x : Action σ α} {f : α → Action σ β} {moment : Moment} {s : σ}
    (hx : x.ObeysFrom moment s R) (hf : ∀ a, (f a).Obeys R) : (x >>= f).ObeysFrom moment s R :=
  hR.bindAt hx fun a _ => hf a moment _

theorem bind {x : Action σ α} {f : α → Action σ β} (hx : x.Obeys R) (hf : ∀ a, (f a).Obeys R) :
    (x >>= f).Obeys R := fun moment s => hR.bindFrom (hx moment s) hf

theorem look {f : σ → Action σ β} (hf : ∀ s, (f s).Obeys R) : (Action.state >>= f).Obeys R :=
  hR.bind hR.state hf

end Law

/-- A law that does not speak of lines allows one thing after the other. -/
theorem Law.trans {R : σ → σ → Prop} {s u v : σ} (hR : Law fun s _ u => R s u) (h : R s u)
    (h' : R u v) :
    R s v := @Law.next σ _ hR s u v [] [] h h'

theorem Obeys.change {R : σ → List Log.Line → σ → Prop} {f : σ → σ} (hf : ∀ s, R s [] (f s)) :
    (change f).Obeys R := fun _ s => hf s

theorem Obeys.look {R : σ → List Log.Line → σ → Prop} {f : σ → Action σ β}
    (hf : ∀ moment s, (f s).ObeysFrom moment s R) : (state >>= f).Obeys R := hf

theorem ObeysFrom.change {R : σ → List Log.Line → σ → Prop} {f : σ → σ} {g : Unit → Action σ β}
    {moment : Moment} {s : σ} (hg : (g ()).ObeysFrom moment (f s) R) :
    R (f s) ((change f >>= g) moment s).log ((change f >>= g) moment s).state := hg

/-- A law that does not speak of lines, said of how an action ends. -/
theorem Obeys.ends {R : σ → σ → Prop} {x : Action σ α} (h : x.Obeys fun s _ u => R s u)
    (moment : Moment) (s : σ) : x.Ends moment s (fun _ u => R s u) fun _ u => R s u := by
  have hend := h moment s
  unfold Ends
  split <;> exact hend

theorem Obeys.ends_of {R : σ → σ → Prop} {P : σ → Prop} {x : Action σ α} {moment : Moment} {s : σ}
    (h : x.Obeys fun s _ u => R s u) (hP : ∀ {u}, R s u → P u) :
    x.Ends moment s (fun _ u => P u) fun _ u => P u :=
  (h.ends moment s).mono (fun _ _ => hP) fun _ _ => hP

end Action

namespace Tracker

open TreeWatch.Action

section Lines

/-- The line that says that the last live root is retired. -/
def exhaustedLine : Log.Line := .info "all roots have been retired"

theorem exhaustedLine_ne_info {text : String} (h : text.toList.head? ≠ some 'a') :
    exhaustedLine ≠ .info text := by
  intro heq
  have htext : "all roots have been retired" = text := congrArg Log.Line.text heq
  subst htext
  exact h (by decide)

theorem exhaustedLine_notMem_of_level {lines : List Log.Line}
    (h : ∀ line ∈ lines, line.level ≠ .info) :
    exhaustedLine ∉ lines := fun hmem => h _ hmem rfl

theorem exhaustedLine_notMem_debug {category : Log.Category} {text : String} :
    exhaustedLine ∉ [Log.Line.debug category text] :=
  exhaustedLine_notMem_of_level (by simp [Log.Line.debug])

theorem exhaustedLine_notMem_warn {text : String} : exhaustedLine ∉ [Log.Line.warn text] :=
  exhaustedLine_notMem_of_level (by simp [Log.Line.warn])

theorem exhaustedLine_notMem_info {text : String} (h : text.toList.head? ≠ some 'a') :
    exhaustedLine ∉ [Log.Line.info text] := by
  rw [List.mem_singleton]
  exact exhaustedLine_ne_info h

theorem level_cutLines {path : Path} : ∀ line ∈ WatchTable.cutLines path, line.level ≠ .info := by
  unfold WatchTable.cutLines
  split <;> simp [Log.Line.warn]

variable (table : WatchTable)

theorem level_growLines : ∀ line ∈ table.growLines, line.level ≠ .info := by
  unfold WatchTable.growLines
  split <;> simp [Log.Line.debug]

theorem exhaustedLine_notMem_insertLines (id : WatchId) (path : Path) :
    exhaustedLine ∉ table.insertLines id path := by
  refine exhaustedLine_notMem_of_level fun line hline => ?_
  unfold WatchTable.insertLines at hline
  split at hline
  · cases hline
  · rcases List.mem_append.mp hline with hline | hline
    · rcases List.mem_append.mp hline with hline | hline
      · exact level_growLines table line hline
      · exact level_cutLines line hline
    · rw [List.mem_singleton.mp hline]
      simp [Log.Line.debug]

theorem exhaustedLine_notMem_eraseLines (slot : Nat) : exhaustedLine ∉ table.eraseLines slot := by
  unfold WatchTable.eraseLines
  split
  · exact exhaustedLine_notMem_debug
  · exact List.not_mem_nil

theorem exhaustedLine_notMem_relocateLines (source target : Path) :
    exhaustedLine ∉ table.relocateLines source target := by
  refine exhaustedLine_notMem_of_level fun line hline => ?_
  obtain ⟨⟨slot, entry⟩, -, hline⟩ := List.mem_flatMap.mp hline
  simp only at hline
  split at hline
  · rcases List.mem_cons.mp hline with rfl | hline
    · simp [Log.Line.debug]
    · exact level_cutLines line hline
  · cases hline

theorem exhaustedLine_notMem_auditLines (tree : FileTree) :
    exhaustedLine ∉ Audit.lines tree table := by
  simp only [Audit.lines, List.mem_append, List.mem_map, not_or]
  refine ⟨⟨?_, ?_⟩, exhaustedLine_notMem_info (by simp [String.toList_append, ToString.toString])⟩
  · rintro ⟨⟨slot, entry⟩, -, hline⟩
    have hlevel : (Audit.entryLine tree slot entry).level ≠ .info := by
      unfold Audit.entryLine
      cases Audit.find tree entry.path with
      | directory => simp [Log.Line.debug]
      | otherObject => simp [Log.Line.error]
      | nothing error => cases error <;> simp [Log.Line.warn]
    exact hlevel (congrArg Log.Line.level hline)
  · rintro ⟨path, -, hline⟩
    simpa [Log.Line.warn, exhaustedLine, Log.Line.info] using congrArg Log.Line.level hline

end Lines

theorem state_retireRoot (moment : Moment) (t : Tracker) (path : Path) :
    (retireRoot path moment t).state = t.withoutRoot path := by
  have hends : (retireRoot path).Ends moment t (fun _ u => u = t.withoutRoot path)
      fun _ u => u = t.withoutRoot path := ends_retireRoot.mpr rfl
  exact hends.state

variable {R : Tracker → List Log.Line → Tracker → Prop} {path : Path} {event : Event}

/-- A law that covering directories and giving them up obeys. -/
structure CoverLaw (R : Tracker → List Log.Line → Tracker → Prop) : Prop extends Law R where
  said : ∀ t {lines}, exhaustedLine ∉ lines → R t lines t
  asked : ∀ {t tree path id source}, t.source.add tree path = .ok (id, source) →
    R t [] { t with source }
  released : ∀ {t id source}, t.source.remove id = .ok source → R t [] { t with source }
  table : ∀ t table, R t [] { t with table }
  draining : ∀ t draining, R t [] { t with draining }
  retired : ∀ path, (retireRoot path).Obeys R

/-- A law that events obey, those that tell of half a rename left out. -/
structure EventLaw (R : Tracker → List Log.Line → Tracker → Prop) : Prop extends CoverLaw R where
  cleared : ∀ {t source}, t.source.reset = .ok source → R t [] (cleared source t)
  noted : ∀ t created deleted stale overflows,
    R t [] { t with counts := { t.counts with created, deleted, stale, overflows } }

/-- A law that all that is done for an event obeys, its count left out. -/
structure MoveLaw (R : Tracker → List Log.Line → Tracker → Prop) : Prop extends EventLaw R where
  moved : ∀ t departures renamed movedOut,
    R t [] { t with departures, counts := { t.counts with renamed, movedOut } }

/-- A law that every step obeys, whatever else happens to the source. -/
structure StepLaw (R : Tracker → List Log.Line → Tracker → Prop) : Prop extends MoveLaw R where
  counted : ∀ t, R t [] t.counted
  supplied : ∀ t source, R t [] { t with source }

namespace CoverLaw

variable (hR : CoverLaw R)

include hR

theorem say {lines : List Log.Line} (hlines : exhaustedLine ∉ lines) : (say lines).Obeys R :=
  fun _ t => hR.said t hlines

theorem sayFrom {lines : List Log.Line} {α : Type} {f : Unit → Action Tracker α} {moment : Moment}
    {t : Tracker} (hlines : exhaustedLine ∉ lines) (hf : (f ()).ObeysFrom moment t R) :
    (Action.say lines >>= f).ObeysFrom moment t R := hR.next (hR.said t hlines) hf

theorem debug {category : Log.Category} {text : String} :
    (Action.say [.debug category text] : Action Tracker Unit).Obeys R :=
  hR.say exhaustedLine_notMem_debug

theorem addEntry (id : WatchId) : (addEntry id path).Obeys R := by
  refine hR.look fun tracker => ?_
  split
  · exact hR.bind (hR.say (exhaustedLine_notMem_insertLines _ _ _)) fun _ =>
      .change fun t => hR.table t _
  · exact hR.fail _

theorem removeEntry (slot : Nat) : (removeEntry slot).Obeys R := by
  refine hR.look fun tracker => ?_
  split
  · exact hR.pure _
  · exact hR.bind (hR.say (exhaustedLine_notMem_eraseLines _ _)) fun _ =>
      hR.bind (.change fun t => hR.table t _) fun _ => hR.pure _

theorem moveEntries (source target : Path) : (moveEntries source target).Obeys R :=
  hR.look fun _ => hR.bind (hR.say (exhaustedLine_notMem_relocateLines _ _ _)) fun _ =>
    hR.bind (.change fun t => hR.table t _) fun _ => hR.pure _

theorem requestWatch (path : Path) : (requestWatch path).Obeys R := by
  refine hR.bind hR.tree fun tree => Obeys.look fun moment t => ?_
  split
  · next hadd => exact hR.bindFrom (hR.asked hadd) fun _ => hR.pure _
  · split
    · exact hR.fail _ moment t
    · exact hR.bind hR.debug (fun _ => hR.pure _) moment t

theorem watchDirectory (path : Path) : (watchDirectory path).Obeys R := by
  refine hR.bind (hR.requestWatch path) fun watch => ?_
  split
  · refine hR.look fun tracker => ?_
    split
    · exact hR.bind (hR.addEntry _) fun _ => hR.pure _
    · split
      · split
        · exact hR.pure _
        · exact hR.bind hR.debug fun _ => hR.bind (hR.moveEntries _ _) fun _ =>
            hR.bind (hR.retired _) fun _ => hR.pure _
      · exact hR.pure _
  · exact hR.pure _

theorem watchItems (start : Path) (items : List FileTree.WalkItem) :
    (watchItems start items).Obeys R := by
  induction items with
  | nil => exact hR.pure 0
  | cons item rest ih =>
    cases item with
    | failed path error => exact hR.bind hR.debug fun _ => ih
    | entry path isDirectory =>
      cases isDirectory with
      | false => exact ih
      | true =>
        refine hR.bind (hR.watchDirectory path) fun watched => ?_
        split
        · exact hR.bind ih fun _ => hR.pure _
        · exact ih

theorem coverSubtree (path : Path) : (coverSubtree path).Obeys R :=
  hR.bind hR.tree fun _ => hR.bind (hR.watchItems _ _) fun _ => hR.bind hR.debug fun _ => hR.pure _

theorem coverRoot (path : Path) : (coverRoot path).Obeys R := by
  refine hR.bind hR.tree fun tree => ?_
  split
  · refine hR.bind hR.debug fun _ => hR.bind (hR.coverSubtree path) fun _ =>
      hR.look fun tracker => ?_
    split
    · exact hR.bind (hR.retired path) fun _ => hR.pure _
    · exact hR.pure _
  · exact hR.bind (hR.say exhaustedLine_notMem_warn) fun _ =>
      hR.bind (hR.retired path) fun _ => hR.pure _

theorem coverRoots (paths : List Path) : (coverRoots paths).Obeys R := by
  induction paths with
  | nil => exact hR.pure 0
  | cons path rest ih => exact hR.bind (hR.coverRoot path) fun _ => hR.bind ih fun _ => hR.pure _

theorem cover : cover.Obeys R := hR.look fun _ => hR.coverRoots _

theorem start : start.Obeys R :=
  hR.bind hR.cover fun _ => hR.look fun _ =>
    hR.bind (hR.say (exhaustedLine_notMem_info (by simp [String.toList_append, ToString.toString])))
      fun _ => hR.pure _

theorem drain (id : WatchId) : (drain id).Obeys R := by
  refine .change fun t => ?_
  split
  · exact hR.rest t
  · exact hR.draining t _

theorem giveUpEntry (slot : Nat) : (giveUpEntry slot).Obeys R := by
  have hfree (entry : Entry) : (do
      let _ ← Tracker.removeEntry slot
      retireRoot entry.path : Action Tracker Unit).Obeys R :=
    hR.bind (hR.removeEntry slot) fun _ => hR.retired _
  refine Obeys.look fun moment t => ?_
  split
  · exact hR.pure _ moment t
  · next entry _ =>
    simp only
    split
    · split
      · next hremove =>
        exact hR.bindFrom (hR.released hremove) fun _ => hR.bind (hR.drain _) fun _ => hfree entry
      · exact hR.bind hR.debug (fun _ => hR.bind (hR.drain _) fun _ => hfree entry) moment t
    · exact hfree entry moment t

theorem giveUpEntries (slots : List Nat) : (giveUpEntries slots).Obeys R := by
  induction slots with
  | nil => exact hR.pure ()
  | cons slot rest ih => exact hR.bind (hR.giveUpEntry slot) fun _ => ih

theorem giveUpSubtree (path : Path) : (giveUpSubtree path).Obeys R :=
  hR.look fun _ => hR.bind (hR.giveUpEntries _) fun _ => hR.pure _

end CoverLaw

namespace EventLaw

variable (hR : EventLaw R)

include hR

theorem rebuild : rebuild.Obeys R := by
  have hinfo := @exhaustedLine_notMem_info
  refine Obeys.look fun moment t =>
    hR.sayFrom (hinfo (by simp [String.toList_append, ToString.toString])) ?_
  split
  · exact hR.fail _ moment t
  · next hreset =>
    exact hR.bindFrom (hR.cleared hreset) fun _ => hR.bind hR.cover fun _ =>
      hR.bind (hR.say (hinfo (by simp [String.toList_append, ToString.toString]))) fun _ =>
        hR.pure _

theorem resolveDistrust (why : Distrust) : (resolveDistrust why).Obeys R := by
  refine hR.look fun tracker => ?_
  split
  · exact hR.fail _
  · exact hR.bind (hR.say exhaustedLine_notMem_warn) fun _ => hR.bind hR.rebuild fun _ => hR.pure _

theorem check : check.Obeys R := by
  refine hR.bind hR.tree fun tree => hR.look fun tracker =>
    hR.bind (hR.say (exhaustedLine_notMem_auditLines _ _)) fun _ => ?_
  simp only
  split
  · exact hR.bind (hR.resolveDistrust _) fun _ => hR.pure _
  · exact hR.pure _

theorem requireSlot (id : WatchId) : (requireSlot id).Obeys R := by
  refine hR.look fun tracker => ?_
  split
  · exact hR.pure _
  · exact hR.bind (hR.resolveDistrust _) fun _ => hR.pure _

theorem subject (event : Event) : (subject event).Obeys R := by
  unfold Tracker.subject
  split
  · exact hR.bind (hR.say exhaustedLine_notMem_warn) fun _ => hR.pure _
  · refine hR.bind (hR.requireSlot _) fun slot => ?_
    split
    · exact hR.look fun _ => hR.pure _
    · exact hR.pure _

theorem welcome (path : Path) : (welcome path).Obeys R := by
  refine hR.bind (hR.coverSubtree path) fun watched => ?_
  split
  · exact .change fun t => hR.noted t _ _ _ _
  · exact hR.pure ()

theorem onCreate (event : Event) : (onCreate event).Obeys R := by
  unfold Tracker.onCreate
  split
  · refine hR.bind (hR.subject event) fun path => ?_
    split
    · exact hR.welcome _
    · exact hR.pure ()
  · exact hR.pure ()

theorem onDeleteSelf (event : Event) : (onDeleteSelf event).Obeys R := by
  refine hR.bind (hR.drain _) fun _ => hR.look fun tracker => ?_
  split
  · exact hR.debug
  · refine hR.bind (hR.removeEntry _) fun path => ?_
    split
    · exact hR.bind (.change fun t => hR.noted t _ _ _ _) fun _ => hR.retired _
    · exact hR.pure ()

theorem onMoveSelf (event : Event) : (onMoveSelf event).Obeys R := by
  refine hR.look fun tracker => ?_
  split
  · exact hR.pure ()
  · split
    · exact hR.bind (hR.retired _) fun _ => hR.bind (hR.giveUpSubtree _) fun _ => hR.pure ()
    · exact hR.pure ()

theorem onOverflow : onOverflow.Obeys R := by
  refine hR.bind (.change fun t => hR.noted t _ _ _ _) fun _ =>
    hR.bind (hR.say exhaustedLine_notMem_warn) fun _ => hR.look fun tracker => ?_
  split
  · exact hR.fail _
  · exact hR.bind hR.rebuild fun _ => hR.pure ()

theorem onIgnored (event : Event) : (onIgnored event).Obeys R := by
  refine hR.bind (.change fun t => hR.draining t _) fun _ => hR.look fun tracker => ?_
  split
  · exact hR.pure ()
  · refine hR.bind (hR.removeEntry _) fun path => ?_
    split
    · exact hR.retired _
    · exact hR.pure ()

theorem onUnmount (event : Event) : (onUnmount event).Obeys R := by
  refine hR.bind (hR.drain _) fun _ => hR.look fun tracker => ?_
  split
  · exact hR.pure ()
  · exact hR.bind
      (hR.say (exhaustedLine_notMem_info (by simp [String.toList_append, ToString.toString])))
      fun _ =>
      hR.bind (hR.giveUpSubtree _) fun _ => hR.pure ()

theorem applyEvent (hfrom : event.kind = .movedFrom → (onMovedFrom event).Obeys R)
    (hto : event.kind = .movedTo → (onMovedTo event).Obeys R) : (applyEvent event).Obeys R := by
  unfold Tracker.applyEvent
  cases hkind : event.kind with
  | create => exact hR.onCreate event
  | deleteSelf => exact hR.onDeleteSelf event
  | moveSelf => exact hR.onMoveSelf event
  | movedFrom => exact hfrom hkind
  | movedTo => exact hto hkind
  | overflow => exact hR.onOverflow
  | ignored => exact hR.onIgnored event
  | unmount => exact hR.onUnmount event
  | other => exact hR.pure ()

end EventLaw

namespace MoveLaw

variable (hR : MoveLaw R)

include hR

theorem giveUpMoved (path : Path) : (giveUpMoved path).Obeys R :=
  hR.bind (hR.giveUpSubtree path) fun _ =>
    hR.bind (.change fun t => hR.moved t t.departures t.counts.renamed _) fun _ => hR.debug

theorem settle (departure : Departure) : (settle departure).Obeys R :=
  hR.bind hR.debug fun _ => hR.giveUpMoved _

theorem settleAll (waiting : List Departure) : (settleAll waiting).Obeys R := by
  induction waiting with
  | nil => exact hR.pure ()
  | cons departure rest ih => exact hR.bind (hR.settle departure) fun _ => ih

theorem expire : expire.Obeys R :=
  hR.look fun _ => hR.bind (.change fun t => hR.moved t _ t.counts.renamed t.counts.movedOut)
      fun _ =>
    hR.bind (hR.settleAll _) fun _ => hR.pure _

theorem onMovedFrom (event : Event) : (onMovedFrom event).Obeys R := by
  unfold Tracker.onMovedFrom
  split
  · refine hR.bind (hR.subject event) fun path => ?_
    split
    · split
      · exact hR.giveUpMoved _
      · refine hR.bind hR.debug fun _ => hR.bind hR.now fun now => hR.look fun tracker =>
          hR.bind (.change fun t => hR.moved t _ t.counts.renamed t.counts.movedOut) fun _ => ?_
        split
        · exact hR.settle _
        · exact hR.pure ()
    · exact hR.pure ()
  · exact hR.pure ()

theorem rename (source target : Path) : (rename source target).Obeys R := by
  refine hR.bind (.change fun t => hR.moved t t.departures _ t.counts.movedOut) fun _ =>
    hR.look fun before => hR.bind (hR.requestWatch target) fun watch => ?_
  split
  · refine hR.bind hR.debug fun _ => ?_
    split
    · exact hR.bind (hR.moveEntries _ _) fun _ => hR.retired _
    · exact hR.pure ()
  · split
    · exact hR.bind (hR.moveEntries _ _) fun _ => hR.bind hR.debug fun _ => hR.retired _
    · exact hR.bind hR.debug fun _ => hR.bind (hR.coverSubtree _) fun _ => hR.pure ()

theorem claim (cookie : Option Nat) : (claim cookie).Obeys R := by
  refine hR.look fun tracker => ?_
  split
  · exact hR.pure _
  · exact hR.bind (.change fun t => hR.moved t _ t.counts.renamed t.counts.movedOut) fun _ =>
      hR.pure _

theorem onMovedTo (event : Event) : (onMovedTo event).Obeys R := by
  unfold Tracker.onMovedTo
  split
  · refine hR.bind (hR.subject event) fun path => ?_
    split
    · refine hR.bind (hR.claim _) fun departure => ?_
      split
      · exact hR.rename _ _
      · exact hR.bind hR.debug fun _ => hR.welcome _
    · exact hR.pure ()
  · exact hR.pure ()

/-- Handling an event is to count it, and then to do what its law allows. -/
theorem handle_counted (event : Event) (moment : Moment) (t : Tracker) :
    R t.counted (handle event moment t).log (handle event moment t).state := by
  have hrest : (do
      let tracker ← state
      if tracker.isStale event then
        change fun tracker =>
          { tracker with counts := { tracker.counts with stale := tracker.counts.stale + 1 } }
        Action.say [.debug .events
          s!"watch {event.watch.text} is being removed, ignoring {event.kind.label}"]
      else Tracker.applyEvent event
      let tracker ← state
      pure tracker.flow : Action Tracker Flow).Obeys R := by
    refine hR.look fun tracker => ?_
    split
    · exact hR.bind (.change fun t => hR.noted t _ _ _ _) fun _ => hR.bind hR.debug fun _ =>
        hR.look fun _ => hR.pure _
    · exact hR.bind (hR.applyEvent (fun _ => hR.onMovedFrom event) fun _ => hR.onMovedTo event)
        fun _ => hR.look fun _ => hR.pure _
  unfold Tracker.handle
  apply ObeysFrom.change
  refine hR.bind hR.debug (fun _ => hR.look fun tracker => ?_) moment _
  split
  · exact hR.bind hR.expire fun _ => hrest
  · exact hrest

end MoveLaw

namespace StepLaw

variable (hR : StepLaw R)

include hR

theorem handle (event : Event) : (handle event).Obeys R := fun moment t =>
  hR.next (hR.counted t) (hR.handle_counted event moment t)

theorem pump : pump.Obeys R := by
  have htake : takeEvent.Obeys R := by
    refine hR.look fun tracker => ?_
    split
    · exact hR.pure _
    · exact hR.bind (.change fun t => hR.supplied t _) fun _ => hR.pure _
  refine hR.bind htake fun event => ?_
  split
  · exact hR.pure _
  · exact hR.bind (hR.handle _) fun _ => hR.pure _

theorem act (step : Step) : step.act.Obeys R := by
  cases step with
  | start => exact hR.bind hR.start fun _ => hR.pure ()
  | push event => exact .change fun t => hR.supplied t _
  | regulate refused refusesReset => exact .change fun t => hR.supplied t _
  | pump => exact hR.bind hR.pump fun _ => hR.pure ()
  | handle event => exact hR.bind (hR.handle event) fun _ => hR.pure ()
  | expire => exact hR.bind hR.expire fun _ => hR.pure ()
  | check => exact hR.bind hR.check fun _ => hR.pure ()
  | rebuild => exact hR.bind hR.rebuild fun _ => hR.pure ()

/-- What a whole run wrote and left is as a law says that every step obeys. -/
theorem run {admits : Transition → Prop} {t u : Tracker} {history : List Transition}
    (h : Run admits t history u) : R t (history.flatMap (·.reply.log)) u := by
  induction h with
  | nil t => exact hR.rest t
  | @cons transition history u _ _ ih =>
    rw [List.flatMap_cons]
    exact hR.next (hR.act transition.step transition.moment transition.before) ih

end StepLaw

end Tracker

end TreeWatch
