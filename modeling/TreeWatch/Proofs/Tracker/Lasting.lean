import TreeWatch.Proofs.Tracker.Monitoring
import TreeWatch.Proofs.Tracker.Registration

/-!
# What outlasts failures

A step that fails leaves the state in which the fault arose, and that is a state between two small
changes, or one in which a watch was asked for and there was no room for its entry. What every small
change keeps, and that half of one too, holds in every state that a tracker ever comes to.

Two things are of this kind: entries have live watches of their own, and they lie at and below the
roots that were named.
-/

namespace TreeWatch

namespace Tracker

open TreeWatch.Action

variable {moment : Moment} {tree : FileTree} {fits : Path → Prop} {t u : Tracker} {event : Event}
  {fault : Fault} {P done : Tracker → Prop} {history : List Transition}

/-- What every small change at fitting paths keeps, and starting over too; the roots that are live
meanwhile are at such paths. -/
structure Lasts (tree : FileTree) (fits : Path → Prop) (P : Tracker → Prop) : Prop where
  sheds : ∀ {t u}, P t → Sheds t u → P u
  gathers : ∀ {t u}, P t → Gathers tree fits t u → P u
  /-- A watch is asked for, and nothing comes of it. -/
  asked : ∀ {t path id source}, P t → t.source.add tree path = .ok (id, source) →
    P { t with source }
  wiped : ∀ {t}, P t → P t.wiped
  suits : ∀ {t}, P t → ∀ root ∈ t.roots.live, tree.isDirectory root.path = true →
    Suits tree fits root.path

namespace Lasts

theorem shed (hP : Lasts tree fits P) (h : P t) (hu : Shed t u) : P u := by
  induction hu with
  | refl => exact h
  | tail _ hstep ih => exact hP.sheds ih hstep

theorem gathered (hP : Lasts tree fits P) (h : P t) (hu : Gathered tree fits t u) : P u := by
  induction hu with
  | refl => exact h
  | tail _ hstep ih => exact hP.gathers ih hstep

theorem stalled (hP : Lasts tree fits P) (h : P t) (hu : Stalled tree fits t fault u) : P u := by
  obtain ⟨v, hv, ⟨-, rfl⟩ | ⟨-, path, id, source, hadd, rfl⟩⟩ := hu
  · exact hP.gathered h hv
  · exact hP.asked (hP.gathered h hv) hadd

variable (hP : Lasts moment.tree fits P)

include hP

theorem ends_cover (h : P t) : cover.Ends moment t (fun _ u => P u) fun _ u => P u :=
  (gathering_cover t (hP.suits h)).mono (fun _ _ => hP.gathered h) fun _ _ => hP.stalled h

theorem ends_rebuild (h : P t) : rebuild.Ends moment t (fun _ u => P u) fun _ u => P u := by
  rw [Tracker.ends_rebuild]
  split
  · exact h
  · exact hP.ends_cover (hP.wiped h)

theorem ends_resolveDistrust {why : Distrust} (h : P t) :
    (resolveDistrust why).Ends moment t (fun _ u => P u) fun _ u => P u := by
  rw [Tracker.ends_resolveDistrust]
  split
  · exact h
  · exact hP.ends_rebuild h

theorem ends_check (h : P t) : check.Ends moment t (fun _ u => P u) fun _ u => P u := by
  rw [Tracker.ends_check]
  split
  · exact hP.ends_resolveDistrust h
  · exact h

/-- Handling keeps what lasts, if what the event names fits; what becomes of it when the end of a
watch is taken in is another matter. -/
theorem ends_handle (h : P t)
    (hfits : ∀ u, P u → event.Arrives → ∀ entry ∈ u.table.entries, ∀ name, event.name = some name →
      Suits moment.tree fits (entry.path.child name))
    (hother : event.kind ≠ .ignored → ∀ u, P u → done u)
    (hended : event.kind = .ignored → ∀ u, P u → done (u.ended event.watch)) :
    (handle event).Ends moment t (fun _ u => done u) fun _ u => done u := by
  have hreceived := hP.shed h (shed_received t event)
  have hkind (harrives : event.Arrives) : event.kind ≠ .ignored := by
    rcases harrives.2 with hkind | hkind <;> simp [hkind]
  apply ends_handle_of
  · exact fun hkind u hu => hother hkind u (hP.shed hreceived hu)
  · exact fun harrives u v hu hv =>
      hother (hkind harrives) v (hP.gathered (hP.shed hreceived hu) hv)
  · exact fun harrives fault u v hu hv =>
      hother (hkind harrives) v (hP.stalled (hP.shed hreceived hu) hv)
  · exact hfits _ hreceived
  · exact fun hneeds _ _ => (hP.ends_resolveDistrust hreceived).mono (fun _ u => hother hneeds.2 u)
      fun _ u => hother hneeds.2 u
  · intro hoverflow
    have hkind : event.kind ≠ .ignored := by simp [hoverflow]
    have hoverran : P (t.received event).overran := hP.sheds hreceived (.noted _ _ _ rfl)
    rw [ends_onOverflow]
    split
    · exact hother hkind _ hoverran
    · exact (hP.ends_rebuild hoverran).mono (fun _ u => hother hkind u) fun _ u => hother hkind u
  · exact fun hkind => hended hkind _ hreceived

end Lasts

theorem Lasts.after {transition : Transition} (hP : Lasts transition.moment.tree fits P)
    (h : P transition.before)
    (hsource : ∀ source : Source, source.live = transition.before.source.live →
      source.nextId = transition.before.source.nextId → P { transition.before with source })
    (hpump : ∀ event source, transition.step = .pump →
      transition.before.source.next? = some (event, source) →
      (handle event).Ends transition.moment { transition.before with source } (fun _ u => P u)
        fun _ u => P u)
    (hhandle : ∀ event, transition.step = .handle event →
      (handle event).Ends transition.moment transition.before (fun _ u => P u) fun _ u => P u) :
    P transition.after := by
  have hends : transition.step.act.Ends transition.moment transition.before (fun _ u => P u)
      fun _ u => P u :=
    Transition.ends_act hsource (fun _ => hP.ends_cover h) hpump hhandle
      (hP.shed h (shed_expired _)) (hP.ends_check h) (hP.ends_rebuild h)
  exact hends.state

section Registered

variable {source : Source} {roots : Roots} {policy : Policy}

theorem Registered.lasts (tree : FileTree) (ended : Option WatchId) :
    Lasts tree (fun _ => True) (Registered ended) where
  sheds := of_sheds
  gathers := of_gathers
  asked h hadd := ⟨h.sound.add hadd, h.ids, h.bound,
    h.live_of_subset (Source.live_subset_of_add hadd)⟩
  wiped h := h.wiped.weaken ended
  suits _ _ _ _ := suits_true

theorem Registered.ends_handle_whole
    (h : Registered (if event.kind = .ignored then some event.watch else none) t) :
    (handle event).Ends moment t (fun _ u => Registered none u) fun _ u => Registered none u := by
  apply (lasts moment.tree _).ends_handle h
  · exact fun _ _ _ _ _ _ _ => suits_true
  · intro hkind u hu
    rwa [if_neg hkind] at hu
  · intro hkind u hu
    rw [if_pos hkind] at hu
    exact hu.close

theorem Registered.after_any {transition : Transition} (h : Registered none transition.before) :
    Registered none transition.after :=
  (lasts transition.moment.tree none).after h (fun _ hlive hnextId => h.of_same hlive hnextId rfl)
    (fun _ _ _ hnext => (h.take hnext).ends_handle_whole) fun _ _ => (h.weaken _).ends_handle_whole

/-- Whatever happened, entries have live watches of their own. -/
theorem Run.registered {admits : Transition → Prop} (hlive : source.live = [])
    (h : Run admits (ofRoots source roots policy) history t) : Registered none t :=
  h.keeps (.fresh roots policy hlive) fun _ _ ht => ht.after_any

end Registered

section Grounded

variable {named : Roots} {source : Source} {policy : Policy}

theorem Grounded.lasts (hproper : named.Proper) (hwf : tree.WellFormed) :
    Lasts tree named.ContinuedBy (Grounded named) where
  sheds h hu := h.of_shed (.single hu)
  gathers h hu := h.of_gathers hproper hu
  asked h _ := ⟨h.live, h.entries⟩
  wiped h := ⟨h.live, by simp⟩
  suits h root hroot hdirectory :=
    @suits_root ⟨tree, 0⟩ _ _ hproper hwf (h.live.subset hroot) hdirectory

/-- A step in a file tree in which everything has its place, with an event that names an entry of
the watched directory if it names any. It may fail. -/
structure Transition.Regular (transition : Transition) : Prop where
  wellFormed : transition.moment.tree.WellFormed
  named : ∀ event ∈ transition.event?, ∀ name ∈ event.name, slash ∉ name

theorem Grounded.after {transition : Transition} (hproper : named.Proper)
    (hregular : transition.Regular) (h : Grounded named transition.before) :
    Grounded named transition.after := by
  have hlasts := Grounded.lasts hproper hregular.wellFormed
  have hhandle {event : Event} {u : Tracker} (hevent : transition.event? = some event)
      (hu : Grounded named u) : (handle event).Ends transition.moment u
        (fun _ v => Grounded named v) fun _ v => Grounded named v := by
    apply hlasts.ends_handle hu
    · intro v hv _ entry hentry name hname
      exact Grounded.suits hproper hregular.wellFormed
        ((hv.entries entry hentry).child hproper (hregular.named event hevent name hname))
    · exact fun _ v hv => hv
    · exact fun _ v hv => hv.ended event.watch
  apply hlasts.after h
  · exact fun source _ _ => ⟨h.live, h.entries⟩
  · intro event source hstep hnext
    exact hhandle (by simp [Transition.event?, hstep, hnext]) ⟨h.live, h.entries⟩
  · exact fun event hstep => hhandle (by simp [Transition.event?, hstep]) h

/-- Whatever happened, the table holds only paths that continue those of the roots that were
named. -/
theorem Run.grounded (hproper : named.Proper)
    (h : Run Transition.Regular (ofRoots source named policy) history t) : Grounded named t := by
  have hfresh : Grounded named (ofRoots source named policy) := ⟨List.Sublist.refl _, by
    simp [ofRoots, WatchTable.empty, WatchTable.ofStep, WatchTable.entries]⟩
  exact h.keeps hfresh fun _ hregular ht => ht.after hproper hregular

end Grounded

end Tracker

end TreeWatch
