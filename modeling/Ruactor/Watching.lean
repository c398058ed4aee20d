import Ruactor.Orphans

/-!
# Watching

A call of `watch` completes when it reads `terminated`, or when its `Watch` message is
answered. The flag is set by `close`, before the children are stopped; between `close`
and the end of `terminate` it says too much. A watcher that does not look in between
is answered after the actor and its children have ended.
-/

namespace Ruactor

open Machine

variable {T : Type} {path : ActorPath} {option : PropsOption} {parent : ParentRef}

/-- A call of `watch` has completed, or its answer has been sent. -/
def Event.answers : Event T → Bool
  | .replied _ | .watchReturned _ => true
  | _ => false

def Client.watches : Client T → Bool
  | .watching _ => true
  | _ => false

def Task.watches : Task T → Bool
  | .looping _ (.internalMessage (.watch _)) => true
  | _ => false

/-- Between `close` and the end of `terminate`. -/
def Mailbox.closing (m : Mailbox T) : Bool := m.terminated && m.dispatcher.parent.isSome

theorem Mailbox.orphan_of_closed {m : Mailbox T} (ht : m.terminated = true)
    (hc : m.closing = false) : m.dispatcher.parent = none := by
  simpa [closing, ht] using hc

namespace Node

/-- The flag is read for a watcher while it says too much. -/
def untimely (nd : Node T) : Action T → Bool
  | .client i => nd.mbox.closing && (nd.clients[i]?).any Client.watches
  | .task i _ => nd.mbox.closing && (nd.tasks[i]?).any Task.watches
  | _ => false

theorem answers_orphan {nd : Node T} {a : Action T} {e : Event T} (h : nd.Logs a e)
    (ha : e.answers = true) (ht : nd.untimely a = false) : nd.mbox.dispatcher.parent = none := by
  cases h with
  | @task i input t _ hi _ _ hl =>
    cases hl with
    | called _ hcalled _ _ => cases e <;> cases ha <;> cases hcalled
    | answered hclosed =>
      exact Mailbox.orphan_of_closed hclosed (by simpa [untimely, hi, Task.watches] using ht)
    | drained hparent => exact hparent
    | replied hparent => exact hparent
    | _ => cases ha
  | watchReturned hi hclosed =>
    exact Mailbox.orphan_of_closed hclosed (by simpa [untimely, hi, Client.watches] using ht)
  | sent hs => cases e <;> cases ha <;> cases hs

theorem step_orphan {nd nd' : Node T} {a : Action T}
    (h : (machine path option parent).Reachable nd) (hstep : nd.step a = some nd')
    (hparent : nd.mbox.dispatcher.parent = none) : nd'.mbox.dispatcher.parent = none := by
  by_cases ha : ∃ msg, a = .deliver msg
  · obtain ⟨msg, rfl⟩ := ha
    cases hstep
    exact hparent
  · obtain ⟨events, hkin⟩ := step_kin h (fun msg he => ha ⟨msg, he⟩) hstep
    rcases hkin.parent with ⟨hsame, -⟩ | ⟨p, hp, -⟩
    · exact hsame.trans hparent
    · exact absurd (hp.symm.trans hparent) (by simp)

end Node

namespace Tree

/-- An orderly step in which nobody watches an actor that is closing. -/
def Timely (tree : Tree T) (step : NodeId × Action T) : Prop :=
  Orderly tree step ∧ ∀ nd ∈ tree step.1, nd.untimely step.2 = false

instance (tree : Tree T) (step : NodeId × Action T) : Decidable (Timely tree step) :=
  inferInstanceAs (Decidable (_ ∧ ∀ nd ∈ tree step.1, _ = _))

structure Ended (tree : Tree T) (id : NodeId) (nd : Node T) : Prop where
  farewell : Farewell nd.mbox.path nd.mbox.log
  children : ∀ k child, tree (k :: id) = some child → child.mbox.dispatcher.parent = none

/-- Whoever has had an answer watched an actor that has ended. -/
def WatchSound (tree : Tree T) : Prop :=
  ∀ id nd e, tree id = some nd → e ∈ nd.mbox.log → e.answers = true → tree.Ended id nd

theorem answered_orphan {tree : Tree T} (h : (machine path option).Reach Timely tree) :
    ∀ id nd, tree id = some nd → (∃ e ∈ nd.mbox.log, e.answers = true) →
      nd.mbox.dispatcher.parent = none := by
  refine reach_each ?_ ?_ ?_ ?_ h
  · rintro ⟨e, he, -⟩
    cases he
  · rintro path name option ⟨e, he, ha⟩
    obtain rfl := List.mem_singleton.mp he
    cases ha
  · rintro nd msg hs ⟨e, he, ha⟩
    rcases List.mem_append.mp he with he | he
    · exact hs ⟨e, he, ha⟩
    · obtain rfl := List.mem_singleton.mp he
      cases ha
  · rintro tree id a nd nd' hr hid ok hstep hs ⟨e, he, ha⟩
    obtain ⟨_, _, _, hown⟩ := reachable_node hr hid
    obtain ⟨events, hlog, hlogs⟩ := Node.step_logs hown hstep
    refine Node.step_orphan hown hstep ?_
    rw [hlog] at he
    rcases List.mem_append.mp he with he | he
    · exact hs ⟨e, he, ha⟩
    · exact Node.answers_orphan (hlogs e he) ha (ok.2 nd hid)

theorem watch_sound {tree : Tree T} (h : (machine path option).Reach Timely tree) :
    WatchSound tree := by
  intro id nd e hid he ha
  have horphan := answered_orphan h id nd hid ⟨e, he, ha⟩
  obtain ⟨_, _, _, hown⟩ := reachable_node h hid
  have hfarewell := (Node.reachable_leaving hown).inv.farewell horphan
  exact ⟨hfarewell, reach_orphaned (fun _ _ ok => ok.1) h id nd hid hfarewell.left.terminating⟩

theorem watch_sound_ending : WatchSound endedTree :=
  watch_sound (Reach.exec .start (by decide +kernel : sample.Allows Timely _ endingRun)
    endingRun_tree)

/-- The root has a child and is stopped. A watcher comes when it has closed its mailbox. -/
def closingRun : List (NodeId × Action Nat) :=
  acting [] (Node.sending (.user 1) ++
    Node.callbacks [⟨.create, [], false⟩, ⟨.onEnter, [], false⟩] ++ Node.turns 3 ++
    Node.callbacks [⟨.onMessage, [.createChild 0 {}], false⟩] ++ Node.stopping ++ Node.turns 4 ++
    [.call (.watch 9), .client 0])

def closingTree : Tree Nat := (sample.exec sample.start closingRun).get (by decide +kernel)

/-- The call of `watch` completes, but neither the root nor its child has run `terminate`. -/
theorem closing_watch_returns :
    sample.Reachable closingTree ∧
      (closingTree []).map (fun nd => (nd.mbox.log.getLast?, nd.mbox.dispatcher.parent)) =
        some (some (.watchReturned 9), some .guard) ∧
      (closingTree [0]).map (fun nd => nd.mbox.dispatcher.parent) = some (some .actor) ∧
      ¬ WatchSound closingTree := by
  have hrun : sample.exec sample.start closingRun = some closingTree := (Option.some_get _).symm
  have hroot : (closingTree []).map (fun nd =>
      (nd.mbox.log.getLast?, nd.mbox.dispatcher.parent)) =
        some (some (.watchReturned 9), some .guard) := by decide +kernel
  have hchild : (closingTree [0]).map (fun nd => nd.mbox.dispatcher.parent) =
      some (some .actor) := by decide +kernel
  refine ⟨Reach.exec_reachable .start hrun, hroot, hchild, fun hsound => ?_⟩
  obtain ⟨nd, hid, hfacts⟩ := Option.map_eq_some_iff.mp hroot
  obtain ⟨child, hk, hparent⟩ := Option.map_eq_some_iff.mp hchild
  have hended := hsound [] nd _ hid (List.mem_of_getLast? (Prod.mk.inj hfacts).1) rfl
  exact absurd (hparent.symm.trans (hended.children 0 child hk)) (by simp)

end Tree

end Ruactor
