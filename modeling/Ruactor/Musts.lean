import Ruactor.Phases

/-!
# Every `expect("must")` finds a context

A panic keeps the cell it leaves behind, and nothing that a callback does removes the
context. So the panic of a failed `expect` is told from that of a callback by the
context that is missing.
-/

namespace Ruactor

open Machine

variable {T : Type} {path : ActorPath} {option : PropsOption} {parent : ParentRef}

namespace Cell

/-- It unwound without a context, as a failed `expect` does. -/
def Missed (o : Outcome (Cell T)) : Prop := ∃ c, o = .panicked c ∧ c.disp.context = none

def HasContext (c : Cell T) : Prop := c.disp.context ≠ none

theorem not_missed {o : Outcome (Cell T)} {P : Cell T → Prop} (h : o.Ensures P HasContext) :
    ¬ Missed o := by
  rintro ⟨c, rfl, hnone⟩
  exact h hnone

theorem hasContext_stays : Stays (HasContext (T := T)) where
  call h hc := by
    apply call_ensures
    · exact fun hnone => absurd hnone hc
    · intro context cb calls _ _ _
      exact ⟨fun _ => Option.some_ne_none _, fun _ => Option.some_ne_none _⟩
  create h _ _ hcontext := by
    rw [HasContext, hcontext]
    exact h
  same h hcontext _ := by
    rw [HasContext, hcontext]
    exact h
  other _ _ hcontext _ := by
    rw [HasContext, hcontext]
    exact Option.some_ne_none _

theorem createContext_hasContext (c : Cell T) : c.createContext.HasContext := by
  cases hcontext : c.disp.context <;> simp [createContext, HasContext, hcontext]

end Cell

namespace Mailbox

/-- What a task does next finds a context wherever the source expects one, whichever
callbacks it runs. -/
def Finds (m : Mailbox T) : Task T → Prop
  | .spawned => ∀ input, m.dispatcher.parent ≠ none → ¬ Cell.Missed (m.cell input).startActor
  | .looping _ stage =>
    match stage with
    | .internalMessage (.childTerminate _ _) | .closing => m.dispatcher.context ≠ none
    | .terminating => ∀ input, ¬ Cell.Missed (m.cell input).terminateActor
    | .popUser => m.terminated = false → m.dispatcher.context ≠ none
    | .processing src msg => ∀ input,
        ¬ Cell.Missed ((m.cell input).onMessage m.numUserMessage src msg) ∧
          ¬ Cell.Missed ((m.cell input).processMessage m.numUserMessage src msg)
    | _ => True
  | _ => True

theorem active_context {d : Dispatcher T} {P : ActorContext T → Prop} (h : d.Active P) :
    d.context ≠ none := by
  obtain ⟨context, hcontext, -⟩ := h.context
  simp [hcontext]

theorem phase_finds {m : Mailbox T} {t : Task T} (h : m.Phase t) : m.Finds t := by
  cases t with
  | spawned =>
    exact fun input _ => Cell.not_missed
      (Cell.hasContext_stays.lasts.startActor (Cell.createContext_hasContext _))
  | looping n stage =>
    cases stage with
    | internalMessage msg =>
      cases msg with
      | childTerminate path k => exact active_context h
      | _ => trivial
    | closing => exact active_context h.2
    | terminating =>
      intro input
      have hcontext : (m.cell input).HasContext := active_context h.2
      exact Cell.not_missed (Cell.hasContext_stays.lasts.terminateActor hcontext)
    | popUser =>
      intro hopen
      rcases h with hl | hg
      · exact active_context hl
      · exact absurd (hopen.symm.trans hg.closed) (by simp)
    | processing src msg =>
      intro input
      have hcontext : (m.cell input).HasContext := active_context h.2
      exact ⟨Cell.not_missed (Cell.hasContext_stays.onMessage hcontext _ src msg),
        Cell.not_missed (Cell.hasContext_stays.processMessage hcontext _ src msg)⟩
    | _ => trivial
  | _ => trivial

end Mailbox

namespace Node

theorem musts_found {nd : Node T} (h : (machine path option parent).Reachable nd) :
    ∀ t ∈ nd.tasks, nd.mbox.Finds t :=
  fun _ ht => Mailbox.phase_finds (phase_of_mem h ht)

/-- The actor waits for its child, whose `ChildTerminate` has just been popped. -/
def orphanedRun : List (Action Nat) :=
  sending (.user 1) ++ callbacks [⟨.create, [], false⟩,
    ⟨.onEnter, [.getOrCreateChild "c" 0 {}], false⟩] ++ turns 3 ++
    callbacks [⟨.onMessage, [.transit, .stopSelf], true⟩, ⟨.onExit, [], false⟩,
      ⟨.onEnter, [], false⟩, ⟨.create, [], false⟩, ⟨.onEnter, [], false⟩] ++
    [.client 0, .client 0] ++ turns 7 ++ [.deliver (.childTerminate ⟨["user", "a", "c"]⟩ 0)] ++
    turns 1

def orphanedNode : Node Nat := (sample.exec sample.start orphanedRun).get (by decide +kernel)

theorem orphanedNode_run : sample.exec sample.start orphanedRun = some orphanedNode :=
  (Option.some_get _).symm

theorem orphanedNode_busy : orphanedNode.tasks ≠ [] :=
  List.length_pos_iff.mp (by decide +kernel)

theorem orphanedNode_finds : ∃ t ∈ orphanedNode.tasks, orphanedNode.mbox.Finds t := by
  obtain ⟨t, ht⟩ := List.exists_mem_of_ne_nil _ orphanedNode_busy
  exact ⟨t, ht, musts_found (Reach.start.exec_reachable orphanedNode_run) t ht⟩

end Node

end Ruactor
