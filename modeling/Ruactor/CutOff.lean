import Ruactor.Panics

/-!
# The batch limit and unstashed messages

`receive` decides from the lengths of its two queues whether to go on. The queue
`unstashed` has no part in it, so a batch that is cut off while only that one has
messages leaves them behind.
-/

namespace Ruactor

open Machine

variable {T : Type} {path : ActorPath} {option : PropsOption} {parent : ParentRef}

namespace Mailbox

/-- What is left in `unstashed` is accompanied by a message in a queue. -/
def Accompanied (m : Mailbox T) : Prop :=
  ∀ context ∈ m.dispatcher.context, context.unstashed ≠ [] →
    m.messageQueue.items ≠ [] ∨ m.internalQueue ≠ []

instance (m : Mailbox T) : Decidable m.Accompanied :=
  match h : m.dispatcher.context with
  | none => isTrue (by simp [Accompanied, h])
  | some context =>
    decidable_of_iff (context.unstashed.isEmpty = false →
      m.messageQueue.items.isEmpty = false ∨ m.internalQueue.isEmpty = false)
      (by simp [Accompanied, h])

def CutOff (m : Mailbox T) : Task T → Prop
  | .looping n .processed => n + 1 ≥ m.option.throughput
  | _ => False

instance (m : Mailbox T) : DecidablePred m.CutOff
  | .looping n .processed => inferInstanceAs (Decidable (n + 1 ≥ m.option.throughput))
  | .looping _ .nextMessage | .looping _ .popInternal | .looping _ (.internalMessage _)
  | .looping _ .closing | .looping _ (.stopping _) | .looping _ .terminating
  | .looping _ .notifying | .looping _ .replying | .looping _ .popUser
  | .looping _ (.processing _ _) | .spawned | .draining | .storing | .rechecking _ =>
    inferInstanceAs (Decidable False)

theorem Env.accompanied {m m' : Mailbox T} (henv : m.Env m') (h : m.Accompanied) :
    m'.Accompanied := by
  intro context hcontext hu
  rw [henv.dispatcher] at hcontext
  have hq := h context hcontext hu
  cases henv with
  | pushed _ hitems => exact .inl (by simp [hitems])
  | pushedInternal msg => exact .inr (by simp [pushInternal])
  | _ => exact hq

end Mailbox

namespace Node

/-- No callback panics outside `catch_unwind`, and a batch is cut off only while
`unstashed` is empty or a queue is not. -/
abbrev accompanied : Node T → Action T → Prop :=
  okTask fun m t input => Calm input.calls ∧ (m.CutOff t → m.Accompanied)

theorem accompanied_calm (nd : Node T) (a : Action T) (h : accompanied nd a) : calm nd a := by
  cases a with
  | task i input => exact fun t ht => (h t ht).1
  | _ => trivial

theorem accompanied_owned : Owned path option parent
    (fun m t input => Calm input.calls ∧ (m.CutOff t → m.Accompanied))
    (Mailbox.Phase (T := T))
    (fun m t => t = .storing → m.terminated = false → m.Accompanied)
    (fun m => m.terminated = false → m.Accompanied) (fun _ => True) where
  start := ⟨fun _ => nofun, trivial⟩
  env henv := by
    rw [henv.terminated]
    exact ⟨id, fun h ht => henv.accompanied (h ht), fun _ _ h hs ht => henv.accompanied (h hs ht)⟩
  acquire _ := ⟨id, fun _ => nofun⟩
  move {m input t r} move _ allowed base h _ := by
    refine ⟨trivial, fun t' ht' => ⟨fun _ => ?_, ?_⟩⟩
    · rintro rfl ht
      cases move with
      | drained _ => exact fun context hcontext => by simp [base.context] at hcontext
      | noContext hnone => exact fun context hcontext => by simp [hnone] at hcontext
      | terminated hclosed => exact absurd (hclosed.symm.trans ht) (by simp)
      | idle _ hcontext hu _ =>
        intro context' hcontext' hne
        obtain rfl := Option.some.inj (hcontext.symm.trans hcontext')
        exact absurd hu hne
      | cutOff hlimit => exact allowed.2 hlimit
      | start _ hf | terminate hf | process hf =>
        obtain ⟨_, -, -, -, hn, -⟩ | ⟨_, -, -, -, hn, -⟩ := Mailbox.finish_cases hf <;>
          rw [hn] at ht' <;> cases ht'
      | _ => cases ht'
    · rintro rfl
      cases move
      exact h rfl

theorem unstashed_never_stranded {nd : Node T}
    (h : (machine path option parent).Reach accompanied nd) (hq : Quiescent nd)
    (ht : nd.mbox.terminated = false) :
    ∀ context, nd.mbox.dispatcher.context = some context → context.unstashed = [] := by
  intro context hcontext
  have hcovered := reach_covered (calm_reach (h.mono accompanied_calm))
  have hrest := (accompanied_owned.reach (fun h => (reachable_phase h).loc) h).rest
  have hidle : nd.mbox.running = false := by
    by_contra hr
    obtain ⟨t, hmem, -⟩ := hcovered.held (by simpa using hr)
    simp [hq.1] at hmem
  by_contra hu
  rcases hrest hidle ht context hcontext hu with hn | hn
  · exact hn (hcovered.user_nil hq ht)
  · exact hn (hcovered.internal_nil hq)

theorem unstashed_never_stranded_stashing :
    stashingNode.mbox.dispatcher.context.map ActorContext.unstashed = some [] := by
  have hsome : stashingNode.mbox.dispatcher.context.isSome = true := by decide +kernel
  obtain ⟨context, hcontext⟩ := Option.isSome_iff_exists.mp hsome
  rw [hcontext, Option.map_some, unstashed_never_stranded (Reach.exec .start (by decide +kernel)
    stashingNode_run) (by decide +kernel) (by decide +kernel) context hcontext]

/-- The message 1 is stashed; the handler of 2 calls `unstash_all`, and the batch of one
message is over. -/
def cutOffRun : List (Action Nat) :=
  sending (.user 1) ++ sending (.user 2) ++
    callbacks [⟨.create, [], false⟩, ⟨.onEnter, [], false⟩] ++ turns 3 ++
    callbacks [⟨.onMessage, [.stash 1], false⟩] ++ turns 9 ++
    callbacks [⟨.onMessage, [.unstashAll], false⟩] ++ turns 4

abbrev single : Machine (Node Nat) (Action Nat) :=
  machine ⟨["user", "a"]⟩ { throughput := 1 } .guard

def cutOffNode : Node Nat := (single.exec single.start cutOffRun).get (by decide +kernel)

theorem cutOffNode_run : single.exec single.start cutOffRun = some cutOffNode :=
  (Option.some_get _).symm

theorem cutOff_left_behind :
    single.Reach returning cutOffNode ∧ Quiescent cutOffNode ∧
      cutOffNode.mbox.terminated = false ∧
      cutOffNode.mbox.dispatcher.context.map ActorContext.unstashed = some [1] :=
  ⟨Reach.exec .start (by decide +kernel) cutOffNode_run, by decide +kernel, by decide +kernel,
    by decide +kernel⟩

/-- A batch that is cut off with nothing but unstashed messages ends in a quiescent
state with these messages waiting, if nobody else acts. -/
theorem cutOff_strands {nd : Node T} {n : Nat} {context : ActorContext T}
    (htasks : nd.tasks = [.looping n .processed]) (hlimit : n + 1 ≥ nd.mbox.option.throughput)
    (hclients : ∀ client ∈ nd.clients, client.pending = false ∧ client.own = false)
    (hcontext : nd.mbox.dispatcher.context = some context)
    (hinternal : nd.mbox.internalQueue = []) (huser : nd.mbox.messageQueue.items = []) :
    ∃ nd', (machine path option parent).exec nd (turns 4) = some nd' ∧ Quiescent nd' ∧
      nd'.mbox.terminated = nd.mbox.terminated ∧
      nd'.mbox.dispatcher.context = some context := by
  have hown : ¬ ∃ c ∈ nd.clients, c.own = true := by
    rintro ⟨c, hmem, hc⟩
    simp [(hclients c hmem).2] at hc
  refine ⟨⟨{ nd.mbox with running := false }, [], nd.clients⟩, ?_,
    ⟨rfl, fun c hc => (hclients c hc).1⟩, rfl, hcontext⟩
  simp [turns, Machine.exec, machine, step, htasks, hown, Mailbox.taskStep, Mailbox.stageStep,
    hlimit, Pool.advance, Mailbox.numUserMessage, MessageQueue.len, huser,
    Mailbox.numInternalMessage, hinternal]

end Node

end Ruactor
