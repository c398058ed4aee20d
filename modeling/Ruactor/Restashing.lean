import Ruactor.Deliveries
import Ruactor.Logging

/-!
# The order of pending messages

`unstash_all` puts the stash behind what an earlier `unstash_all` has left over. No order is
lost as long as it finds one of the two empty or the stash newer, and no message is stashed
behind a newer one. The stash is newer when a handler that has put messages back stashes its
own message after them.
-/

namespace Ruactor

open Machine

variable {T : Type} {path : ActorPath} {option : PropsOption} {parent : ParentRef}

/-- What the handler is given. Timer messages count when `timers` is set. -/
def Message.body (timers : Bool) : Message T → Option T
  | .user msg => some msg
  | .timer _ _ msg _ => if timers then some msg else none
  | _ => none

def bodies (timers : Bool) (items : List (Message T)) : List T :=
  items.filterMap (Message.body timers)

def arrivals (timers : Bool) (log : List (Event T)) : List T :=
  log.filterMap fun
    | .pushed msg => msg.body timers
    | _ => none

def ContextOp.stashed : ContextOp T → Option T
  | .stash msg => some msg
  | _ => none

/-- The message that the callbacks of a step may stash. -/
def Task.hand (timers : Bool) : Task T → List T
  | .looping _ (.processing _ msg) => (msg.body timers).toList
  | _ => []

/-- The handler consumes its message or stashes it, and nothing else is stashed. -/
def Consumes (timers : Bool) (t : Task T) (calls : List (Callback T)) : Prop :=
  (effects calls).filterMap ContextOp.stashed <+: t.hand timers

instance [DecidableEq T] (timers : Bool) (t : Task T) (calls : List (Callback T)) :
    Decidable (Consumes timers t calls) :=
  inferInstanceAs (Decidable (_ <+: _))

/-- Where the stash stands among the messages that wait: it is empty, or the oldest; or it was
moved to `unstashed`, and is older than the message in the hand; or it is newer than `unstashed`
and the message that was taken from there. -/
inductive StashPlace
  | empty
  | oldest
  | moved
  | newest
  deriving DecidableEq, Repr

namespace StashPlace

/-- The next message comes into the hand. -/
def serve : StashPlace → Source → StashPlace
  | .moved, _ => .empty
  | .newest, .queue => .oldest
  | place, _ => place

def stash : StashPlace → StashPlace
  | .empty => .oldest
  | .moved => .newest
  | place => place

def unstash : StashPlace → StashPlace
  | .oldest => .moved
  | .newest => .empty
  | place => place

def next (place : StashPlace) : Event T → StashPlace
  | .delivered _ src _ => place.serve src
  | .timerDelivered _ _ _ _ _ => place.serve .queue
  | .stashed _ => place.stash
  | .unstashedAll => place.unstash
  | _ => place

def after (place : StashPlace) (events : List (Event T)) : StashPlace := events.foldl next place

end StashPlace

/-- Nothing is stashed behind a newer message, and an older stash is not put behind what is left
in `unstashed`. -/
def Unmixed (place : StashPlace) (stash unstashed : List T) : List (ContextOp T) → Prop
  | [] => True
  | .stash msg :: ops => place ≠ .newest ∧ Unmixed place.stash (stash ++ [msg]) unstashed ops
  | .unstashAll :: ops => (place = .oldest → unstashed = []) ∧
      Unmixed place.unstash [] (unstashed ++ stash) ops
  | _ :: ops => Unmixed place stash unstashed ops

instance Unmixed.decidable [DecidableEq T] : ∀ (ops : List (ContextOp T)) (place : StashPlace)
    (stash unstashed : List T), Decidable (Unmixed place stash unstashed ops)
  | [], _, _, _ => isTrue trivial
  | .stash msg :: ops, place, stash, unstashed =>
    have := Unmixed.decidable ops place.stash (stash ++ [msg]) unstashed
    inferInstanceAs (Decidable (_ ∧ _))
  | .unstashAll :: ops, place, stash, unstashed =>
    have := Unmixed.decidable ops place.unstash [] (unstashed ++ stash)
    inferInstanceAs (Decidable ((_ → _) ∧ _))
  | .transit :: ops, place, stash, unstashed
  | .startSingleTimer _ _ _ :: ops, place, stash, unstashed
  | .cancelTimer _ :: ops, place, stash, unstashed
  | .setReceiveTimeout _ :: ops, place, stash, unstashed
  | .cancelReceiveTimeout :: ops, place, stash, unstashed
  | .createChild _ _ :: ops, place, stash, unstashed
  | .getOrCreateChild _ _ _ :: ops, place, stash, unstashed
  | .stopSelf :: ops, place, stash, unstashed
  | .elapse _ :: ops, place, stash, unstashed => Unmixed.decidable ops place stash unstashed

/-- The events that change the place of the stash. -/
def Event.shelves : Event T → Bool
  | .delivered _ _ _ | .timerDelivered _ _ _ _ _ | .stashed _ | .unstashedAll => true
  | _ => false

theorem Event.bookkeeping_idle {e : Event T} (h : e.bookkeeping = true) : e.shelves = false := by
  cases e <;> first | rfl | cases h

theorem armReceiveTimeout_idle (rt : Runtime) (context : ActorContext T) (d : Duration) :
    ∀ e ∈ (context.armReceiveTimeout rt d).log, e.shelves = false := by
  intro e he
  obtain rfl | ⟨handle, rfl⟩ := armReceiveTimeout_mem he <;> rfl

namespace StashPlace

theorem next_idle (place : StashPlace) {e : Event T} (h : e.shelves = false) :
    place.next e = place := by
  cases e <;> first | rfl | cases h

theorem after_append (place : StashPlace) (events events' : List (Event T)) :
    place.after (events ++ events') = (place.after events).after events' := List.foldl_append

theorem after_idle (place : StashPlace) {events : List (Event T)}
    (h : ∀ e ∈ events, e.shelves = false) : place.after events = place := by
  induction events with
  | nil => rfl
  | cons e events ih =>
    have hrest := ih fun e' he' => h e' (List.mem_cons_of_mem _ he')
    rwa [after, List.foldl_cons, place.next_idle (h e List.mem_cons_self)]

/-- The messages that wait outside the queue, the oldest first. -/
def line (place : StashPlace) (hand : List T) (context : ActorContext T) : List T :=
  match place with
  | .empty | .oldest => context.stash ++ hand ++ context.unstashed
  | .moved => context.unstashed ++ hand ++ context.stash
  | .newest => hand ++ context.unstashed ++ context.stash

end StashPlace

/-- `hand` may still be stashed by the operations to come. -/
def Tidy (place : StashPlace) (hand stash unstashed : List T) : List (ContextOp T) → Prop
  | [] => True
  | .stash msg :: ops => (place ≠ .newest ∧ hand = [msg]) ∧
      Tidy place.stash [] (stash ++ [msg]) unstashed ops
  | .unstashAll :: ops => (place = .oldest → unstashed = []) ∧
      Tidy place.unstash hand [] (unstashed ++ stash) ops
  | _ :: ops => Tidy place hand stash unstashed ops

variable {place : StashPlace}

theorem tidy_cons {hand stash unstashed : List T} {op : ContextOp T} {ops : List (ContextOp T)}
    (hstash : ∀ msg, op ≠ .stash msg) (hunstash : op ≠ .unstashAll) :
    Tidy place hand stash unstashed (op :: ops) ↔ Tidy place hand stash unstashed ops := by
  cases op with
  | stash msg => exact absurd rfl (hstash msg)
  | unstashAll => exact absurd rfl hunstash
  | _ => rfl

theorem tidy_of_unmixed {hand stash unstashed : List T} {ops : List (ContextOp T)}
    (hhand : ops.filterMap ContextOp.stashed <+: hand) (hlength : hand.length ≤ 1)
    (h : Unmixed place stash unstashed ops) : Tidy place hand stash unstashed ops := by
  induction ops generalizing place hand stash unstashed with
  | nil => trivial
  | cons op ops ih =>
    cases op with
    | stash msg =>
      obtain ⟨hplace, hrest⟩ := h
      obtain ⟨rest, rfl⟩ := hhand
      have hnone : ops.filterMap ContextOp.stashed = [] ∧ rest = [] := by
        simpa [ContextOp.stashed] using hlength
      have hnothing : ops.filterMap ContextOp.stashed <+: [] := by simp [hnone.1]
      refine ⟨⟨hplace, ?_⟩, ih hnothing (Nat.zero_le _) hrest⟩
      simp [ContextOp.stashed, hnone.1, hnone.2]
    | unstashAll => exact ⟨h.1, ih hhand hlength h.2⟩
    | _ => exact ih hhand hlength h

/-- The messages that wait, in the order in which they were pushed. -/
structure Ordered (place : StashPlace) (all queued hand : List T) (context : ActorContext T) :
    Prop where
  stash : place = .empty ∨ place = .moved → context.stash = []
  line : (place.line hand context ++ queued).Sublist all

theorem StashPlace.line_sublist (place : StashPlace) {hand hand' : List T}
    (context : ActorContext T) (h : hand'.Sublist hand) :
    (place.line hand' context).Sublist (place.line hand context) := by
  cases place with
  | newest => exact (h.append_right _).append_right _
  | _ => exact (h.append_left _).append_right _

theorem Ordered.mono {all all' queued hand hand' : List T} {context : ActorContext T}
    (h : Ordered place all queued hand context) (hhand : hand'.Sublist hand)
    (hall : all.Sublist all') : Ordered place all' queued hand' context :=
  ⟨h.stash, (((place.line_sublist context hhand).append_right _).trans h.line).trans hall⟩

theorem Ordered.congr {all queued hand : List T} {context context' : ActorContext T}
    (h : Ordered place all queued hand context) (hstash : context'.stash = context.stash)
    (hunstashed : context'.unstashed = context.unstashed) :
    Ordered place all queued hand context' := by
  refine ⟨by rw [hstash]; exact h.stash, ?_⟩
  have hline := h.line
  cases place <;> simpa only [StashPlace.line, hstash, hunstashed] using hline

theorem Ordered.unstashed {all queued hand : List T} {context : ActorContext T}
    (h : Ordered place all queued hand context) : (context.unstashed ++ queued).Sublist all := by
  refine List.Sublist.trans (List.Sublist.append_right ?_ queued) h.line
  cases place <;> simp [StashPlace.line, List.append_assoc]

theorem not_sublist_swapped {all stash unstashed : List T} (hdistinct : all.Nodup)
    (hstash : stash ≠ []) (hunstashed : unstashed ≠ []) (h : (stash ++ unstashed).Sublist all) :
    ¬ (unstashed ++ stash).Sublist all := by
  intro hafter
  have hsame := (hdistinct.perm_iff_eq_of_sublist h hafter).mp List.perm_append_comm
  obtain ⟨a, stash, ha⟩ := List.exists_cons_of_ne_nil hstash
  obtain ⟨b, unstashed, hb⟩ := List.exists_cons_of_ne_nil hunstashed
  have hdisjoint := List.disjoint_of_nodup_append (hdistinct.sublist h)
  rw [ha, hb] at hsame hdisjoint
  obtain rfl : a = b := (List.cons.inj hsame).1
  exact hdisjoint List.mem_cons_self List.mem_cons_self

/-- Otherwise the order is lost at once, unless two pushes were equal. -/
theorem mixing_reorders {all queued hand : List T} {context : ActorContext T} (rt : Runtime)
    (h : Ordered .oldest all queued hand context) (hdistinct : all.Nodup)
    (hstash : context.stash ≠ []) (hunstashed : context.unstashed ≠ []) :
    ¬ ((context.unstashAll rt).context.unstashed ++ queued).Sublist all := by
  intro hmixed
  have hbefore : (context.stash ++ context.unstashed).Sublist all :=
    List.Sublist.trans (by simp [StashPlace.line, List.append_assoc]) h.line
  rw [ActorContext.unstashAll, ActorContext.unstashLoop_eq] at hmixed
  exact not_sublist_swapped hdistinct hstash hunstashed hbefore
    ((List.sublist_append_left _ _).trans hmixed)

/-- Or it is lost with the next `unstash_all`. -/
theorem stashing_reorders {all queued : List T} {msg : T} {context : ActorContext T} (rt : Runtime)
    (h : Ordered .newest all queued [msg] context) (hdistinct : all.Nodup)
    (hstash : context.stash ≠ []) :
    ¬ (((context.stashMessage rt msg).context.unstashAll rt).context.unstashed ++
      queued).Sublist all := by
  intro hmixed
  have hbefore : ([msg] ++ context.stash).Sublist all :=
    List.Sublist.trans (by simp [StashPlace.line]) h.line
  rw [ActorContext.unstashAll, ActorContext.unstashLoop_eq] at hmixed
  refine not_sublist_swapped hdistinct (by simp) hstash hbefore (List.Sublist.trans ?_ hmixed)
  simp [ActorContext.stashMessage]

theorem ContextOp.apply_tidy (rt : Runtime) {all queued hand : List T} {context : ActorContext T}
    (op : ContextOp T) {ops : List (ContextOp T)} (h : Ordered place all queued hand context)
    (ht : Tidy place hand context.stash context.unstashed (op :: ops)) :
    ∃ hand', Ordered (place.after (op.apply rt context).log) all queued hand'
        (op.apply rt context).context ∧
      Tidy (place.after (op.apply rt context).log) hand' (op.apply rt context).context.stash
        (op.apply rt context).context.unstashed ops := by
  by_cases hstash : ∃ msg, op = .stash msg
  · obtain ⟨msg, rfl⟩ := hstash
    obtain ⟨⟨hplace, rfl⟩, hrest⟩ := ht
    refine ⟨[], ⟨?_, ?_⟩, hrest⟩
    · change place.stash = .empty ∨ place.stash = .moved → _
      cases place <;> simp [StashPlace.stash]
    · change (StashPlace.line place.stash [] { context with stash := context.stash ++ [msg] } ++
        queued).Sublist all
      cases place with
      | empty | oldest => simpa [StashPlace.stash, StashPlace.line] using h.line
      | moved => simpa [StashPlace.stash, StashPlace.line, h.stash (.inr rfl)] using h.line
      | newest => exact absurd rfl hplace
  by_cases hunstash : op = .unstashAll
  · subst hunstash
    obtain ⟨hleft, hrest⟩ := ht
    simp only [apply, ActorContext.unstashAll, ActorContext.unstashLoop_eq]
    refine ⟨hand, ⟨fun _ => rfl, ?_⟩, hrest⟩
    change (StashPlace.line place.unstash hand { context with
      stash := [], unstashed := context.unstashed ++ context.stash } ++ queued).Sublist all
    cases place with
    | empty => simpa [StashPlace.unstash, StashPlace.line, h.stash (.inl rfl)] using h.line
    | oldest => simpa [StashPlace.unstash, StashPlace.line, hleft rfl] using h.line
    | moved => simpa [StashPlace.unstash, StashPlace.line, h.stash (.inr rfl)] using h.line
    | newest => simpa [StashPlace.unstash, StashPlace.line] using h.line
  · have hmsg : ∀ msg, op ≠ .stash msg := fun msg he => hstash ⟨msg, he⟩
    obtain ⟨-, hs, hu⟩ := op.apply_quiet rt context hmsg hunstash
    have hidle : ∀ e ∈ (op.apply rt context).log, e.shelves = false := by
      intro e he
      obtain ⟨msg, hop, -⟩ | ⟨hop, -⟩ | hbook := apply_log he
      · exact absurd hop (hmsg msg)
      · exact absurd hop hunstash
      · exact Event.bookkeeping_idle hbook
    rw [place.after_idle hidle, hs, hu]
    exact ⟨hand, h.congr hs hu, (tidy_cons hmsg hunstash).mp ht⟩

theorem runOps_tidy (rt : Runtime) {all queued hand : List T} {context : ActorContext T}
    {ops rest : List (ContextOp T)} (h : Ordered place all queued hand context)
    (ht : Tidy place hand context.stash context.unstashed (ops ++ rest)) :
    ∃ hand', Ordered (place.after (runOps rt context ops).log) all queued hand'
        (runOps rt context ops).context ∧
      Tidy (place.after (runOps rt context ops).log) hand' (runOps rt context ops).context.stash
        (runOps rt context ops).context.unstashed rest := by
  induction ops generalizing place hand rt context with
  | nil => exact ⟨hand, h, ht⟩
  | cons op ops ih =>
    obtain ⟨hand', h', ht'⟩ := op.apply_tidy rt h ht
    obtain ⟨hand'', h'', ht''⟩ := ih (op.apply rt context).rt h' ht'
    refine ⟨hand'', ?_, ?_⟩
    · rw [runOps, place.after_append]
      exact h''
    · rw [runOps, place.after_append]
      exact ht''

/-- What `on_message` does with the message, for the place of the stash. -/
def Message.served (src : Source) (place : StashPlace) : Message T → StashPlace
  | .user _ => place.serve src
  | .timer _ _ _ _ => place.serve .queue
  | _ => place

def Task.served (place : StashPlace) : Task T → StashPlace
  | .looping _ (.processing src msg) => msg.served src place
  | _ => place

theorem Task.hand_idle {timers : Bool} {t : Task T} (h : t.busy = false) : t.hand timers = [] := by
  cases t with
  | looping n stage => cases stage <;> first | rfl | cases h
  | _ => rfl

theorem Task.served_idle {t : Task T} (h : t.busy = false) : t.served place = place := by
  cases t with
  | looping n stage => cases stage <;> first | rfl | cases h
  | _ => rfl

namespace Cell

/-- The callbacks still to come keep the order, if the stash stands at `place`. -/
def Keeping (place : StashPlace) (all queued : List T) (c : Cell T) : Prop :=
  ∃ context hand, c.disp.context = some context ∧ Ordered place all queued hand context ∧
    Tidy place hand context.stash context.unstashed (effects c.calls)

/-- `start` is the place before the step. -/
def Standing (start : StashPlace) (all queued : List T) (c : Cell T) : Prop :=
  c.Keeping (start.after c.log) all queued

/-- What waits is in order when the step is over. -/
def Arranged (start : StashPlace) (all queued : List T) (c : Cell T) : Prop :=
  ∃ context, c.disp.context = some context ∧ Ordered (start.after c.log) all queued [] context

variable {start : StashPlace} {all queued : List T} {c c' : Cell T}

theorem Standing.arranged (h : c.Standing start all queued) : c.Arranged start all queued := by
  obtain ⟨context, hand, hcontext, hordered, -⟩ := h
  exact ⟨context, hcontext, hordered.mono (List.nil_sublist hand) (.refl all)⟩

theorem Keeping.congr (h : c.Keeping place all queued) (hcontext : c'.disp.context = c.disp.context)
    (hcalls : effects c'.calls = effects c.calls) : c'.Keeping place all queued := by
  obtain ⟨context, hand, hsome, hordered, htidy⟩ := h
  exact ⟨context, hand, hcontext.trans hsome, hordered, by rwa [hcalls]⟩

theorem Standing.append (h : c.Standing start all queued) {events : List (Event T)}
    (hlog : c'.log = c.log ++ events) (hidle : ∀ e ∈ events, e.shelves = false)
    (hcontext : c'.disp.context = c.disp.context) (hcalls : effects c'.calls = effects c.calls) :
    c'.Standing start all queued := by
  rw [Standing, hlog, start.after_append, StashPlace.after_idle _ hidle]
  exact h.congr hcontext hcalls

theorem Keeping.call {events : List (Event T)}
    (h : c.Keeping (start.after (c.log ++ events)) all queued) {site : Site}
    (hsite : site ≠ .create) :
    (c.call site events).Ensures (Standing start all queued) (Standing start all queued) := by
  obtain ⟨context, hand, hcontext, hordered, htidy⟩ := h
  apply call_ensures
  · exact fun hnone => absurd (hcontext.symm.trans hnone) (by simp)
  · rintro context' cb calls hcontext' hcalls rfl
    obtain rfl := Option.some.inj (hcontext.symm.trans hcontext')
    rw [hcalls, effects_cons hsite] at htidy
    obtain ⟨hand', hordered', htidy'⟩ := runOps_tidy c.rt hordered htidy
    rw [← start.after_append] at hordered' htidy'
    have hran : (c.ran context calls events cb.ops).Standing start all queued :=
      ⟨_, hand', rfl, hordered', htidy'⟩
    exact ⟨fun _ => hran, fun _ => hran⟩

theorem Standing.call (h : c.Standing start all queued) {site : Site} (hsite : site ≠ .create)
    {e : Event T} (he : e.shelves = false) :
    (c.call site [e]).Ensures (Standing start all queued) (Standing start all queued) := by
  refine Keeping.call ?_ hsite
  rw [start.after_append, StashPlace.after_idle _ (List.forall_mem_singleton.mpr he)]
  exact h

/-- The dispatcher changes what has nothing to do with stashing. -/
theorem Standing.other (h : c.Standing start all queued) {context context' : ActorContext T}
    (hcontext : c.disp.context = some context) (hcontext' : c'.disp.context = some context')
    (hstash : context'.stash = context.stash) (hunstashed : context'.unstashed = context.unstashed)
    {events : List (Event T)} (hlog : c'.log = c.log ++ events)
    (hidle : ∀ e ∈ events, e.shelves = false) (hcalls : c'.calls = c.calls) :
    c'.Standing start all queued := by
  obtain ⟨context₀, hand, hsome, hordered, htidy⟩ := h
  obtain rfl := Option.some.inj (hcontext.symm.trans hsome)
  rw [Standing, hlog, start.after_append, StashPlace.after_idle _ hidle]
  exact ⟨context', hand, hcontext', hordered.congr hstash hunstashed,
    by rwa [hcalls, hstash, hunstashed]⟩

theorem standing_lasts : Lasts (Standing start all queued) where
  context h _ := h
  exit h := h.call (by decide) rfl
  enter h _ := h.call (by decide) rfl
  install h hcontext _ :=
    h.other hcontext rfl rfl rfl rfl (List.forall_mem_singleton.mpr rfl) rfl
  create h := create_ensures fun cb calls hcalls hsite => by
    have hsame := (effects_create calls hsite).symm
    exact ⟨fun _ => h.append rfl (by simp [Event.shelves]) rfl (hcalls ▸ hsame),
      fun _ => h.congr rfl (hcalls ▸ hsame)⟩
  take h := h.congr rfl rfl

theorem processMessage_arranged {actor : InstanceId} {context : ActorContext T}
    (hactor : c.disp.actor = some actor) (hcontext : c.disp.context = some context)
    (hsettled : context.actor = none) (numMsg : Nat) {src : Source} {message : Message T}
    (h : c.Keeping (message.served src (start.after c.log)) all queued)
    (hwaits : c.Arranged start all queued) : (processMessage numMsg src message c).Ensures
      (Arranged start all queued) (Arranged start all queued) := by
  obtain ⟨htouch, hsame, -, hcalls⟩ := touch_same context c
  have touched : ∀ {place : StashPlace}, c.Keeping place all queued →
      (c.touch context).Keeping place all queued := fun h => h.congr hsame (by rw [hcalls])
  have served : ∀ {e : Event T}, start.after ((c.touch context).log ++ [e]) =
      (start.after c.log).next e := by
    intro e
    rw [htouch, start.after_append, start.after_append]
    rfl
  obtain ⟨o, ho, hhandling⟩ := onMessage_handling hactor hcontext numMsg src message
  have handled : o.Ensures (Standing start all queued) (Standing start all queued) →
      (processMessage numMsg src message c).Ensures (Arranged start all queued)
        (Arranged start all queued) := fun hm =>
    (standing_lasts.processMessage (by rwa [ho])).mono (fun _ => Standing.arranged)
      fun _ => Standing.arranged
  cases hhandling with
  | user | timer _ _ => exact handled (Keeping.call (by rw [served]; exact touched h) (by decide))
  | stale =>
    -- no handler is called, and no transition is pending
    rw [processMessage, ho]
    refine checkBecome_settled ⟨context, hsame.trans hcontext, hsettled⟩ ?_ _
    obtain ⟨context', hcontext', hordered⟩ := hwaits
    refine ⟨context', hsame.trans hcontext', ?_⟩
    rwa [htouch, start.after_append, StashPlace.after_idle _ (List.forall_mem_singleton.mpr rfl)]
  | unset _ | failed _ _ _ => exact handled h
  | expired _ _ _ _ => exact handled (Standing.call h (by decide) rfl)
  | poisonPill =>
    exact handled (Standing.append h rfl (List.forall_mem_singleton.mpr rfl) hcontext.symm rfl)
  | early _ _ _ _ | again _ =>
    exact handled (Standing.other h hcontext rfl rfl rfl rfl (armReceiveTimeout_idle _ _ _) rfl)

end Cell

theorem bodies_cons (timers : Bool) (msg : Message T) (items : List (Message T)) :
    bodies timers (msg :: items) = (msg.body timers).toList ++ bodies timers items := by
  cases hbody : msg.body timers <;> simp [bodies, hbody]

theorem bodies_append (timers : Bool) (items items' : List (Message T)) :
    bodies timers (items ++ items') = bodies timers items ++ bodies timers items' :=
  List.filterMap_append

theorem Ordered.popUnstashed {all queued : List T} {context : ActorContext T} {msg : T}
    {rest : List T} (h : Ordered place all queued [] context)
    (hunstashed : context.unstashed = msg :: rest) :
    Ordered (place.serve .unstashed) all queued [msg] { context with unstashed := rest } := by
  have hline := h.line
  cases place with
  | empty | moved =>
    have hempty : context.stash = [] := h.stash (by simp)
    refine ⟨fun _ => hempty, ?_⟩
    simpa [StashPlace.serve, StashPlace.line, hempty, hunstashed] using hline
  | oldest | newest =>
    refine ⟨by simp [StashPlace.serve], ?_⟩
    simpa [StashPlace.serve, StashPlace.line, hunstashed] using hline

theorem Ordered.dropUnstashed {all queued : List T} {context : ActorContext T} {msg : T}
    {rest : List T} (h : Ordered place all queued [] context)
    (hunstashed : context.unstashed = msg :: rest) :
    Ordered place all queued [] { context with unstashed := rest } := by
  refine ⟨h.stash, List.Sublist.trans (List.Sublist.append_right ?_ queued) h.line⟩
  cases place <;> simp [StashPlace.line, hunstashed]

theorem Ordered.serve {all queued hand : List T} {context : ActorContext T}
    (h : Ordered place all (hand ++ queued) [] context) (hunstashed : context.unstashed = []) :
    Ordered (place.serve .queue) all queued hand context := by
  have hline := h.line
  cases place with
  | empty | moved =>
    have hempty : context.stash = [] := h.stash (by simp)
    refine ⟨fun _ => hempty, ?_⟩
    simpa [StashPlace.serve, StashPlace.line, hempty, hunstashed] using hline
  | oldest | newest =>
    refine ⟨by simp [StashPlace.serve], ?_⟩
    simpa [StashPlace.serve, StashPlace.line, hunstashed] using hline

theorem Ordered.popUser {timers : Bool} {all queued : List T} {context : ActorContext T}
    {message : Message T}
    (h : Ordered place all ((message.body timers).toList ++ queued) [] context)
    (hunstashed : context.unstashed = []) :
    Ordered (message.served .queue place) all queued (message.body timers).toList context := by
  cases message with
  | user msg => exact h.serve hunstashed
  | timer key gen msg handle => exact h.serve hunstashed
  | _ => exact h

theorem Ordered.dropUser {all queued hand : List T} {context : ActorContext T}
    (h : Ordered place all (hand ++ queued) [] context) : Ordered place all queued [] context :=
  ⟨h.stash, List.Sublist.trans ((List.sublist_append_right _ _).append_left _) h.line⟩

theorem arrivals_append (timers : Bool) (log log' : List (Event T)) :
    arrivals timers (log ++ log') = arrivals timers log ++ arrivals timers log' :=
  List.filterMap_append

theorem arrivals_pushed (timers : Bool) (log : List (Event T)) (msg : Message T) :
    arrivals timers (log ++ [.pushed msg]) = arrivals timers log ++ bodies timers [msg] :=
  arrivals_append timers log [.pushed msg]

namespace Mailbox

/-- The context of the next batch, or the one that is there. -/
def current (m : Mailbox T) : ActorContext T := m.dispatcher.context.getD .new

/-- What waits in `unstashed` and in the queue is in the order of the pushes. -/
def InOrder (timers : Bool) (m : Mailbox T) : Prop :=
  (m.current.unstashed ++ bodies timers m.messageQueue.items).Sublist (arrivals timers m.log)

theorem current_eq {m : Mailbox T} {context : ActorContext T}
    (h : m.dispatcher.context = some context) : m.current = context := by
  simp [current, h]

def stashPlace (m : Mailbox T) : StashPlace := StashPlace.empty.after m.log

/-- And so is the stash at its place, with and without the message that is being processed. -/
structure Ranked (timers : Bool) (m : Mailbox T) (t : Task T) : Prop where
  served : Ordered (t.served m.stashPlace) (arrivals timers m.log)
    (bodies timers m.messageQueue.items) (t.hand timers) m.current
  rest : Ordered m.stashPlace (arrivals timers m.log) (bodies timers m.messageQueue.items) []
    m.current

def Restashes (timers : Bool) (m : Mailbox T) (t : Task T) (input : TaskInput T) : Prop :=
  Consumes timers t input.calls ∧
    Unmixed (t.served m.stashPlace) m.current.stash m.current.unstashed (effects input.calls)

instance [DecidableEq T] (timers : Bool) (m : Mailbox T) (t : Task T) (input : TaskInput T) :
    Decidable (Restashes timers m t input) :=
  inferInstanceAs (Decidable (_ ∧ _))

variable {timers : Bool} {m m' : Mailbox T} {t t' : Task T}

theorem Ranked.inOrder (h : m.Ranked timers t) : m.InOrder timers := h.rest.unstashed

theorem ranked_idle (ht : t.busy = false) (h : Ordered m.stashPlace (arrivals timers m.log)
    (bodies timers m.messageQueue.items) [] m.current) : m.Ranked timers t := by
  refine ⟨?_, h⟩
  rwa [Task.hand_idle ht, Task.served_idle ht]

theorem stashPlace_idle {events : List (Event T)} (hlog : m'.log = m.log ++ events)
    (hidle : ∀ e ∈ events, e.shelves = false) : m'.stashPlace = m.stashPlace := by
  rw [stashPlace, hlog, StashPlace.after_append, StashPlace.after_idle _ hidle]
  rfl

theorem Env.stashPlace (henv : m.Env m') : m'.stashPlace = m.stashPlace := by
  cases henv with
  | same | tick _ => rfl
  | rejected _ | watchReturned _ _ | pushed _ _ | pushedInternal _ =>
    exact stashPlace_idle rfl (List.forall_mem_singleton.mpr rfl)

theorem Env.waits (henv : m.Env m') {front : List T}
    (h : (front ++ bodies timers m.messageQueue.items).Sublist (arrivals timers m.log)) :
    (front ++ bodies timers m'.messageQueue.items).Sublist (arrivals timers m'.log) := by
  obtain ⟨events, hlog, -, hitems⟩ | ⟨msg, hlog, hitems⟩ := henv.quiet
  · rw [hlog, hitems, arrivals_append]
    exact h.trans (List.sublist_append_left _ _)
  · rw [hlog, hitems, arrivals_pushed, bodies_append, ← List.append_assoc]
    exact h.append_right _

theorem Env.current (henv : m.Env m') : m'.current = m.current := by
  rw [Mailbox.current, henv.dispatcher]
  rfl

theorem Env.ordered (henv : m.Env m') {place : StashPlace} {hand : List T}
    {context : ActorContext T}
    (h : Ordered place (arrivals timers m.log) (bodies timers m.messageQueue.items) hand context) :
    Ordered place (arrivals timers m'.log) (bodies timers m'.messageQueue.items) hand context :=
  ⟨h.stash, henv.waits h.line⟩

theorem finish_ranked {next : Task T} {o : Outcome (Cell T)} {r : TaskStep T}
    (hf : m.finish next o = some r) (hnext : next.busy = false)
    (ho : o.Ensures
      (Cell.Arranged m.stashPlace (arrivals timers m.log) (bodies timers m.messageQueue.items))
      (Cell.Arranged m.stashPlace (arrivals timers m.log) (bodies timers m.messageQueue.items))) :
    r.mbox.InOrder timers ∧ ∀ t' ∈ r.next, r.mbox.Ranked timers t' := by
  have ordered : ∀ (m' : Mailbox T) {c : Cell T} {events : List (Event T)},
      c.Arranged m.stashPlace (arrivals timers m.log) (bodies timers m.messageQueue.items) →
      m'.dispatcher = c.disp → m'.messageQueue = m.messageQueue →
      m'.log = m.log ++ c.log ++ events → (∀ e ∈ events, e.shelves = false) →
      Ordered m'.stashPlace (arrivals timers m'.log) (bodies timers m'.messageQueue.items) []
        m'.current := by
    rintro m' c events ⟨context, hcontext, hordered⟩ hdisp hqueue hlog hidle
    have hcurrent : m'.current = context := by simp [Mailbox.current, hdisp, hcontext]
    have hplace : m'.stashPlace = m.stashPlace.after c.log := by
      rw [Mailbox.stashPlace, hlog, StashPlace.after_append, StashPlace.after_idle _ hidle,
        StashPlace.after_append]
      rfl
    rw [hplace, hcurrent, hqueue]
    refine hordered.mono (.refl []) ?_
    rw [hlog, List.append_assoc, arrivals_append]
    exact List.sublist_append_left _ _
  obtain ⟨c, hc, hm, hn⟩ | ⟨c, hc, hm, hn⟩ := finish_ensures hf ho
  · have hr : r.mbox.Ranked timers next := by
      rw [hm]
      exact ranked_idle hnext
        (ordered _ hc rfl rfl (List.append_nil _).symm (List.forall_mem_nil _))
    rw [hn]
    refine ⟨hr.inOrder, ?_⟩
    rintro t' ⟨⟩
    exact hr
  · have hr := ordered ((m.commit c).emit [.unwound]) hc rfl rfl rfl
      (List.forall_mem_singleton.mpr rfl)
    rw [hn, hm]
    exact ⟨hr.unstashed, by simp⟩

theorem Restashes.tidy {input : TaskInput T} (h : m.Restashes timers t input) :
    Tidy (t.served m.stashPlace) (t.hand timers) m.current.stash m.current.unstashed
      (effects input.calls) := by
  have hlength : (t.hand timers).length ≤ 1 := by
    cases t with
    | looping n stage =>
      cases stage with
      | processing src msg => simp [Task.hand, Option.length_toList_le]
      | _ => exact Nat.zero_le _
    | _ => exact Nat.zero_le _
  exact tidy_of_unmixed h.1 hlength h.2

theorem cell_keeping {input : TaskInput T} {c : Cell T} (ok : m.Restashes timers t input)
    (h : m.Ranked timers t) (hcontext : c.disp.context = some m.current)
    (hcalls : c.calls = input.calls) : c.Keeping (t.served m.stashPlace) (arrivals timers m.log)
      (bodies timers m.messageQueue.items) := by
  refine ⟨m.current, t.hand timers, hcontext, h.served, ?_⟩
  rw [hcalls]
  exact ok.tidy

theorem cell_standing {input : TaskInput T} {c : Cell T} (ok : m.Restashes timers t input)
    (h : m.Ranked timers t) (ht : t.busy = false) (hcontext : c.disp.context = some m.current)
    (hcalls : c.calls = input.calls) (hidle : ∀ e ∈ c.log, e.shelves = false) :
    c.Standing m.stashPlace (arrivals timers m.log) (bodies timers m.messageQueue.items) := by
  have hkeeping := cell_keeping ok h hcontext hcalls
  rwa [Task.served_idle ht, ← m.stashPlace.after_idle hidle] at hkeeping

theorem Logs.idle {e : Event T} (h : m.Logs t e) (ht : t.calls = false) : e.shelves = false := by
  cases h with
  | called hcalls _ _ _ => exact absurd (hcalls.symm.trans ht) (by simp)
  | _ => rfl

theorem Move.ranked {input : TaskInput T} {r : TaskStep T} (move : m.Move input t r)
    (ok : m.Restashes timers t input) (hphase : m.Phase t) (h : m.Ranked timers t) :
    r.mbox.InOrder timers ∧ ∀ t' ∈ r.next, r.mbox.Ranked timers t' := by
  obtain ⟨events, hlog, hlogs⟩ := move.logs hphase
  have idle : t.calls = false → (∀ t' ∈ r.next, t'.busy = false) →
      Ordered m.stashPlace (arrivals timers m.log) (bodies timers r.mbox.messageQueue.items) []
        r.mbox.current →
      r.mbox.InOrder timers ∧ ∀ t' ∈ r.next, r.mbox.Ranked timers t' := by
    intro hcalls hbusy hordered
    have hrest : Ordered r.mbox.stashPlace (arrivals timers r.mbox.log)
        (bodies timers r.mbox.messageQueue.items) [] r.mbox.current := by
      rw [stashPlace_idle hlog fun e he => (hlogs e he).idle hcalls, hlog, arrivals_append]
      exact hordered.mono (.refl []) (List.sublist_append_left _ _)
    exact ⟨hrest.unstashed, fun t' ht' => ranked_idle (hbusy t' ht') hrest⟩
  have popped : ∀ {m' : Mailbox T} {t' : Task T}, m'.Ranked timers t' →
      m'.InOrder timers ∧ ∀ t'' ∈ some t', m'.Ranked timers t'' := by
    rintro m' t' hr
    refine ⟨hr.inOrder, ?_⟩
    rintro t'' ⟨⟩
    exact hr
  cases move with
  | start _ hf =>
    have hstart : (m.cell input).createContext.Standing m.stashPlace (arrivals timers m.log)
        (bodies timers m.messageQueue.items) := by
      cases hcontext : m.dispatcher.context <;>
        exact cell_standing ok h rfl (by simp [Cell.createContext, cell, current, hcontext])
          (by simp [Cell.createContext, cell, hcontext])
          (by simp [Cell.createContext, cell, hcontext])
    refine finish_ranked hf rfl ?_
    exact (Cell.standing_lasts.startActor hstart).mono (fun _ => Cell.Standing.arranged)
      fun _ => Cell.Standing.arranged
  | terminate hf =>
    obtain ⟨-, -, -, context, hcontext, -⟩ := hphase
    have hstart : ((m.cell input).takeActor.emit [.terminating]).Standing m.stashPlace
        (arrivals timers m.log) (bodies timers m.messageQueue.items) :=
      cell_standing ok h rfl (hcontext.trans (congrArg some (current_eq hcontext).symm)) rfl
        (List.forall_mem_singleton.mpr rfl)
    refine finish_ranked hf rfl ?_
    exact (Cell.standing_lasts.terminateActor hstart).mono (fun _ => Cell.Standing.arranged)
      fun _ => Cell.Standing.arranged
  | process hf =>
    obtain ⟨context, hcontext, hsettled, -⟩ := hphase.2.context
    obtain ⟨actor, hactor⟩ := Option.ne_none_iff_exists'.mp hphase.2.actor
    obtain rfl := current_eq hcontext
    exact finish_ranked hf rfl (Cell.processMessage_arranged hactor hcontext hsettled _
      (cell_keeping ok h hcontext rfl) ⟨m.current, hcontext, h.rest⟩)
  | popUnstashed _ hcontext hunstashed =>
    obtain rfl := current_eq hcontext
    exact popped ⟨h.rest.popUnstashed hunstashed, h.rest.dropUnstashed hunstashed⟩
  | popUser _ hcontext hunstashed hitems _ =>
    obtain rfl := current_eq hcontext
    have hrest := h.rest
    rw [hitems, bodies_cons] at hrest
    exact popped ⟨hrest.popUser hunstashed, hrest.dropUser⟩
  | reply =>
    refine idle rfl (by rintro _ ⟨⟩; rfl) ⟨fun _ => rfl, ?_⟩
    refine List.Sublist.trans ?_ h.rest.unstashed
    cases m.stashPlace <;> exact List.sublist_append_right _ _
  | suspend hcontext _ | childLast hcontext _ _ | childGone hcontext _ =>
    refine idle rfl (by rintro _ ⟨⟩; rfl) ?_
    obtain rfl := current_eq hcontext
    exact h.rest.congr rfl rfl
  | dead _ => exact popped (ranked_idle rfl h.rest)
  | _ => exact idle rfl (by rintro _ ⟨⟩ <;> rfl) h.rest

end Mailbox

namespace Node

/-- Handlers consume or stash their message, and `unstash_all` mixes nothing. -/
abbrev restashes (timers : Bool) : Node T → Action T → Prop :=
  okTask (Mailbox.Restashes timers)

theorem ranked_owned (timers : Bool) : Owned path option parent
    (Mailbox.Restashes (T := T) timers) Mailbox.Phase (Mailbox.Ranked timers)
    (Mailbox.Ranked timers · .spawned) (Mailbox.InOrder timers) where
  start := by
    have hnew : Ordered (T := T) .empty [] [] [] .new := ⟨fun _ => rfl, List.nil_sublist _⟩
    exact ⟨⟨hnew, hnew⟩, List.nil_sublist _⟩
  env {m m'} henv := by
    have ranked : ∀ t, m.Ranked timers t → m'.Ranked timers t := by
      rintro t ⟨hserved, hrest⟩
      rw [← henv.stashPlace, ← henv.current] at hserved hrest
      exact ⟨henv.ordered hserved, henv.ordered hrest⟩
    refine ⟨fun h => ?_, ranked .spawned, fun t _ => ranked t⟩
    simp only [Mailbox.InOrder, henv.current] at h ⊢
    exact henv.waits h
  acquire _ := ⟨id, fun h => ⟨h.served, h.rest⟩⟩
  move {m input t r} move _ ok hphase h _ := by
    obtain ⟨hinv, hnext⟩ := move.ranked ok hphase h
    refine ⟨hinv, fun t' ht' => ⟨fun _ => hnext t' ht', ?_⟩⟩
    rintro rfl
    cases move
    have hr := hnext (.rechecking .readUser) rfl
    exact ⟨hr.served, hr.rest⟩

/-- Whatever is pushed and whenever callbacks call `unstash_all`. -/
theorem pending_in_order {timers : Bool} {nd : Node T}
    (h : (machine path option parent).Reach (restashes timers) nd) : nd.mbox.InOrder timers :=
  ((ranked_owned timers).reach (fun hr => (reachable_phase hr).loc) h).inv

/-- The second message puts the first one back, which is stashed again. -/
def tidyRun : List (Action Nat) :=
  sending (.user 1) ++ sending (.user 2) ++
    callbacks [⟨.create, [], false⟩, ⟨.onEnter, [], false⟩] ++ turns 3 ++
    callbacks [⟨.onMessage, [.stash 1], false⟩] ++ turns 4 ++
    callbacks [⟨.onMessage, [.stash 2, .unstashAll], false⟩] ++ turns 4 ++
    callbacks [⟨.onMessage, [.stash 1], false⟩]

def tidyNode : Node Nat := (sample.exec sample.start tidyRun).get (by decide +kernel)

theorem tidyNode_run : sample.exec sample.start tidyRun = some tidyNode := (Option.some_get _).symm

theorem tidyNode_in_order : tidyNode.mbox.InOrder false := by
  have hreach : sample.Reach (restashes false) tidyNode :=
    Reach.exec .start (by decide +kernel) tidyNode_run
  exact pending_in_order hreach

/-- The first message is stashed again while the second one still waits in `unstashed`. -/
def mixingRun : List (Action Nat) :=
  sending (.user 1) ++ sending (.user 2) ++ sending (.user 3) ++
    callbacks [⟨.create, [], false⟩, ⟨.onEnter, [], false⟩] ++ turns 3 ++
    callbacks [⟨.onMessage, [.stash 1], false⟩] ++ turns 4 ++
    callbacks [⟨.onMessage, [.stash 2], false⟩] ++ turns 4 ++
    callbacks [⟨.onMessage, [.unstashAll], false⟩] ++ turns 4 ++
    callbacks [⟨.onMessage, [.stash 1, .unstashAll], false⟩]

def mixingNode : Node Nat := (sample.exec sample.start mixingRun).get (by decide +kernel)

theorem mixing_not_in_order :
    sample.Allows (okTask fun _ t input => Consumes false t input.calls) sample.start mixingRun ∧
      sample.exec sample.start mixingRun = some mixingNode ∧
      mixingNode.mbox.current.unstashed = [2, 1] ∧ ¬ mixingNode.mbox.InOrder false := by
  refine ⟨by decide +kernel, (Option.some_get _).symm, by decide +kernel, fun h => ?_⟩
  have hwaiting : mixingNode.mbox.current.unstashed ++
      bodies false mixingNode.mbox.messageQueue.items = [2, 1] := by decide +kernel
  have harrivals : arrivals false mixingNode.mbox.log = [1, 2, 3] := by decide +kernel
  rw [Mailbox.InOrder, hwaiting, harrivals] at h
  exact absurd h (by decide)

end Node

end Ruactor
