import Ruactor.Dispatcher

/-!
# What callbacks can change

`Keeps` is the induction over nested transitions, done once: an assertion that
survives each callback and each installation of an actor survives `checkBecome`,
`onExit` and `onEnter`.
-/

namespace Ruactor

variable {T : Type}

/-- `on_message` is the only part of `process_message` under `catch_unwind`. -/
def Site.guarded : Site → Bool
  | .onMessage | .onSystemMessage => true
  | _ => false

def Event.visits : Event T → Bool
  | .installed _ | .entered _ | .exited _ => true
  | _ => false

/-- No callback outside `catch_unwind` panics. -/
def Calm (calls : List (Callback T)) : Prop :=
  ∀ cb ∈ calls, cb.site.guarded = false → cb.panics = false

instance (calls : List (Callback T)) : Decidable (Calm calls) :=
  inferInstanceAs (Decidable (∀ cb ∈ calls, _ → _))

/-- The operations that a call of the callback performs: `create` has no context. -/
def Callback.effects (cb : Callback T) : List (ContextOp T) :=
  if cb.site = .create then [] else cb.ops

def effects (calls : List (Callback T)) : List (ContextOp T) := calls.flatMap Callback.effects

theorem effects_cons {cb : Callback T} {calls : List (Callback T)} (h : cb.site ≠ .create) :
    effects (cb :: calls) = cb.ops ++ effects calls := by
  simp [effects, Callback.effects, h]

theorem effects_create {cb : Callback T} (calls : List (Callback T)) (h : cb.site = .create) :
    effects (cb :: calls) = effects calls := by
  simp [effects, Callback.effects, h]

namespace Cell

def ran (c : Cell T) (context : ActorContext T) (calls : List (Callback T))
    (events : List (Event T)) (ops : List (ContextOp T)) : Cell T :=
  ({ c with calls := calls }.emit events).apply (runOps c.rt context ops)

theorem call_ensures {site : Site} {events : List (Event T)} {c : Cell T}
    {P Q : Cell T → Prop} (hnone : c.disp.context = none → Q c)
    (hrun : ∀ context cb calls, c.disp.context = some context → c.calls = cb :: calls →
      cb.site = site → (cb.panics = false → P (c.ran context calls events cb.ops)) ∧
        (cb.panics = true → Q (c.ran context calls events cb.ops))) :
    (c.call site events).Ensures P Q := by
  simp only [call]
  split
  · exact hnone ‹_›
  next context hcontext =>
    split
    · trivial
    next cb calls hcalls =>
      split
      next hsite =>
        obtain ⟨hp, hq⟩ := hrun context cb calls hcontext hcalls hsite
        cases hpanics : cb.panics with
        | false => exact hp hpanics
        | true => exact hq hpanics
      · trivial

theorem create_ensures {c : Cell T} {P Q : Cell T → Prop}
    (hrun : ∀ cb calls, c.calls = cb :: calls → cb.site = .create →
      (cb.panics = false → P
        { disp := { c.disp with actor := some c.rt.actors }
          rt := { c.rt with actors := c.rt.actors + 1 }
          calls := calls
          log := c.log ++ [.created c.rt.actors, .installed c.rt.actors] }) ∧
      (cb.panics = true → Q { c with calls := calls })) :
    c.create.Ensures P Q := by
  simp only [create]
  split
  · trivial
  next cb calls hcalls =>
    split
    next hsite =>
      obtain ⟨hp, hq⟩ := hrun cb calls hcalls hsite
      cases hpanics : cb.panics with
      | false => exact hp hpanics
      | true => exact hq hpanics
    · trivial

structure Keeps (I Q : Cell T → Prop) : Prop where
  context : ∀ {c}, I c → c.disp.context = none → Q c
  exit : ∀ {c actor}, I c → (c.call .onExit [.exited actor]).Ensures I Q
  enter : ∀ {c actor}, I c → c.disp.actor = some actor →
    (c.call .onEnter [.entered actor]).Ensures I Q
  install : ∀ {c context new}, I c → c.disp.context = some context →
    context.actor = some new → I (c.install context new)

theorem Keeps.lifecycle {I Q : Cell T → Prop} (rule : Keeps I Q) (fuel : Nat) :
    (∀ c, I c → (checkBecome fuel c).Ensures I Q) ∧
    (∀ old c, I c → (onExit fuel old c).Ensures I Q) ∧
    (∀ c, I c → (onEnter fuel c).Ensures I Q) := by
  induction fuel with
  | zero => simp [checkBecome, onExit, onEnter]
  | succ fuel ih =>
    obtain ⟨ihBecome, ihExit, ihEnter⟩ := ih
    refine ⟨fun c hc => ?_, fun old c hc => ?_, fun c hc => ?_⟩
    · simp only [checkBecome]
      split
      · exact rule.context hc ‹_›
      · split
        · exact hc
        · exact (ihExit _ _ (rule.install hc ‹_› ‹_›)).bind ihEnter
    · simp only [onExit]
      split
      · exact hc
      · exact (rule.exit hc).bind ihBecome
    · simp only [onEnter]
      split
      · exact hc
      · exact (rule.enter hc ‹_›).bind ihBecome

/-- What also a new actor object leaves as it is. -/
structure Lasts (I : Cell T → Prop) : Prop extends Keeps I I where
  create : ∀ {c}, I c → c.create.Ensures I I
  take : ∀ {c}, I c → I c.takeActor

section Lasts

variable {I : Cell T → Prop} {c : Cell T}

theorem Lasts.enterNew (rule : Lasts I) (h : I c) :
    (c.create.bind fun c => onEnter c.lifecycleFuel c).Ensures I I :=
  (rule.create h).bind fun c hc => (rule.lifecycle _).2.2 c hc

theorem Lasts.startActor (rule : Lasts I) (h : I c.createContext) : c.startActor.Ensures I I := by
  simp only [Cell.startActor]
  split
  · exact rule.enterNew h
  · exact h

theorem Lasts.terminateActor (rule : Lasts I) (h : I (c.takeActor.emit [.terminating])) :
    c.terminateActor.Ensures I I :=
  (rule.lifecycle _).2.1 _ _ h

theorem Lasts.restart (rule : Lasts I) (h : I c) : c.restart.Ensures I I :=
  ((rule.lifecycle _).2.1 _ _ (rule.take h)).bind fun _ hc => rule.enterNew hc

/-- What follows a handler keeps the relation, whether the handler returned or not. -/
theorem Lasts.processMessage (rule : Lasts I) {numMsg : Nat} {src : Source} {message : Message T}
    (hm : (onMessage numMsg src message c).Ensures I I) :
    (processMessage numMsg src message c).Ensures I I := by
  simp only [Cell.processMessage]
  split
  next he =>
    rw [he] at hm
    exact (rule.lifecycle _).1 _ hm
  next he =>
    rw [he] at hm
    exact rule.restart hm
  · trivial

end Lasts

theorem call_consumes {site : Site} {events : List (Event T)} {c : Cell T} {n : Nat}
    (h : c.calls.length ≤ n + 1) :
    (c.call site events).Ensures (fun c' => c'.calls.length ≤ n) fun _ => True := by
  apply call_ensures
  · exact fun _ => trivial
  · intro context cb calls _ hcalls _
    rw [hcalls, List.length_cons] at h
    exact ⟨fun _ => Nat.le_of_succ_le_succ h, fun _ => trivial⟩

theorem length_keeps (n : Nat) :
    Keeps (fun c : Cell T => c.calls.length ≤ n) (fun _ => True) where
  context _ _ := trivial
  exit h := (call_consumes (Nat.le_succ_of_le h)).mono (fun _ => id) fun _ => id
  enter h _ := (call_consumes (Nat.le_succ_of_le h)).mono (fun _ => id) fun _ => id
  install h _ _ := h

theorem call_none {site : Site} {events : List (Event T)} {c : Cell T} (h : c.calls.length ≤ 0) :
    (c.call site events).Ensures (fun _ => False) fun _ => True :=
  call_ensures (fun _ => trivial) fun _ _ _ _ hcalls _ => by simp [hcalls] at h

/-- The fuel does not matter from `2 * n + 2` on, `n` being the callbacks that are left. -/
def FuelFree (T : Type) (n : Nat) : Prop :=
  ∀ c : Cell T, c.calls.length ≤ n → ∀ fuel fuel', 2 * n + 2 ≤ fuel → 2 * n + 2 ≤ fuel' →
    checkBecome fuel c = checkBecome fuel' c

theorem call_fuel {n : Nat} (ih : ∀ k, n = k + 1 → FuelFree T k) {site : Site}
    {events : List (Event T)} {c : Cell T} (h : c.calls.length ≤ n) {fuel fuel' : Nat}
    (hf : 2 * n ≤ fuel) (hf' : 2 * n ≤ fuel') :
    (c.call site events).bind (checkBecome fuel) =
      (c.call site events).bind (checkBecome fuel') := by
  cases n with
  | zero => exact (call_none h).bind_congr fun _ => False.elim
  | succ k => exact (call_consumes h).bind_congr fun c' hc' => ih k rfl c' hc' _ _ hf hf'

theorem onExit_fuel {n : Nat} (ih : ∀ k, n = k + 1 → FuelFree T k) (old : Option InstanceId)
    {c : Cell T} (h : c.calls.length ≤ n) {fuel fuel' : Nat} (hf : 2 * n + 1 ≤ fuel)
    (hf' : 2 * n + 1 ≤ fuel') : onExit fuel old c = onExit fuel' old c := by
  obtain ⟨fuel, rfl⟩ := Nat.exists_eq_add_one_of_ne_zero (by omega : fuel ≠ 0)
  obtain ⟨fuel', rfl⟩ := Nat.exists_eq_add_one_of_ne_zero (by omega : fuel' ≠ 0)
  simp only [onExit]
  split
  · rfl
  · exact call_fuel ih h (by omega) (by omega)

theorem onEnter_fuel {n : Nat} (ih : ∀ k, n = k + 1 → FuelFree T k) {c : Cell T}
    (h : c.calls.length ≤ n) {fuel fuel' : Nat} (hf : 2 * n + 1 ≤ fuel)
    (hf' : 2 * n + 1 ≤ fuel') : onEnter fuel c = onEnter fuel' c := by
  obtain ⟨fuel, rfl⟩ := Nat.exists_eq_add_one_of_ne_zero (by omega : fuel ≠ 0)
  obtain ⟨fuel', rfl⟩ := Nat.exists_eq_add_one_of_ne_zero (by omega : fuel' ≠ 0)
  simp only [onEnter]
  split
  · rfl
  · exact call_fuel ih h (by omega) (by omega)

theorem fuelFree_of {n : Nat} (ih : ∀ k, n = k + 1 → FuelFree T k) : FuelFree T n := by
  intro c h fuel fuel' hf hf'
  obtain ⟨fuel, rfl⟩ := Nat.exists_eq_add_one_of_ne_zero (by omega : fuel ≠ 0)
  obtain ⟨fuel', rfl⟩ := Nat.exists_eq_add_one_of_ne_zero (by omega : fuel' ≠ 0)
  simp only [checkBecome]
  split
  · rfl
  · split
    · rfl
    next context _ _ new _ =>
      -- the callbacks that `on_exit` leaves are no more than before
      have hexit := ((length_keeps n).lifecycle fuel).2.1 c.disp.actor (c.install context new) h
      have hinstall : (c.install context new).calls.length ≤ n := h
      have hsame := onExit_fuel ih c.disp.actor hinstall (by omega : 2 * n + 1 ≤ fuel)
        (by omega : 2 * n + 1 ≤ fuel')
      rw [← hsame]
      exact hexit.bind_congr fun c' hc' => onEnter_fuel ih hc' (by omega) (by omega)

/-- Two callbacks lie at most two calls apart, so `lifecycleFuel` never runs out: more
fuel gives the same result. -/
theorem checkBecome_fuel (n : Nat) : FuelFree T n := by
  induction n with
  | zero => exact fuelFree_of nofun
  | succ n ih =>
    refine fuelFree_of fun k hk => ?_
    obtain rfl : n = k := Nat.succ.inj hk
    exact ih

/-- The deadline of the next alarm, where a `ReceiveTimeout` is not noticed. -/
def nextDeadline (stamp now : Instant) (numMsg : Nat) (exp : Instant) (tmout : Duration) :
    Option Instant :=
  if numMsg = 0 ∧ stamp < exp then
    if tmout ≤ exp - stamp then none else some (now + (stamp + tmout - now))
  else some (now + tmout)

/-- The branches of `onMessage`, for an actor that is there. -/
inductive Handling (c : Cell T) (numMsg : Nat) (src : Source) (actor : InstanceId)
    (context : ActorContext T) : Message T → Outcome (Cell T) → Prop
  | user {msg} : Handling c numMsg src actor context (.user msg)
      ((c.touch context).call .onMessage [.delivered actor src msg])
  | timer {key gen msg handle info} : context.timer.lookup key = some info → info.gen = gen →
      Handling c numMsg src actor context (.timer key gen msg handle)
        ((c.touch context).call .onMessage [.timerDelivered actor key gen msg handle])
  | stale {key gen msg handle} : Handling c numMsg src actor context (.timer key gen msg handle)
      (.returned (c.touch context))
  | poisonPill : Handling c numMsg src actor context (.autoMessage .poisonPill)
      (.returned (c.apply (context.stopSelf c.rt)))
  | unset {exp handle} : context.receiveTimeout = none →
      Handling c numMsg src actor context (.receiveTimeout exp handle) (.returned c)
  | expired {exp handle tmout} : context.receiveTimeout = some tmout → numMsg = 0 →
      exp > c.disp.lastMessageTimestamp → exp - c.disp.lastMessageTimestamp ≥ tmout →
      Handling c numMsg src actor context (.receiveTimeout exp handle)
        (c.call .onSystemMessage [.systemDelivered actor .receiveTimeout c.rt.clock])
  | early {exp handle tmout} : context.receiveTimeout = some tmout → numMsg = 0 →
      exp > c.disp.lastMessageTimestamp → exp - c.disp.lastMessageTimestamp < tmout →
      Handling c numMsg src actor context (.receiveTimeout exp handle)
        (.returned (c.apply (context.armReceiveTimeout c.rt
          (c.disp.lastMessageTimestamp + tmout - c.rt.clock))))
  | again {exp handle tmout} : context.receiveTimeout = some tmout →
      Handling c numMsg src actor context (.receiveTimeout exp handle)
        (.returned (c.apply (context.armReceiveTimeout c.rt tmout)))
  | failed {exp handle tmout t} : context.receiveTimeout = some tmout →
      nextDeadline c.disp.lastMessageTimestamp c.rt.clock numMsg exp tmout = some t →
      Instant.limit ≤ t → Handling c numMsg src actor context (.receiveTimeout exp handle)
        (.panicked c)

theorem attempt_schedule {c : Cell T} {context : ActorContext T}
    (hcontext : c.disp.context = some context) (d : Duration) :
    Instant.limit ≤ c.rt.clock + d ∧
        c.attempt (context.scheduleReceiveTimeout c.rt d) = .panicked c ∨
      c.attempt (context.scheduleReceiveTimeout c.rt d) =
        .returned (c.apply (context.armReceiveTimeout c.rt d)) := by
  simp only [ActorContext.scheduleReceiveTimeout]
  split
  next hlate =>
    refine .inl ⟨Instant.overflows_iff.mp hlate, ?_⟩
    simp [attempt, apply, ← hcontext]
  · exact .inr rfl

theorem onMessage_handling {c : Cell T} {actor : InstanceId} {context : ActorContext T}
    (hactor : c.disp.actor = some actor) (hcontext : c.disp.context = some context) (numMsg : Nat)
    (src : Source) (message : Message T) :
    ∃ o, onMessage numMsg src message c = o ∧ c.Handling numMsg src actor context message o := by
  refine ⟨_, rfl, ?_⟩
  simp only [onMessage, hactor, hcontext]
  cases message with
  | user msg => exact .user
  | autoMessage message => exact .poisonPill
  | timer key gen msg handle =>
    dsimp only
    cases hlookup : context.timer.lookup key with
    | none => exact .stale
    | some info =>
      by_cases hgen : info.gen = gen
      · simpa only [hgen, decide_true, if_true] using .timer hlookup hgen
      · simpa only [hgen, decide_false, Bool.false_eq_true, if_false] using .stale
  | receiveTimeout exp handle =>
    cases htmout : context.receiveTimeout with
    | none => exact .unset htmout
    | some tmout =>
      dsimp only
      have again : (numMsg = 0 → ¬ exp > c.disp.lastMessageTimestamp) →
          c.Handling numMsg src actor context (.receiveTimeout exp handle)
            (c.attempt (context.scheduleReceiveTimeout c.rt tmout)) := by
        intro hlast
        have hnext : nextDeadline c.disp.lastMessageTimestamp c.rt.clock numMsg exp tmout =
            some (c.rt.clock + tmout) := if_neg fun h => hlast h.1 h.2
        obtain ⟨hlimit, he⟩ | he := attempt_schedule hcontext tmout <;> rw [he]
        · exact .failed htmout hnext hlimit
        · exact .again htmout
      split_ifs with hempty hlate hdue hsum
      · exact .expired htmout hempty hlate hdue
      all_goals try exact again (by simp [*])
      all_goals
        have hnext : nextDeadline c.disp.lastMessageTimestamp c.rt.clock numMsg exp tmout = some
            (c.rt.clock + (c.disp.lastMessageTimestamp + tmout - c.rt.clock)) := by
          rw [nextDeadline, if_pos ⟨hempty, hlate⟩, if_neg hdue]
      · have hlimit := Instant.overflows_iff.mp hsum
        exact .failed htmout hnext (by omega)
      · obtain ⟨hlimit, he⟩ | he := attempt_schedule hcontext
          (c.disp.lastMessageTimestamp + tmout - c.rt.clock) <;> rw [he]
        · exact .failed htmout hnext hlimit
        · exact .early htmout hempty hlate (Nat.lt_of_not_le hdue)

def Within (allowed : ContextOp T → Prop) (calls : List (Callback T)) : Prop :=
  ∀ cb ∈ calls, ∀ op ∈ cb.ops, allowed op

/-- What an assertion about a context may read besides it. -/
structure Setting where
  parent : Option ParentRef
  stamp : Instant
  rt : Runtime

def setting (c : Cell T) : Setting := ⟨c.disp.parent, c.disp.lastMessageTimestamp, c.rt⟩

/-- `J` relates the context and its setting to the log: `log` is the log before the step. -/
structure Follows (allowed : ContextOp T → Prop)
    (J : Setting → ActorContext T → List (Event T) → Prop)
    (log : List (Event T)) (c : Cell T) : Prop where
  within : Within allowed c.calls
  context : ∃ context, c.disp.context = some context ∧ J c.setting context (log ++ c.log)

/-- Callbacks and transitions keep the relation. -/
structure Following (allowed : ContextOp T → Prop)
    (J : Setting → ActorContext T → List (Event T) → Prop) : Prop where
  op : ∀ {s context log} (op : ContextOp T), allowed op → J s context log →
    J { s with rt := (op.apply s.rt context).rt } (op.apply s.rt context).context
      (log ++ (op.apply s.rt context).log)
  event : ∀ {s e context log}, e.visits = true → J s context log → J s context (log ++ [e])
  created : ∀ {s context log i}, J s context log →
    J { s with rt := { s.rt with actors := s.rt.actors + 1 } } context
      (log ++ [.created i, .installed i])
  actor : ∀ {s context log}, J s context log → J s { context with actor := none } log

section Following

variable {allowed : ContextOp T → Prop} {J : Setting → ActorContext T → List (Event T) → Prop}
  {log : List (Event T)}

theorem Follows.congr {c c' : Cell T} (h : Follows allowed J log c)
    (hcontext : c'.disp.context = c.disp.context) (hsetting : c'.setting = c.setting)
    (hcalls : c'.calls = c.calls) (hlog : c'.log = c.log) : Follows allowed J log c' := by
  obtain ⟨hwithin, context, hsome, hj⟩ := h
  exact ⟨hcalls ▸ hwithin, context, hcontext.trans hsome, hsetting ▸ hlog ▸ hj⟩

theorem Following.ran (rule : Following allowed J) {c : Cell T} {context : ActorContext T}
    {cb : Callback T} {calls : List (Callback T)} {events : List (Event T)}
    (hcalls : c.calls = cb :: calls) (hwithin : Within allowed c.calls)
    (h : J c.setting context (log ++ (c.log ++ events))) :
    Follows allowed J log (c.ran context calls events cb.ops) := by
  have hops := runOps_keeps (I := fun rt => J { c.setting with rt := rt }) cb.ops c.rt
    (fun op hop _ _ _ hj => rule.op op (hwithin cb (by simp [hcalls]) op hop) hj)
    (log ++ (c.log ++ events)) h
  refine ⟨fun cb' hcb' => hwithin cb' ?_, _, rfl, ?_⟩
  · exact hcalls ▸ List.mem_cons_of_mem _ hcb'
  · simpa [Cell.ran, Cell.apply, emit, setting] using hops

theorem Following.call (rule : Following allowed J) {c : Cell T} (site : Site)
    {events : List (Event T)} (hwithin : Within allowed c.calls)
    (h : ∀ context, c.disp.context = some context →
      J c.setting context (log ++ (c.log ++ events)))
    (hcontext : c.disp.context ≠ none) :
    (c.call site events).Ensures (Follows allowed J log) (Follows allowed J log) := by
  apply call_ensures
  · exact fun hnone => absurd hnone hcontext
  · intro context cb calls hsome hcalls _
    have hran := rule.ran hcalls hwithin (h context hsome)
    exact ⟨fun _ => hran, fun _ => hran⟩

theorem Following.callAfter (rule : Following allowed J) {c : Cell T} (site : Site)
    {events : List (Event T)} (h : Follows allowed J log c)
    (hevents : ∀ context, c.disp.context = some context → J c.setting context (log ++ c.log) →
      J c.setting context (log ++ c.log ++ events)) :
    (c.call site events).Ensures (Follows allowed J log) (Follows allowed J log) := by
  obtain ⟨hwithin, context, hcontext, hj⟩ := h
  refine rule.call site hwithin (fun context' hcontext' => ?_) (by simp [hcontext])
  obtain rfl := Option.some.inj (hcontext.symm.trans hcontext')
  rw [← List.append_assoc]
  exact hevents context hcontext hj

theorem Following.visit (rule : Following allowed J) {c : Cell T} (site : Site) {e : Event T}
    (he : e.visits = true) (h : Follows allowed J log c) :
    (c.call site [e]).Ensures (Follows allowed J log) (Follows allowed J log) :=
  rule.callAfter site h fun _ _ => rule.event he

theorem Follows.apply {c : Cell T} (h : Follows allowed J log c) {context : ActorContext T}
    (hcontext : c.disp.context = some context) {e : Effect T}
    (he : J c.setting context (log ++ c.log) →
      J { c.setting with rt := e.rt } e.context (log ++ c.log ++ e.log)) :
    Follows allowed J log (c.apply e) := by
  obtain ⟨hwithin, context', hcontext', hj⟩ := h
  obtain rfl := Option.some.inj (hcontext.symm.trans hcontext')
  exact ⟨hwithin, e.context, rfl, by simpa [Cell.apply, setting] using he hj⟩

/-- The setting after `touch`. -/
def Setting.touched (s : Setting) (context : ActorContext T) : Setting :=
  if context.receiveTimeout.isSome then { s with stamp := s.rt.clock } else s

@[simp] theorem Setting.touched_rt (s : Setting) (context : ActorContext T) :
    (s.touched context).rt = s.rt := by
  simp only [touched]
  split <;> rfl

theorem touch_same (context : ActorContext T) (c : Cell T) :
    (c.touch context).log = c.log ++ [.received c.rt.clock] ∧
      (c.touch context).disp.context = c.disp.context ∧
      (c.touch context).disp.parent = c.disp.parent ∧ (c.touch context).calls = c.calls := by
  simp only [touch]
  split <;> exact ⟨rfl, rfl, rfl, rfl⟩

theorem touch_setting (context : ActorContext T) (c : Cell T) :
    (c.touch context).setting = c.setting.touched context := by
  simp only [touch, Setting.touched]
  split <;> rfl

theorem Follows.touch {c : Cell T} (h : Follows allowed J log c) {context : ActorContext T}
    (hcontext : c.disp.context = some context)
    (ht : J c.setting context (log ++ c.log) →
      J (c.setting.touched context) context (log ++ c.log ++ [.received c.rt.clock])) :
    Follows allowed J log (c.touch context) := by
  obtain ⟨hlog, hsame, -, hcalls⟩ := touch_same context c
  obtain ⟨hwithin, context', hcontext', hj⟩ := h
  obtain rfl := Option.some.inj (hcontext.symm.trans hcontext')
  refine ⟨hcalls ▸ hwithin, context, hsame.trans hcontext, ?_⟩
  rw [touch_setting, hlog, ← List.append_assoc]
  exact ht hj

theorem Following.keeps (rule : Following allowed J) :
    Keeps (Follows allowed J log) (Follows allowed J log) where
  context h _ := h
  exit h := rule.visit .onExit rfl h
  enter h _ := rule.visit .onEnter rfl h
  install {c context new} h hcontext _ := by
    obtain ⟨hwithin, context', hcontext', hj⟩ := h
    obtain rfl := Option.some.inj (hcontext.symm.trans hcontext')
    refine ⟨hwithin, _, rfl, ?_⟩
    have hj' : J c.setting _ (log ++ c.log ++ [.installed new]) := rule.event rfl (rule.actor hj)
    simpa [Cell.install, setting] using hj'

theorem Following.create (rule : Following allowed J) {c : Cell T}
    (h : Follows allowed J log c) :
    c.create.Ensures (Follows allowed J log) (Follows allowed J log) := by
  apply create_ensures
  intro cb calls hcalls _
  obtain ⟨hwithin, context, hcontext, hj⟩ := h
  have hrest : Within allowed calls :=
    fun cb' hcb' => hwithin cb' (hcalls ▸ List.mem_cons_of_mem _ hcb')
  refine ⟨fun _ => ⟨hrest, context, hcontext, ?_⟩, fun _ => ⟨hrest, context, hcontext, hj⟩⟩
  rw [← List.append_assoc]
  exact rule.created hj

theorem Following.lasts (rule : Following allowed J) : Lasts (Follows allowed J log) where
  toKeeps := rule.keeps
  create := rule.create
  take h := h.congr rfl rfl rfl rfl

theorem Following.startActor (rule : Following allowed J) {c : Cell T}
    (h : Follows allowed J log c.createContext) :
    c.startActor.Ensures (Follows allowed J log) (Follows allowed J log) :=
  rule.lasts.startActor h

theorem Following.terminateActor (rule : Following allowed J)
    (hleave : ∀ {s context log}, J s context log → J s context (log ++ [.terminating]))
    {c : Cell T} (h : Follows allowed J log c) :
    c.terminateActor.Ensures (Follows allowed J log) (Follows allowed J log) := by
  obtain ⟨hwithin, context, hcontext, hj⟩ := h
  refine rule.lasts.terminateActor ⟨hwithin, context, hcontext, ?_⟩
  have hj' : J c.setting _ (log ++ c.log ++ [.terminating]) := hleave hj
  simpa [emit, takeActor, setting] using hj'

theorem Following.processMessage (rule : Following allowed J) {c : Cell T} {numMsg : Nat}
    {src : Source} {message : Message T}
    (hm : (onMessage numMsg src message c).Ensures (Follows allowed J log)
      (Follows allowed J log)) :
    (processMessage numMsg src message c).Ensures (Follows allowed J log)
      (Follows allowed J log) :=
  rule.lasts.processMessage hm

end Following

/-- An assertion about the context and the callbacks still to come, which only the operations
of a callback can break. -/
structure Stays (I : Cell T → Prop) : Prop where
  call : ∀ {c site events}, site ≠ .create → I c → (c.call site events).Ensures I I
  create : ∀ {c c' cb}, I c → c.calls = cb :: c'.calls → cb.site = .create →
    c'.disp.context = c.disp.context → I c'
  same : ∀ {c c'}, I c → c'.disp.context = c.disp.context → c'.calls = c.calls → I c'
  other : ∀ {c c' context actor scheduled}, I c → c.disp.context = some context →
    c'.disp.context =
      some { context with actor := actor, scheduledReceiveTimeout := scheduled } →
    c'.calls = c.calls → I c'

section Stays

variable {I : Cell T → Prop} {c : Cell T}

theorem Stays.lasts (rule : Stays I) : Lasts I where
  context h _ := h
  exit h := rule.call (by decide) h
  enter h _ := rule.call (by decide) h
  install h hcontext _ := rule.other h hcontext rfl rfl
  create h := create_ensures fun _ _ hcalls hsite =>
    ⟨fun _ => rule.create h hcalls hsite rfl, fun _ => rule.create h hcalls hsite rfl⟩
  take h := rule.same h rfl rfl

theorem Stays.onMessage (rule : Stays I) (h : I c) (numMsg : Nat) (src : Source)
    (message : Message T) : (onMessage numMsg src message c).Ensures I I := by
  cases hactor : c.disp.actor with
  | none => simpa [Cell.onMessage, hactor] using h
  | some actor =>
    cases hcontext : c.disp.context with
    | none => simpa [Cell.onMessage, hactor, hcontext, Outcome.Ensures] using h
    | some context =>
      obtain ⟨-, hsame, -, hcalls⟩ := touch_same context c
      have htouch : I (c.touch context) := rule.same h hsame hcalls
      obtain ⟨o, ho, hhandling⟩ := onMessage_handling hactor hcontext numMsg src message
      rw [ho]
      cases hhandling with
      | user | timer _ _ => exact rule.call (by decide) htouch
      | stale => exact htouch
      | unset _ | failed _ _ _ => exact h
      | expired _ _ _ _ => exact rule.call (by decide) h
      | poisonPill => exact rule.same h hcontext.symm rfl
      | early _ _ _ _ | again _ => exact rule.other h hcontext rfl rfl

theorem Stays.processMessage (rule : Stays I) (h : I c) (numMsg : Nat) (src : Source)
    (message : Message T) : (processMessage numMsg src message c).Ensures I I :=
  rule.lasts.processMessage (rule.onMessage h numMsg src message)

end Stays

/-- `J` relates the parent and the context to the log: `log` is the log before the step. -/
structure Records (allowed : ContextOp T → Prop)
    (J : Option ParentRef → ActorContext T → List (Event T) → Prop)
    (log : List (Event T)) (c : Cell T) : Prop where
  within : Within allowed c.calls
  context : ∃ context, c.disp.context = some context ∧ J c.disp.parent context (log ++ c.log)

/-- Whatever the dispatcher and the callbacks do to the context, the relation is kept,
but for the delivery of a user message. -/
structure Recorded (allowed : ContextOp T → Prop)
    (J : Option ParentRef → ActorContext T → List (Event T) → Prop) : Prop where
  op : ∀ {p rt context log} (op : ContextOp T), allowed op → J p context log →
    J p (op.apply rt context).context (log ++ (op.apply rt context).log)
  stopSelf : ∀ {p context log}, J p context log → J p context (log ++ [.stopSelf])
  timeout : ∀ {p rt context log} d, J p context log →
    J p (context.armReceiveTimeout rt d).context
      (log ++ (context.armReceiveTimeout rt d).log)
  event : ∀ {p e context log}, e.routine = true → J p context log → J p context (log ++ [e])
  actor : ∀ {p context log}, J p context log → J p { context with actor := none } log

section Recorded

variable {allowed : ContextOp T → Prop}
  {J : Option ParentRef → ActorContext T → List (Event T) → Prop} {log : List (Event T)}

theorem Records.follows {c : Cell T} (h : Records allowed J log c) :
    Follows allowed (fun s => J s.parent) log c := ⟨h.within, h.context⟩

theorem records_of_follows {o : Outcome (Cell T)}
    (h : o.Ensures (Follows allowed (fun s => J s.parent) log)
      (Follows allowed (fun s => J s.parent) log)) :
    o.Ensures (Records allowed J log) (Records allowed J log) :=
  h.mono (fun _ h => ⟨h.within, h.context⟩) fun _ h => ⟨h.within, h.context⟩

theorem visits_routine {e : Event T} (h : e.visits = true) : e.routine = true := by
  cases e <;> first | rfl | cases h

theorem Recorded.following (rule : Recorded allowed J) :
    Following allowed fun s => J s.parent where
  op op hop hj := rule.op op hop hj
  event he hj := rule.event (visits_routine he) hj
  created {s context log i} hj := by
    have hj' : J s.parent context (log ++ [.created i] ++ [.installed i]) :=
      rule.event rfl (rule.event rfl hj)
    simpa using hj'
  actor hj := rule.actor hj

theorem Recorded.call (rule : Recorded allowed J) {c : Cell T} (site : Site)
    {events : List (Event T)} (hwithin : Within allowed c.calls)
    (h : ∀ context, c.disp.context = some context →
      J c.disp.parent context (log ++ (c.log ++ events)))
    (hcontext : c.disp.context ≠ none) :
    (c.call site events).Ensures (Records allowed J log) (Records allowed J log) :=
  records_of_follows (rule.following.call site hwithin h hcontext)

theorem Recorded.callRoutine (rule : Recorded allowed J) {c : Cell T} (site : Site) {e : Event T}
    (he : e.routine = true) (h : Records allowed J log c) :
    (c.call site [e]).Ensures (Records allowed J log) (Records allowed J log) :=
  records_of_follows (rule.following.callAfter site h.follows fun _ _ => rule.event he)

theorem Recorded.keeps (rule : Recorded allowed J) :
    Keeps (Records allowed J log) (Records allowed J log) where
  context h _ := h
  exit h := rule.callRoutine .onExit rfl h
  enter h _ := rule.callRoutine .onEnter rfl h
  install h hcontext hnew :=
    have hf := rule.following.keeps.install h.follows hcontext hnew
    ⟨hf.within, hf.context⟩

theorem Recorded.startActor (rule : Recorded allowed J) {c : Cell T}
    (h : Records allowed J log c.createContext) :
    c.startActor.Ensures (Records allowed J log) (Records allowed J log) :=
  records_of_follows (rule.following.startActor h.follows)

theorem Recorded.terminateActor (rule : Recorded allowed J)
    (hleave : ∀ {p context log}, J p context log → J p context (log ++ [.terminating]))
    {c : Cell T} (h : Records allowed J log c) :
    c.terminateActor.Ensures (Records allowed J log) (Records allowed J log) :=
  records_of_follows (rule.following.terminateActor hleave h.follows)

theorem Recorded.touch (rule : Recorded allowed J) {c : Cell T} (h : Records allowed J log c)
    (context : ActorContext T) : Records allowed J log (c.touch context) := by
  obtain ⟨hlog, hcontext, hparent, hcalls⟩ := touch_same context c
  obtain ⟨hwithin, context', hsome, hj⟩ := h
  refine ⟨hcalls ▸ hwithin, context', hcontext.trans hsome, ?_⟩
  rw [hparent, hlog, ← List.append_assoc]
  exact rule.event rfl hj

theorem Recorded.onMessage (rule : Recorded allowed J) {c : Cell T} {actor : InstanceId}
    (hactor : c.disp.actor = some actor) {numMsg : Nat} {src : Source} {message : Message T}
    (hcontext : c.disp.context ≠ none)
    (huser : ∀ msg context, message = .user msg →
      ((c.touch context).call .onMessage [.delivered actor src msg]).Ensures (Records allowed J log)
        (Records allowed J log))
    (h : (∀ msg, message ≠ .user msg) → Records allowed J log c) :
    (onMessage numMsg src message c).Ensures (Records allowed J log) (Records allowed J log) := by
  obtain ⟨context, hcontext⟩ := Option.ne_none_iff_exists'.mp hcontext
  have applied : ∀ {e : Effect T}, Records allowed J log c →
      (J c.disp.parent context (log ++ c.log) →
        J c.disp.parent e.context (log ++ c.log ++ e.log)) →
      Records allowed J log (c.apply e) := by
    rintro e ⟨hwithin, context', hcontext', hj⟩ he
    obtain rfl := Option.some.inj (hcontext.symm.trans hcontext')
    exact ⟨hwithin, e.context, rfl, by simpa [Cell.apply] using he hj⟩
  obtain ⟨o, ho, hhandling⟩ := onMessage_handling hactor hcontext numMsg src message
  rw [ho]
  cases hhandling with
  | user => exact huser _ context rfl
  | timer _ _ => exact rule.callRoutine .onMessage rfl (rule.touch (h nofun) context)
  | stale => exact rule.touch (h nofun) context
  | poisonPill => exact applied (h nofun) rule.stopSelf
  | unset _ | failed _ _ _ => exact h nofun
  | expired _ _ _ _ => exact rule.callRoutine .onSystemMessage rfl (h nofun)
  | early _ _ _ _ | again _ => exact applied (h nofun) (rule.timeout _)

theorem Recorded.processMessage (rule : Recorded allowed J) {c : Cell T} {actor : InstanceId}
    (hactor : c.disp.actor = some actor) {numMsg : Nat} {src : Source} {message : Message T}
    (hcontext : c.disp.context ≠ none)
    (huser : ∀ msg context, message = .user msg →
      ((c.touch context).call .onMessage [.delivered actor src msg]).Ensures (Records allowed J log)
        (Records allowed J log))
    (h : (∀ msg, message ≠ .user msg) → Records allowed J log c) :
    (processMessage numMsg src message c).Ensures (Records allowed J log)
      (Records allowed J log) := by
  have hm : (Cell.onMessage numMsg src message c).Ensures (Records allowed J log)
      (Records allowed J log) := rule.onMessage hactor hcontext huser h
  exact records_of_follows (rule.following.processMessage
    (hm.mono (fun _ => Records.follows) fun _ => Records.follows))

theorem Recorded.process (rule : Recorded allowed J)
    (hdelivered : ∀ {p context log} actor src msg, J p context log →
      J p context (log ++ [.delivered actor src msg])) {c : Cell T}
    (hactor : c.disp.actor ≠ none) (numMsg : Nat) (src : Source) (message : Message T)
    (h : Records allowed J log c) :
    (Cell.processMessage numMsg src message c).Ensures (Records allowed J log)
      (Records allowed J log) := by
  obtain ⟨actor, hactor⟩ := Option.ne_none_iff_exists'.mp hactor
  obtain ⟨context, hcontext, -⟩ := h.context
  refine rule.processMessage hactor (by simp [hcontext]) (fun msg context' _ => ?_) fun _ => h
  obtain ⟨hwithin, context'', hsome, hj⟩ := rule.touch h context'
  refine rule.call .onMessage hwithin (fun context₁ hcontext₁ => ?_) (by simp [hsome])
  obtain rfl := Option.some.inj (hsome.symm.trans hcontext₁)
  rw [← List.append_assoc]
  exact hdelivered actor src msg hj

end Recorded

def Settled (c : Cell T) : Prop :=
  ∃ context, c.disp.context = some context ∧ context.actor = none

theorem checkBecome_settled {P Q : Cell T → Prop} {c : Cell T} (h : c.Settled) (hp : P c)
    (fuel : Nat) : (checkBecome fuel c).Ensures P Q := by
  obtain ⟨context, hcontext, hnone⟩ := h
  cases fuel with
  | zero => trivial
  | succ fuel => simpa [checkBecome, hcontext, hnone] using hp

/-- Callbacks leave the parent, the watchers and the suspension alone, and there
is a context throughout. `calls` are the callbacks at the start. -/
structure Framed (d : Dispatcher T) (reason : Option SuspendReason) (calls : List (Callback T))
    (c : Cell T) : Prop where
  parent : c.disp.parent = d.parent
  watcher : c.disp.watcher = d.watcher
  context : ∃ context, c.disp.context = some context ∧ context.suspendReason = reason
  calls : c.calls <:+ calls

variable {d : Dispatcher T} {reason : Option SuspendReason} {calls : List (Callback T)}

theorem Framed.apply {c : Cell T} (h : Framed d reason calls c) {e : Effect T}
    (he : e.context.suspendReason = reason) : Framed d reason calls (c.apply e) :=
  ⟨h.parent, h.watcher, ⟨e.context, rfl, he⟩, h.calls⟩

theorem Framed.ran {c : Cell T} (h : Framed d reason calls c) {context : ActorContext T}
    {cb : Callback T} {rest : List (Callback T)} {events : List (Event T)}
    (hcontext : c.disp.context = some context) (hcalls : c.calls = cb :: rest) :
    Framed d reason calls (c.ran context rest events cb.ops) := by
  obtain ⟨context', hsome, hreason⟩ := h.context
  obtain rfl : context' = context := Option.some.inj (hsome.symm.trans hcontext)
  refine ⟨h.parent, h.watcher, ⟨_, rfl, by simpa using hreason⟩, ?_⟩
  exact (hcalls ▸ List.suffix_cons cb rest : rest <:+ c.calls).trans h.calls

theorem Framed.unguarded {c : Cell T} (h : Framed d reason calls c) {cb : Callback T}
    {rest : List (Callback T)} (hcalls : c.calls = cb :: rest) (hsite : cb.site.guarded = false)
    (hpanics : cb.panics = true) : ¬ Calm calls := by
  intro hcalm
  have hmem : cb ∈ calls := h.calls.subset (by simp [hcalls])
  exact Bool.false_ne_true ((hcalm cb hmem hsite).symm.trans hpanics)

theorem Framed.call {c : Cell T} (h : Framed d reason calls c) {site : Site}
    {events : List (Event T)} (hsite : site.guarded = false) :
    (c.call site events).Ensures
      (fun c' => Framed d reason calls c' ∧ c'.disp.actor = c.disp.actor)
      (fun _ => ¬ Calm calls) := by
  apply call_ensures
  · intro hnone
    obtain ⟨context, hcontext, -⟩ := h.context
    exact absurd (hnone.symm.trans hcontext) (by simp)
  · rintro context cb rest hcontext hcalls rfl
    exact ⟨fun _ => ⟨h.ran hcontext hcalls, rfl⟩, fun hp => h.unguarded hcalls hsite hp⟩

theorem Framed.install {c : Cell T} (h : Framed d reason calls c) {context : ActorContext T}
    {new : InstanceId} (hcontext : c.disp.context = some context) :
    Framed d reason calls (c.install context new) := by
  obtain ⟨context', hsome, hreason⟩ := h.context
  obtain rfl : context' = context := Option.some.inj (hsome.symm.trans hcontext)
  exact ⟨h.parent, h.watcher, ⟨_, rfl, hreason⟩, h.calls⟩

theorem framed_keeps : Keeps (Framed d reason calls) (fun _ => ¬ Calm calls) where
  context h hnone := by
    obtain ⟨context, hcontext, -⟩ := h.context
    exact absurd (hnone.symm.trans hcontext) (by simp)
  exit h := (h.call rfl).mono (fun _ => And.left) fun _ => id
  enter h _ := (h.call rfl).mono (fun _ => And.left) fun _ => id
  install h hcontext _ := h.install hcontext

theorem staffed_keeps :
    Keeps (fun c => Framed d reason calls c ∧ c.disp.actor ≠ none) (fun _ => ¬ Calm calls) where
  context h hnone := framed_keeps.context h.1 hnone
  exit h := (h.1.call rfl).mono (fun _ hc => ⟨hc.1, hc.2 ▸ h.2⟩) fun _ => id
  enter h _ := (h.1.call rfl).mono (fun _ hc => ⟨hc.1, hc.2 ▸ h.2⟩) fun _ => id
  install h hcontext _ := ⟨h.1.install hcontext, by simp [Cell.install]⟩

theorem lifecycle_settled (fuel : Nat) :
    (∀ c : Cell T, (checkBecome fuel c).Ensures Settled fun _ => True) ∧
    (∀ c : Cell T, c.disp.actor ≠ none → (onEnter fuel c).Ensures Settled fun _ => True) := by
  induction fuel with
  | zero => simp [checkBecome, onEnter]
  | succ fuel ih =>
    refine ⟨fun c => ?_, fun c hc => ?_⟩
    · simp only [checkBecome]
      split
      · trivial
      next context hcontext =>
        split
        next hactor => exact ⟨context, hcontext, hactor⟩
        next new hnew =>
          -- the installed actor may be replaced, but there is one to enter
          have hf : Framed c.disp context.suspendReason c.calls (c.install context new) :=
            ⟨rfl, rfl, ⟨_, rfl, rfl⟩, List.suffix_rfl⟩
          have hstaffed := (staffed_keeps.lifecycle fuel).2.1 c.disp.actor _ ⟨hf, by simp [install]⟩
          exact (hstaffed.mono (fun _ h => h.2) fun _ _ => trivial).bind ih.2
    · simp only [onEnter]
      split
      next hnone => exact absurd hnone hc
      · exact Outcome.Ensures.bind (P := fun _ => True)
          (call_ensures (fun _ => trivial) fun _ _ _ _ _ _ => ⟨fun _ => trivial, fun _ => trivial⟩)
          fun c _ => ih.1 c

/-- The state a dispatcher is in between two messages. -/
structure Ready (d : Dispatcher T) (reason : Option SuspendReason) (calls : List (Callback T))
    (c : Cell T) : Prop where
  framed : Framed d reason calls c
  staffed : c.disp.actor ≠ none
  settled : Settled c

theorem onEnter_ready {c : Cell T} (fuel : Nat) (h : Framed d reason calls c)
    (hactor : c.disp.actor ≠ none) :
    (onEnter fuel c).Ensures (Ready d reason calls) fun _ => ¬ Calm calls := by
  have hf := (staffed_keeps.lifecycle fuel).2.2 c ⟨h, hactor⟩
  have hs := (lifecycle_settled fuel).2 c hactor
  cases he : onEnter fuel c with
  | returned c' =>
    rw [he] at hf hs
    exact ⟨hf.1, hf.2, hs⟩
  | panicked c' =>
    rw [he] at hf
    exact hf
  | stuck => trivial

theorem checkBecome_ready {c : Cell T} (fuel : Nat) (h : Framed d reason calls c)
    (hactor : c.disp.actor ≠ none) :
    (checkBecome fuel c).Ensures (Ready d reason calls) fun _ => ¬ Calm calls := by
  have hf := (staffed_keeps.lifecycle fuel).1 c ⟨h, hactor⟩
  have hs := (lifecycle_settled fuel).1 c
  cases he : checkBecome fuel c with
  | returned c' =>
    rw [he] at hf hs
    exact ⟨hf.1, hf.2, hs⟩
  | panicked c' =>
    rw [he] at hf
    exact hf
  | stuck => trivial

theorem Framed.create {c : Cell T} (h : Framed d reason calls c) :
    c.create.Ensures (fun c' => Framed d reason calls c' ∧ c'.disp.actor ≠ none)
      fun _ => ¬ Calm calls := by
  apply create_ensures
  intro cb rest hcalls hsite
  refine ⟨fun _ => ⟨⟨h.parent, h.watcher, h.context, ?_⟩, by simp⟩, fun hp => ?_⟩
  · exact (hcalls ▸ List.suffix_cons cb rest : rest <:+ c.calls).trans h.calls
  · exact h.unguarded hcalls (by simp [hsite, Site.guarded]) hp

theorem startActor_live {c : Cell T} {context : ActorContext T} {actor : InstanceId}
    (hcontext : c.disp.context = some context) (hactor : c.disp.actor = some actor) :
    c.startActor = .returned c := by
  simp [startActor, createContext, hcontext, hactor]

theorem startActor_fresh {c : Cell T} (hcontext : c.disp.context = none)
    (hactor : c.disp.actor = none) :
    c.startActor.Ensures (Ready c.disp none c.calls) fun _ => ¬ Calm c.calls := by
  have hf : Framed c.disp none c.calls
      { c with disp := { c.disp with context := some .new } } :=
    ⟨rfl, rfl, ⟨_, rfl, rfl⟩, List.suffix_rfl⟩
  simp only [startActor, createContext, hcontext]
  split
  · exact hf.create.bind fun c hc => onEnter_ready _ hc.1 hc.2
  next hsome => exact absurd (hactor.symm.trans hsome) (by simp)

theorem terminateActor_framed {c : Cell T} {context : ActorContext T}
    (hcontext : c.disp.context = some context) :
    c.terminateActor.Ensures (Framed c.disp context.suspendReason c.calls)
      fun _ => ¬ Calm c.calls :=
  (framed_keeps.lifecycle _).2.1 _ _ ⟨rfl, rfl, ⟨context, hcontext, rfl⟩, List.suffix_rfl⟩

theorem Framed.touch {c : Cell T} (h : Framed d reason calls c) (context : ActorContext T) :
    Framed d reason calls (c.touch context) ∧ (c.touch context).disp.actor = c.disp.actor := by
  simp only [Cell.touch]
  split <;> exact ⟨⟨h.parent, h.watcher, h.context, h.calls⟩, rfl⟩

theorem Framed.handler {c : Cell T} (h : Framed d reason calls c) (hactor : c.disp.actor ≠ none)
    {site : Site} {events : List (Event T)} :
    (c.call site events).Ensures (fun c' => Framed d reason calls c' ∧ c'.disp.actor ≠ none)
      (fun c' => Framed d reason calls c' ∧ c'.disp.actor ≠ none) := by
  apply call_ensures
  · exact fun _ => ⟨h, hactor⟩
  · rintro context cb rest hcontext hcalls -
    exact ⟨fun _ => ⟨h.ran hcontext hcalls, hactor⟩, fun _ => ⟨h.ran hcontext hcalls, hactor⟩⟩

theorem onMessage_framed {c : Cell T} (h : Framed d reason calls c) (hactor : c.disp.actor ≠ none)
    (numMsg : Nat) (src : Source) (message : Message T) :
    (onMessage numMsg src message c).Ensures
      (fun c' => Framed d reason calls c' ∧ c'.disp.actor ≠ none)
      (fun c' => Framed d reason calls c' ∧ c'.disp.actor ≠ none) := by
  obtain ⟨context, hcontext, hreason⟩ := h.context
  obtain ⟨actor, hsome⟩ := Option.ne_none_iff_exists'.mp hactor
  have htouch := h.touch context
  have keep : ∀ e : Effect T, e.context.suspendReason = reason →
      Framed d reason calls (c.apply e) ∧ (c.apply e).disp.actor ≠ none :=
    fun e he => ⟨h.apply he, hactor⟩
  obtain ⟨o, ho, hhandling⟩ := onMessage_handling hsome hcontext numMsg src message
  rw [ho]
  cases hhandling with
  | user | timer _ _ => exact htouch.1.handler (htouch.2 ▸ hactor)
  | stale => exact ⟨htouch.1, htouch.2 ▸ hactor⟩
  | unset _ | failed _ _ _ => exact ⟨h, hactor⟩
  | expired _ _ _ _ => exact h.handler hactor
  | poisonPill | early _ _ _ _ | again _ => exact keep _ hreason

theorem restart_ready {c : Cell T} (h : Framed d reason calls c) :
    c.restart.Ensures (Ready d reason calls) fun _ => ¬ Calm calls := by
  have htake : Framed d reason calls c.takeActor := ⟨h.parent, h.watcher, h.context, h.calls⟩
  refine ((framed_keeps.lifecycle _).2.1 _ _ htake).bind fun c hc => ?_
  exact hc.create.bind fun c hc => onEnter_ready _ hc.1 hc.2

theorem processMessage_ready {c : Cell T} {context : ActorContext T}
    (hcontext : c.disp.context = some context) (hactor : c.disp.actor ≠ none)
    (numMsg : Nat) (src : Source) (message : Message T) :
    (processMessage numMsg src message c).Ensures
      (Ready c.disp context.suspendReason c.calls) fun _ => ¬ Calm c.calls := by
  have h : Framed c.disp context.suspendReason c.calls c :=
    ⟨rfl, rfl, ⟨context, hcontext, rfl⟩, List.suffix_rfl⟩
  have hm := onMessage_framed h hactor numMsg src message
  simp only [processMessage]
  split
  next c' he =>
    rw [he] at hm
    exact checkBecome_ready _ hm.1 hm.2
  next c' he =>
    rw [he] at hm
    exact restart_ready hm.1
  · trivial

end Cell

end Ruactor
