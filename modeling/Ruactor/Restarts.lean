import Ruactor.Bracketing

/-!
# The restart after a panic

The recovery takes the actor out, exits it and enters a new one, by the helpers that
also look for a pending transition. One that the failed handler asked for is thus
carried out between the exit and the creation, and its instance is entered and
dropped without an exit.
-/

namespace Ruactor

variable {T : Type}

/-- Callbacks return and do not ask for a transition. -/
def Quiet (calls : List (Callback T)) : Prop :=
  ∀ cb ∈ calls, cb.panics = false ∧ ContextOp.transit ∉ cb.ops

theorem Quiet.tail {cb : Callback T} {calls : List (Callback T)} (h : Quiet (cb :: calls)) :
    Quiet calls := fun cb' hcb' => h cb' (List.mem_cons_of_mem _ hcb')

theorem ContextOp.apply_unbracketed {rt : Runtime} {context : ActorContext T} {op : ContextOp T} :
    ∀ e ∈ (op.apply rt context).log, e.bracket = false := by
  intro e he
  obtain ⟨msg, -, rfl⟩ | ⟨-, rfl⟩ | hbook := apply_log he
  · rfl
  · rfl
  · cases e <;> first | rfl | cases hbook

theorem runOps_unbracketed (rt : Runtime) (context : ActorContext T) (ops : List (ContextOp T)) :
    (runOps rt context ops).log.filter Event.bracket = [] := by
  refine runOps_keeps (I := fun _ _ log => log.filter Event.bracket = []) ops rt ?_ [] rfl
  intro op _ rt' context' log hlog
  rw [List.filter_append, hlog, List.nil_append, List.filter_eq_nil_iff]
  exact fun e he => by simp [ContextOp.apply_unbracketed e he]

theorem runOps_actor {rt : Runtime} {context : ActorContext T} {ops : List (ContextOp T)}
    (h : ContextOp.transit ∉ ops) : (runOps rt context ops).context.actor = context.actor :=
  runOps_keeps (I := fun _ context' _ => context'.actor = context.actor) ops rt
    (fun op hop {rt' context' _} hsame =>
      ((op.apply_actor rt' context' fun he => h (he ▸ hop)).1).trans hsame) [] rfl

/-- Nothing takes a transition back before the handler has ended. -/
theorem runOps_actor_none (rt : Runtime) {context : ActorContext T} {ops : List (ContextOp T)} :
    (runOps rt context ops).context.actor = none ↔
      context.actor = none ∧ ContextOp.transit ∉ ops := by
  refine ⟨fun hnone => ?_, fun ⟨hnone, h⟩ => runOps_settled h hnone⟩
  induction ops generalizing rt context with
  | nil => exact ⟨hnone, List.not_mem_nil⟩
  | cons op ops ih =>
    obtain ⟨hop, hops⟩ := ih _ hnone
    by_cases ht : op = .transit
    · subst ht
      cases hop
    · rw [(op.apply_actor rt context ht).1] at hop
      exact ⟨hop, by simp [Ne.symm ht, hops]⟩

namespace Cell

/-- After the log `base`, the calls of `on_exit` and `on_enter` were `visits`. -/
structure Visited (base : List (Event T)) (actor pending : Option InstanceId)
    (visits : List (Event T)) (c : Cell T) : Prop where
  actor : c.disp.actor = actor
  pending : ∃ context, c.disp.context = some context ∧ context.actor = pending
  quiet : Quiet c.calls
  log : ∃ events, c.log = base ++ events ∧ events.filter Event.bracket = visits

variable {c : Cell T} {base visits : List (Event T)} {actor pending : Option InstanceId}

theorem Visited.call (h : c.Visited base actor pending visits) (site : Site) {e : Event T}
    (he : e.bracket = true) :
    (c.call site [e]).Ensures (Visited base actor pending (visits ++ [e])) fun _ => False := by
  obtain ⟨context, hcontext, hpending⟩ := h.pending
  apply call_ensures
  · intro hnone
    exact absurd (hnone.symm.trans hcontext) (by simp)
  rintro context' cb calls hcontext' hcalls -
  obtain rfl := Option.some.inj (hcontext.symm.trans hcontext')
  obtain ⟨hreturns, hkeeps⟩ := h.quiet cb (by simp [hcalls])
  refine ⟨fun _ => ⟨h.actor, ⟨_, rfl, (runOps_actor hkeeps).trans hpending⟩, ?_, ?_⟩,
    fun hp => by simp [hreturns] at hp⟩
  · exact Quiet.tail (hcalls ▸ h.quiet)
  · obtain ⟨events, hlog, hvisits⟩ := h.log
    refine ⟨events ++ e :: (runOps c.rt context cb.ops).log, ?_, ?_⟩
    · simp [ran, Cell.apply, emit, hlog]
    · simp [hvisits, he, runOps_unbracketed]

theorem Visited.settled (h : c.Visited base actor none visits) (fuel : Nat) :
    (checkBecome fuel c).Ensures (Visited base actor none visits) fun _ => False := by
  obtain ⟨context, hcontext, hnone⟩ := h.pending
  exact checkBecome_settled ⟨context, hcontext, hnone⟩ h fuel

theorem Visited.onEnter {i : InstanceId} (h : c.Visited base (some i) none visits) (fuel : Nat) :
    (onEnter fuel c).Ensures (Visited base (some i) none (visits ++ [.entered i]))
      fun _ => False := by
  cases fuel with
  | zero => trivial
  | succ fuel =>
    simp only [Cell.onEnter, h.actor]
    exact (h.call .onEnter rfl).bind fun c hc => hc.settled fuel

theorem Visited.installs (h : c.Visited base actor pending visits) (context : ActorContext T)
    (new : InstanceId) : (c.install context new).Visited base (some new) none visits := by
  obtain ⟨events, hlog, hvisits⟩ := h.log
  refine ⟨rfl, ⟨_, rfl, rfl⟩, h.quiet, events ++ [.installed new], ?_, ?_⟩
  · simp [Cell.install, hlog]
  · simp [hvisits, Event.bracket]

/-- There is no actor to exit when the transition is carried out. -/
theorem Visited.install {new : InstanceId} (h : c.Visited base none (some new) visits)
    (fuel : Nat) :
    (checkBecome fuel c).Ensures (Visited base (some new) none (visits ++ [.entered new]))
      fun _ => False := by
  obtain ⟨context, hcontext, hnew⟩ := h.pending
  cases fuel with
  | zero => trivial
  | succ fuel =>
    simp only [checkBecome, hcontext, hnew, h.actor]
    cases fuel with
    | zero => trivial
    | succ fuel => exact (h.installs context new).onEnter (fuel + 1)

/-- A new actor was created, and entered after `visits`. -/
structure Recovered (base visits : List (Event T)) (c : Cell T) : Prop where
  fresh : ∃ fresh events, c.log = base ++ events ∧ .created fresh ∈ events ∧
    events.filter Event.bracket = visits ++ [.entered fresh] ∧ c.disp.actor = some fresh
  settled : c.Settled

theorem Visited.recovered (h : c.Visited base actor none visits) :
    (c.create.bind fun c => Cell.onEnter c.lifecycleFuel c).Ensures (Recovered base visits)
      fun _ => False := by
  obtain ⟨context, hcontext, hnone⟩ := h.pending
  obtain ⟨events, hlog, hvisits⟩ := h.log
  refine Outcome.Ensures.bind (P := fun c' =>
    c'.Visited (base ++ events ++ [.created c.rt.actors]) (some c.rt.actors) none [])
    (create_ensures fun cb calls hcalls _ => ⟨fun _ => ?_, fun hp => ?_⟩) fun c' hc' => ?_
  · refine ⟨rfl, ⟨context, hcontext, hnone⟩, Quiet.tail (hcalls ▸ h.quiet), ?_⟩
    exact ⟨[.installed c.rt.actors], by simp [hlog], rfl⟩
  · simp [(h.quiet cb (by simp [hcalls])).1] at hp
  · refine (hc'.onEnter _).mono (fun c'' hc'' => ?_) fun _ => id
    obtain ⟨events', hlog', hvisits'⟩ := hc''.log
    refine ⟨⟨c.rt.actors, events ++ .created c.rt.actors :: events', ?_, ?_, ?_, hc''.actor⟩,
      hc''.pending⟩
    · simp [hlog']
    · simp
    · simp [hvisits, hvisits', Event.bracket]

theorem restart_recovered {i : InstanceId} (h : c.Visited base (some i) pending visits) :
    c.restart.Ensures
      (Recovered base (visits ++ .exited i :: pending.toList.map .entered)) fun _ => False := by
  have htake : c.takeActor.Visited base none pending visits :=
    ⟨rfl, h.pending, h.quiet, h.log⟩
  have hexit : (Cell.onExit c.lifecycleFuel (some i) c.takeActor).Ensures
      (fun c' => ∃ actor, c'.Visited base actor none
        (visits ++ .exited i :: pending.toList.map .entered)) fun _ => False := by
    simp only [lifecycleFuel, Cell.onExit]
    refine (htake.call .onExit rfl).bind fun c' hc' => ?_
    cases pending with
    | none => exact (hc'.settled _).mono (fun c'' hc'' => ⟨none, by simpa using hc''⟩) fun _ => id
    | some new =>
      exact (hc'.install _).mono (fun c'' hc'' => ⟨some new, by simpa using hc''⟩) fun _ => id
  simp only [restart, h.actor]
  refine hexit.bind fun c' hc' => ?_
  obtain ⟨actor, hc'⟩ := hc'
  exact hc'.recovered

/-- The callbacks of a restart, `on_enter` of a pending instance among them. -/
def restartSites (pending : Option InstanceId) : List Site :=
  .onExit :: (pending.toList.map fun _ => .onEnter) ++ [.create, .onEnter]

theorem Visited.calls (h : c.Visited base actor pending visits) {site : Site} {sites : List Site}
    {e : Event T} (he : e.bracket = true) (hsites : c.calls.map Callback.site = site :: sites) :
    ∃ c', c.call site [e] = .returned c' ∧ c'.Visited base actor pending (visits ++ [e]) ∧
      c'.calls.map Callback.site = sites := by
  obtain ⟨context, hcontext, -⟩ := h.pending
  obtain ⟨cb, calls, hcalls, hsite, rfl⟩ := List.map_eq_cons_iff.mp hsites
  have hreturns : c.call site [e] = .returned (c.ran context calls [e] cb.ops) := by
    simp [Cell.call, hcontext, hcalls, hsite, (h.quiet cb (by simp [hcalls])).1, ran]
  have hvisited := h.call site he
  rw [hreturns] at hvisited
  exact ⟨_, hreturns, hvisited, rfl⟩

theorem Visited.becomes (h : c.Visited base actor none visits) (fuel : Nat) :
    checkBecome (fuel + 1) c = .returned c := by
  obtain ⟨context, hcontext, hnone⟩ := h.pending
  simp [checkBecome, hcontext, hnone]

theorem Visited.enters {i : InstanceId} (h : c.Visited base (some i) none visits)
    {sites : List Site} (hsites : c.calls.map Callback.site = .onEnter :: sites) (fuel : Nat) :
    ∃ c', Cell.onEnter (fuel + 2) c = .returned c' ∧
      c'.Visited base (some i) none (visits ++ [.entered i]) ∧
      c'.calls.map Callback.site = sites := by
  obtain ⟨c', hcall, hvisited, hrest⟩ := h.calls (e := .entered i) rfl hsites
  refine ⟨c', ?_, hvisited, hrest⟩
  simp only [Cell.onEnter, h.actor, hcall, Outcome.bind_returned]
  exact hvisited.becomes fuel

theorem Visited.creates (h : c.Visited base actor none visits)
    (hsites : c.calls.map Callback.site = [.create, .onEnter]) :
    ∃ c', (c.create.bind fun c => Cell.onEnter c.lifecycleFuel c) = .returned c' ∧
      c'.calls = [] := by
  obtain ⟨context, hcontext, hnone⟩ := h.pending
  obtain ⟨cb, calls, hcalls, hsite, hrest⟩ := List.map_eq_cons_iff.mp hsites
  have hquiet : Quiet (cb :: calls) := hcalls ▸ h.quiet
  have hcreates : ∃ c', c.create = .returned c' ∧ c'.calls = calls ∧
      c'.Visited c'.log (some c.rt.actors) none [] := by
    simp only [Cell.create, hcalls, hsite, (hquiet cb List.mem_cons_self).1, if_true,
      Bool.false_eq_true, if_false]
    exact ⟨_, rfl, rfl, rfl, ⟨context, hcontext, hnone⟩, hquiet.tail, [], by simp, rfl⟩
  obtain ⟨c', hcreate, rfl, hvisited⟩ := hcreates
  obtain ⟨c'', henter, -, hnil⟩ := hvisited.enters hrest (2 * c'.calls.length)
  exact ⟨c'', by rw [hcreate]; exact henter, List.map_eq_nil_iff.mp hnil⟩

theorem restart_returns {i : InstanceId} (h : c.Visited base (some i) pending visits)
    (hsites : c.calls.map Callback.site = restartSites pending) :
    ∃ c', c.restart = .returned c' ∧ c'.calls = [] := by
  have htake : c.takeActor.Visited base none pending visits :=
    ⟨rfl, h.pending, h.quiet, h.log⟩
  obtain ⟨c₁, hcall, hvisited, hrest⟩ := htake.calls (e := .exited i) rfl hsites
  have hlength : c.calls.length = pending.toList.length + 3 := by
    simpa [restartSites] using congrArg List.length hsites
  obtain ⟨actor, visits', c₂, hexit, hvisited₂, hrest₂⟩ : ∃ actor visits' c₂,
      checkBecome (2 * c.calls.length + 1) c₁ = .returned c₂ ∧
      c₂.Visited base actor none visits' ∧
      c₂.calls.map Callback.site = [.create, .onEnter] := by
    cases pending with
    | none => exact ⟨none, _, c₁, hvisited.becomes _, hvisited, hrest⟩
    | some new =>
      obtain ⟨context, hcontext, hnew⟩ := hvisited.pending
      obtain ⟨c₂, henter, hvisited₂, hrest₂⟩ := (hvisited.installs context new).enters hrest 6
      refine ⟨some new, _, c₂, ?_, hvisited₂, hrest₂⟩
      rw [hlength]
      simpa [checkBecome, Cell.onExit, hcontext, hnew, hvisited.actor] using henter
  obtain ⟨c₃, hcreate, hnil⟩ := hvisited₂.creates hrest₂
  refine ⟨c₃, ?_, hnil⟩
  simp only [restart, lifecycleFuel, h.actor, Cell.onExit, hcall, Outcome.bind_returned, hexit]
  exact hcreate

theorem call_panicked {site : Site} {events : List (Event T)} {c' : Cell T}
    {context : ActorContext T} (hcontext : c.disp.context = some context)
    (h : c.call site events = .panicked c') :
    ∃ cb, c.calls = cb :: c'.calls ∧ c' = c.ran context c'.calls events cb.ops := by
  have hensures : (c.call site events).Ensures (fun _ => True) fun c' =>
      ∃ cb, c.calls = cb :: c'.calls ∧ c' = c.ran context c'.calls events cb.ops := by
    apply call_ensures
    · intro hnone
      exact absurd (hcontext.symm.trans hnone) (by simp)
    · rintro context' cb calls hcontext' hcalls -
      obtain rfl := Option.some.inj (hcontext.symm.trans hcontext')
      exact ⟨fun _ => trivial, fun _ => ⟨cb, hcalls, rfl⟩⟩
  rw [h] at hensures
  exact hensures

/-- The state that `on_message` leaves behind when it panics. It has called `ran`: the handler,
or nothing where the panic is its own. -/
theorem onMessage_panicked {c' : Cell T} {i : InstanceId} {context : ActorContext T}
    {numMsg : Nat} {src : Source} {message : Message T} {ran : List (Callback T)}
    (hactor : c.disp.actor = some i) (hcontext : c.disp.context = some context)
    (h : onMessage numMsg src message c = .panicked c') (hran : c.calls = ran ++ c'.calls)
    (hquiet : Quiet c'.calls) :
    c'.Visited c.log (some i)
      (runOps c.rt context (ran.flatMap Callback.ops)).context.actor [] := by
  obtain ⟨hlog, htcontext, -, htcalls⟩ := touch_same context c
  have htouch : (c.touch context).disp.actor = some i ∧ (c.touch context).rt = c.rt := by
    simp only [Cell.touch]
    split <;> exact ⟨hactor, rfl⟩
  have called : ∀ {d : Cell T} {site e} {events : List (Event T)}, d.disp.actor = some i →
      d.disp.context = some context → d.rt = c.rt → d.calls = c.calls →
      d.log = c.log ++ events → (events ++ [e]).filter Event.bracket = [] →
      d.call site [e] = .panicked c' → c'.Visited c.log (some i)
        (runOps c.rt context (ran.flatMap Callback.ops)).context.actor [] := by
    intro d site e events hda hdcontext hrt hdcalls hdlog hvisits hcall
    obtain ⟨handler, hcalls, hc'⟩ := call_panicked hdcontext hcall
    obtain rfl : ran = [handler] := by
      have hsame := hran.symm.trans (hdcalls.symm.trans hcalls)
      exact List.append_cancel_right (hsame.trans (List.singleton_append ..).symm)
    rw [List.flatMap_singleton, hc']
    refine ⟨hda, ⟨_, rfl, by rw [hrt]⟩, hquiet, ?_⟩
    refine ⟨events ++ [e] ++ (runOps d.rt context handler.ops).log, ?_, ?_⟩
    · simp [Cell.ran, Cell.apply, emit, hdlog]
    · rw [List.filter_append, hvisits, runOps_unbracketed]
      rfl
  obtain ⟨o, ho, hhandling⟩ := onMessage_handling hactor hcontext numMsg src message
  rw [ho] at h
  cases hhandling with
  | user | timer _ _ =>
    exact called htouch.1 (htcontext.trans hcontext) htouch.2 htcalls hlog rfl h
  | expired _ _ _ _ => exact called hactor hcontext rfl rfl (List.append_nil _).symm rfl h
  | failed _ _ _ =>
    cases h
    obtain rfl : ran = [] := List.self_eq_append_left.mp hran
    exact ⟨hactor, ⟨context, hcontext, rfl⟩, hquiet, [], (List.append_nil _).symm, rfl⟩
  | _ => cases h

/-- Exactly two lifecycle calls: `on_exit` of the actor that panicked, and `on_enter` of
one that was created in its place. -/
def CleanRestart (i : InstanceId) (c c' : Cell T) : Prop := Recovered c.log [.exited i] c'

theorem clean_restart {i : InstanceId} {context : ActorContext T} {ran : List (Callback T)}
    {numMsg : Nat} {src : Source} {message : Message T} {c' : Cell T}
    (hactor : c.disp.actor = some i) (hcontext : c.disp.context = some context)
    (hpanic : onMessage numMsg src message c = .panicked c') (hran : c.calls = ran ++ c'.calls)
    (hquiet : Quiet c'.calls) :
    (c.processMessage numMsg src message).Ensures (fun c'' => CleanRestart i c c'' ↔
        context.actor = none ∧ ∀ handler ∈ ran, ContextOp.transit ∉ handler.ops)
        (fun _ => False) ∧
      (c'.calls.map Callback.site =
          restartSites (runOps c.rt context (ran.flatMap Callback.ops)).context.actor →
        ∃ c'', c.processMessage numMsg src message = .returned c'' ∧ c''.calls = []) := by
  have hleft := onMessage_panicked hactor hcontext hpanic hran hquiet
  have hasked : (∀ handler ∈ ran, ContextOp.transit ∉ handler.ops) ↔
      ContextOp.transit ∉ ran.flatMap Callback.ops := by
    simp [List.mem_flatMap]
  simp only [processMessage, hpanic]
  refine ⟨(restart_recovered hleft).mono (fun c'' hc'' => ?_) fun _ => id,
    fun hsites => restart_returns hleft hsites⟩
  rw [hasked, ← runOps_actor_none c.rt]
  cases hpending : (runOps c.rt context (ran.flatMap Callback.ops)).context.actor with
  | none =>
    rw [hpending] at hc''
    exact ⟨fun _ => rfl, fun _ => hc''⟩
  | some new =>
    -- the instance that the handler asked for is entered, too
    rw [hpending] at hc''
    obtain ⟨fresh, events, hlog, -, hvisits, -⟩ := hc''.fresh
    refine ⟨fun hclean => ?_, fun h => absurd h (Option.some_ne_none _)⟩
    obtain ⟨fresh', events', hlog', -, hvisits', -⟩ := hclean.fresh
    obtain rfl := List.append_cancel_left (hlog.symm.trans hlog')
    simpa using congrArg List.length (hvisits.symm.trans hvisits')

/-- An actor in its first message, with a handler that panics after `ops`. -/
def panicking (ops : List (ContextOp Nat)) (rest : List Site) : Cell Nat where
  disp := ⟨some .guard, some 0, 0, some .new, []⟩
  rt := ⟨0, 1, 0⟩
  calls := ⟨.onMessage, ops, true⟩ :: rest.map fun site => ⟨site, [], false⟩
  log := []

theorem panicking_clean : ∃ c', (panicking [.stash 7, .stopSelf]
      (restartSites none)).processMessage 0 .queue (.user 7) = .returned c' ∧
    CleanRestart 0 (panicking [.stash 7, .stopSelf] (restartSites none)) c' := by
  have hpanic : ∃ c', onMessage 0 .queue (.user 7)
      (panicking [.stash 7, .stopSelf] (restartSites none)) = .panicked c' ∧
      c'.calls = (restartSites none).map fun site => ⟨site, [], false⟩ := ⟨_, rfl, rfl⟩
  obtain ⟨c', hpanic, hcalls⟩ := hpanic
  have hran : (panicking [.stash 7, .stopSelf] (restartSites none)).calls =
      [⟨.onMessage, [.stash 7, .stopSelf], true⟩] ++ c'.calls := by
    rw [hcalls]
    rfl
  obtain ⟨hclean, hreturns⟩ :=
    clean_restart rfl rfl hpanic hran (by simp [hcalls, Quiet, restartSites])
  obtain ⟨c'', hreturned, -⟩ := hreturns (by rw [hcalls]; rfl)
  rw [hreturned] at hclean
  exact ⟨c'', hreturned, hclean.mpr ⟨rfl, by decide⟩⟩

/-- The instance of the transition is entered in between. -/
theorem transit_not_clean : ∃ c', (panicking [.transit]
      (restartSites (some 1))).processMessage 0 .queue (.user 7) = .returned c' ∧
    ¬ CleanRestart 0 (panicking [.transit] (restartSites (some 1))) c' := by
  have hthree : ∃ c', (panicking [.transit]
      (restartSites (some 1))).processMessage 0 .queue (.user 7) = .returned c' ∧
      (c'.log.filter Event.bracket).length = 3 := ⟨_, rfl, rfl⟩
  obtain ⟨c', hreturned, hlength⟩ := hthree
  refine ⟨c', hreturned, fun h => ?_⟩
  obtain ⟨fresh, events, hlog, -, hvisits, -⟩ := h.fresh
  rw [hlog, List.filter_append, hvisits] at hlength
  simp [panicking] at hlength

end Cell

end Ruactor
