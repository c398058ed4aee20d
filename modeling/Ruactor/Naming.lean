import Ruactor.Tracking

/-!
# Names of children

`base64` writes a number in base 64, low digits first, so `create_child` gives each of
its children a name of its own until the offset wraps around. A context whose children
are all made by `create_child` never overwrites an entry. All other children have the
names that the callbacks give to them.
-/

namespace Ruactor

open Machine

variable {T : Type} {path : ActorPath} {option : PropsOption} {parent : ParentRef}

def base64Digit (l : Nat) : Char := base64Chars[l &&& 63]?.getD '~'

def base64Digits (l : Nat) : List Char :=
  if l >>> 6 = 0 then [base64Digit l] else base64Digit l :: base64Digits (l >>> 6)
termination_by l
decreasing_by
  rename_i h
  simp only [Nat.shiftRight_eq_div_pow] at h ⊢
  omega

theorem base64_toList (l : Nat) (s : String) :
    (base64 l s).toList = s.toList ++ base64Digits l := by
  induction l using base64Digits.induct generalizing s with
  | case1 l hnext =>
    unfold base64 base64Digits
    simp [hnext, base64Digit]
  | case2 l hnext ih =>
    unfold base64 base64Digits
    simp [hnext, ih, base64Digit]

def base64Value : List Char → Nat
  | [] => 0
  | c :: cs => base64Chars.idxOf c + 64 * base64Value cs

theorem idxOf_base64Digit (l : Nat) : base64Chars.idxOf (base64Digit l) = l % 64 := by
  have hdigits : ∀ i : Fin 64, base64Chars.idxOf (base64Chars[i.val]?.getD '~') = i.val := by
    decide +kernel
  have hmod : l &&& 63 = l % 64 := Nat.and_two_pow_sub_one_eq_mod l 6
  rw [base64Digit, hmod]
  exact hdigits ⟨l % 64, Nat.mod_lt l (by decide)⟩

theorem base64Value_digits (l : Nat) : base64Value (base64Digits l) = l := by
  induction l using base64Digits.induct with
  | case1 l hnext =>
    rw [Nat.shiftRight_eq_div_pow] at hnext
    unfold base64Digits
    rw [Nat.shiftRight_eq_div_pow, if_pos hnext]
    simp only [base64Value, idxOf_base64Digit]
    omega
  | case2 l hnext ih =>
    unfold base64Digits
    rw [if_neg hnext, base64Value, idxOf_base64Digit, ih, Nat.shiftRight_eq_div_pow]
    omega

theorem base64_injective {k k' : Nat} {s : String} (h : base64 k s = base64 k' s) : k = k' := by
  have hdigits := congrArg String.toList h
  rw [base64_toList, base64_toList, List.append_cancel_left_eq] at hdigits
  rw [← base64Value_digits k, hdigits, base64Value_digits]

theorem base64_slashless (l : Nat) : '/' ∉ (base64 l "$").toList := by
  have hdigit : ∀ l, base64Digit l ≠ '/' := by
    intro l hslash
    have hindex : base64Chars.idxOf '/' = l % 64 := hslash ▸ idxOf_base64Digit l
    have hsize : base64Chars.idxOf '/' = 64 := by decide
    omega
  rw [base64_toList]
  induction l using base64Digits.induct with
  | case1 l hnext =>
    unfold base64Digits
    simpa [hnext] using (hdigit l).symm
  | case2 l hnext ih =>
    unfold base64Digits
    rw [if_neg hnext]
    simpa [(hdigit l).symm] using ih

/-- The name that the caller gives to a child. -/
def ContextOp.name : ContextOp T → Option String
  | .getOrCreateChild name _ _ => some name
  | _ => none

def ContextOp.explicit : ContextOp T → Bool
  | .getOrCreateChild _ _ _ => true
  | _ => false

/-- All children are made by `create_child`, which takes an offset also where it panics. -/
structure Named (c : ActorContext T) (log : List (Event T)) : Prop where
  offset : c.nextNameOffset = log.countP Event.attempts
  entry : ∀ name e, c.childrens.lookup name = some e →
    ∃ k < c.nextNameOffset, name = base64 k "$"
  distinct : ∀ e ∈ log, e.overwrites = false

/-- While the offset has not wrapped around. -/
def NamedBelow (_ : Option ParentRef) (c : ActorContext T) (log : List (Event T)) : Prop :=
  log.countP Event.attempts < 2 ^ 64 → Named c log

section Named

variable {c c' : ActorContext T} {log events : List (Event T)} {p p' : Option ParentRef}

theorem attempts_eq_zero (h : ∀ e ∈ events, e.attempts = false) :
    events.countP Event.attempts = 0 := by
  rw [List.countP_eq_zero]
  intro e he
  simp [h e he]

theorem overwrites_of_attempts {e : Event T} (h : e.attempts = false) : e.overwrites = false := by
  cases e <;> first | rfl | cases h

theorem Named.barren (h : Named c log) (hevents : ∀ e ∈ events, e.attempts = false)
    (hoffset : c'.nextNameOffset = c.nextNameOffset)
    (hchildrens : ∀ name e, c'.childrens.lookup name = some e → c.childrens.lookup name = some e) :
    Named c' (log ++ events) := by
  refine ⟨?_, fun name e he => ?_, fun e he => ?_⟩
  · rw [hoffset, List.countP_append, attempts_eq_zero hevents]
    exact h.offset
  · rw [hoffset]
    exact h.entry name e (hchildrens name e he)
  · exact (List.mem_append.mp he).elim (h.distinct e) fun he =>
      overwrites_of_attempts (hevents e he)

theorem NamedBelow.barren (h : NamedBelow p c log) (hevents : ∀ e ∈ events, e.attempts = false)
    (hoffset : c'.nextNameOffset = c.nextNameOffset)
    (hchildrens : ∀ name e, c'.childrens.lookup name = some e → c.childrens.lookup name = some e) :
    NamedBelow p' c' (log ++ events) := by
  intro hbound
  rw [List.countP_append, attempts_eq_zero hevents] at hbound
  exact (h hbound).barren hevents hoffset hchildrens

theorem Named.fresh (h : Named c log) : c.childrens.lookup c.randomName.1 = none := by
  cases hlookup : c.childrens.lookup c.randomName.1 with
  | none => rfl
  | some e =>
    obtain ⟨k, hlt, hname⟩ := h.entry _ e hlookup
    have hsame : base64 c.nextNameOffset "$" = base64 k "$" := hname
    exact absurd (base64_injective hsame) (Nat.ne_of_gt hlt)

theorem ContextOp.implicit_cases (c : ActorContext T) (op : ContextOp T)
    (h : op.explicit = false) :
    (∃ messageType prop, op = .createChild messageType prop) ∨ op.target c = none := by
  cases op with
  | createChild messageType prop => exact .inl ⟨messageType, prop, rfl⟩
  | getOrCreateChild _ _ _ => cases h
  | _ => exact .inr rfl

theorem ContextOp.apply_offset (rt : Runtime) (c : ActorContext T) {op : ContextOp T}
    (h : op.target c = none) : (op.apply rt c).context.nextNameOffset = c.nextNameOffset := by
  refine (op.apply_frame rt c).nextNameOffset ?_
  rintro messageType prop rfl
  cases h

theorem ActorContext.getOrCreateChild_offset (rt : Runtime) (c : ActorContext T) (name : String)
    (messageType : TypeId) (prop : Props) :
    (c.getOrCreateChild rt name messageType prop).2.context.nextNameOffset =
      c.nextNameOffset :=
  (ContextOp.apply_frame rt c (.getOrCreateChild name messageType prop)).nextNameOffset (by simp)

/-- One more offset is taken, and only a child with its name may be new. -/
theorem Named.draw {e : Event T} (h : Named c log)
    (hoffset : c'.nextNameOffset = c.nextNameOffset + 1)
    (hchildrens : ∀ name e, c'.childrens.lookup name = some e →
      name = c.randomName.1 ∨ c.childrens.lookup name = some e)
    (hattempt : e.attempts = true) (hfree : e.overwrites = false) : Named c' (log ++ [e]) := by
  refine ⟨?_, fun name entry hentry => ?_, fun e' he' => ?_⟩
  · rw [hoffset, h.offset, List.countP_append, List.countP_singleton, if_pos hattempt]
  · rw [hoffset]
    rcases hchildrens name entry hentry with rfl | hold
    · exact ⟨c.nextNameOffset, Nat.lt_succ_self _, rfl⟩
    · obtain ⟨k, hlt, hname⟩ := h.entry name entry hold
      exact ⟨k, Nat.lt_succ_of_lt hlt, hname⟩
  · exact (List.mem_append.mp he').elim (h.distinct e') fun he' =>
      List.mem_singleton.mp he' ▸ hfree

theorem NamedBelow.createChild (h : NamedBelow p c log) (rt : Runtime) (messageType : TypeId)
    (prop : Props) :
    NamedBelow p (c.createChild rt messageType prop).2.context
      (log ++ (c.createChild rt messageType prop).2.log) := by
  intro hbound
  have hn : Named c log := by
    refine h (Nat.lt_of_le_of_lt ?_ hbound)
    rw [List.countP_append]
    exact Nat.le_add_right _ _
  have hfound : c.randomName.2.childrens.lookup c.randomName.1 = none := hn.fresh
  have drawn : ∀ {e : Event T}, (c.createChild rt messageType prop).2.log = [e] →
      e.attempts = true → e.overwrites = false →
      (∀ name e, (c.createChild rt messageType prop).2.context.childrens.lookup name = some e →
        name = c.randomName.1 ∨ c.childrens.lookup name = some e) →
      Named (c.createChild rt messageType prop).2.context
        (log ++ (c.createChild rt messageType prop).2.log) := by
    intro e hlog hattempt hfree hchildrens
    rw [hlog] at hbound ⊢
    refine hn.draw ?_ hchildrens hattempt hfree
    have hlt : c.nextNameOffset + 1 < 2 ^ 64 := by
      simpa [List.countP_append, hattempt, hn.offset] using hbound
    refine (c.randomName.2.getOrCreateChild_offset rt c.randomName.1 messageType prop).trans ?_
    exact if_pos hlt
  obtain ⟨hget, -⟩ | ⟨-, -, hchildrens, hlog⟩ | ⟨option, -, -, -, hchildrens, hlog⟩ :=
    c.randomName.2.getOrCreateChild_family rt c.randomName.1 messageType prop
  · have hnone : c.randomName.2.getChild c.randomName.1 messageType = none :=
      ActorContext.getChild_eq_none.mpr fun entry he => absurd (hfound.symm.trans he) (by simp)
    simp [hnone] at hget
  · refine drawn hlog rfl rfl fun name e he => .inr ?_
    exact (congrArg (AList.lookup name) hchildrens).symm.trans he
  · rw [hfound] at hlog
    refine drawn hlog rfl rfl fun name e he => ?_
    have hlookup := (congrArg (AList.lookup name) hchildrens).symm.trans he
    by_cases hname : name = c.randomName.1
    · exact .inl hname
    · rw [AList.lookup_insert_ne hname] at hlookup
      exact .inr hlookup

theorem named_recorded :
    Cell.Recorded (T := T) (fun op => op.explicit = false) NamedBelow where
  op {p rt c log} op hop h := by
    obtain ⟨messageType, prop, rfl⟩ | htarget := op.implicit_cases c hop
    · exact h.createChild rt messageType prop
    · have hb := op.apply_barren rt c htarget
      exact h.barren hb.log (op.apply_offset rt c htarget) (by simp [hb.childrens])
  stopSelf h := h.barren (by simp [Event.attempts]) rfl fun _ _ => id
  timeout {p rt c log} d h := h.barren (c.armReceiveTimeout_barren rt d).log rfl fun _ _ => id
  event he h := h.barren (by simpa using (Event.routine_barren he).1) rfl fun _ _ => id
  actor {p c log} h := by
    have hn : NamedBelow p { c with actor := none } (log ++ []) :=
      h.barren (List.forall_mem_nil _) rfl fun _ _ => id
    simpa using hn

/-- The children of this step have names from `P`. -/
def Titled (P : String → Prop) (_ : Option ParentRef) (_ : ActorContext T)
    (log : List (Event T)) : Prop :=
  ∀ k name option found, .childCreated k name option found ∈ log → P name

variable {P : String → Prop}

theorem Titled.barren (h : Titled P p c log) (hevents : ∀ e ∈ events, e.attempts = false) :
    Titled P p' c' (log ++ events) := by
  intro k name option found hmem
  rcases List.mem_append.mp hmem with hmem | hmem
  · exact h k name option found hmem
  · exact absurd (hevents _ hmem) (by simp [Event.attempts])

theorem ContextOp.target_name {op : ContextOp T} {name : String} {messageType : TypeId}
    (h : op.target c = some (name, messageType)) :
    op.name = some name ∨ name = base64 c.nextNameOffset "$" := by
  cases op with
  | createChild _ _ =>
    cases h
    exact .inr rfl
  | getOrCreateChild _ _ _ =>
    cases h
    exact .inl rfl
  | _ => cases h

theorem titled_recorded (hgenerated : ∀ n, P (base64 n "$")) :
    Cell.Recorded (T := T) (fun op => ∀ name ∈ op.name, P name) (Titled P) where
  op {p rt c log} op hop h := by
    cases htarget : op.target c with
    | none => exact h.barren (op.apply_barren rt c htarget).log
    | some target =>
      obtain ⟨name, messageType⟩ := target
      obtain ⟨-, hb⟩ | ⟨-, hb⟩ | ⟨option, -, hb⟩ := op.apply_family rt c htarget
      · exact h.barren hb.log
      · intro k name' option' found hmem
        exact h k name' option' found (by simpa [hb.log] using hmem)
      · rw [hb.log]
        intro k name' option' found hmem
        rcases List.mem_append.mp hmem with hmem | hmem
        · exact h k name' option' found hmem
        · cases List.mem_singleton.mp hmem
          obtain hname | rfl := ContextOp.target_name htarget
          · exact hop name hname
          · exact hgenerated _
  stopSelf h := h.barren (by simp [Event.attempts])
  timeout {p rt c log} d h := h.barren (c.armReceiveTimeout_barren rt d).log
  event he h := h.barren (by simpa using (Event.routine_barren he).1)
  actor h := h

end Named

namespace Mailbox

structure Clean (m : Mailbox T) : Prop where
  named : m.Served → NamedBelow m.dispatcher.parent (m.dispatcher.context.getD .new) m.log
  distinct : m.log.countP Event.attempts < 2 ^ 64 → ∀ e ∈ m.log, e.overwrites = false

variable {m m' : Mailbox T} {events : List (Event T)}

theorem Clean.quiet (h : m.Clean) (hlog : m'.log = m.log ++ events)
    (hevents : ∀ e ∈ events, e.attempts = false)
    (hcontext : m'.Served → m.Served ∧
      (m'.dispatcher.context.getD .new).nextNameOffset =
        (m.dispatcher.context.getD .new).nextNameOffset ∧
      ∀ name e, (m'.dispatcher.context.getD .new).childrens.lookup name = some e →
        (m.dispatcher.context.getD .new).childrens.lookup name = some e) : m'.Clean := by
  refine ⟨fun hserved => ?_, fun hbound e he => ?_⟩
  · obtain ⟨hserved, hoffset, hchildrens⟩ := hcontext hserved
    rw [hlog]
    exact (h.named hserved).barren hevents hoffset hchildrens
  · rw [hlog, List.countP_append, attempts_eq_zero hevents] at hbound
    rw [hlog] at he
    exact (List.mem_append.mp he).elim (h.distinct hbound e) fun he =>
      overwrites_of_attempts (hevents e he)

theorem Clean.of_named {context : ActorContext T}
    (h : NamedBelow m.dispatcher.parent context m.log)
    (hcontext : m.dispatcher.context = some context) : m.Clean :=
  ⟨fun _ => by simpa [hcontext] using h, fun hbound => (h hbound).distinct⟩

theorem finish_clean {next : Task T} {o : Outcome (Cell T)} {r : TaskStep T}
    {allowed : ContextOp T → Prop} (h : m.finish next o = some r)
    (ho : o.Ensures (Cell.Records allowed NamedBelow m.log)
      (Cell.Records allowed NamedBelow m.log)) : r.mbox.Clean := by
  obtain ⟨c, hc, hm, -⟩ | ⟨c, hc, hm, -⟩ := finish_ensures h ho
  · obtain ⟨context, hcontext, hn⟩ := hc.context
    rw [hm]
    exact .of_named hn hcontext
  · obtain ⟨context, hcontext, hn⟩ := hc.context
    have hunwound : NamedBelow c.disp.parent context (m.log ++ c.log ++ [.unwound]) :=
      hn.barren (by simp [Event.attempts]) rfl fun _ _ => id
    rw [hm]
    exact .of_named hunwound hcontext

theorem Logs.barren {t : Task T} {e : Event T} (h : m.Logs t e) (ht : t.calls = false) :
    e.attempts = false := by
  cases h with
  | called hcalls _ _ _ => exact absurd (hcalls.symm.trans ht) (by simp)
  | _ => rfl

def Implicit (_ : Mailbox T) (_ : Task T) (input : TaskInput T) : Prop :=
  Cell.Within (fun op => op.explicit = false) input.calls

theorem Move.clean {input : TaskInput T} {t : Task T} {r : TaskStep T}
    (move : m.Move input t r) (hphase : m.Phase t) (hok : m.Implicit t input) (h : m.Clean) :
    r.mbox.Clean := by
  cases hcalls : t.calls with
  | true =>
    cases move with
    | start hparent hf =>
      exact finish_clean hf (named_recorded.startActor
        (createContext_records hok (h.named fun _ => by simp [hparent])))
    | terminate hf =>
      obtain ⟨-, -, -, context, hcontext, -⟩ := hphase
      have hn := h.named fun hnone => absurd (hnone.symm.trans hcontext) (by simp)
      rw [hcontext] at hn
      exact finish_clean hf (named_recorded.terminateActor
        (fun hn => hn.barren (by simp [Event.attempts]) rfl fun _ _ => id)
        (cell_records hok hcontext hn))
    | process hf =>
      obtain ⟨context, hcontext, -⟩ := hphase.2.context
      have hn := h.named fun hnone => absurd (hnone.symm.trans hcontext) (by simp)
      rw [hcontext] at hn
      exact finish_clean hf (named_recorded.process
        (fun _ _ _ hn => hn.barren (by simp [Event.attempts]) rfl fun _ _ => id)
        hphase.2.actor _ _ _ (cell_records hok hcontext hn))
    | dead _ => exact h
    | _ => cases hcalls
  | false =>
    obtain ⟨events, hlog, hlogs⟩ := move.logs hphase
    refine h.quiet hlog (fun e he => (hlogs e he).barren hcalls) fun hserved => ?_
    cases move with
    | suspend hcontext _ | popUnstashed _ hcontext _ =>
      simp [Served, withContext, hcontext]
    | childLast hcontext _ _ | childGone hcontext _ =>
      refine ⟨by simp [Served, hcontext], by simp [withContext, hcontext], fun name e he => ?_⟩
      rw [hcontext, Option.getD_some]
      exact ActorContext.lookup_of_erase he
    | notify _ => exact ⟨fun hnone => absurd hnone hphase.2.2, rfl, fun _ _ => id⟩
    | reply => exact absurd hphase.2.1 (hserved rfl)
    | start _ _ | terminate _ | process _ => cases hcalls
    | _ => exact ⟨hserved, rfl, fun _ _ => id⟩

theorem Move.titled {P : String → Prop} (hgenerated : ∀ n, P (base64 n "$"))
    {input : TaskInput T} {t : Task T} {r : TaskStep T} (move : m.Move input t r)
    (hphase : m.Phase t) (hwithin : Cell.Within (fun op => ∀ name ∈ op.name, P name) input.calls)
    (hlog : r.mbox.log = m.log ++ events) {k : ChildId} {name : String} {option : PropsOption}
    {found : Option ChildId} (hmem : .childCreated k name option found ∈ events) : P name := by
  have rule := titled_recorded (T := T) hgenerated
  have hnil : ∀ {p : Option ParentRef} {context : ActorContext T}, Titled P p context [] :=
    fun _ _ _ _ h => absurd h List.not_mem_nil
  have finished : ∀ {next o}, m.finish next o = some r →
      o.Ensures (Cell.Records (fun op => ∀ name ∈ op.name, P name) (Titled P) [])
        (Cell.Records (fun op => ∀ name ∈ op.name, P name) (Titled P) []) → P name := by
    intro next o hf ho
    obtain ⟨_, _, htitled⟩ := finish_records hf ho
      (fun h => h.barren (by simp [Event.attempts])) hlog
    exact htitled k name option found hmem
  cases hcalls : t.calls with
  | true =>
    cases move with
    | start _ hf => exact finished hf (rule.startActor (createContext_records hwithin hnil))
    | terminate hf =>
      obtain ⟨-, -, -, context, hcontext, -⟩ := hphase
      exact finished hf (rule.terminateActor (fun h => h.barren (by simp [Event.attempts]))
        (cell_records hwithin hcontext hnil))
    | process hf =>
      obtain ⟨context, hcontext, -⟩ := hphase.2.context
      exact finished hf (rule.process (fun _ _ _ h => h.barren (by simp [Event.attempts]))
        hphase.2.actor _ _ _ (cell_records hwithin hcontext hnil))
    | dead _ =>
      obtain rfl : events = [] := List.self_eq_append_right.mp hlog
      cases hmem
    | _ => cases hcalls
  | false =>
    obtain ⟨events', hlog', hlogs⟩ := move.logs hphase
    obtain rfl := List.append_cancel_left (hlog.symm.trans hlog')
    exact absurd ((hlogs _ hmem).barren hcalls) (by simp [Event.attempts])

theorem Env.clean (henv : m.Env m') (h : m.Clean) : m'.Clean := by
  obtain ⟨events, hlog, hevents⟩ := henv.dispatcher_kin
  refine h.quiet hlog (fun e he => (hevents e he).1) ?_
  rw [Served, henv.dispatcher]
  exact fun hserved => ⟨hserved, rfl, fun _ _ => id⟩

end Mailbox

/-- The names that the callbacks of a step give to children. -/
def Action.names : Action T → List String
  | .task _ input => input.calls.flatMap fun cb => cb.ops.filterMap ContextOp.name
  | _ => []

namespace Node

theorem clean_owned : Owned path option parent (Mailbox.Implicit (T := T)) Mailbox.Phase
    (fun _ _ => True) (fun _ => True) Mailbox.Clean where
  start := by
    refine ⟨trivial, fun _ _ => ?_, fun _ e he => absurd he List.not_mem_nil⟩
    exact ⟨rfl, nofun, List.forall_mem_nil _⟩
  env henv := ⟨henv.clean, id, fun _ _ => id⟩
  acquire _ := ⟨fun h => ⟨h.named, h.distinct⟩, id⟩
  move move _ hok hphase _ h :=
    ⟨move.clean hphase hok h, fun _ _ => ⟨fun _ => trivial, fun _ => trivial⟩⟩

theorem reach_clean {nd : Node T}
    (h : (machine path option parent).Reach (okTask Mailbox.Implicit) nd) : nd.mbox.Clean :=
  (clean_owned.reach (fun hr => (reachable_phase hr).loc) h).inv

/-- The children that a step creates have the names that were given to them, or generated
ones. -/
theorem step_titled {P : String → Prop} (hgenerated : ∀ n, P (base64 n "$")) {nd nd' : Node T}
    {a : Action T} {events : List (Event T)} (h : (machine path option parent).Reachable nd)
    (hstep : nd.step a = some nd') (hlog : nd'.mbox.log = nd.mbox.log ++ events)
    (hnames : ∀ name ∈ a.names, P name) {k : ChildId} {name : String} {props : PropsOption}
    {found : Option ChildId} (hmem : .childCreated k name props found ∈ events) : P name := by
  obtain ⟨events', hlog', hlogs⟩ := step_logs h hstep
  obtain rfl := List.append_cancel_left (hlog.symm.trans hlog')
  cases hlogs _ hmem with
  | @task i input t _ hi _ hphase _ =>
    have hwithin : Cell.Within (fun op : ContextOp T => ∀ name ∈ op.name, P name) input.calls := by
      intro cb hcb op hop name hname
      exact hnames name (List.mem_flatMap.mpr ⟨cb, hcb, List.mem_filterMap.mpr ⟨op, hop, hname⟩⟩)
    cases step_move hstep with
    | reschedule hi' _ =>
      obtain rfl := Option.some.inj (hi.symm.trans hi')
      obtain rfl : events = [] := by
        simpa [schedule_log] using hlog
      cases hmem
    | task hi' _ hr =>
      obtain rfl := Option.some.inj (hi.symm.trans hi')
      exact (Mailbox.taskStep_move hr).titled hgenerated hphase hwithin hlog hmem
  | sent hsent => cases hsent

end Node

end Ruactor
