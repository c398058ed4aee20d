import Ruactor.Phases
import Ruactor.Tree

/-!
# A parent's map and its children

For every child that a context has created there is an account: the child has
still to run `terminate`, or its `ChildTerminate` is on the way, and in either case
the map has its entry, or the entry has been removed for that notification. The
account is kept as long as no child is inserted over the entry of another.
-/

namespace Ruactor

open Machine

variable {T : Type} {path : ActorPath} {option : PropsOption}

/-- For each child the name it was created under, and whether it has a parent still:
`terminate` takes the parent. -/
abbrev Kids := ChildId → Option (String × Bool)

namespace Event

def births : Event T → Bool
  | .childCreated _ _ _ _ => true
  | _ => false

/-- A creation, or one that has panicked. -/
def attempts : Event T → Bool
  | .childCreated _ _ _ _ | .childFailed _ => true
  | _ => false

/-- The new child takes the place of another in the map. -/
def overwrites : Event T → Bool
  | .childCreated _ _ _ found => found.isSome
  | _ => false

def notifies : Event T → Bool
  | .notified _ _ => true
  | _ => false

theorem bookkeeping_silent {e : Event T} (h : e.bookkeeping = true) : e.notifies = false := by
  cases e <;> first | rfl | cases h

theorem overwrites_births {e : Event T} (h : e.overwrites = true) : e.births = true := by
  cases e <;> first | rfl | cases h

theorem births_of_attempts {e : Event T} (h : e.attempts = false) : e.births = false := by
  cases e <;> first | rfl | cases h

theorem routine_barren {e : Event T} (h : e.routine = true) :
    e.attempts = false ∧ e.notifies = false := by
  cases e <;> first | exact ⟨rfl, rfl⟩ | cases h

end Event

def bear (kids : Kids) : Event T → Kids
  | .childCreated k name _ _ => Function.update kids k (some (name, true))
  | _ => kids

theorem bear_barren (kids : Kids) {e : Event T} (h : e.births = false) : bear kids e = kids := by
  cases e <;> first | rfl | cases h

theorem foldl_bear_barren (kids : Kids) {events : List (Event T)}
    (h : ∀ e ∈ events, e.births = false) : events.foldl bear kids = kids := by
  induction events with
  | nil => rfl
  | cons e events ih =>
    rw [List.foldl_cons, bear_barren kids (h e (by simp))]
    exact ih fun e' he' => h e' (by simp [he'])

theorem foldl_bear_eq_none {kids : Kids} {events : List (Event T)} {k : ChildId}
    (h : events.foldl bear kids k = none) : kids k = none := by
  induction events generalizing kids with
  | nil => exact h
  | cons e events ih =>
    have hk := ih h
    cases e with
    | childCreated k' name option found =>
      by_cases hne : k = k'
      · subst hne
        simp [bear] at hk
      · rwa [bear, Function.update_of_ne hne] at hk
    | _ => exact hk

/-- The name and the message type of the child that an operation asks for. -/
def ContextOp.target (c : ActorContext T) : ContextOp T → Option (String × TypeId)
  | .createChild messageType _ => some (c.randomName.1, messageType)
  | .getOrCreateChild name messageType _ => some (name, messageType)
  | _ => none

/-- The new mailbox that an operation asks for, or none where `Mailbox::new` panics. -/
def ContextOp.mailbox : ContextOp T → Option PropsOption
  | .createChild _ prop | .getOrCreateChild _ _ prop => prop.mailbox
  | _ => none

def ContextOp.creates : ContextOp T → Bool
  | .createChild _ _ | .getOrCreateChild _ _ _ => true
  | _ => false

theorem ContextOp.target_eq_none {c : ActorContext T} {op : ContextOp T}
    (h : op.creates = false) : op.target c = none := by
  cases op <;> first | rfl | cases h

structure Effect.Barren (c : ActorContext T) (e : Effect T) : Prop where
  created : e.context.created = c.created
  childrens : e.context.childrens = c.childrens
  log : ∀ event ∈ e.log, event.attempts = false

structure Effect.Fails (c : ActorContext T) (name : String) (e : Effect T) : Prop where
  created : e.context.created = c.created
  childrens : e.context.childrens = c.childrens
  log : e.log = [.childFailed name]

structure Effect.Begets (c : ActorContext T) (name : String) (messageType : TypeId)
    (option : PropsOption) (e : Effect T) : Prop where
  free : c.getChild name messageType = none
  created : e.context.created = c.created ++ [name]
  childrens : e.context.childrens = c.childrens.insert name ⟨messageType, c.created.length⟩
  log : e.log = [.childCreated c.created.length name option
    ((c.childrens.lookup name).map ChildContainer.child)]

theorem dropHandle_barren (old : Option Scheduled) :
    ∀ e ∈ (ActorContext.dropHandle old : List (Event T)), e.attempts = false := by
  intro e he
  obtain ⟨handle, rfl⟩ := dropHandle_mem he
  rfl

theorem ActorContext.armReceiveTimeout_barren (rt : Runtime) (c : ActorContext T)
    (d : Duration) : (c.armReceiveTimeout rt d).Barren c := by
  refine ⟨rfl, rfl, fun e he => ?_⟩
  obtain rfl | ⟨handle, rfl⟩ := armReceiveTimeout_mem he <;> rfl

theorem ActorContext.getOrCreateChild_family (rt : Runtime) (c : ActorContext T) (name : String)
    (messageType : TypeId) (prop : Props) :
    ((c.getChild name messageType).isSome ∧
        (c.getOrCreateChild rt name messageType prop).2.Barren c) ∨
      (prop.mailbox = none ∧ (c.getOrCreateChild rt name messageType prop).2.Fails c name) ∨
      ∃ option, prop.mailbox = some option ∧
        (c.getOrCreateChild rt name messageType prop).2.Begets c name messageType option := by
  simp only [getOrCreateChild]
  split
  next hsome => exact .inl ⟨by simp [hsome], rfl, rfl, List.forall_mem_nil _⟩
  next option hfree hmailbox => exact .inr (.inr ⟨option, hmailbox, hfree, rfl, rfl, rfl⟩)
  next hmailbox => exact .inr (.inl ⟨hmailbox, rfl, rfl, rfl⟩)

theorem ActorContext.getChild_eq_none {c : ActorContext T} {name : String}
    {messageType : TypeId} : c.getChild name messageType = none ↔
      ∀ entry, c.childrens.lookup name = some entry → entry.messageType ≠ messageType := by
  cases h : c.childrens.lookup name <;> simp [getChild, h]

theorem ContextOp.apply_barren (rt : Runtime) (c : ActorContext T) {op : ContextOp T}
    (h : op.target c = none) : (op.apply rt c).Barren c := by
  cases op with
  | createChild _ _ | getOrCreateChild _ _ _ => cases h
  | startSingleTimer name d msg =>
    simp only [apply, ActorContext.startSingleTimer]
    split
    · refine ⟨rfl, rfl, fun e he => ?_⟩
      obtain rfl := List.mem_singleton.mp he
      rfl
    refine ⟨rfl, rfl, fun e he => ?_⟩
    simp only [ActorContext.insertTimer, List.mem_append, List.mem_cons, List.not_mem_nil,
      or_false] at he
    rcases he with (rfl | rfl) | he
    · rfl
    · rfl
    · exact dropHandle_barren _ e he
  | cancelTimer _ | cancelReceiveTimeout =>
    refine ⟨rfl, rfl, fun e he => ?_⟩
    rcases List.mem_cons.mp he with rfl | he
    · rfl
    · exact dropHandle_barren _ e he
  | setReceiveTimeout d =>
    simp only [apply, ActorContext.setReceiveTimeout, ActorContext.scheduleReceiveTimeout]
    split
    · exact ⟨rfl, rfl, List.forall_mem_cons.mpr ⟨rfl, List.forall_mem_nil _⟩⟩
    obtain ⟨hcreated, hchildrens, hlog⟩ :=
      ActorContext.armReceiveTimeout_barren rt { c with receiveTimeout := some d } d
    exact ⟨hcreated, hchildrens, List.forall_mem_cons.mpr ⟨rfl, hlog⟩⟩
  | transit | elapse _ => exact ⟨rfl, rfl, List.forall_mem_nil _⟩
  | stash _ | unstashAll | stopSelf =>
    refine ⟨rfl, rfl, fun e he => ?_⟩
    obtain rfl := List.mem_singleton.mp he
    rfl

theorem ContextOp.apply_family (rt : Runtime) (c : ActorContext T) {op : ContextOp T}
    {name : String} {messageType : TypeId} (h : op.target c = some (name, messageType)) :
    ((c.getChild name messageType).isSome ∧ (op.apply rt c).Barren c) ∨
      (op.mailbox = none ∧ (op.apply rt c).Fails c name) ∨
      ∃ option, op.mailbox = some option ∧ (op.apply rt c).Begets c name messageType option := by
  cases op with
  | getOrCreateChild _ _ prop =>
    cases h
    exact c.getOrCreateChild_family rt name messageType prop
  | createChild _ prop =>
    cases h
    -- `random_name` moves the offset only
    obtain ⟨hget, hcreated, hchildrens, hlog⟩ | ⟨hmailbox, hcreated, hchildrens, hlog⟩ |
        ⟨option, hmailbox, hfree, hcreated, hchildrens, hlog⟩ :=
      c.randomName.2.getOrCreateChild_family rt c.randomName.1 messageType prop
    · exact .inl ⟨hget, hcreated, hchildrens, hlog⟩
    · exact .inr (.inl ⟨hmailbox, hcreated, hchildrens, hlog⟩)
    · exact .inr (.inr ⟨option, hmailbox, hfree, hcreated, hchildrens, hlog⟩)
  | _ => cases h

/-- The operation names an entry of another message type, and gets a new mailbox. -/
def ContextOp.clashes (c : ActorContext T) (op : ContextOp T) : Prop :=
  op.mailbox ≠ none ∧ ∃ name messageType entry, op.target c = some (name, messageType) ∧
    c.childrens.lookup name = some entry ∧ entry.messageType ≠ messageType

/-- The place of another child is taken exactly by an operation that clashes. -/
theorem ContextOp.apply_overwrites (rt : Runtime) (c : ActorContext T) (op : ContextOp T) :
    (∃ e ∈ (op.apply rt c).log, e.overwrites = true) ↔ op.clashes c := by
  have barren : (op.apply rt c).Barren c → ¬ ∃ e ∈ (op.apply rt c).log, e.overwrites = true := by
    rintro hb ⟨e, he, ho⟩
    simpa [Event.births_of_attempts (hb.log e he)] using e.overwrites_births ho
  cases htarget : op.target c with
  | none =>
    refine iff_of_false (barren (op.apply_barren rt c htarget)) ?_
    rintro ⟨-, name, messageType, entry, hsome, -⟩
    simp [htarget] at hsome
  | some target =>
    obtain ⟨name, messageType⟩ := target
    obtain ⟨hget, hb⟩ | ⟨hmailbox, hb⟩ | ⟨option, hmailbox, hb⟩ := op.apply_family rt c htarget
    · refine iff_of_false (barren hb) ?_
      rintro ⟨-, name', messageType', entry, hsome, hentry, hne⟩
      obtain ⟨rfl, rfl⟩ : name = name' ∧ messageType = messageType' := by
        simpa [htarget] using hsome
      simp [ActorContext.getChild, hentry, hne] at hget
    · refine iff_of_false ?_ fun hclash => hclash.1 hmailbox
      simp [hb.log, Event.overwrites]
    · have hfree := ActorContext.getChild_eq_none.mp hb.free
      simp only [hb.log, List.mem_singleton, exists_eq_left, Event.overwrites, Option.isSome_map,
        ContextOp.clashes, hmailbox, htarget, Option.some.injEq, Prod.mk.injEq]
      constructor
      · intro hsome
        obtain ⟨entry, hentry⟩ := Option.isSome_iff_exists.mp hsome
        exact ⟨by simp, name, messageType, entry, ⟨rfl, rfl⟩, hentry, hfree entry hentry⟩
      · rintro ⟨-, name', messageType', entry, ⟨rfl, rfl⟩, hentry, -⟩
        simp [hentry]

def InternalMessage.letter : InternalMessage → Option (ActorPath × ChildId)
  | .childTerminate path sender => some (path, sender)
  | _ => none

namespace ActorContext

def tracks (c : ActorContext T) (name : String) (k : ChildId) : Bool :=
  decide ((c.childrens.lookup name).map ChildContainer.child = some k)

/-- `letters` are the notifications on the way to the owner of the context. -/
structure Tracked (c : ActorContext T) (letters : List (ActorPath × ChildId)) (kids : Kids) :
    Prop where
  born : ∀ k, (kids k).map Prod.fst = c.created[k]?
  entry : ∀ name e, c.childrens.lookup name = some e → c.created[e.child]? = some name
  letter : ∀ l ∈ letters, c.created[l.2]? = some l.1.key
  balance : ∀ k name running, kids k = some (name, running) →
    (letters.map Prod.snd).count k + running.toNat = (c.tracks name k).toNat

variable {c c' : ActorContext T} {letters letters' : List (ActorPath × ChildId)} {kids : Kids}

theorem lookup_of_erase {name key : String} {e : ChildContainer}
    {childrens : AList fun _ : String => ChildContainer}
    (h : (childrens.erase key).lookup name = some e) : childrens.lookup name = some e := by
  by_cases hne : name = key
  · subst hne
    simp at h
  · rwa [AList.lookup_erase_ne hne] at h

/-- The part of the account that also holds where children are inserted over others. -/
structure Listed (c : ActorContext T) (letters : List (ActorPath × ChildId)) (kids : Kids) :
    Prop where
  born : ∀ k, (kids k).map Prod.fst = c.created[k]?
  entry : ∀ name e, c.childrens.lookup name = some e → c.created[e.child]? = some name
  letter : ∀ l ∈ letters, c.created[l.2]? = some l.1.key

theorem Listed.new (h : ∀ k, kids k = none) : (ActorContext.new : ActorContext T).Listed [] kids :=
  ⟨fun k => by simp [h k, ActorContext.new], fun _ _ he => (by cases he), List.forall_mem_nil _⟩

theorem Listed.perm (h : c.Listed letters kids) (hp : letters'.Perm letters)
    (hcreated : c'.created = c.created) (hchildrens : c'.childrens = c.childrens) :
    c'.Listed letters' kids := by
  refine ⟨?_, ?_, fun l hl => ?_⟩
  · rw [hcreated]
    exact h.born
  · rw [hcreated, hchildrens]
    exact h.entry
  · rw [hcreated]
    exact h.letter l (hp.subset hl)

theorem Listed.unborn (h : c.Listed letters kids) {k : ChildId} (hk : c.created.length ≤ k) :
    kids k = none := by
  have hb := h.born k
  rw [List.getElem?_eq_none hk] at hb
  simpa using hb

theorem Listed.name (h : c.Listed letters kids) {k : ChildId} {name : String} {running : Bool}
    (hk : kids k = some (name, running)) : c.created[k]? = some name := by
  simpa [hk] using (h.born k).symm

theorem Listed.erase {p : ActorPath} {k : ChildId} (h : c.Listed ((p, k) :: letters) kids)
    (hcreated : c'.created = c.created) (hchildrens : c'.childrens = c.childrens.erase p.key) :
    c'.Listed letters kids := by
  refine ⟨?_, fun name e' hname => ?_, fun l hl => ?_⟩
  · rw [hcreated]
    exact h.born
  · rw [hcreated]
    exact h.entry name e' (lookup_of_erase (hchildrens ▸ hname))
  · rw [hcreated]
    exact h.letter l (List.mem_cons_of_mem _ hl)

theorem Listed.lt (h : c.Listed letters kids) {name : String} {e : ChildContainer}
    (he : c.childrens.lookup name = some e) : e.child < c.created.length :=
  (List.getElem?_eq_some_iff.mp (h.entry name e he)).1

theorem Listed.letter_lt (h : c.Listed letters kids) {l : ActorPath × ChildId} (hl : l ∈ letters) :
    l.2 < c.created.length :=
  (List.getElem?_eq_some_iff.mp (h.letter l hl)).1

theorem Listed.create {name : String} {messageType : TypeId} (h : c.Listed letters kids)
    (hcreated : c'.created = c.created ++ [name])
    (hchildrens : c'.childrens = c.childrens.insert name ⟨messageType, c.created.length⟩) :
    c'.Listed letters (Function.update kids c.created.length (some (name, true))) := by
  have old : ∀ {k : ChildId} {name' : String}, c.created[k]? = some name' →
      c'.created[k]? = some name' := by
    intro k name' hk
    rw [hcreated, List.getElem?_append_left (List.getElem?_eq_some_iff.mp hk).1, hk]
  refine ⟨fun k => ?_, fun name' e he => ?_, fun l hl => old (h.letter l hl)⟩
  · by_cases hk : k = c.created.length
    · simp [hk, hcreated]
    · rw [Function.update_of_ne hk, h.born k, hcreated, List.getElem?_append]
      split
      · rfl
      next hge =>
        have hlt : c.created.length < k := Nat.lt_of_le_of_ne (Nat.not_lt.mp hge) (Ne.symm hk)
        rw [List.getElem?_eq_none (Nat.le_of_lt hlt),
          List.getElem?_eq_none (Nat.le_sub_of_add_le' hlt)]
  · rw [hchildrens] at he
    by_cases hname : name' = name
    · subst hname
      rw [AList.lookup_insert] at he
      cases he
      simp [hcreated]
    · rw [AList.lookup_insert_ne hname] at he
      exact old (h.entry name' e he)

theorem Listed.notify {p : ActorPath} {k : ChildId} (h : c.Listed letters kids)
    (hk : kids k = some (p.key, true)) :
    c.Listed (letters ++ [(p, k)]) (Function.update kids k (some (p.key, false))) := by
  refine ⟨fun k' => ?_, h.entry, fun l hl => ?_⟩
  · by_cases hne : k' = k
    · subst hne
      rw [Function.update_self, ← h.born k', hk]
      rfl
    · rw [Function.update_of_ne hne]
      exact h.born k'
  · rcases List.mem_append.mp hl with hl | hl
    · exact h.letter l hl
    · cases List.mem_singleton.mp hl
      exact h.name hk

theorem Tracked.listed (h : c.Tracked letters kids) : c.Listed letters kids :=
  ⟨h.born, h.entry, h.letter⟩

theorem Listed.tracked (h : c.Listed letters kids) (hbalance : ∀ k name running,
    kids k = some (name, running) →
      (letters.map Prod.snd).count k + running.toNat = (c.tracks name k).toNat) :
    c.Tracked letters kids :=
  ⟨h.born, h.entry, h.letter, hbalance⟩

theorem Tracked.of_running (h : c.Tracked letters kids) {k : ChildId} {name : String}
    (hk : kids k = some (name, true)) :
    ∃ e, c.childrens.lookup name = some e ∧ e.child = k := by
  have hb := h.balance k name true hk
  have htracks : c.tracks name k = true := by
    cases hc : c.tracks name k with
    | true => rfl
    | false => simp [hc] at hb
  simpa [tracks] using htracks

theorem Tracked.new (h : ∀ k, kids k = none) :
    (ActorContext.new : ActorContext T).Tracked [] kids :=
  (Listed.new h).tracked fun k name running hk => by simp [h k] at hk

theorem Tracked.perm (h : c.Tracked letters kids) (hp : letters'.Perm letters)
    (hcreated : c'.created = c.created) (hchildrens : c'.childrens = c.childrens) :
    c'.Tracked letters' kids := by
  refine (h.listed.perm hp hcreated hchildrens).tracked fun k name running hk => ?_
  rw [(hp.map Prod.snd).count_eq, tracks, hchildrens]
  exact h.balance k name running hk

theorem Tracked.unborn (h : c.Tracked letters kids) {k : ChildId} (hk : c.created.length ≤ k) :
    kids k = none :=
  h.listed.unborn hk

theorem Tracked.letter_tracks (h : c.Tracked letters kids) {p : ActorPath} {k : ChildId}
    (hl : (p, k) ∈ letters) : ∃ e, c.childrens.lookup p.key = some e ∧ e.child = k ∧
      kids k = some (p.key, false) ∧ (letters.map Prod.snd).count k = 1 := by
  have hcreated : c.created[k]? = some p.key := h.letter _ hl
  obtain ⟨⟨name, running⟩, hk, rfl⟩ : ∃ kid, kids k = some kid ∧ kid.1 = p.key := by
    simpa [hcreated] using h.born k
  have hcount : 0 < (letters.map Prod.snd).count k :=
    List.count_pos_iff.mpr (List.mem_map_of_mem hl)
  have hb := h.balance k _ _ hk
  have hle := Bool.toNat_le (c.tracks p.key k)
  have hrunning : running = false := by
    cases running with
    | false => rfl
    | true =>
      simp only [Bool.toNat_true] at hb
      omega
  subst hrunning
  have htracks : c.tracks p.key k = true := by
    cases ht : c.tracks p.key k with
    | true => rfl
    | false =>
      simp only [ht, Bool.toNat_false] at hb
      omega
  obtain ⟨e, he, hchild⟩ : ∃ e, c.childrens.lookup p.key = some e ∧ e.child = k := by
    simpa [tracks] using htracks
  refine ⟨e, he, hchild, hk, ?_⟩
  simp only [htracks, Bool.toNat_true, Bool.toNat_false] at hb
  omega

theorem Tracked.erase {p : ActorPath} {k : ChildId} (h : c.Tracked ((p, k) :: letters) kids)
    (hcreated : c'.created = c.created) (hchildrens : c'.childrens = c.childrens.erase p.key) :
    c'.Tracked letters kids := by
  obtain ⟨e, he, rfl, hkid, hcount⟩ := h.letter_tracks List.mem_cons_self
  refine (h.listed.erase hcreated hchildrens).tracked fun k' name running hk => ?_
  have hb := h.balance k' name running hk
  have htracks : c'.tracks name k' = (c.tracks name k' && decide (k' ≠ e.child)) := by
    by_cases hname : name = p.key
    · subst hname
      by_cases hk' : k' = e.child
      · simp [tracks, hchildrens, hk']
      · simp [tracks, hchildrens, he, Ne.symm hk', hk']
    · have hk' : k' ≠ e.child := by
        rintro rfl
        rw [hkid] at hk
        cases hk
        exact hname rfl
      simp [tracks, hchildrens, AList.lookup_erase_ne hname, hk']
  simp only [List.map_cons, List.count_cons] at hb hcount
  by_cases hk' : k' = e.child
  · subst hk'
    rw [hkid] at hk
    cases hk
    simp only [beq_self_eq_true, if_true] at hcount
    simp [htracks]
    omega
  · simp only [beq_iff_eq, Ne.symm hk', if_false] at hb
    simpa [htracks, hk'] using hb

theorem Tracked.create {name : String} {messageType : TypeId} (h : c.Tracked letters kids)
    (hfree : c.childrens.lookup name = none) (hcreated : c'.created = c.created ++ [name])
    (hchildrens : c'.childrens = c.childrens.insert name ⟨messageType, c.created.length⟩) :
    c'.Tracked letters (Function.update kids c.created.length (some (name, true))) := by
  refine (h.listed.create hcreated hchildrens).tracked fun k name' running hk => ?_
  by_cases hk' : k = c.created.length
  · subst hk'
    rw [Function.update_self] at hk
    cases hk
    have hnone : (letters.map Prod.snd).count c.created.length = 0 := by
      rw [List.count_eq_zero]
      intro hmem
      obtain ⟨l, hl, hl'⟩ := List.mem_map.mp hmem
      exact absurd hl' (Nat.ne_of_lt (h.listed.letter_lt hl))
    simp [hnone, tracks, hchildrens]
  · rw [Function.update_of_ne hk'] at hk
    have htracks : c'.tracks name' k = c.tracks name' k := by
      by_cases hname : name' = name
      · subst hname
        simp [tracks, hchildrens, hfree, Ne.symm hk']
      · simp [tracks, hchildrens, AList.lookup_insert_ne hname]
    rw [htracks]
    exact h.balance k name' running hk

theorem Tracked.notify {p : ActorPath} {k : ChildId} (h : c.Tracked letters kids)
    (hk : kids k = some (p.key, true)) :
    c.Tracked (letters ++ [(p, k)]) (Function.update kids k (some (p.key, false))) := by
  refine (h.listed.notify hk).tracked fun k' name running hk' => ?_
  by_cases hne : k' = k
  · subst hne
    rw [Function.update_self] at hk'
    cases hk'
    simpa using h.balance k' _ _ hk
  · rw [Function.update_of_ne hne] at hk'
    simpa [Ne.symm hne] using h.balance k' name running hk'

/-- What the callbacks of one step do to the account: the step began with the parent `p₀`
and the context `c₀`, and `events` are what it has logged. -/
structure Account (letters : List (ActorPath × ChildId)) (p₀ : Option ParentRef)
    (c₀ : ActorContext T) (p : Option ParentRef) (c : ActorContext T) (events : List (Event T)) :
    Prop where
  parent : p = p₀
  silent : ∀ e ∈ events, e.notifies = false
  older : c₀.created.length ≤ c.created.length
  fresh : ∀ k name option found, .childCreated k name option found ∈ events →
    c₀.created.length ≤ k
  tracked : ∀ kids, c₀.Tracked letters kids → (∀ e ∈ events, e.overwrites = false) →
    c.Tracked letters (events.foldl bear kids)

variable {c₀ : ActorContext T} {p₀ p : Option ParentRef} {events : List (Event T)}

theorem Account.refl : Account letters p₀ c₀ p₀ c₀ [] :=
  ⟨rfl, List.forall_mem_nil _, Nat.le_refl _, nofun, fun _ h _ => h⟩

theorem Account.barren (h : Account letters p₀ c₀ p c events) (log : List (Event T))
    (hlog : ∀ e ∈ log, e.births = false ∧ e.notifies = false)
    (hcreated : c'.created = c.created) (hchildrens : c'.childrens = c.childrens) :
    Account letters p₀ c₀ p c' (events ++ log) := by
  refine ⟨h.parent, fun e he => ?_, hcreated ▸ h.older, fun k name option found hmem => ?_, ?_⟩
  · exact (List.mem_append.mp he).elim (h.silent e) fun he => (hlog e he).2
  · rcases List.mem_append.mp hmem with hmem | hmem
    · exact h.fresh k name option found hmem
    · exact absurd (hlog _ hmem).1 (by simp [Event.births])
  · intro kids h₀ hdistinct
    rw [List.foldl_append, foldl_bear_barren _ fun e he => (hlog e he).1]
    exact (h.tracked kids h₀ fun e he => hdistinct e (List.mem_append_left _ he)).perm (.refl _)
      hcreated hchildrens

theorem apply_silent (rt : Runtime) (c : ActorContext T) (op : ContextOp T) :
    ∀ e ∈ (op.apply rt c).log, e.notifies = false := by
  intro e he
  obtain ⟨msg, -, rfl⟩ | ⟨-, rfl⟩ | hbook := ContextOp.apply_log he
  · rfl
  · rfl
  · exact Event.bookkeeping_silent hbook

/-- The callbacks of one step that began with the context `c₀` have got to `c`, and have
logged `events`. -/
inductive Grows (c₀ : ActorContext T) : ActorContext T → List (Event T) → Prop
  | refl : Grows c₀ c₀ []
  | barren {c c' : ActorContext T} {events : List (Event T)} (log : List (Event T)) :
      Grows c₀ c events → (∀ e ∈ log, e.births = false ∧ e.notifies = false) →
      c'.created = c.created → c'.childrens = c.childrens → Grows c₀ c' (events ++ log)
  | create {c c' : ActorContext T} {events : List (Event T)} {name : String}
      {messageType : TypeId} (option : PropsOption) : Grows c₀ c events →
      c'.created = c.created ++ [name] →
      c'.childrens = c.childrens.insert name ⟨messageType, c.created.length⟩ →
      Grows c₀ c' (events ++ [.childCreated c.created.length name option
        ((c.childrens.lookup name).map ChildContainer.child)])

def Growing (p₀ : Option ParentRef) (c₀ : ActorContext T) (p : Option ParentRef)
    (c : ActorContext T) (events : List (Event T)) : Prop :=
  p = p₀ ∧ Grows c₀ c events

theorem Growing.barren (h : Growing p₀ c₀ p c events) (log : List (Event T))
    (hlog : ∀ e ∈ log, e.births = false ∧ e.notifies = false)
    (hcreated : c'.created = c.created) (hchildrens : c'.childrens = c.childrens) :
    Growing p₀ c₀ p c' (events ++ log) :=
  ⟨h.1, .barren log h.2 hlog hcreated hchildrens⟩

theorem Growing.account (h : Growing p₀ c₀ p c events) (letters : List (ActorPath × ChildId)) :
    Account letters p₀ c₀ p c events := by
  obtain ⟨rfl, hgrows⟩ := h
  induction hgrows with
  | refl => exact .refl
  | barren log _ hlog hcreated hchildrens ih => exact ih.barren log hlog hcreated hchildrens
  | @create c c' events name messageType option _ hcreated hchildrens ih =>
    refine ⟨rfl, fun e he => ?_, ?_, fun k name' option' found hmem => ?_, ?_⟩
    · rcases List.mem_append.mp he with he | he
      · exact ih.silent e he
      · rw [List.mem_singleton.mp he]
        rfl
    · rw [hcreated, List.length_append]
      exact Nat.le_add_right_of_le ih.older
    · rcases List.mem_append.mp hmem with hmem | hmem
      · exact ih.fresh k name' option' found hmem
      · simp only [List.mem_singleton, Event.childCreated.injEq] at hmem
        exact hmem.1 ▸ ih.older
    · intro kids h₀ hdistinct
      have hfree := hdistinct _ (List.mem_append_right _ (List.mem_singleton_self _))
      have htracked := ih.tracked kids h₀ fun e he => hdistinct e (List.mem_append_left _ he)
      rw [List.foldl_append]
      refine htracked.create ?_ hcreated hchildrens
      simpa [Event.overwrites] using hfree

theorem growing_recorded (p₀ : Option ParentRef) (c₀ : ActorContext T) :
    Cell.Recorded (fun _ => True) (Growing p₀ c₀) where
  op {p rt c events} op _ h := by
    have hsilent := apply_silent rt c op
    have barren : (op.apply rt c).Barren c →
        Growing p₀ c₀ p (op.apply rt c).context (events ++ (op.apply rt c).log) :=
      fun hb => h.barren _ (fun e he => ⟨Event.births_of_attempts (hb.log e he), hsilent e he⟩)
        hb.created hb.childrens
    cases htarget : op.target c with
    | none => exact barren (op.apply_barren rt c htarget)
    | some target =>
      obtain ⟨-, hb⟩ | ⟨-, hb⟩ | ⟨option, -, hb⟩ := op.apply_family rt c htarget
      · exact barren hb
      · refine h.barren _ ?_ hb.created hb.childrens
        simp [hb.log, Event.births, Event.notifies]
      · rw [hb.log]
        exact ⟨h.1, .create option h.2 hb.created hb.childrens⟩
  stopSelf h := h.barren _ (by simp [Event.births, Event.notifies]) rfl rfl
  timeout {p rt c events} d h := by
    have hb := c.armReceiveTimeout_barren rt d
    refine h.barren _ (fun e he => ⟨Event.births_of_attempts (hb.log e he), ?_⟩) hb.created
      hb.childrens
    obtain rfl | ⟨handle, rfl⟩ := armReceiveTimeout_mem he <;> rfl
  event he h := h.barren _
    (by simpa using (Event.routine_barren he).imp_left Event.births_of_attempts) rfl rfl
  actor {p c events} h := by
    have hb : Growing p₀ c₀ p { c with actor := none } (events ++ []) :=
      h.barren [] (List.forall_mem_nil _) rfl rfl
    simpa using hb

end ActorContext

end Ruactor
