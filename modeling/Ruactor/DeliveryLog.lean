import Ruactor.Library.History
import Ruactor.Message

/-!
# The delivery order, as a property of the log

What a log says about the user messages of one actor: the pushes the mailbox
accepted, the deliveries taken from the message queue, the deliveries taken from
`unstashed`, and the stashings. `released` are the stashings that an
`unstash_all` has put back so far.
-/

namespace Ruactor

variable {T : Type}

def pushes (log : List (Event T)) : List T :=
  log.filterMap fun
    | .pushed (.user msg) => some msg
    | _ => none

def firsts (log : List (Event T)) : List T :=
  log.filterMap fun
    | .delivered _ .queue msg => some msg
    | _ => none

def again (log : List (Event T)) : List T :=
  log.filterMap fun
    | .delivered _ .unstashed msg => some msg
    | _ => none

def stashings (log : List (Event T)) : List T :=
  log.filterMap fun
    | .stashed msg => some msg
    | _ => none

@[simp] theorem pushes_append (log log' : List (Event T)) :
    pushes (log ++ log') = pushes log ++ pushes log' := List.filterMap_append

@[simp] theorem again_append (log log' : List (Event T)) :
    again (log ++ log') = again log ++ again log' := List.filterMap_append

@[simp] theorem stashings_append (log log' : List (Event T)) :
    stashings (log ++ log') = stashings log ++ stashings log' := List.filterMap_append

def Event.releases : Event T → Bool
  | .unstashedAll => true
  | _ => false

/-- The stashings before the last `unstash_all`. -/
def released (log : List (Event T)) : List T :=
  stashings (log.reverse.dropWhile fun e => !e.releases).reverse

/-- A first delivery is the next one in push order and waits for every released
message; another delivery is the next one in the order of the stashings. -/
def LegalNext (log : List (Event T)) : Event T → Prop
  | .delivered _ .queue msg => firsts log ++ [msg] <+: pushes log ∧ again log = released log
  | .delivered _ .unstashed msg => again log ++ [msg] <+: released log
  | _ => True

def Legal (log : List (Event T)) : Prop :=
  ∀ before e after, log = before ++ e :: after → LegalNext before e

def Event.quiet : Event T → Bool
  | .pushed (.user _) | .delivered _ _ _ | .stashed _ | .unstashedAll => false
  | _ => true

theorem legal_nil : Legal ([] : List (Event T)) := History.lawful_nil

theorem Legal.earlier {log earlier : List (Event T)} (h : Legal log) (hp : earlier <+: log) :
    Legal earlier := History.Lawful.earlier h hp

theorem Legal.snoc {log : List (Event T)} {e : Event T} (h : Legal log) (he : LegalNext log e) :
    Legal (log ++ [e]) := History.Lawful.snoc h he

theorem legalNext_quiet (log : List (Event T)) {e : Event T} (h : e.quiet = true) :
    LegalNext log e := by
  cases e with
  | delivered _ _ _ => cases h
  | _ => trivial

@[simp] theorem released_snoc_unstashedAll (log : List (Event T)) :
    released (log ++ [.unstashedAll]) = stashings log := by
  simp [released, Event.releases]
  simp [stashings]

@[simp] theorem released_snoc (log : List (Event T)) {e : Event T} (h : e.releases = false) :
    released (log ++ [e]) = released log := by
  simp [released, h]

structure SameRecords (log log' : List (Event T)) : Prop where
  pushes : pushes log' = pushes log
  firsts : firsts log' = firsts log
  again : again log' = again log
  stashings : stashings log' = stashings log
  released : released log' = released log
  legal : Legal log → Legal log'

theorem SameRecords.refl (log : List (Event T)) : SameRecords log log :=
  ⟨rfl, rfl, rfl, rfl, rfl, id⟩

theorem SameRecords.trans {log log' log'' : List (Event T)} (h : SameRecords log log')
    (h' : SameRecords log' log'') : SameRecords log log'' :=
  ⟨h'.pushes.trans h.pushes, h'.firsts.trans h.firsts, h'.again.trans h.again,
    h'.stashings.trans h.stashings, h'.released.trans h.released, h'.legal ∘ h.legal⟩

theorem sameRecords_snoc (log : List (Event T)) {e : Event T} (h : e.quiet = true) :
    SameRecords log (log ++ [e]) := by
  refine ⟨?_, ?_, ?_, ?_, released_snoc log ?_, fun hl => hl.snoc (legalNext_quiet log h)⟩ <;>
    cases e <;>
    simp_all [pushes, firsts, again, stashings, Event.quiet, Event.releases]
  next msg => cases msg <;> simp_all

theorem sameRecords_append (log : List (Event T)) {events : List (Event T)}
    (h : ∀ e ∈ events, e.quiet = true) : SameRecords log (log ++ events) := by
  induction events generalizing log with
  | nil => simpa using SameRecords.refl log
  | cons e events ih =>
    have hrest := ih (log ++ [e]) fun e' he' => h e' (List.mem_cons_of_mem _ he')
    simpa using (sameRecords_snoc log (h e (by simp))).trans hrest

/-- Read over the whole log: the deliveries so far are a part of the pushes and of
the released stashings, from the front and in the same order. -/
theorem Legal.prefixes {log : List (Event T)} (h : Legal log) :
    firsts log <+: pushes log ∧ again log <+: released log ∧ released log <+: stashings log := by
  induction log using List.reverseRecOn with
  | nil => simp [firsts, again, released, stashings]
  | append_singleton log e ih =>
    have hl : Legal log := h.earlier (List.prefix_append log [e])
    have he : LegalNext log e := h log e [] rfl
    obtain ⟨hf, ha, hr⟩ := ih hl
    by_cases hq : e.quiet = true
    · have hs := sameRecords_snoc log hq
      rw [hs.pushes, hs.firsts, hs.again, hs.released, hs.stashings]
      exact ⟨hf, ha, hr⟩
    · cases e with
      | pushed msg =>
        cases msg with
        | user msg =>
          rw [released_snoc log rfl]
          simpa [firsts, again, stashings] using
            ⟨hf.trans (List.prefix_append _ _), ha, hr⟩
        | _ => simp [Event.quiet] at hq
      | delivered i src msg =>
        rw [released_snoc log rfl]
        cases src with
        | queue =>
          have hn : firsts log ++ [msg] <+: pushes log := he.1
          simpa [pushes, firsts, again, stashings] using ⟨hn, ha, hr⟩
        | unstashed =>
          have hn : again log ++ [msg] <+: released log := he
          simpa [pushes, firsts, again, stashings] using ⟨hf, hn, hr⟩
      | stashed msg =>
        rw [released_snoc log rfl]
        simpa [pushes, firsts, again, stashings] using
          ⟨hf, ha, hr.trans (List.prefix_append _ _)⟩
      | unstashedAll =>
        rw [released_snoc_unstashedAll]
        simpa [pushes, firsts, again, stashings] using ⟨hf, ha.trans hr⟩
      | _ => simp [Event.quiet] at hq

end Ruactor
