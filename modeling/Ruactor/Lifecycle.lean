import Mathlib.Data.List.Induction
import Ruactor.Library.Machine
import Ruactor.Message

/-!
# The lifecycle of actor instances, as a property of the log

A monitor reads the log: it refuses an entry of an actor that was not installed
or is entered already, a message or an exit of an actor that is not the entered
one, and the installation of an actor that was there before. What it accepts is
an alternation of entries and exits.
-/

namespace Ruactor

variable {T : Type}

/-- The instances that have been exited, the one that is entered, and the one that is
installed and not entered. -/
structure Life where
  past : List InstanceId
  current : Option InstanceId
  next : Option InstanceId
  deriving DecidableEq, Repr

namespace Life

def instances (l : Life) : List InstanceId := l.past ++ (l.current.toList ++ l.next.toList)

def step (l : Life) : Event T → Option Life
  | .installed i =>
    if l.next = none ∧ i ∉ l.instances then some { l with next := some i } else none
  | .entered i =>
    if l.current = none ∧ l.next = some i then some ⟨l.past, some i, none⟩ else none
  | .exited i =>
    if l.current = some i then some { l with past := l.past ++ [i], current := none } else none
  | .delivered i _ _ | .timerDelivered i _ _ _ _ | .systemDelivered i _ _ =>
    if l.current = some i ∧ l.next = none then some l else none
  | _ => some l

def start : Life := ⟨[], none, none⟩

def monitor : Machine Life (Event T) := ⟨start, step⟩

end Life

def life (log : List (Event T)) : Option Life := Life.monitor.exec .start log

def Event.receiver : Event T → Option InstanceId
  | .delivered i _ _ | .timerDelivered i _ _ _ _ | .systemDelivered i _ _ => some i
  | _ => none

def Event.bracket : Event T → Bool
  | .entered _ | .exited _ => true
  | _ => false

def installations (log : List (Event T)) : List InstanceId :=
  log.filterMap fun
    | .installed i => some i
    | _ => none

def Event.unwatched (e : Event T) : Prop := ∀ l : Life, l.step e = some l

/-- `enter(a0) exit(a0) enter(a1) exit(a1) ...`, the last one possibly not exited. -/
def brackets (past : List InstanceId) (current : Option InstanceId) : List (Event T) :=
  past.flatMap (fun i => [.entered i, .exited i]) ++ current.toList.map .entered

theorem brackets_entered {past : List InstanceId} {current : Option InstanceId} {i : InstanceId}
    (h : Event.exited i ∈ brackets (T := T) past current) :
    Event.entered i ∈ brackets (T := T) past current := by
  simp only [brackets, List.mem_append, List.mem_flatMap, List.mem_map] at h ⊢
  rcases h with ⟨j, hj, hmem⟩ | ⟨_, -, he⟩
  · obtain rfl : j = i := by simpa [eq_comm] using hmem
    exact .inl ⟨j, hj, by simp⟩
  · cases he

theorem life_snoc (log : List (Event T)) (e : Event T) :
    life (log ++ [e]) = (life log).bind fun l => l.step e :=
  Life.monitor.exec_snoc _ log e

theorem life_unwatched (log : List (Event T)) {events : List (Event T)}
    (h : ∀ e ∈ events, e.unwatched) : life (log ++ events) = life log := by
  induction events using List.reverseRecOn with
  | nil => simp
  | append_singleton events e ih =>
    have he : e.unwatched := h e (by simp)
    rw [← List.append_assoc, life_snoc, ih fun e' he' => h e' (by simp [he'])]
    cases life log with
    | none => rfl
    | some l => exact he l

structure Bracketed (log : List (Event T)) (l : Life) : Prop where
  brackets : log.filter Event.bracket = brackets l.past l.current
  installations : installations log = l.instances
  distinct : l.instances.Nodup
  messages : ∀ before e after i, log = before ++ e :: after → e.receiver = some i →
    ∃ past, before.filter Event.bracket = Ruactor.brackets past (some i)

theorem Bracketed.snoc {log : List (Event T)} {l l' : Life} {e : Event T} (h : Bracketed log l)
    (hb : (log ++ [e]).filter Event.bracket = Ruactor.brackets l'.past l'.current)
    (hi : Ruactor.installations (log ++ [e]) = l'.instances) (hd : l'.instances.Nodup)
    (hm : ∀ i, e.receiver = some i → l.current = some i) : Bracketed (log ++ [e]) l' := by
  refine ⟨hb, hi, hd, fun before e' after i heq hr => ?_⟩
  rcases List.eq_nil_or_concat after with rfl | ⟨after, last, rfl⟩
  · obtain ⟨rfl, hlast⟩ := List.append_inj' heq rfl
    cases hlast
    exact ⟨l.past, by rw [← hm i hr]; exact h.brackets⟩
  · have heq : log ++ [e] = (before ++ e' :: after) ++ [last] := by simpa using heq
    exact h.messages before e' after i (List.append_inj' heq rfl).1 hr

theorem life_bracketed {log : List (Event T)} {l : Life} (h : life log = some l) :
    Bracketed log l := by
  induction log using List.reverseRecOn generalizing l with
  | nil =>
    cases h
    exact ⟨rfl, rfl, List.nodup_nil, by simp⟩
  | append_singleton log e ih =>
    rw [life_snoc] at h
    obtain ⟨prior, hprior, hstep⟩ := Option.bind_eq_some_iff.mp h
    have hp := ih hprior
    have plain : e.bracket = false → Ruactor.installations [e] = [] → prior = l →
        (∀ i, e.receiver = some i → prior.current = some i) → Bracketed (log ++ [e]) l := by
      rintro hb hi rfl hm
      refine hp.snoc ?_ ?_ hp.distinct hm
      · simpa [hb] using hp.brackets
      · have happend : Ruactor.installations (log ++ [e]) =
            Ruactor.installations log ++ Ruactor.installations [e] := List.filterMap_append
        rw [happend, hi, List.append_nil]
        exact hp.installations
    cases e with
    | installed i =>
      simp only [Life.step] at hstep
      split at hstep <;> cases hstep
      next hfresh =>
        obtain ⟨hnone, hnew⟩ := hfresh
        have hinst : ({ prior with next := some i } : Life).instances = prior.instances ++ [i] := by
          simp [Life.instances, hnone]
        refine hp.snoc ?_ ?_ ?_ fun _ hnone => by cases hnone
        · simpa [Event.bracket] using hp.brackets
        · rw [hinst, ← hp.installations]
          simp [Ruactor.installations]
        · rw [hinst]
          exact List.nodup_append.mpr ⟨hp.distinct, by simp,
            by simpa using fun j hj => ne_of_mem_of_not_mem hj hnew⟩
    | entered i =>
      simp only [Life.step] at hstep
      split at hstep <;> cases hstep
      next hready =>
        obtain ⟨hnone, hnext⟩ := hready
        have hinst : (⟨prior.past, some i, none⟩ : Life).instances = prior.instances := by
          simp [Life.instances, hnone, hnext]
        refine hp.snoc ?_ ?_ ?_ fun _ hnone => by cases hnone
        · simp [Event.bracket, hp.brackets, Ruactor.brackets, hnone]
        · rw [hinst, ← hp.installations]
          simp [Ruactor.installations]
        · exact hinst ▸ hp.distinct
    | exited i =>
      simp only [Life.step] at hstep
      split at hstep <;> cases hstep
      next hcurrent =>
        have hinst : ({ prior with past := prior.past ++ [i], current := none } : Life).instances =
            prior.instances := by simp [Life.instances, hcurrent]
        refine hp.snoc ?_ ?_ ?_ fun _ hnone => by cases hnone
        · simp [Event.bracket, hp.brackets, Ruactor.brackets, hcurrent]
        · rw [hinst, ← hp.installations]
          simp [Ruactor.installations]
        · exact hinst ▸ hp.distinct
    | delivered i src msg | timerDelivered i key gen msg handle | systemDelivered i msg now =>
      simp only [Life.step] at hstep
      split at hstep <;> cases hstep
      next hcurrent =>
        refine plain rfl rfl rfl ?_
        rintro _ ⟨⟩
        exact hcurrent.1
    | _ =>
      cases hstep
      exact plain rfl rfl rfl fun _ hnone => by cases hnone

end Ruactor
