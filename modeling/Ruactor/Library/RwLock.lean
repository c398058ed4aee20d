import Mathlib.Data.List.Nodup
import Ruactor.Library.History

/-!
# A readers-writer lock

Requests wait in the order in which they were made. A request may be granted as soon as no
holder conflicts with it, so a reader may pass a writer that waits. It is certain to be
granted only where nobody that conflicts waits before it either: a reader may have to wait
behind a writer, even one that waits for a lock of the same reader.
-/

universe u

inductive LockMode
  | read
  | write
  deriving DecidableEq, Repr

namespace LockMode

def conflicts : LockMode → LockMode → Bool
  | .read, .read => false
  | _, _ => true

theorem conflicts_eq_false {mode mode' : LockMode} :
    mode.conflicts mode' = false ↔ mode = read ∧ mode' = read := by
  cases mode <;> cases mode' <;> simp [conflicts]

end LockMode

/-- `τ` names the threads. A thread may hold the lock more than once. -/
structure RwLock (τ : Type u) where
  held : List (τ × LockMode)
  waiting : List (τ × LockMode)
  compatible : held.Pairwise fun r r' => r.2.conflicts r'.2 = false

namespace RwLock

variable {τ : Type u} {l : RwLock τ} {i j : τ} {mode : LockMode}

def free : RwLock τ := ⟨[], [], .nil⟩

def request (l : RwLock τ) (i : τ) (mode : LockMode) : RwLock τ :=
  { l with waiting := l.waiting ++ [(i, mode)] }

/-- The request goes to the holders, if it conflicts with none. -/
def grant [DecidableEq τ] (l : RwLock τ) (i : τ) (mode : LockMode) : Option (RwLock τ) :=
  if h : (i, mode) ∈ l.waiting ∧ ∀ r ∈ l.held, r.2.conflicts mode = false then
    some ⟨l.held ++ [(i, mode)], l.waiting.erase (i, mode), List.pairwise_append.mpr
      ⟨l.compatible, List.pairwise_singleton _ _, fun r hr _ hr' => by
        rw [List.mem_singleton.mp hr']
        exact h.2 r hr⟩⟩
  else none

def release [DecidableEq τ] (l : RwLock τ) (i : τ) (mode : LockMode) : RwLock τ :=
  ⟨l.held.erase (i, mode), l.waiting, l.compatible.sublist List.erase_sublist⟩

/-- The thread waits for the other one, which holds the lock or waits before it. -/
def WaitsFor (l : RwLock τ) (i j : τ) : Prop :=
  ∃ before mode after mode', l.waiting = before ++ (i, mode) :: after ∧
    (j, mode') ∈ l.held ++ before ∧ mode'.conflicts mode = true

/-- The thread waits, and for nobody. -/
def Ready (l : RwLock τ) (i : τ) : Prop :=
  ∃ before mode after, l.waiting = before ++ (i, mode) :: after ∧
    ∀ r ∈ l.held ++ before, r.2.conflicts mode = false

/-- Some threads wait, each of them for one of them. -/
def Deadlock (l : RwLock τ) (threads : List τ) : Prop :=
  threads ≠ [] ∧ ∀ i ∈ threads, ∃ j ∈ threads, l.WaitsFor i j

/-- A thread waits once at a time. -/
def Queued (l : RwLock τ) : Prop := (l.waiting.map Prod.fst).Nodup

/-- A holder that waits, waits for nobody. -/
def Yielding (l : RwLock τ) : Prop :=
  ∀ before i mode after, l.waiting = before ++ (i, mode) :: after → (∃ held, (i, held) ∈ l.held) →
    ∀ r ∈ l.held ++ before, r.2.conflicts mode = false

/-- A writer that holds the lock is alone. -/
theorem held_of_write (h : (i, .write) ∈ l.held) : l.held = [(i, .write)] := by
  obtain ⟨before, after, hsplit⟩ := List.append_of_mem h
  have hpair := l.compatible
  rw [hsplit] at hpair
  obtain ⟨-, hafter, hbefore⟩ := List.pairwise_append.mp hpair
  have hnil : before = [] := List.eq_nil_iff_forall_not_mem.mpr fun r hr => by
    cases (LockMode.conflicts_eq_false.mp (hbefore r hr _ List.mem_cons_self)).2
  have hnil' : after = [] := List.eq_nil_iff_forall_not_mem.mpr fun r hr => by
    cases (LockMode.conflicts_eq_false.mp ((List.pairwise_cons.mp hafter).1 r hr)).1
  rw [hsplit, hnil, hnil']
  rfl

theorem split_unique (h : l.Queued) {before before' after after' : List (τ × LockMode)}
    {mode mode' : LockMode} (hw : l.waiting = before ++ (i, mode) :: after)
    (hw' : l.waiting = before' ++ (i, mode') :: after') : before = before' := by
  have once : ∀ {b m a : List (τ × LockMode)} {r r' : LockMode},
      l.waiting ≠ b ++ (i, r) :: (m ++ (i, r') :: a) := by
    intro b m a r r' hsplit
    simp [Queued, hsplit, List.nodup_append, List.nodup_cons] at h
  rcases History.trichotomy (hw.symm.trans hw')
    with ⟨middle, -, rfl⟩ | ⟨hsame, -⟩ | ⟨middle, -, rfl⟩
  · exact absurd hw once
  · exact hsame
  · exact absurd hw' once

theorem grant_some [DecidableEq τ] {l' : RwLock τ} (h : l.grant i mode = some l') :
    ∃ before after, l.waiting = before ++ (i, mode) :: after ∧ l'.waiting = before ++ after ∧
      l'.held = l.held ++ [(i, mode)] ∧ ∀ r ∈ l.held, r.2.conflicts mode = false := by
  unfold grant at h
  split at h
  next hg =>
    cases h
    obtain ⟨before, after, hnone, hsplit, herase⟩ := List.exists_erase_eq hg.1
    exact ⟨before, after, hsplit, herase, rfl, hg.2⟩
  · cases h

theorem Ready.grant [DecidableEq τ] (h : l.Ready i) :
    ∃ mode, (i, mode) ∈ l.waiting ∧ (l.grant i mode).isSome := by
  obtain ⟨before, mode, after, hsplit, hfree⟩ := h
  have hmem : (i, mode) ∈ l.waiting := by simp [hsplit]
  refine ⟨mode, hmem, ?_⟩
  rw [RwLock.grant, dif_pos ⟨hmem, fun r hr => hfree r (List.mem_append_left _ hr)⟩]
  rfl

/-- Where nobody waits, whoever conflicts with no holder gets the lock. -/
theorem grant_request [DecidableEq τ] (hwaiting : l.waiting = [])
    (hheld : ∀ r ∈ l.held, r.2.conflicts mode = false) :
    ∃ l', (l.request i mode).grant i mode = some l' ∧ l'.held = l.held ++ [(i, mode)] ∧
      l'.waiting = [] := by
  have hmem : (i, mode) ∈ (l.request i mode).waiting := by simp [request]
  refine ⟨_, dif_pos ⟨hmem, hheld⟩, rfl, ?_⟩
  simp [request, hwaiting]

theorem release_last [DecidableEq τ] (hheld : l.held = [(i, mode)]) (hwaiting : l.waiting = []) :
    l.release i mode = free := by
  simp [release, free, hheld, hwaiting]

theorem Queued.request (h : l.Queued) (hi : ∀ mode, (i, mode) ∉ l.waiting) (mode : LockMode) :
    (l.request i mode).Queued := by
  have hsplit : (l.request i mode).waiting.map Prod.fst = l.waiting.map Prod.fst ++ [i] := by
    simp [RwLock.request]
  rw [Queued, hsplit, ← List.concat_eq_append]
  refine List.Nodup.concat (fun hmem => ?_) h
  obtain ⟨⟨_, mode'⟩, hr, rfl⟩ := List.mem_map.mp hmem
  exact hi mode' hr

theorem Queued.grant [DecidableEq τ] {l' : RwLock τ} (h : l.Queued)
    (hg : l.grant i mode = some l') : l'.Queued := by
  obtain ⟨before, after, hsplit, hwaiting, -⟩ := grant_some hg
  have hsub : l'.waiting.Sublist l.waiting := by
    rw [hsplit, hwaiting]
    exact (List.sublist_cons_self _ _).append_left _
  exact h.sublist (hsub.map Prod.fst)

theorem Yielding.request (h : l.Yielding) (hi : (∃ held, (i, held) ∈ l.held) →
    ∀ r ∈ l.held ++ l.waiting, r.2.conflicts mode = false) : (l.request i mode).Yielding := by
  intro before j mode' after hsplit hholds
  rcases List.eq_nil_or_concat after with rfl | ⟨after, last, rfl⟩
  · obtain ⟨hbefore, hlast⟩ := List.append_inj' hsplit rfl
    cases hlast
    exact hbefore ▸ hi hholds
  · have hold : l.waiting ++ [(i, mode)] = (before ++ (j, mode') :: after) ++ [last] := by
      simpa [RwLock.request] using hsplit
    exact h before j mode' after (List.append_inj' hold rfl).1 hholds

/-- Who waits before a request waited before it also when one more was there. -/
theorem insert_split {b a before after : List (τ × LockMode)} {r : τ × LockMode}
    (x : τ × LockMode) (h : b ++ a = before ++ r :: after) :
    ∃ before₀ after₀, b ++ x :: a = before₀ ++ r :: after₀ ∧ ∀ r' ∈ before, r' ∈ before₀ := by
  rcases List.append_eq_append_iff.mp h with ⟨mid, rfl, rfl⟩ | ⟨mid, rfl, ha⟩
  · refine ⟨b ++ x :: mid, after, by simp, fun r' hr' => ?_⟩
    exact (List.mem_append.mp hr').elim (fun hr' => List.mem_append_left _ hr')
      fun hr' => List.mem_append_right _ (List.mem_cons_of_mem _ hr')
  · cases mid with
    | nil =>
      obtain rfl : r :: after = a := ha
      exact ⟨before ++ [x], after, by simp, fun r' hr' => List.mem_append_left _ hr'⟩
    | cons y mid =>
      obtain ⟨rfl, rfl⟩ := List.cons.inj ha
      exact ⟨before, mid ++ x :: a, by simp, fun r' hr' => hr'⟩

theorem Yielding.grant [DecidableEq τ] {l' : RwLock τ} (h : l.Yielding) (hq : l.Queued)
    (hg : l.grant i mode = some l') : l'.Yielding := by
  obtain ⟨b, a, hsplit, hwaiting, hheld, hfree⟩ := grant_some hg
  rintro before j mode' after hsplit' ⟨kind, hholds⟩ r hr
  rw [hwaiting] at hsplit'
  obtain ⟨before₀, after₀, hsplit₀, hbefore⟩ := insert_split (i, mode) hsplit'
  rw [hheld] at hholds
  rcases List.mem_append.mp hholds with hold | hnew
  · have hyield := h before₀ j mode' after₀ (hsplit.trans hsplit₀) ⟨kind, hold⟩
    rw [hheld, List.append_assoc] at hr
    rcases List.mem_append.mp hr with hr | hr
    · exact hyield r (List.mem_append_left _ hr)
    rcases List.mem_cons.mp hr with rfl | hr
    · -- both the holder and the new one are readers, and so is the request
      obtain ⟨-, rfl⟩ := LockMode.conflicts_eq_false.mp (hfree _ hold)
      obtain ⟨-, rfl⟩ := LockMode.conflicts_eq_false.mp (hyield _ (List.mem_append_left _ hold))
      rfl
    · exact hyield r (List.mem_append_right _ (hbefore r hr))
  · obtain ⟨rfl, rfl⟩ := Prod.mk.inj (List.mem_singleton.mp hnew)
    have hmem : j ∈ (b ++ a).map Prod.fst :=
      List.mem_map.mpr ⟨(j, mode'), by simp [hsplit'], rfl⟩
    rw [Queued, hsplit, List.map_append, List.map_cons, List.nodup_middle, List.nodup_cons,
      ← List.map_append] at hq
    exact absurd hmem hq.1

theorem Yielding.release [DecidableEq τ] (h : l.Yielding) (i : τ) (mode : LockMode) :
    (l.release i mode).Yielding := by
  rintro before j mode' after hsplit ⟨kind, hholds⟩ r hr
  refine h before j mode' after hsplit ⟨kind, List.mem_of_mem_erase hholds⟩ r ?_
  exact (List.mem_append.mp hr).elim (fun hr => List.mem_append_left _ (List.mem_of_mem_erase hr))
    fun hr => List.mem_append_right _ hr

theorem WaitsFor.not_ready (h : l.WaitsFor i j) (hq : l.Queued) : ¬ l.Ready i := by
  obtain ⟨before, mode, after, mode', hsplit, hblocks, hconflict⟩ := h
  rintro ⟨before', kind, after', hsplit', hfree⟩
  have hsame := split_unique hq hsplit hsplit'
  subst hsame
  obtain ⟨hmode, -⟩ := List.cons.inj (List.append_cancel_left (hsplit.symm.trans hsplit'))
  cases hmode
  simp [hfree _ hblocks] at hconflict

/-- A thread that waits for others is not a holder, so what it waits for is before it. -/
theorem Yielding.no_deadlock (h : l.Yielding) (hq : l.Queued) (threads : List τ) :
    ¬ l.Deadlock threads := by
  rintro ⟨hne, hwaits⟩
  obtain ⟨i, hi⟩ := List.exists_mem_of_ne_nil threads hne
  -- among the threads of a deadlock there would be no first in the queue
  have later : ∀ n, ∀ i ∈ threads, ∀ before mode after,
      l.waiting = before ++ (i, mode) :: after → before.length = n → False := by
    intro n
    induction n using Nat.strongRecOn with
    | ind n ih =>
      intro i hi before mode after hsplit hn
      obtain ⟨j, hj, before', mode', after', kind, hsplit', hblocks, hconflict⟩ := hwaits i hi
      obtain ⟨k, -, b, m, a, kind', hb, hk, hconflict'⟩ := hwaits j hj
      have hsame := split_unique hq hsplit hsplit'
      subst hsame
      rcases List.mem_append.mp hblocks with hholds | hbefore
      · have hfree := h b j m a hb ⟨kind, hholds⟩ _ hk
        simp [hfree] at hconflict'
      · obtain ⟨b', a', rfl⟩ := List.append_of_mem hbefore
        refine ih b'.length ?_ j hj b' kind _ (by rw [hsplit, List.append_assoc]; rfl) rfl
        rw [← hn, List.length_append, List.length_cons]
        omega
  obtain ⟨-, -, before, mode, after, -, hsplit, -⟩ := hwaits i hi
  exact later _ i hi before mode after hsplit rfl

/-- Where all holders wait, somebody waits for nobody. -/
theorem Yielding.ready (h : l.Yielding) (hwait : l.waiting ≠ [])
    (hheld : ∀ r ∈ l.held, ∃ mode, (r.1, mode) ∈ l.waiting) : ∃ i, l.Ready i := by
  cases hholders : l.held with
  | nil =>
    obtain ⟨⟨i, mode⟩, after, hsplit⟩ := List.exists_cons_of_ne_nil hwait
    exact ⟨i, [], mode, after, hsplit, by simp [hholders]⟩
  | cons r rest =>
    have hr : r ∈ l.held := by simp [hholders]
    obtain ⟨mode, hmem⟩ := hheld r hr
    obtain ⟨before, after, hsplit⟩ := List.append_of_mem hmem
    exact ⟨r.1, before, mode, after, hsplit, h before r.1 mode after hsplit ⟨r.2, hr⟩⟩

end RwLock
