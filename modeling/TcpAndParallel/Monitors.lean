import Mathlib.Data.Finset.Basic
import Mathlib.Data.Fintype.Basic
import Mathlib.Logic.Function.Basic
import TcpAndParallel.Runs

namespace TcpAndParallel

/-- What a thread does at a point of its code, and where it is afterwards. A wait gives the mutex
up and blocks; the point after it is where the woken thread takes the mutex again. -/
inductive Instr (τ μ κ δ π χ : Type*)
  | lock (m : μ) (next : π)
  | unlock (m : μ) (next : π)
  | wait (c : κ) (m : μ) (next : π)
  | signal (c : κ) (next : π)
  | broadcast (c : κ) (next : π)
  /-- A step on the data; the environment's choice decides what the code leaves open. -/
  | act (f : τ → χ → δ → Option (δ × π))
  | halt

structure Machine (τ μ κ δ π : Type*) where
  pc : τ → π
  owner : μ → Option τ
  waiters : κ → Finset τ
  data : δ

/-- Thread `t` takes a step; `woken` are the waiters that a signal of it wakes. A wakeup without
a signal is an event of its own. -/
inductive Event (τ κ χ : Type*)
  | run (t : τ) (choice : χ) (woken : Finset τ)
  | spurious (c : κ) (t : τ)

variable {τ μ κ δ π χ : Type*} [DecidableEq τ] [DecidableEq μ] [DecidableEq κ] [Fintype κ]

namespace Machine

def Blocked (s : Machine τ μ κ δ π) (t : τ) : Prop := ∃ c, t ∈ s.waiters c

instance (s : Machine τ μ κ δ π) (t : τ) : Decidable (s.Blocked t) :=
  inferInstanceAs (Decidable (∃ c, t ∈ s.waiters c))

def goto (s : Machine τ μ κ δ π) (t : τ) (next : π) : Machine τ μ κ δ π :=
  { s with pc := Function.update s.pc t next }

/-- An unlock frees the mutex whoever holds it. -/
def step (code : π → Instr τ μ κ δ π χ) (s : Machine τ μ κ δ π) :
    Event τ κ χ → Option (Machine τ μ κ δ π)
  | .run t choice woken =>
    if s.Blocked t then none
    else match code (s.pc t) with
      | .lock m next =>
        if s.owner m = none then
          some { s.goto t next with owner := Function.update s.owner m (some t) }
        else none
      | .unlock m next => some { s.goto t next with owner := Function.update s.owner m none }
      | .wait c m next => some { s.goto t next with
          owner := Function.update s.owner m none
          waiters := Function.update s.waiters c (insert t (s.waiters c)) }
      | .signal c next =>
        if woken ⊆ s.waiters c ∧ (woken = ∅ → s.waiters c = ∅) then
          some { s.goto t next with waiters := Function.update s.waiters c (s.waiters c \ woken) }
        else none
      | .broadcast c next => some { s.goto t next with waiters := Function.update s.waiters c ∅ }
      | .act f => (f t choice s.data).map fun (d, next) => { s.goto t next with data := d }
      | .halt => none
  | .spurious c t =>
    if t ∈ s.waiters c then
      some { s with waiters := Function.update s.waiters c ((s.waiters c).erase t) }
    else none

def start (pc : τ → π) (d : δ) : Machine τ μ κ δ π := ⟨pc, fun _ => none, fun _ => ∅, d⟩

end Machine

/-- The point after an instruction that is not a step on the data. -/
def Instr.next? : Instr τ μ κ δ π χ → Option π
  | .lock _ next | .unlock _ next | .wait _ _ next | .signal _ next | .broadcast _ next => some next
  | .act _ | .halt => none

/-- What an instruction makes of a thread's hold on the mutex `m`; `none` is a breach of the
discipline. -/
def Instr.hold (m : μ) : Instr τ μ κ δ π χ → Bool → Option Bool
  | .lock m' _, h => if m' = m then if h then none else some true else some h
  | .unlock m' _, h | .wait _ m' _, h => if m' = m then if h then some false else none else some h
  | _, h => some h

variable {code : π → Instr τ μ κ δ π χ} {C : Machine τ μ κ δ π → Event τ κ χ → Prop}
  {s s' : Machine τ μ κ δ π}

/-- A step of a thread moves this thread only, either by an instruction of the monitors, which
leaves the data alone, or by a step on the data, which leaves the monitors alone. -/
theorem step_run {t : τ} {choice : χ} {woken : Finset τ}
    (h : s.step code (.run t choice woken) = some s') :
    ¬s.Blocked t ∧ ∃ next, s'.pc = Function.update s.pc t next ∧
      ((code (s.pc t)).next? = some next ∧ s'.data = s.data ∨
        ∃ f, code (s.pc t) = .act f ∧ f t choice s.data = some (s'.data, next) ∧
          s'.owner = s.owner ∧ s'.waiters = s.waiters) := by
  simp only [Machine.step] at h
  split at h
  next => simp at h
  next hb =>
    refine ⟨hb, ?_⟩
    split at h
    next m next hc =>
      split at h
      next =>
        obtain rfl := Option.some.inj h
        exact ⟨next, rfl, .inl ⟨by simp [hc, Instr.next?], rfl⟩⟩
      next => simp at h
    next m next hc =>
      obtain rfl := Option.some.inj h
      exact ⟨next, rfl, .inl ⟨by simp [hc, Instr.next?], rfl⟩⟩
    next c m next hc =>
      obtain rfl := Option.some.inj h
      exact ⟨next, rfl, .inl ⟨by simp [hc, Instr.next?], rfl⟩⟩
    next c next hc =>
      split at h
      next =>
        obtain rfl := Option.some.inj h
        exact ⟨next, rfl, .inl ⟨by simp [hc, Instr.next?], rfl⟩⟩
      next => simp at h
    next c next hc =>
      obtain rfl := Option.some.inj h
      exact ⟨next, rfl, .inl ⟨by simp [hc, Instr.next?], rfl⟩⟩
    next f hc =>
      obtain ⟨⟨d, next⟩, hf, he⟩ := Option.map_eq_some_iff.mp h
      obtain rfl := he
      exact ⟨next, rfl, .inr ⟨f, hc, hf, rfl, rfl⟩⟩
    next => simp at h

theorem pc_of_ne {t u : τ} {choice : χ} {woken : Finset τ}
    (h : s.step code (.run t choice woken) = some s') (hu : u ≠ t) : s'.pc u = s.pc u := by
  obtain ⟨-, next, hpc, -⟩ := step_run h
  rw [hpc, Function.update_of_ne hu]

/-- What holds of the points of all threads is to be shown again only for the one that steps. -/
theorem forall_pc_of_step {t : τ} {choice : χ} {woken : Finset τ} {P : τ → π → Prop}
    (h : s.step code (.run t choice woken) = some s') (before : ∀ u, P u (s.pc u))
    (self : P t (s'.pc t)) (u : τ) : P u (s'.pc u) := by
  by_cases hu : u = t
  · rw [hu]
    exact self
  · rw [pc_of_ne h hu]
    exact before u

theorem pc_of_next {t : τ} {choice : χ} {woken : Finset τ} {next : π}
    (h : s.step code (.run t choice woken) = some s') (hc : (code (s.pc t)).next? = some next) :
    s'.pc t = next := by
  obtain ⟨-, next', hpc, ⟨hn, -⟩ | ⟨f, hf, -⟩⟩ := step_run h
  · rw [hpc, Function.update_self]
    exact Option.some.inj (hn.symm.trans hc)
  · simp [hf, Instr.next?] at hc

theorem step_spurious {c : κ} {t : τ} (h : s.step code (.spurious c t) = some s') :
    t ∈ s.waiters c ∧ s' = { s with waiters := Function.update s.waiters c ((s.waiters c).erase t) } := by
  simp only [Machine.step] at h
  split at h
  next hm => exact ⟨hm, (Option.some.inj h).symm⟩
  next => simp at h

theorem mem_waiters_of_step {t u : τ} {choice : χ} {woken : Finset τ} {c : κ}
    (h : s.step code (.run t choice woken) = some s') (hu : u ∈ s'.waiters c) :
    u ∈ s.waiters c ∨ u = t ∧ ∃ m next, code (s.pc t) = .wait c m next := by
  simp only [Machine.step] at h
  split at h
  next => simp at h
  next =>
    split at h
    next =>
      split at h
      next =>
        obtain rfl := Option.some.inj h
        exact .inl hu
      next => simp at h
    next =>
      obtain rfl := Option.some.inj h
      exact .inl hu
    next c' m next hc =>
      obtain rfl := Option.some.inj h
      by_cases he : c = c'
      · subst he
        rcases Finset.mem_insert.mp (by simpa using hu) with rfl | hu
        · exact .inr ⟨rfl, m, next, hc⟩
        · exact .inl hu
      · exact .inl (by simpa [Function.update_of_ne he] using hu)
    next c' next hc =>
      split at h
      next =>
        obtain rfl := Option.some.inj h
        by_cases he : c = c'
        · subst he
          exact .inl (Finset.mem_sdiff.mp (by simpa using hu)).1
        · exact .inl (by simpa [Function.update_of_ne he] using hu)
      next => simp at h
    next c' next hc =>
      obtain rfl := Option.some.inj h
      by_cases he : c = c'
      · subst he
        simp at hu
      · exact .inl (by simpa [Function.update_of_ne he] using hu)
    next f hc =>
      obtain ⟨⟨d, next⟩, -, rfl⟩ := Option.map_eq_some_iff.mp h
      exact .inl hu
    next => simp at h

theorem asleep_of_step {t u : τ} {choice : χ} {woken : Finset τ} {c : κ}
    (h : s.step code (.run t choice woken) = some s') (hu : u ∈ s.waiters c)
    (hno : ∀ next, code (s.pc t) ≠ .signal c next ∧ code (s.pc t) ≠ .broadcast c next) :
    u ∈ s'.waiters c := by
  simp only [Machine.step] at h
  split at h
  next => simp at h
  next =>
    split at h
    next =>
      split at h
      next =>
        obtain rfl := Option.some.inj h
        exact hu
      next => simp at h
    next =>
      obtain rfl := Option.some.inj h
      exact hu
    next c' m next hc =>
      obtain rfl := Option.some.inj h
      by_cases he : c = c'
      · subst he
        simp [hu]
      · simpa [Function.update_of_ne he] using hu
    next c' next hc =>
      split at h
      next =>
        obtain rfl := Option.some.inj h
        have he : c ≠ c' := fun he => (hno next).1 (he ▸ hc)
        simpa [Function.update_of_ne he] using hu
      next => simp at h
    next c' next hc =>
      obtain rfl := Option.some.inj h
      have he : c ≠ c' := fun he => (hno next).2 (he ▸ hc)
      simpa [Function.update_of_ne he] using hu
    next f hc =>
      obtain ⟨⟨d, next⟩, -, rfl⟩ := Option.map_eq_some_iff.mp h
      exact hu
    next => simp at h

/-- A thread that waits is at the point behind its wait. -/
def Waiting (code : π → Instr τ μ κ δ π χ) (s : Machine τ μ κ δ π) : Prop :=
  ∀ c, ∀ t ∈ s.waiters c, ∃ p m, code p = .wait c m (s.pc t)

theorem Waiting.step {e : Event τ κ χ} (hs : Waiting code s) (h : s.step code e = some s') :
    Waiting code s' := by
  cases e with
  | spurious c t =>
    obtain ⟨-, rfl⟩ := step_spurious h
    intro c' u hu
    by_cases hc : c' = c
    · subst hc
      exact hs c' u (Finset.mem_of_mem_erase (by simpa using hu))
    · exact hs c' u (by simpa [Function.update_of_ne hc] using hu)
  | run t choice woken =>
    intro c u hu
    rcases mem_waiters_of_step h hu with hu | ⟨rfl, m, next, hc⟩
    · have hne : u ≠ t := by
        rintro rfl
        exact (step_run h).1 ⟨c, hu⟩
      rw [pc_of_ne h hne]
      exact hs c u hu
    · rw [pc_of_next h (by rw [hc]; rfl)]
      exact ⟨_, m, hc⟩

theorem waiting_of_reaches {pc : τ → π} {d : δ}
    (h : Reaches (Machine.step code) C (Machine.start pc d) s) : Waiting code s :=
  h.invariant (fun c t ht => by simp [Machine.start] at ht) fun _ _ _ hs _ he => hs.step he

theorem wakes_of_signal {t : τ} {choice : χ} {woken : Finset τ} {c : κ} {next : π}
    (h : s.step code (.run t choice woken) = some s') (hc : code (s.pc t) = .signal c next) :
    s.waiters c = ∅ ∨ ∃ u ∈ s.waiters c, u ∉ s'.waiters c := by
  simp only [Machine.step, hc] at h
  split at h
  next => simp at h
  next =>
    split at h
    next hw =>
      obtain rfl := Option.some.inj h
      rcases woken.eq_empty_or_nonempty with he | ⟨u, hu⟩
      · exact .inl (hw.2 he)
      · exact .inr ⟨u, hw.1 hu, by simp [hu]⟩
    next => simp at h

/-- `holds p` says whether a thread at the point `p` holds `m`. Steps under the condition keep
to the points `ok`, where no instruction breaches the discipline, and change the hold as the
instruction does. -/
structure Guards (code : π → Instr τ μ κ δ π χ) (C : Machine τ μ κ δ π → Event τ κ χ → Prop) (m : μ)
    (holds : π → Bool) (ok : π → Prop) : Prop where
  sound : ∀ p, ok p → (code p).hold m (holds p) ≠ none
  sync : ∀ s t choice woken next, ok (s.pc t) → C s (.run t choice woken) →
    (code (s.pc t)).next? = some next →
      (code (s.pc t)).hold m (holds (s.pc t)) = some (holds next) ∧ ok next
  act : ∀ s t choice woken f d next, ok (s.pc t) → C s (.run t choice woken) → code (s.pc t) = .act f →
    f t choice s.data = some (d, next) → holds next = holds (s.pc t) ∧ ok next

/-- The owner of `m` is the thread whose point says so. -/
structure Guarded (m : μ) (holds : π → Bool) (ok : π → Prop) (s : Machine τ μ κ δ π) : Prop where
  ok : ∀ t, ok (s.pc t)
  owner : ∀ t, s.owner m = some t ↔ holds (s.pc t) = true

omit [DecidableEq κ] [Fintype κ] in
theorem owner_given_up {m m' : μ} {t : τ} {b : Bool}
    (hold : (if m' = m then if decide (s.owner m = some t) then some false else none
      else some (decide (s.owner m = some t))) = some b) :
    (Function.update s.owner m' none m = some t ↔ b = true) ∧
      ∀ u ≠ t, (Function.update s.owner m' none m = some u ↔ s.owner m = some u) := by
  by_cases hm : m' = m
  · subst hm
    simp at hold
    exact ⟨by simp [← hold.2], fun u hu => by simp [hold.1, Ne.symm hu]⟩
  · simp [hm] at hold
    simp [Function.update_of_ne (Ne.symm hm), ← hold]

theorem step_owner {m : μ} {t : τ} {choice : χ} {woken : Finset τ} {b : Bool}
    (h : s.step code (.run t choice woken) = some s')
    (hold : (code (s.pc t)).hold m (decide (s.owner m = some t)) = some b) :
    (s'.owner m = some t ↔ b = true) ∧ ∀ u ≠ t, (s'.owner m = some u ↔ s.owner m = some u) := by
  simp only [Machine.step] at h
  split at h
  next => simp at h
  next =>
    split at h
    next m' next hc =>
      split at h
      next hfree =>
        obtain rfl := Option.some.inj h
        rw [hc] at hold
        by_cases hm : m' = m
        · subst hm
          simp [Instr.hold, hfree] at hold
          exact ⟨by simp [hold], fun u hu => by simp [hfree, Ne.symm hu]⟩
        · simp [Instr.hold, hm] at hold
          simp [Function.update_of_ne (Ne.symm hm), ← hold]
      next => simp at h
    next m' next hc =>
      obtain rfl := Option.some.inj h
      rw [hc] at hold
      exact owner_given_up hold
    next c m' next hc =>
      obtain rfl := Option.some.inj h
      rw [hc] at hold
      exact owner_given_up hold
    next c next hc =>
      split at h
      next =>
        obtain rfl := Option.some.inj h
        rw [hc] at hold
        simp [Instr.hold] at hold
        simp [← hold, Machine.goto]
      next => simp at h
    next c next hc =>
      obtain rfl := Option.some.inj h
      rw [hc] at hold
      simp [Instr.hold] at hold
      simp [← hold, Machine.goto]
    next f hc =>
      obtain ⟨⟨d, next⟩, hf, he⟩ := Option.map_eq_some_iff.mp h
      obtain rfl := he
      rw [hc] at hold
      simp [Instr.hold] at hold
      simp [← hold, Machine.goto]
    next => simp at h

/-- The rule for the ownership of a mutex. -/
theorem Guards.guarded {m : μ} {holds : π → Bool} {ok : π → Prop} (g : Guards code C m holds ok)
    (hs : Guarded m holds ok s) {e : Event τ κ χ} (hc : C s e) (h : s.step code e = some s') :
    Guarded m holds ok s' := by
  cases e with
  | spurious c t =>
    obtain ⟨-, rfl⟩ := step_spurious h
    exact ⟨hs.ok, hs.owner⟩
  | run t choice woken =>
    obtain ⟨-, next, hpc, hdo⟩ := step_run h
    obtain ⟨hold, hok⟩ : (code (s.pc t)).hold m (holds (s.pc t)) = some (holds next) ∧ ok next := by
      rcases hdo with ⟨hn, -⟩ | ⟨f, hf, hd, -⟩
      · exact g.sync s t choice woken next (hs.ok t) hc hn
      · obtain ⟨he, hok⟩ := g.act s t choice woken f s'.data next (hs.ok t) hc hf hd
        exact ⟨by rw [hf, he]; rfl, hok⟩
    have howner : decide (s.owner m = some t) = holds (s.pc t) := by
      rw [Bool.eq_iff_iff, decide_eq_true_iff]
      exact hs.owner t
    obtain ⟨self, others⟩ := step_owner h (howner ▸ hold)
    refine ⟨fun u => ?_, fun u => ?_⟩
    · rw [hpc]
      by_cases hu : u = t
      · rw [hu, Function.update_self]
        exact hok
      · rw [Function.update_of_ne hu]
        exact hs.ok u
    · rw [hpc]
      by_cases hu : u = t
      · rw [hu, Function.update_self]
        exact self
      · rw [Function.update_of_ne hu, others u hu]
        exact hs.owner u

theorem Guards.reaches {m : μ} {holds : π → Bool} {ok : π → Prop} (g : Guards code C m holds ok)
    {pc : τ → π} {d : δ} (hok : ∀ t, ok (pc t)) (out : ∀ t, holds (pc t) = false)
    (h : Reaches (Machine.step code) C (Machine.start pc d) s) : Guarded m holds ok s :=
  h.invariant ⟨hok, fun t => by simp [Machine.start, out]⟩ fun _ _ _ hs hc he => g.guarded hs hc he

omit [DecidableEq κ] [Fintype κ] in
theorem Guards.no_breach {m : μ} {holds : π → Bool} {ok : π → Prop} (g : Guards code C m holds ok)
    (hs : Guarded m holds ok s) (t : τ) :
    (code (s.pc t)).hold m (decide (s.owner m = some t)) ≠ none := by
  have howner : decide (s.owner m = some t) = holds (s.pc t) := by
    rw [Bool.eq_iff_iff, decide_eq_true_iff]
    exact hs.owner t
  rw [howner]
  exact g.sound _ (hs.ok t)

section Breach

variable {m : μ} {holds : π → Bool} {ok : π → Prop} {t : τ} {next : π}

omit [DecidableEq κ] [Fintype κ] in
theorem Guards.owner_of_unlock (g : Guards code C m holds ok) (hs : Guarded m holds ok s)
    (hc : code (s.pc t) = .unlock m next) : s.owner m = some t := by
  have h := g.no_breach hs t
  simpa [hc, Instr.hold] using h

omit [DecidableEq κ] [Fintype κ] in
theorem Guards.owner_of_wait {c : κ} (g : Guards code C m holds ok) (hs : Guarded m holds ok s)
    (hc : code (s.pc t) = .wait c m next) : s.owner m = some t := by
  have h := g.no_breach hs t
  simpa [hc, Instr.hold] using h

omit [DecidableEq κ] [Fintype κ] in
theorem Guards.not_owner_of_lock (g : Guards code C m holds ok) (hs : Guarded m holds ok s)
    (hc : code (s.pc t) = .lock m next) : s.owner m ≠ some t := by
  have h := g.no_breach hs t
  simpa [hc, Instr.hold] using h

end Breach

end TcpAndParallel
