import TcpAndParallel.WorkcrewLocks

namespace TcpAndParallel

namespace Workcrew

variable {τ : Type*} [DecidableEq τ]

def isProcessor : Pc → Bool
  | .processor _ => true
  | _ => false

def announces : Pc → Bool
  | .acceptor p => (p matches .unlock | .signal)
  | _ => false

/-- No acceptor puts a job while a processor stands between its check and its wait. -/
def PutsClear (s : State τ) : Step τ → Prop
  | .run t _ _ => s.pc t = .acceptor .put → ∀ u, s.pc u ≠ .processor .wait
  | .spurious _ _ => True

/-- The waiters on `aq` are processors that found it empty, and a job that came since has an
acceptor that will signal or a processor that is awake. -/
structure Wakeful (s : State τ) : Prop where
  exist : ∃ t, isProcessor (s.pc t) = true
  checked : ∀ t, s.pc t = .processor .wait → s.data.aq.head = none
  sleepers : ∀ t ∈ s.waiters .aq, s.pc t = .processor .wake
  awake : s.data.aq.head ≠ none →
    (∃ t, isProcessor (s.pc t) = true ∧ t ∉ s.waiters .aq) ∨ ∃ t, announces (s.pc t) = true

structure Onward (head head' : Option Nat) (p q : Pc) : Prop where
  processor : isProcessor q = isProcessor p
  wait : q = .processor .wait → head = none
  head : p = .acceptor .put ∧ announces q = true ∨ (head = none → head' = none)

theorem onward_of_next {p q : Pc} {head : Option Nat} (hn : (code p : Op τ).next? = some q) :
    Onward head head p q := by
  rcases p with p | p | p | p <;> cases p <;>
    simp [Instr.next?, branch, onNode, readNode] at hn <;> subst hn <;>
    exact ⟨rfl, by simp, .inr id⟩

theorem onward_of_act {t : τ} {choice : Bool} {d d' : Crew τ} {p q : Pc} (h : Effect t choice d p q d') :
    Onward d.aq.head d'.aq.head p q := by
  cases h with
  | test h =>
    cases h with
    | processorWaits he => exact ⟨rfl, fun _ => he, .inr id⟩
    | _ => exact ⟨rfl, by simp, .inr id⟩
  | log h => cases h <;> exact ⟨rfl, by simp, .inr id⟩
  | stamp _ _ _ _ hpq =>
    rcases hpq with ⟨rfl, rfl⟩ | ⟨rfl, rfl⟩ | ⟨rfl, rfl⟩ <;> exact ⟨rfl, by simp, .inr id⟩
  | putAq => exact ⟨rfl, by simp, .inl ⟨rfl, rfl⟩⟩
  | getAq => exact ⟨rfl, by simp, .inr fun he => by simp [queueGet, he]⟩
  | malloc | ouch | number | putRq | getRq | send | free | clear | clearRq => exact ⟨rfl, by simp, .inr id⟩

theorem eq_wait_of_code {p next : Pc} {m : Control} (h : code p = (.wait .aq m next : Op τ)) :
    p = .processor .wait ∧ next = .processor .wake := by
  rcases p with p | p | p | p <;> cases p <;> simp [branch, onNode, readNode] at h ⊢
  exact h.2.symm

theorem onward_of_step {s s' : State τ} {t : τ} {success : Bool} {woken : Finset τ}
    (h : s.step code (.run t success woken) = some s') :
    Onward s.data.aq.head s'.data.aq.head (s.pc t) (s'.pc t) := by
  obtain ⟨next, hpc, ⟨hn, hd⟩ | he⟩ := step_effect h
  · rw [hpc, Function.update_self, hd]
    exact onward_of_next hn
  · rw [hpc, Function.update_self]
    exact onward_of_act he

theorem Wakeful.spurious {s : State τ} (hs : Wakeful s) (c : Control) (t : τ) :
    Wakeful { s with waiters := Function.update s.waiters c ((s.waiters c).erase t) } := by
  have fewer : ∀ u, u ∈ Function.update s.waiters c ((s.waiters c).erase t) .aq → u ∈ s.waiters .aq := by
    intro u hu
    by_cases hc : Control.aq = c
    · subst hc
      exact Finset.mem_of_mem_erase (by simpa using hu)
    · rwa [Function.update_of_ne hc] at hu
  refine ⟨hs.exist, hs.checked, fun u hu => hs.sleepers u (fewer u hu), fun hhead => ?_⟩
  rcases hs.awake hhead with ⟨u, hp, hu⟩ | hann
  · exact .inl ⟨u, hp, fun hm => hu (fewer u hm)⟩
  · exact .inr hann

section Run

variable {s s' : State τ} {t : τ} {success : Bool} {woken : Finset τ}

theorem isProcessor_of_step (h : s.step code (.run t success woken) = some s') (u : τ) :
    isProcessor (s'.pc u) = isProcessor (s.pc u) :=
  forall_pc_of_step (P := fun u p => isProcessor p = isProcessor (s.pc u)) h (fun _ => rfl)
    (onward_of_step h).processor u

/-- Whoever comes to wait has found the queue empty. -/
theorem Wakeful.asleep (hs : Wakeful s) (h : s.step code (.run t success woken) = some s') {u : τ}
    (hu : u ∈ s'.waiters .aq) :
    u ∈ s.waiters .aq ∨ u = t ∧ s.data.aq.head = none ∧ s'.pc t = .processor .wake := by
  rcases mem_waiters_of_step h hu with hu | ⟨rfl, m, next, hc⟩
  · exact .inl hu
  · obtain ⟨hp, rfl⟩ := eq_wait_of_code hc
    exact .inr ⟨rfl, hs.checked u hp, pc_of_next h (by rw [hc]; rfl)⟩

theorem Wakeful.stays_awake (hs : Wakeful s) (h : s.step code (.run t success woken) = some s')
    (hhead : s.data.aq.head ≠ none) {u : τ} (hp : isProcessor (s.pc u) = true) (hu : u ∉ s.waiters .aq) :
    isProcessor (s'.pc u) = true ∧ u ∉ s'.waiters .aq := by
  refine ⟨(isProcessor_of_step h u).trans hp, fun hm => ?_⟩
  rcases hs.asleep h hm with hm | ⟨-, he, -⟩
  · exact hu hm
  · exact hhead he

theorem Wakeful.announced (hs : Wakeful s) (h : s.step code (.run t success woken) = some s')
    (hhead : s.data.aq.head ≠ none) (hann : announces (s.pc t) = true) :
    (∃ u, isProcessor (s'.pc u) = true ∧ u ∉ s'.waiters .aq) ∨ ∃ u, announces (s'.pc u) = true := by
  cases hp : s.pc t with
  | acceptor p =>
    cases p <;> simp [hp, announces] at hann
    · have hsignal : s'.pc t = .acceptor .signal := pc_of_next h (by rw [hp]; rfl)
      exact .inr ⟨t, by rw [hsignal]; rfl⟩
    · have hcode : code (s.pc t) = (.signal .aq (.acceptor .logAcceptor) : Op τ) := by rw [hp]; rfl
      rcases wakes_of_signal h hcode with hno | ⟨v, hv, hv'⟩
      · obtain ⟨v, hv⟩ := hs.exist
        exact .inl ⟨v, hs.stays_awake h hhead hv (by simp [hno])⟩
      · have hwake := hs.sleepers v hv
        exact .inl ⟨v, by rw [isProcessor_of_step h v, hwake]; rfl, hv'⟩
  | processor p | responder p | stop p => simp [hp, announces] at hann

theorem Wakeful.run (hs : Wakeful s) (h : s.step code (.run t success woken) = some s')
    (clear : s.pc t = .acceptor .put → ∀ u, s.pc u ≠ .processor .wait) : Wakeful s' := by
  have on := onward_of_step h
  constructor
  · obtain ⟨u, hu⟩ := hs.exist
    exact ⟨u, (isProcessor_of_step h u).trans hu⟩
  · intro u hu
    by_cases he : u = t
    · subst he
      have hhead := on.wait hu
      rcases on.head with ⟨-, hann⟩ | hkeep
      · simp [hu, announces] at hann
      · exact hkeep hhead
    · rw [pc_of_ne h he] at hu
      rcases on.head with ⟨hput, -⟩ | hkeep
      · exact absurd hu (clear hput u)
      · exact hkeep (hs.checked u hu)
  · intro u hu
    rcases hs.asleep h hu with hu | ⟨rfl, -, hwake⟩
    · have hne : u ≠ t := by
        rintro rfl
        exact (step_run h).1 ⟨.aq, hu⟩
      rw [pc_of_ne h hne]
      exact hs.sleepers u hu
    · exact hwake
  · intro hhead'
    rcases on.head with ⟨-, hann⟩ | hkeep
    · exact .inr ⟨t, hann⟩
    have hhead : s.data.aq.head ≠ none := fun he => hhead' (hkeep he)
    rcases hs.awake hhead with ⟨u, hp, hu⟩ | ⟨u, hann⟩
    · exact .inl ⟨u, hs.stays_awake h hhead hp hu⟩
    · by_cases he : u = t
      · exact hs.announced h hhead (he ▸ hann)
      · exact .inr ⟨u, by rw [pc_of_ne h he]; exact hann⟩

end Run

theorem wakeful_step {s s' : State τ} {e : Step τ} (h : s.step code e = some s') (hC : PutsClear s e)
    (hs : Wakeful s) : Wakeful s' := by
  cases e with
  | spurious c t =>
    obtain ⟨-, rfl⟩ := step_spurious h
    exact hs.spurious c t
  | run t success woken => exact hs.run h hC

/-- Jobs on an active queue are not stranded: a processor is awake, or an acceptor is about to
signal. The put and the unlock that follows it count as one step. -/
def NoLostWakeup (s : State τ) : Prop :=
  s.data.aqActive = true → s.data.rqActive = true → s.data.aq.head ≠ none →
    (∀ t, s.pc t ≠ .acceptor .unlock) →
      (∃ t, isProcessor (s.pc t) = true ∧ t ∉ s.waiters .aq) ∨ ∃ t, s.pc t = .acceptor .signal

omit [DecidableEq τ] in
theorem wakeful_start {pc : τ → Pc} (hp : ∃ t, pc t = .processor .lock) :
    Wakeful (startServer pc) := by
  obtain ⟨t, ht⟩ := hp
  refine ⟨⟨t, ?_⟩, fun u hu => rfl, fun u hu => ?_, fun h => ?_⟩
  · simp [startServer, Machine.start, ht, isProcessor]
  · simp [startServer, Machine.start] at hu
  · exact absurd rfl h

theorem noLostWakeup_of_putsClear {pc : τ → Pc} (hp : ∃ t, pc t = .processor .lock)
    {s : State τ} (h : Reaches (Machine.step code) PutsClear (startServer pc) s) : NoLostWakeup s := by
  have hs : Wakeful s := h.invariant (wakeful_start hp) fun _ _ _ hs hc he => wakeful_step he hc hs
  intro _ _ hhead hunlock
  rcases hs.awake hhead with hawake | ⟨t, hann⟩
  · exact .inl hawake
  · refine .inr ⟨t, ?_⟩
    have hno := hunlock t
    cases hp : s.pc t with
    | acceptor p => cases p <;> simp [hp, announces] at hann hno ⊢
    | processor p | responder p | stop p => simp [hp, announces] at hann

/-- The mutex keeps the puts clear as long as no `malloc` fails. -/
theorem putsClear_of_mallocs {pc : τ → Pc} (hpc : ∀ t, Entry (pc t)) {s : State τ}
    (h : Reaches (Machine.step code) MallocSucceeds (startServer pc) s) :
    Reaches (Machine.step code) PutsClear (startServer pc) s := by
  refine h.strengthen fun s e hr hc => ?_
  cases e with
  | spurious c t => trivial
  | run t success woken =>
    intro hput u hwait
    have guarded := guardedAq hpc (fun _ _ hc => hc) hr
    have ht := (guarded.owner t).mpr (by rw [hput]; rfl)
    have hu := (guarded.owner u).mpr (by rw [hwait]; rfl)
    obtain rfl := Option.some.inj (ht.symm.trans hu)
    simp [hput] at hwait

/-- The only processor sleeps, and the acceptor is about to wake it. -/
theorem noLostWakeup_of_signal : ∃ s, Reaches (Machine.step code) PutsClear (startServer oneOfEach) s ∧
    (s.data.aq.head ≠ none ∧ 1 ∈ s.waiters .aq) ∧ NoLostWakeup s := by
  have run : ∃ s, Reaches (Machine.step code) MallocSucceeds (startServer oneOfEach) s ∧
      s.data.aq.head ≠ none ∧ 1 ∈ s.waiters .aq :=
    exists_reaches (List.replicate 4 (go 1) ++ List.replicate 7 (go 0)) (by decide)
  obtain ⟨s, hs, hp⟩ := run
  have hs := putsClear_of_mallocs (by decide) hs
  exact ⟨s, hs, hp, noLostWakeup_of_putsClear ⟨1, rfl⟩ hs⟩

/-- After a failed `malloc` the acceptor puts a job and signals while the processor, which holds
the mutex, is about to wait. -/
theorem wakeup_is_lost : ∃ s, Reaches (Machine.step code) (fun _ _ => True) (startServer oneOfEach) s ∧
    ¬NoLostWakeup s := by
  have run : ∃ s, Reaches (Machine.step code) (fun _ _ => True) (startServer oneOfEach) s ∧
      (s.data.aqActive = true ∧ s.data.rqActive = true ∧ s.data.aq.head ≠ none) ∧
        (∀ t, s.pc t ≠ .acceptor .unlock ∧ s.pc t ≠ .acceptor .signal) ∧
          ∀ t, isProcessor (s.pc t) = true → t ∈ s.waiters .aq :=
    exists_reaches ([go 0, go 0, .run 0 false ∅, go 0] ++ List.replicate 3 (go 1) ++
      List.replicate 7 (go 0) ++ [go 1]) (by decide)
  obtain ⟨s, hs, ⟨hon, honRq, hhead⟩, hpc, hasleep⟩ := run
  refine ⟨s, hs, fun h => ?_⟩
  rcases h hon honRq hhead (fun t => (hpc t).1) with ⟨t, hp, ht⟩ | ⟨t, ht⟩
  · exact ht (hasleep t hp)
  · exact (hpc t).2 ht

end Workcrew

end TcpAndParallel
