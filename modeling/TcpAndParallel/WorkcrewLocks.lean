import TcpAndParallel.Workcrew

namespace TcpAndParallel

namespace Workcrew

variable {τ : Type*} [DecidableEq τ]

/-- Where a thread holds the mutex of `aq`, or means to. -/
def holdsAq : Pc → Bool
  | .acceptor p => (p matches .test | .malloc | .ouch | .number | .stamp | .put | .unlock | .leave)
  | .processor p => (p matches .test | .check | .wait | .stop | .get | .stamp | .unlock | .leave)
  | .responder _ => false
  | .stop p => (p matches .clear | .unlock)

def holdsRq : Pc → Bool
  | .acceptor _ => false
  | .processor p => (p matches .put | .unlockRq)
  | .responder p => (p matches .test | .check | .wait | .stop | .get | .stamp | .unlock | .leave)
  | .stop p => (p matches .clearRq | .unlockRq)

/-- No acceptor runs out of memory. -/
def MallocSucceeds (s : State τ) : Step τ → Prop
  | .run t success _ => s.pc t = .acceptor .malloc → success = true
  | .spurious _ _ => True

/-- No processor has left its loop and goes on to unlock the mutexes. -/
def ProcessorStays (s : State τ) : Step τ → Prop
  | .run t _ _ => s.pc t ≠ .processor .leave
  | .spurious _ _ => True

instance (s : State τ) (e : Step τ) : Decidable (MallocSucceeds s e) :=
  match e with
  | .run t success _ => inferInstanceAs (Decidable (s.pc t = .acceptor .malloc → success = true))
  | .spurious _ _ => inferInstanceAs (Decidable True)

instance (s : State τ) (e : Step τ) : Decidable (ProcessorStays s e) :=
  match e with
  | .run t _ _ => inferInstanceAs (Decidable (s.pc t ≠ .processor .leave))
  | .spurious _ _ => inferInstanceAs (Decidable True)

theorem guardsAq : Guards (code (τ := τ)) MallocSucceeds .aq holdsAq (· ≠ .acceptor .ouch) where
  sound p hp := by
    rcases p with p | p | p | p <;> cases p <;>
      simp [holdsAq, Instr.hold, branch, onNode, readNode] at hp ⊢
  sync s t choice woken next hp hc hn := by
    generalize s.pc t = p at hp hn
    rcases p with p | p | p | p <;> cases p <;>
      simp [Instr.next?, branch, onNode, readNode] at hn hp <;>
      subst hn <;> simp [holdsAq, Instr.hold]
  act s t choice woken f d next hp hc hf hd := by
    have he := effect_of_act hf hd
    simp only [MallocSucceeds] at hc
    generalize s.pc t = p at he hp hc
    cases he with
    | test h => cases h <;> simp [holdsAq]
    | log h => cases h <;> simp [holdsAq]
    | stamp _ _ _ _ hp => rcases hp with ⟨rfl, rfl⟩ | ⟨rfl, rfl⟩ | ⟨rfl, rfl⟩ <;> simp [holdsAq]
    | ouch failure => simp [failure] at hc
    | malloc | number | putAq | putRq | getAq | getRq | send | free | clear | clearRq => simp [holdsAq]

theorem guardsRq : Guards (code (τ := τ)) ProcessorStays .rq holdsRq (· ≠ .processor .leaveRq) where
  sound p hp := by
    rcases p with p | p | p | p <;> cases p <;>
      simp [holdsRq, Instr.hold, branch, onNode, readNode] at hp ⊢
  sync s t choice woken next hp hc hn := by
    simp only [ProcessorStays] at hc
    generalize s.pc t = p at hp hn hc
    rcases p with p | p | p | p <;> cases p <;>
      simp [Instr.next?, branch, onNode, readNode] at hn hp hc <;>
      subst hn <;> simp [holdsRq, Instr.hold]
  act s t choice woken f d next hp hc hf hd := by
    have he := effect_of_act hf hd
    generalize s.pc t = p at he hp
    cases he with
    | test h => cases h <;> simp [holdsRq]
    | log h => cases h <;> simp [holdsRq]
    | stamp _ _ _ _ hp => rcases hp with ⟨rfl, rfl⟩ | ⟨rfl, rfl⟩ | ⟨rfl, rfl⟩ <;> simp [holdsRq]
    | malloc | ouch | number | putAq | putRq | getAq | getRq | send | free | clear | clearRq => simp [holdsRq]

/-- Every thread keeps to the mutexes, and only an owner changes a queue. -/
structure LockDiscipline (s : State τ) : Prop where
  unlock : ∀ t m next, code (s.pc t) = (.unlock m next : Op τ) → s.owner m = some t
  wait : ∀ t c m next, code (s.pc t) = (.wait c m next : Op τ) → s.owner m = some t
  lock : ∀ t m next, code (s.pc t) = (.lock m next : Op τ) → s.owner m ≠ some t
  aq : ∀ t success woken s', s.step code (.run t success woken) = some s' →
    s'.data.aq ≠ s.data.aq → s.owner .aq = some t
  rq : ∀ t success woken s', s.step code (.run t success woken) = some s' →
    s'.data.rq ≠ s.data.rq → s.owner .rq = some t

theorem holdsAq_of_change {s s' : State τ} {t : τ} {success : Bool} {woken : Finset τ}
    (h : s.step code (.run t success woken) = some s') (hne : s'.data.aq ≠ s.data.aq) :
    holdsAq (s.pc t) = true := by
  obtain ⟨next, -, ⟨-, hd⟩ | he⟩ := step_effect h
  · exact absurd (congrArg Crew.aq hd) hne
  · generalize s.pc t = p at he
    generalize s'.data = d' at he hne
    cases he <;> simp [holdsAq] at hne ⊢

theorem holdsRq_of_change {s s' : State τ} {t : τ} {success : Bool} {woken : Finset τ}
    (h : s.step code (.run t success woken) = some s') (hne : s'.data.rq ≠ s.data.rq) :
    holdsRq (s.pc t) = true := by
  obtain ⟨next, -, ⟨-, hd⟩ | he⟩ := step_effect h
  · exact absurd (congrArg Crew.rq hd) hne
  · generalize s.pc t = p at he
    generalize s'.data = d' at he hne
    cases he <;> simp [holdsRq] at hne ⊢

theorem guardedAq {pc : τ → Pc} (hpc : ∀ t, Entry (pc t)) {C : State τ → Step τ → Prop}
    (hC : ∀ s e, C s e → MallocSucceeds s e) {s : State τ}
    (h : Reaches (Machine.step code) C (startServer pc) s) :
    Guarded .aq holdsAq (· ≠ .acceptor .ouch) s := by
  refine guardsAq.reaches (fun t => ?_) (fun t => ?_) (h.mono hC)
  · rcases hpc t with h | h | h | h <;> simp [h]
  · rcases hpc t with h | h | h | h <;> simp [h, holdsAq]

theorem guardedRq {pc : τ → Pc} (hpc : ∀ t, Entry (pc t)) {C : State τ → Step τ → Prop}
    (hC : ∀ s e, C s e → ProcessorStays s e) {s : State τ}
    (h : Reaches (Machine.step code) C (startServer pc) s) :
    Guarded .rq holdsRq (· ≠ .processor .leaveRq) s := by
  refine guardsRq.reaches (fun t => ?_) (fun t => ?_) (h.mono hC)
  · rcases hpc t with h | h | h | h <;> simp [h]
  · rcases hpc t with h | h | h | h <;> simp [h, holdsRq]

theorem lockDiscipline_of_stays {pc : τ → Pc} (hpc : ∀ t, Entry (pc t)) {s : State τ}
    (h : Reaches (Machine.step code) (fun s e => MallocSucceeds s e ∧ ProcessorStays s e)
      (startServer pc) s) : LockDiscipline s := by
  have aq := guardedAq hpc (fun _ _ hc => hc.1) h
  have rq := guardedRq hpc (fun _ _ hc => hc.2) h
  constructor
  · intro t m next hc
    cases m with
    | aq => exact guardsAq.owner_of_unlock aq hc
    | rq => exact guardsRq.owner_of_unlock rq hc
  · intro t c m next hc
    cases m with
    | aq => exact guardsAq.owner_of_wait aq hc
    | rq => exact guardsRq.owner_of_wait rq hc
  · intro t m next hc
    cases m with
    | aq => exact guardsAq.not_owner_of_lock aq hc
    | rq => exact guardsRq.not_owner_of_lock rq hc
  · intro t success woken s' hs hne
    exact (aq.owner t).mpr (holdsAq_of_change hs hne)
  · intro t success woken s' hs hne
    exact (rq.owner t).mpr (holdsRq_of_change hs hne)

/-- A processor sleeps and is woken by the signal for the first job. -/
theorem lockDiscipline_of_woken : ∃ s, Reaches (Machine.step code)
    (fun s e => MallocSucceeds s e ∧ ProcessorStays s e) (startServer oneOfEach) s ∧
      s.pc 1 = .processor .put ∧ LockDiscipline s := by
  have run : ∃ s, Reaches (Machine.step code) (fun s e => MallocSucceeds s e ∧ ProcessorStays s e)
      (startServer oneOfEach) s ∧ s.pc 1 = .processor .put :=
    exists_reaches (List.replicate 4 (go 1) ++ List.replicate 7 (go 0) ++ [.run 0 true {1}] ++
      List.replicate 7 (go 1)) (by decide)
  obtain ⟨s, hs, hp⟩ := run
  exact ⟨s, hs, hp, lockDiscipline_of_stays (by decide) hs⟩

/-- After a failed `malloc` the acceptor goes on without the mutex; a processor that leaves its
loop unlocks the mutex of `rq` as well. -/
theorem unlocks_without_owning :
    (∃ s, Reaches (Machine.step code) ProcessorStays (startServer oneOfEach) s ∧ ¬LockDiscipline s) ∧
    ∃ s, Reaches (Machine.step code) MallocSucceeds (startServer oneOfEach) s ∧ ¬LockDiscipline s := by
  constructor
  · have run : ∃ s, Reaches (Machine.step code) ProcessorStays (startServer oneOfEach) s ∧
        s.pc 0 = .acceptor .ouch ∧ s.owner .aq = none :=
      exists_reaches [go 0, go 0, .run 0 false ∅, go 0, go 0, .run 0 false ∅] (by decide)
    obtain ⟨s, hs, hp, ho⟩ := run
    refine ⟨s, hs, fun h => ?_⟩
    have hu := h.unlock 0 .aq (.acceptor .test) (by rw [hp]; rfl)
    simp [ho] at hu
  · have run : ∃ s, Reaches (Machine.step code) MallocSucceeds (startServer oneOfEach) s ∧
        s.pc 1 = .processor .leaveRq ∧ s.owner .rq = none :=
      exists_reaches (List.replicate 3 (go 3) ++ List.replicate 5 (go 1)) (by decide)
    obtain ⟨s, hs, hp, ho⟩ := run
    refine ⟨s, hs, fun h => ?_⟩
    have hu := h.unlock 1 .rq (.processor .done) (by rw [hp]; rfl)
    simp [ho] at hu

end Workcrew

end TcpAndParallel
