import TcpAndParallel.WorkcrewJobs

namespace TcpAndParallel

namespace Workcrew

variable {τ : Type*} [DecidableEq τ]

/-- The node of which the next step of a thread reads or writes a field. -/
def access (s : State τ) (t : τ) : Option Nat :=
  match s.pc t with
  | .acceptor p => if p matches .number | .stamp | .put | .logAcceptor | .logJob then s.data.hand t else none
  | .processor .get => s.data.aq.head
  | .processor p =>
    if p matches .stamp | .put | .logProcessor | .logJob | .logAcceptor then s.data.hand t else none
  | .responder .get => s.data.rq.head
  | .responder p =>
    if p matches .stamp | .logResponder | .logJob | .logProcessor then s.data.hand t else none
  | .stop _ => none

/-- Where a thread has handed its node on and will still read it. -/
def lingers : Pc → Bool
  | .acceptor p => (p matches .unlock | .signal | .logAcceptor | .logJob)
  | .processor p => (p matches .unlockRq | .signal | .logProcessor | .logJob | .logAcceptor)
  | _ => false

/-- A responder frees a node only when nobody will read it any more. -/
def FreesLast (s : State τ) : Step τ → Prop
  | .run t _ _ => s.pc t = .responder .free →
      ∀ u n, s.data.hand t = some n → lingers (s.pc u) = true → s.data.hand u ≠ some n
  | .spurious _ _ => True

def Kept (pc : τ → Pc) (d : Crew τ) : Prop :=
  ∀ t n, lingers (pc t) = true → d.hand t = some n → d.freed n = false

section Kept

variable {pc : τ → Pc} {d d' : Crew τ} {t : τ} {next : Pc}

theorem Kept.turn (h : Kept pc d) (hh : ∀ u ≠ t, d'.hand u = d.hand u) (hf : d'.freed = d.freed)
    (self : ∀ n, lingers next = true → d'.hand t = some n → d.freed n = false) :
    Kept (Function.update pc t next) d' := by
  intro u n hu hn
  rw [hf]
  by_cases he : u = t
  · subst he
    rw [Function.update_self] at hu
    exact self n hu hn
  · rw [Function.update_of_ne he] at hu
    exact h u n hu (hh u he ▸ hn)

end Kept

omit [DecidableEq τ] in
theorem Located.not_freed {place : Nat → Spot Shelf τ} {as rs : List Nat} {pc : τ → Pc} {d : Crew τ}
    {t : τ} {n : Nat} (h : Located place as rs pc d) (hc : carries (pc t) = true)
    (hn : d.hand t = some n) : d.freed n = false := by
  by_contra hf
  exact h.finished.ne_hand (by simpa using hf) (h.carried_at hc hn)

theorem lingers_of_next {p q : Pc} (hn : (code p : Op τ).next? = some q) (hq : lingers q = true) :
    lingers p = true := by
  rcases p with p | p | p | p <;> cases p <;>
    simp [Instr.next?, branch, onNode, readNode] at hn <;> subst hn <;> simp [lingers] at hq ⊢

theorem lingers_of_log {p q : Pc} (h : Log p q) (hq : lingers q = true) : lingers p = true := by
  cases h <;> simp [lingers] at hq ⊢

theorem kept_step {s s' : State τ} {e : Step τ} (h : s.step code e = some s') (hC : FreesLast s e)
    {place : Nat → Spot Shelf τ} {as rs : List Nat} (located : Located place as rs s.pc s.data)
    (hs : Kept s.pc s.data) : Kept s'.pc s'.data := by
  cases e with
  | spurious c t =>
    obtain ⟨-, rfl⟩ := step_spurious h
    exact hs
  | run t success woken =>
    obtain ⟨next, hpc, ⟨hn, hd⟩ | he⟩ := step_effect h
    · rw [hpc, hd]
      exact hs.turn (fun _ _ => rfl) rfl fun n hl hn' => hs t n (lingers_of_next hn hl) hn'
    · rw [hpc]
      generalize hp : s.pc t = p at he
      generalize s'.data = d' at he
      cases he with
      | test ht => exact hs.turn (fun _ _ => rfl) rfl fun n hl => by cases ht <;> simp [lingers] at hl
      | log hl =>
        refine hs.turn (fun _ _ => rfl) rfl fun n hl' hn => hs t n ?_ hn
        rw [hp]
        exact lingers_of_log hl hl'
      | malloc | ouch | getAq | getRq =>
        exact hs.turn (fun u hu => Function.update_of_ne hu ..) rfl fun n hl => by simp [lingers] at hl
      | stamp _ _ _ _ hpq =>
        refine hs.turn (fun _ _ => rfl) rfl fun n hl => ?_
        rcases hpq with ⟨rfl, rfl⟩ | ⟨rfl, rfl⟩ | ⟨rfl, rfl⟩ <;> simp [lingers] at hl
      | putAq | putRq =>
        exact hs.turn (fun _ _ => rfl) rfl fun n _ hn => located.not_freed (by rw [hp]; rfl) hn
      | number | send | clear | clearRq =>
        exact hs.turn (fun _ _ => rfl) rfl fun n hl => by simp [lingers] at hl
      | @free n hn =>
        intro u m hu hm
        by_cases he : u = t
        · subst he
          simp [lingers] at hu
        · rw [Function.update_of_ne he] at hu
          have hne : m ≠ n := by
            rintro rfl
            exact hC hp u m hn hu hm
          exact (Function.update_of_ne hne ..).trans (hs u m hu hm)

theorem kept_of_reaches {pc : τ → Pc} {s : State τ}
    (h : Reaches (Machine.step code) FreesLast (startServer pc) s) : Kept s.pc s.data := by
  induction h with
  | start => exact fun t n _ hn => by simp [startServer, Machine.start, initializeStructs] at hn
  | next hr hc he ih =>
    obtain ⟨place, as, rs, hl⟩ := located_of_reaches hr
    exact kept_step he hc hl ih

/-- No next step of a thread touches a node that has been freed. -/
def NodesOwned (s : State τ) : Prop := ∀ t n, access s t = some n → s.data.freed n = false

omit [DecidableEq τ] in
theorem access_cases {s : State τ} {t : τ} {n : Nat} (h : access s t = some n) :
    (carries (s.pc t) = true ∨ lingers (s.pc t) = true) ∧ s.data.hand t = some n ∨
      s.data.aq.head = some n ∨ s.data.rq.head = some n := by
  unfold access at h
  cases hp : s.pc t with
  | acceptor p => cases p <;> simp [hp] at h <;> simp [h, carries, lingers]
  | processor p => cases p <;> simp [hp] at h <;> simp [h, carries, lingers]
  | responder p => cases p <;> simp [hp] at h <;> simp [h, carries, lingers]
  | stop p => simp [hp] at h

/-- The nodes stay owned in the runs where the readers of a node are done when it is freed. -/
theorem nodesOwned_of_freesLast {pc : τ → Pc} {s : State τ}
    (h : Reaches (Machine.step code) FreesLast (startServer pc) s) : NodesOwned s := by
  obtain ⟨place, as, rs, hl⟩ := located_of_reaches h
  intro t n hn
  by_contra hf
  have hfin : place n = .shelf .finished := (hl.finished n).mp (by simpa using hf)
  rcases access_cases hn with ⟨hc | hr, hn⟩ | hn | hn
  · exact hf (hl.not_freed hc hn)
  · exact hf (kept_of_reaches h t n hr hn)
  · cases as with
    | nil => simp [hl.aq.head_eq] at hn
    | cons m as =>
      obtain rfl : m = n := by simpa [hl.aq.head_eq] using hn
      simp [(hl.onAq m).mp List.mem_cons_self] at hfin
  · cases rs with
    | nil => simp [hl.rq.head_eq] at hn
    | cons m rs =>
      obtain rfl : m = n := by simpa [hl.rq.head_eq] using hn
      simp [(hl.onRq m).mp List.mem_cons_self] at hfin

instance [Fintype τ] (s : State τ) (e : Step τ) : Decidable (FreesLast s e) :=
  match e with
  | .run t _ _ =>
    decidable_of_iff (s.pc t = .responder .free →
      ∀ u, lingers (s.pc u) = true → s.data.hand t ≠ none → s.data.hand u ≠ s.data.hand t) <| by
        simp only [FreesLast]
        refine imp_congr_right fun _ => forall_congr' fun u => ?_
        cases s.data.hand t <;> simp
  | .spurious _ _ => inferInstanceAs (Decidable True)

/-- A job is freed after the acceptor and the processor have logged it. -/
theorem nodesOwned_when_logged : ∃ s, Reaches (Machine.step code) FreesLast (startServer oneOfEach) s ∧
    s.data.freed 0 = true ∧ NodesOwned s := by
  have run : ∃ s, Reaches (Machine.step code) FreesLast (startServer oneOfEach) s ∧ s.data.freed 0 = true :=
    exists_reaches (List.replicate 10 (go 0) ++ List.replicate 14 (go 1) ++ List.replicate 12 (go 2))
      (by decide)
  obtain ⟨s, hs, hf⟩ := run
  exact ⟨s, hs, hf, nodesOwned_of_freesLast hs⟩

/-- The acceptor is delayed before it logs its job, and reads a node that has been freed. -/
theorem logs_freed_node : ∃ s, Reaches (Machine.step code) (fun _ _ => True) (startServer oneOfEach) s ∧
    ¬NodesOwned s := by
  have run : ∃ s, Reaches (Machine.step code) (fun _ _ => True) (startServer oneOfEach) s ∧
      access s 0 = some 0 ∧ s.data.freed 0 = true :=
    exists_reaches (List.replicate 8 (go 0) ++ List.replicate 14 (go 1) ++ List.replicate 12 (go 2))
      (by decide)
  obtain ⟨s, hs, ha, hf⟩ := run
  refine ⟨s, hs, fun h => ?_⟩
  simp [h 0 0 ha] at hf

end Workcrew

end TcpAndParallel
