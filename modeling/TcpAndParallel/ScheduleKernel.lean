import TcpAndParallel.SchedulePriorities

namespace TcpAndParallel

namespace Schedule

variable {n : Nat}

/-- The latest call of `sys_schedule` for an endpoint. -/
def told (log : List Quantum) (endpoint : Int) : Option Quantum := log.find? (·.endpoint = endpoint)

/-- The kernel schedules each process in use as its slot says, and the slot is that of its endpoint. -/
def Agrees (slot : Int → Fin n) (s : Sched n) : Prop :=
  ∀ p, (s.schedproc p).inUse = true → slot (s.schedproc p).endpoint = p ∧
    told s.scheduled (s.schedproc p).endpoint = some (quantum (s.schedproc p))

/-- The kernel does what it is called for. -/
def Succeeds (_ : Sched n) : Event n → Prop
  | .noquantum _ kernel => kernel = 0
  | .stop _ => True
  | .start _ schedctl schedule => schedctl = 0 ∧ schedule = 0
  | .nice _ kernel => kernel = 0
  | .balance kernel => ∀ p, kernel p = 0

instance (s : Sched n) : DecidablePred (Succeeds s)
  | .noquantum _ _ => inferInstanceAs (Decidable (_ = _))
  | .stop _ => inferInstanceAs (Decidable True)
  | .start _ _ _ => inferInstanceAs (Decidable (_ ∧ _))
  | .nice _ _ => inferInstanceAs (Decidable (_ = _))
  | .balance _ => inferInstanceAs (Decidable (∀ _, _ = _))

section Agreement

variable {u : Utility n} {slot : Int → Fin n} {s t : Sched n} {e : Event n}

theorem told_cons_self {q : Quantum} {log : List Quantum} : told (q :: log) q.endpoint = some q := by
  simp [told]

theorem told_cons_ne {q : Quantum} {log : List Quantum} {endpoint : Int} (h : q.endpoint ≠ endpoint) :
    told (q :: log) endpoint = told log endpoint := by
  simp [told, h]

theorem Agrees.update (h : Agrees slot s) {p : Fin n} {rmp : Schedproc} (hp : slot rmp.endpoint = p)
    (slots : t.schedproc = Function.update s.schedproc p rmp)
    (log : t.scheduled = quantum rmp :: s.scheduled) : Agrees slot t := by
  intro q hq
  rw [slots] at hq ⊢
  by_cases hqp : q = p
  · subst hqp
    rw [Function.update_self, log]
    exact ⟨hp, told_cons_self⟩
  · rw [Function.update_of_ne hqp] at hq ⊢
    obtain ⟨hslot, htold⟩ := h q hq
    have hne : (quantum rmp).endpoint ≠ (s.schedproc q).endpoint := fun he => by
      have he' : rmp.endpoint = (s.schedproc q).endpoint := he
      exact hqp (hslot.symm.trans ((congrArg slot he').symm.trans hp))
    rw [log, told_cons_ne hne]
    exact ⟨hslot, htold⟩

theorem Agrees.fewer (h : Agrees slot s)
    (kept : ∀ q, (t.schedproc q).inUse = true → (s.schedproc q).inUse = true ∧ t.schedproc q = s.schedproc q)
    (log : t.scheduled = s.scheduled) : Agrees slot t := by
  intro q hq
  obtain ⟨used, same⟩ := kept q hq
  rw [same, log]
  exact h q used

/-- After a balance the kernel knows each slot that was pulled up, and the others as before. -/
theorem told_balanced (h : Agrees slot s) {p : Fin n} (used : (s.schedproc p).inUse = true) :
    told ((((List.finRange n).filter fun q => pulled (s.schedproc q)).reverse.map
      fun q => quantum (raised (s.schedproc q))) ++ s.scheduled) (s.schedproc p).endpoint =
        some (quantum (raised (s.schedproc p))) := by
  have only : ∀ q, pulled (s.schedproc q) = true →
      (quantum (raised (s.schedproc q))).endpoint = (s.schedproc p).endpoint → q = p := fun q hq he => by
    have usedq : (s.schedproc q).inUse = true := (Bool.and_eq_true_iff.mp hq).1
    have he' : (s.schedproc q).endpoint = (s.schedproc p).endpoint := (raised_endpoint _).symm.trans he
    rw [← (h q usedq).1, ← (h p used).1, he']
  rw [told, List.find?_append]
  by_cases hpull : pulled (s.schedproc p) = true
  · have hmem : p ∈ ((List.finRange n).filter fun q => pulled (s.schedproc q)).reverse := by
      simp [hpull]
    obtain ⟨q, hq⟩ : ∃ q, (((List.finRange n).filter fun q => pulled (s.schedproc q)).reverse.map
        fun q => quantum (raised (s.schedproc q))).find? (·.endpoint = (s.schedproc p).endpoint) = some q := by
      refine Option.isSome_iff_exists.mp (List.find?_isSome.mpr ⟨_, List.mem_map_of_mem hmem, ?_⟩)
      simp [quantum, raised_endpoint]
    obtain ⟨r, hr, rfl⟩ := List.mem_map.mp (List.mem_of_find?_eq_some hq)
    have hpulled : pulled (s.schedproc r) = true := by simpa using hr
    have hend := List.find?_some hq
    rw [decide_eq_true_eq] at hend
    rw [hq, only r hpulled hend]
    rfl
  · have hnone : (((List.finRange n).filter fun q => pulled (s.schedproc q)).reverse.map
        fun q => quantum (raised (s.schedproc q))).find? (·.endpoint = (s.schedproc p).endpoint) = none := by
      refine List.find?_eq_none.mpr fun q hq => ?_
      obtain ⟨r, hr, rfl⟩ := List.mem_map.mp hq
      have hpulled : pulled (s.schedproc r) = true := by simpa using hr
      rw [decide_eq_true_eq]
      intro hend
      exact hpull (only r hpulled hend ▸ hpulled)
    rw [hnone, Option.none_or, raised, if_neg hpull]
    exact (h p used).2

theorem Agrees.step (h : Agrees slot s) (hu : u.Sound slot) (he : Effect u s t e)
    (succeeds : Succeeds s e) : Agrees slot t := by
  cases he with
  | refused request used kept log =>
    refine h.fewer (fun q hq => ?_) log
    rw [used] at hq
    exact ⟨hq, kept q hq⟩
  | lowered p found slots log =>
    refine h.update ?_ slots log
    have hend : (lowered u (s.schedproc p)).endpoint = (s.schedproc p).endpoint := by
      unfold Schedule.lowered
      split <;> rfl
    rw [hend]
    exact (h p (hu.ok found).2.1).1
  | stopped p found slots log =>
    refine h.fewer (fun q hq => ?_) log
    rw [slots] at hq ⊢
    by_cases hqp : q = p
    · simp [hqp] at hq
    · rw [Function.update_of_ne hqp] at hq ⊢
      exact ⟨hq, rfl⟩
  | started p rmp pm found nice taken endpoint used source slots log =>
    exact h.update (by rw [endpoint]; exact (hu.emty found).1.symm) slots log
  | niced p q called found nice slots log =>
    refine h.update ?_ slots log
    exact (h p (hu.ok found).2.1).1
  | restored failed slots => exact absurd succeeds failed
  | balanced slots log =>
    intro p hp
    rw [slots] at hp ⊢
    have used : (s.schedproc p).inUse = true := by rwa [← raised_inUse]
    simp only [raised_endpoint]
    rw [log]
    exact ⟨(h p used).1, told_balanced h used⟩

end Agreement

/-- As long as the kernel calls succeed, the kernel knows the priority and the time slice of each
process in use, in every state of a run. -/
theorem kernel_agrees {u : Utility n} {slot : Int → Fin n} (hu : u.Sound slot) {es : List (Event n)}
    (succeeds : Meets (step u) Succeeds (boot n) es) : Upholds (step u) (Agrees slot) (boot n) es := by
  have unused : Agrees slot (boot n) := fun p hp => absurd hp (by simp [boot])
  refine upholds_of_meets (fun _ h => h) (fun s e h hs => ?_) unused succeeds
  obtain ⟨t, ht⟩ := step_total u s e
  exact ⟨t, ht, h.step hu (step_effect hu ht) hs⟩

theorem kernel_agrees_of_fork : Upholds (step (slotUtility 16))
    (Agrees fun e => if h : 0 ≤ e ∧ e.toNat < 16 then ⟨e.toNat, h.2⟩ else ⟨0, by decide⟩) (boot 16)
    [fork 0, fork 1, .noquantum 1 0, .balance fun _ => 0] :=
  kernel_agrees (slotUtility_sound 16 (by decide)) (by decide)

def Spares (endpoint : Int) : Event n → Prop
  | .noquantum source _ => source ≠ endpoint
  | .stop m => m.endpoint ≠ endpoint
  | .start _ _ _ => True
  | .nice m _ => m.endpoint ≠ endpoint
  | .balance _ => True

def isBalance : Event n → Bool
  | .balance _ => true
  | _ => false

/-- What `k` balances make of a slot. -/
def pullUp (k : Nat) (rmp : Schedproc) : Schedproc :=
  { rmp with priority := max (min rmp.maxPriority rmp.priority) (rmp.priority - k) }

section Recovery

variable {u : Utility n} {slot : Int → Fin n} {s t : Sched n} {e : Event n} {p : Fin n}

theorem spared_step (hu : u.Sound slot) (he : Effect u s t e) (used : (s.schedproc p).inUse = true)
    (spares : Spares (s.schedproc p).endpoint e) :
    t.schedproc p = if isBalance e then raised (s.schedproc p) else s.schedproc p := by
  have other : ∀ {endpoint : Int} {q : Fin n} {rmp : Schedproc}, endpoint ≠ (s.schedproc p).endpoint →
      u.isokendpt s.schedproc endpoint = .ok q → Function.update s.schedproc q rmp p = s.schedproc p := by
    intro endpoint q rmp hne found
    have hpq : p ≠ q := by
      rintro rfl
      exact hne (hu.ok found).2.2.symm
    exact Function.update_of_ne hpq _ _
  cases he with
  | refused request used' kept log =>
    have hreq : isBalance e = false := by
      cases e with
      | balance kernel => exact absurd rfl (request kernel)
      | noquantum | stop | start | nice => rfl
    rw [hreq]
    exact kept p used
  | lowered q found slots log => exact (congrFun slots p).trans (other spares found)
  | stopped q found slots log => exact (congrFun slots p).trans (other spares found)
  | started q rmp pm found nice taken endpoint used' source slots log =>
    have hpq : p ≠ q := by
      rintro rfl
      rw [(hu.emty found).2] at used
      cases used
    exact (congrFun slots p).trans (Function.update_of_ne hpq _ _)
  | niced q r called found nice slots log => exact (congrFun slots p).trans (other spares found)
  | restored failed slots => exact congrFun slots p
  | balanced slots log => exact congrFun slots p

theorem raised_pullUp {rmp : Schedproc} (used : rmp.inUse = true) (k : Nat) :
    pullUp k (raised rmp) = pullUp (k + 1) rmp := by
  unfold raised pulled pullUp
  by_cases low : rmp.maxPriority < rmp.priority
  · have hmin : min rmp.maxPriority (rmp.priority - 1) = min rmp.maxPriority rmp.priority := by omega
    simp only [used, low, decide_true, Bool.and_self, if_true, hmin, Nat.sub_sub, Nat.add_comm 1 k]
  · have hstay : ∀ k, max (min rmp.maxPriority rmp.priority) (rmp.priority - k) = rmp.priority := by omega
    simp only [low, decide_false, Bool.and_false, Bool.false_eq_true, if_false, hstay]

end Recovery

/-- Whatever happens to the others, a process in use that is neither out of quantum nor stopped nor
niced is at the end of the run where the balances alone have pulled it: a queue up for each, but
never above its maximal priority. -/
theorem balances_pull_up {u : Utility n} {slot : Int → Fin n} (hu : u.Sound slot) {s : Sched n} {p : Fin n}
    (used : (s.schedproc p).inUse = true) {es : List (Event n)}
    (spared : ∀ e ∈ es, Spares (s.schedproc p).endpoint e) :
    ∃ t, es.foldlM (step u) s = .ok t ∧ t.schedproc p = pullUp (es.countP isBalance) (s.schedproc p) := by
  induction es generalizing s with
  | nil => exact ⟨s, rfl, by simp [pullUp]⟩
  | cons e es ih =>
    obtain ⟨t, ht⟩ := step_total u s e
    have hstep := spared_step hu (step_effect hu ht) used (spared e List.mem_cons_self)
    have hend : (t.schedproc p).endpoint = (s.schedproc p).endpoint := by
      rw [hstep]
      split
      · exact raised_endpoint _
      · rfl
    have hused : (t.schedproc p).inUse = true := by
      rw [hstep]
      split
      · rw [raised_inUse, used]
      · exact used
    obtain ⟨w, hw, hp⟩ := ih hused fun e he => hend ▸ spared e (List.mem_cons_of_mem _ he)
    refine ⟨w, by rw [List.foldlM_cons, ht]; exact hw, ?_⟩
    rw [hp, hstep, List.countP_cons]
    split
    next => exact raised_pullUp used _
    next => rfl

theorem balances_pull_up_of_two : ∃ t, [.balance fun _ => 0, fork 1, .balance fun _ => 0].foldlM
      (step (slotUtility 16)) { boot 16 with
        schedproc := fun _ => ⟨0, 0, 0, 9, 8, 300, true⟩ } = .ok t ∧
    t.schedproc 0 = pullUp 2 ⟨0, 0, 0, 9, 8, 300, true⟩ :=
  balances_pull_up (slotUtility_sound 16 (by decide)) rfl (by simp [Spares, fork])

end Schedule

end TcpAndParallel
