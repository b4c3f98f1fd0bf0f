import TcpAndParallel.Schedule

namespace TcpAndParallel

namespace Schedule

variable {n : Nat}

/-- What the scheduler's utilities promise: each endpoint has its slot, `isokendpt` finds it in use
with this endpoint and `isemtyendpt` not in use. -/
structure Utility.Sound (u : Utility n) (slot : Int → Fin n) : Prop where
  ok : ∀ {table e p}, u.isokendpt table e = .ok p →
    p = slot e ∧ (table p).inUse = true ∧ (table p).endpoint = e
  emty : ∀ {table e p}, u.isemtyendpt table e = .ok p → p = slot e ∧ (table p).inUse = false
  nice : ∀ {nice q}, u.niceToPriority nice = .ok q → q ≤ u.minUserQ
  userQ : u.userQ ≤ u.minUserQ

def quantum (rmp : Schedproc) : Quantum := ⟨rmp.endpoint, rmp.priority, rmp.timeSlice⟩

/-- "lower priority" -/
def lowered (u : Utility n) (rmp : Schedproc) : Schedproc :=
  if rmp.priority < u.minUserQ then { rmp with priority := rmp.priority + 1 } else rmp

/-- The slots that `balance_queues` pulls up. -/
def pulled (rmp : Schedproc) : Bool := rmp.inUse && decide (rmp.maxPriority < rmp.priority)

/-- "increase priority" -/
def raised (rmp : Schedproc) : Schedproc :=
  if pulled rmp then { rmp with priority := rmp.priority - 1 } else rmp

theorem raised_inUse (rmp : Schedproc) : (raised rmp).inUse = rmp.inUse := by
  unfold raised
  split <;> rfl

theorem raised_endpoint (rmp : Schedproc) : (raised rmp).endpoint = rmp.endpoint := by
  unfold raised
  split <;> rfl

/-- Where the priority of a process that starts comes from. -/
inductive Source (u : Utility n) (m : Message) (s : Sched n) (priority timeSlice : Nat) : Prop
  | root (own : m.endpoint = m.parent) (priority_eq : priority = u.userQ)
  | fork (parent : Fin n) (inherits : InheritsFrom u m s parent) (used : (s.schedproc parent).inUse = true)
      (priority_eq : priority = (s.schedproc parent).priority)
      (slice_eq : timeSlice = (s.schedproc parent).timeSlice)

/-- What a step does to the slots and to the calls of `sys_schedule`. -/
inductive Effect (u : Utility n) (s t : Sched n) : Event n → Prop
  /-- A request that is refused, or fails before it is taken over, touches no slot in use. -/
  | refused {e : Event n} (request : ∀ kernel, e ≠ .balance kernel)
      (used : ∀ q, (t.schedproc q).inUse = (s.schedproc q).inUse)
      (kept : ∀ q, (s.schedproc q).inUse = true → t.schedproc q = s.schedproc q)
      (log : t.scheduled = s.scheduled) : Effect u s t e
  | lowered {source kernel : Int} (p : Fin n) (found : u.isokendpt s.schedproc source = .ok p)
      (slots : t.schedproc = Function.update s.schedproc p (lowered u (s.schedproc p)))
      (log : t.scheduled = quantum (lowered u (s.schedproc p)) :: s.scheduled) :
      Effect u s t (.noquantum source kernel)
  | stopped {m : Message} (p : Fin n) (found : u.isokendpt s.schedproc m.endpoint = .ok p)
      (slots : t.schedproc = Function.update s.schedproc p { s.schedproc p with inUse := false })
      (log : t.scheduled = s.scheduled) : Effect u s t (.stop m)
  | started {m : Message} {schedctl schedule : Int} (p : Fin n) (rmp : Schedproc)
      (pm : u.isFromPm m = true) (found : u.isemtyendpt s.schedproc m.endpoint = .ok p)
      (nice : u.niceToPriority m.nice = .ok rmp.maxPriority) (taken : schedctl = 0)
      (endpoint : rmp.endpoint = m.endpoint) (used : rmp.inUse = true)
      (source : Source u m s rmp.priority rmp.timeSlice)
      (slots : t.schedproc = Function.update s.schedproc p rmp)
      (log : t.scheduled = quantum rmp :: s.scheduled) : Effect u s t (.start m schedctl schedule)
  | niced {m : Message} {kernel : Int} (p : Fin n) (q : Nat) (called : kernel = 0)
      (found : u.isokendpt s.schedproc m.endpoint = .ok p) (nice : u.niceToPriority m.nice = .ok q)
      (slots : t.schedproc = Function.update s.schedproc p
        { s.schedproc p with maxPriority := q, priority := q, nice := m.nice })
      (log : t.scheduled = ⟨(s.schedproc p).endpoint, q, (s.schedproc p).timeSlice⟩ :: s.scheduled) :
      Effect u s t (.nice m kernel)
  | restored {m : Message} {kernel : Int} (failed : kernel ≠ 0) (slots : t.schedproc = s.schedproc) :
      Effect u s t (.nice m kernel)
  | balanced {kernel : Fin n → Int} (slots : t.schedproc = fun q => raised (s.schedproc q))
      (log : t.scheduled = (((List.finRange n).filter fun q => pulled (s.schedproc q)).reverse.map
        fun q => quantum (raised (s.schedproc q))) ++ s.scheduled) : Effect u s t (.balance kernel)

section Effects

variable {u : Utility n} {slot : Int → Fin n} {s t : Sched n}

theorem noquantum_effect (u : Utility n) (source kernel : Int) (s : Sched n) :
    Effect u s (doNoquantum u source kernel s).2 (.noquantum source kernel) := by
  cases found : u.isokendpt s.schedproc source with
  | error rv =>
    simp only [doNoquantum, found]
    exact .refused (by simp) (fun _ => rfl) (fun _ _ => rfl) rfl
  | ok p =>
    have hslot : (doNoquantum u source kernel s).2 =
        ((s.set p (lowered u (s.schedproc p))).scheduleProcess p kernel).2 := by
      simp only [doNoquantum, found, lowered]
    refine .lowered p found ?_ ?_
    · rw [hslot]
      rfl
    · rw [hslot]
      simp [Sched.scheduleProcess, Sched.set, quantum]

theorem stop_effect (u : Utility n) (m : Message) (s : Sched n) :
    Effect u s (doStopScheduling u m s).2 (.stop m) := by
  by_cases pm : u.isFromPm m = true
  · cases found : u.isokendpt s.schedproc m.endpoint with
    | error rv =>
      simp only [doStopScheduling, pm, if_true, found]
      exact .refused (by simp) (fun _ => rfl) (fun _ _ => rfl) rfl
    | ok p =>
      simp only [doStopScheduling, pm, if_true, found]
      exact .stopped p found rfl rfl
  · simp only [doStopScheduling, if_neg pm]
    exact .refused (by simp) (fun _ => rfl) (fun _ _ => rfl) rfl

theorem nice_effect (u : Utility n) (m : Message) (kernel : Int) (s : Sched n) :
    Effect u s (doNice u m kernel s).2 (.nice m kernel) := by
  by_cases pm : u.isFromPm m = true
  · cases found : u.isokendpt s.schedproc m.endpoint with
    | error rv =>
      simp only [doNice, pm, if_true, found]
      exact .refused (by simp) (fun _ => rfl) (fun _ _ => rfl) rfl
    | ok p =>
      cases nice : u.niceToPriority m.nice with
      | error rv =>
        simp only [doNice, pm, if_true, found, nice]
        exact .refused (by simp) (fun _ => rfl) (fun _ _ => rfl) rfl
      | ok q =>
        by_cases called : kernel = 0
        · refine .niced p q called found nice ?_ ?_ <;>
            simp [doNice, pm, found, nice, called, Sched.scheduleProcess, Reply.ofKernel, Sched.set]
        · refine .restored called ?_
          simp [doNice, pm, found, nice, called, Sched.scheduleProcess, Reply.ofKernel, Sched.set]
  · simp only [doNice, if_neg pm]
    exact .refused (by simp) (fun _ => rfl) (fun _ _ => rfl) rfl

theorem refused_of_set {e : Event n} (request : ∀ kernel, e ≠ .balance kernel) {p : Fin n}
    (free : (s.schedproc p).inUse = false) {rmp : Schedproc} (unused : rmp.inUse = false) (slots : t.schedproc = Function.update s.schedproc p rmp)
    (log : t.scheduled = s.scheduled) : Effect u s t e := by
  refine .refused request (fun q => ?_) (fun q hq => ?_) log
  · rw [slots]
    by_cases hqp : q = p
    · rw [hqp, Function.update_self, unused, free]
    · rw [Function.update_of_ne hqp]
  · have hne : q ≠ p := by
      rintro rfl
      rw [free] at hq
      cases hq
    rw [slots, Function.update_of_ne hne]

theorem filled_slots (m : Message) (maxPriority : Nat) (p : Fin n) (s : Sched n) :
    (setMaxPriority maxPriority p (populate m p s)).schedproc = Function.update s.schedproc p
      { s.schedproc p with
        endpoint := m.endpoint, parent := m.parent, nice := m.nice, maxPriority := maxPriority } := by
  simp [setMaxPriority, populate, Sched.set]

theorem inherit_slot (hu : u.Sound slot) {m : Message} {p : Fin n} {maxPriority : Nat}
    (pm : u.isFromPm m = true) (found : u.isemtyendpt s.schedproc m.endpoint = .ok p)
    (nice : u.niceToPriority m.nice = .ok maxPriority)
    (ht : inherit u m p (setMaxPriority maxPriority p (populate m p s)) = .ok t) :
    ∃ rmp, t.schedproc = Function.update s.schedproc p rmp ∧ rmp.endpoint = m.endpoint ∧
      rmp.maxPriority = maxPriority ∧ rmp.inUse = false ∧ t.scheduled = s.scheduled ∧
      Source u m s rmp.priority rmp.timeSlice := by
  have free := (hu.emty found).2
  have filled := filled_slots m maxPriority p s
  simp only [inherit] at ht
  split at ht
  next own =>
    obtain rfl := Except.ok.inj ht
    refine ⟨_, by simp only [Sched.set, filled, Function.update_idem]; rfl, ?_, ?_, ?_, rfl, .root own rfl⟩ <;>
      simp [free]
  next ne =>
    split at ht
    next => cases ht
    next parent hp =>
      obtain rfl := Except.ok.inj ht
      have used := (hu.ok hp).2.1
      have hne : parent ≠ p := by
        rintro rfl
        rw [filled, Function.update_self] at used
        simp [free] at used
      have hparent : (setMaxPriority maxPriority p (populate m p s)).schedproc parent = s.schedproc parent := by
        rw [filled, Function.update_of_ne hne]
      rw [hparent] at used
      have inherits : InheritsFrom u m s parent := ⟨pm, ne, p, maxPriority, found, nice, hp⟩
      refine ⟨_, by simp only [Sched.set, filled, Function.update_idem]; rfl, ?_, ?_, ?_, rfl,
        .fork parent inherits used ?_ ?_⟩ <;> simp [free, hne]

theorem takeOver_slot (u : Utility n) (m : Message) {p : Fin n} {schedctl : Int} (schedule : Int)
    (taken : schedctl = 0) {rmp : Schedproc} (slots : t.schedproc = Function.update s.schedproc p rmp)
    (log : t.scheduled = s.scheduled) :
    (takeOver u m p schedctl schedule t).2.2.schedproc =
        Function.update s.schedproc p { rmp with inUse := true } ∧
      (takeOver u m p schedctl schedule t).2.2.scheduled = quantum rmp :: s.scheduled := by
  simp only [takeOver, taken, ne_eq, not_true_eq_false, if_false]
  split <;> simp [Sched.scheduleProcess, Sched.set, slots, log, quantum]

theorem start_effect (hu : u.Sound slot) (m : Message) (schedctl schedule : Int) (s : Sched n) :
    Effect u s (doStartScheduling u m schedctl schedule s).2.2 (.start m schedctl schedule) := by
  by_cases pm : u.isFromPm m = true
  swap
  · simp only [doStartScheduling, if_neg pm]
    exact .refused (by simp) (fun _ => rfl) (fun _ _ => rfl) rfl
  cases found : u.isemtyendpt s.schedproc m.endpoint with
  | error rv =>
    simp only [doStartScheduling, pm, if_true, found]
    exact .refused (by simp) (fun _ => rfl) (fun _ _ => rfl) rfl
  | ok p =>
    have free := (hu.emty found).2
    cases nice : u.niceToPriority m.nice with
    | error rv =>
      simp only [doStartScheduling, pm, if_true, found, nice]
      exact refused_of_set (by simp) free (by exact free) rfl rfl
    | ok maxPriority =>
      cases ht : inherit u m p (setMaxPriority maxPriority p (populate m p s)) with
      | error rv =>
        simp only [doStartScheduling, pm, if_true, found, nice, ht]
        exact refused_of_set (by simp) free (by exact free) (filled_slots m maxPriority p s) rfl
      | ok t =>
        rw [start_eq pm found nice ht]
        obtain ⟨rmp, hrmp, hend, rfl, hfree, hlog, source⟩ := inherit_slot hu pm found nice ht
        by_cases taken : schedctl = 0
        · obtain ⟨slots, log⟩ := takeOver_slot u m schedule taken hrmp hlog
          exact .started p { rmp with inUse := true } pm found nice taken hend rfl source slots log
        · have hrun : (takeOver u m p schedctl schedule t).2.2 = t := by
            simp only [takeOver, if_pos taken]
          rw [hrun]
          exact refused_of_set (by simp) free hfree hrmp hlog

theorem balanceSlot_slots (kernel : Fin n → Int) (k : Nat) (s : Sched n) (p : Fin n) :
    (balanceSlot kernel (k, s) p).2.schedproc = Function.update s.schedproc p (raised (s.schedproc p)) ∧
      (balanceSlot kernel (k, s) p).2.scheduled =
        (if pulled (s.schedproc p) then [quantum (raised (s.schedproc p))] else []) ++ s.scheduled := by
  unfold balanceSlot raised pulled
  by_cases used : (s.schedproc p).inUse = true
  · by_cases low : (s.schedproc p).maxPriority < (s.schedproc p).priority
    · simp [used, low, Sched.scheduleProcess, Sched.set, quantum]
    · simp [used, low]
  · simp [used]

theorem balance_slots (kernel : Fin n → Int) {ps : List (Fin n)} (hps : ps.Nodup) (k : Nat) (s : Sched n) :
    (∀ q, (ps.foldl (balanceSlot kernel) (k, s)).2.schedproc q =
        if q ∈ ps then raised (s.schedproc q) else s.schedproc q) ∧
      (ps.foldl (balanceSlot kernel) (k, s)).2.scheduled =
        ((ps.filter fun q => pulled (s.schedproc q)).reverse.map fun q => quantum (raised (s.schedproc q))) ++
          s.scheduled := by
  induction ps generalizing k s with
  | nil => exact ⟨fun q => by simp, rfl⟩
  | cons p ps ih =>
    obtain ⟨hp, hps⟩ := List.nodup_cons.mp hps
    obtain ⟨hslots, hlog⟩ := balanceSlot_slots kernel k s p
    obtain ⟨k', t, ht⟩ : ∃ k' t, balanceSlot kernel (k, s) p = (k', t) := ⟨_, _, rfl⟩
    rw [ht] at hslots hlog
    have hkept : ∀ q ∈ ps, t.schedproc q = s.schedproc q := fun q hq => by
      have hne : q ≠ p := fun he => hp (he ▸ hq)
      rw [hslots, Function.update_of_ne hne]
    obtain ⟨ihs, ihl⟩ := ih hps k' t
    rw [List.foldl_cons, ht]
    refine ⟨fun q => ?_, ?_⟩
    · rw [ihs q]
      by_cases hq : q ∈ ps
      · rw [if_pos hq, if_pos (List.mem_cons_of_mem p hq), hkept q hq]
      · rw [if_neg hq, hslots]
        by_cases hqp : q = p
        · rw [hqp, Function.update_self, if_pos List.mem_cons_self]
        · rw [Function.update_of_ne hqp, if_neg (by simp [hqp, hq])]
    · have hfilter : (ps.filter fun q => pulled (t.schedproc q)) = ps.filter fun q => pulled (s.schedproc q) :=
        List.filter_congr fun q hq => by rw [hkept q hq]
      have hmap : (ps.filter fun q => pulled (s.schedproc q)).reverse.map
            (fun q => quantum (raised (t.schedproc q))) =
          (ps.filter fun q => pulled (s.schedproc q)).reverse.map
            (fun q => quantum (raised (s.schedproc q))) :=
        List.map_congr_left fun q hq => by
          rw [hkept q (List.mem_of_mem_filter (List.mem_reverse.mp hq))]
      rw [ihl, hfilter, hmap, hlog]
      by_cases hpull : pulled (s.schedproc p) = true
      · simp [hpull]
      · simp [hpull]

theorem balance_effect (u : Utility n) (kernel : Fin n → Int) (s : Sched n) :
    Effect u s (balanceQueues kernel s) (.balance kernel) := by
  obtain ⟨slots, log⟩ := balance_slots kernel (List.nodup_finRange n) 0 s
  refine .balanced (funext fun q => ?_) log
  exact (slots q).trans (if_pos (List.mem_finRange q))

theorem step_effect (hu : u.Sound slot) {e : Event n} (h : step u s e = .ok t) : Effect u s t e := by
  cases e with
  | noquantum source kernel =>
    obtain rfl := Except.ok.inj h
    exact noquantum_effect u source kernel s
  | stop m =>
    obtain rfl := Except.ok.inj h
    exact stop_effect u m s
  | start m schedctl schedule =>
    obtain rfl := Except.ok.inj h
    exact start_effect hu m schedctl schedule s
  | nice m kernel =>
    obtain rfl := Except.ok.inj h
    exact nice_effect u m kernel s
  | balance kernel =>
    obtain rfl := Except.ok.inj h
    exact balance_effect u kernel s

end Effects

theorem step_total (u : Utility n) (s : Sched n) (e : Event n) : ∃ t, step u s e = .ok t := by
  cases e <;> exact ⟨_, rfl⟩

def EachUsed (P : Schedproc → Prop) (s : Sched n) : Prop :=
  ∀ p, (s.schedproc p).inUse = true → P (s.schedproc p)

/-- No process in use is above its maximal priority or below the lowest queue of users. -/
def Ranked (u : Utility n) : Sched n → Prop :=
  EachUsed fun rmp => rmp.maxPriority ≤ rmp.priority ∧ rmp.priority ≤ u.minUserQ

def Bounded (u : Utility n) : Sched n → Prop := EachUsed fun rmp => rmp.priority ≤ u.minUserQ

/-- A process that is started does not begin above the maximal priority that its nice value gives it. -/
def BeginsBelow (u : Utility n) (s : Sched n) : Event n → Prop
  | .start m schedctl _ => ∀ p q, u.isFromPm m = true → u.isemtyendpt s.schedproc m.endpoint = .ok p →
      u.niceToPriority m.nice = .ok q → schedctl = 0 →
        (m.endpoint = m.parent → q ≤ u.userQ) ∧
          ∀ parent, InheritsFrom u m s parent → q ≤ (s.schedproc parent).priority
  | _ => True

section Priorities

variable {u : Utility n} {slot : Int → Fin n} {s t : Sched n} {e : Event n} {P : Schedproc → Prop}

theorem EachUsed.update (h : EachUsed P s) {p : Fin n} {rmp : Schedproc} (hp : rmp.inUse = true → P rmp)
    (slots : t.schedproc = Function.update s.schedproc p rmp) : EachUsed P t := by
  intro q
  rw [slots]
  by_cases hq : q = p
  · rw [hq, Function.update_self]
    exact hp
  · rw [Function.update_of_ne hq]
    exact h q

/-- A property of slots is kept by a step if it survives each change of one, and holds of a process
that begins. -/
theorem EachUsed.step (h : EachUsed P s) (hu : u.Sound slot) (he : Effect u s t e)
    (low : ∀ rmp, P rmp → P (Schedule.lowered u rmp)) (up : ∀ rmp, P rmp → P (raised rmp))
    (niced : ∀ rmp q nice, q ≤ u.minUserQ → P rmp →
      P { rmp with maxPriority := q, priority := q, nice := nice })
    (begins : ∀ m schedctl schedule p rmp, e = .start m schedctl schedule → u.isFromPm m = true →
      u.isemtyendpt s.schedproc m.endpoint = .ok p → u.niceToPriority m.nice = .ok rmp.maxPriority →
      schedctl = 0 → Source u m s rmp.priority rmp.timeSlice → P rmp) : EachUsed P t := by
  cases he with
  | refused request used kept log =>
    intro q hq
    rw [used] at hq
    rw [kept q hq]
    exact h q hq
  | lowered p found slots log => exact h.update (fun _ => low _ (h p (hu.ok found).2.1)) slots
  | stopped p found slots log => exact h.update (fun hp => absurd hp (by simp)) slots
  | started p rmp pm found nice taken endpoint used source slots log =>
    exact h.update (fun _ => begins _ _ _ p rmp rfl pm found nice taken source) slots
  | niced p q called found nice slots log =>
    exact h.update (fun _ => niced _ q _ (hu.nice nice) (h p (hu.ok found).2.1)) slots
  | restored failed slots =>
    intro q hq
    rw [slots] at hq ⊢
    exact h q hq
  | balanced slots log =>
    intro q hq
    rw [slots] at hq ⊢
    exact up _ (h q (by rwa [← raised_inUse]))

theorem raised_priority (rmp : Schedproc) : (raised rmp).maxPriority = rmp.maxPriority ∧
    (raised rmp).priority ≤ rmp.priority ∧
    (rmp.maxPriority ≤ rmp.priority → rmp.maxPriority ≤ (raised rmp).priority) := by
  unfold raised pulled
  split
  next hpull =>
    have hlt : rmp.maxPriority < rmp.priority := by simpa using (Bool.and_eq_true_iff.mp hpull).2
    exact ⟨rfl, Nat.sub_le _ _, fun _ => Nat.le_sub_one_of_lt hlt⟩
  next => exact ⟨rfl, le_rfl, id⟩

theorem lowered_priority (u : Utility n) {rmp : Schedproc} (h : rmp.priority ≤ u.minUserQ) :
    (Schedule.lowered u rmp).maxPriority = rmp.maxPriority ∧
      rmp.priority ≤ (Schedule.lowered u rmp).priority ∧
      (Schedule.lowered u rmp).priority ≤ u.minUserQ := by
  unfold Schedule.lowered
  split
  next hlt => exact ⟨rfl, Nat.le_succ _, hlt⟩
  next => exact ⟨rfl, le_rfl, h⟩

theorem Bounded.step (h : Bounded u s) (hu : u.Sound slot) (he : Effect u s t e) : Bounded u t := by
  refine EachUsed.step h hu he (fun rmp hp => (lowered_priority u hp).2.2)
    (fun rmp hp => (raised_priority rmp).2.1.trans hp) (fun _ _ _ hq _ => hq)
    fun m schedctl schedule p rmp _ _ _ _ _ source => ?_
  cases source with
  | root own priority_eq => exact priority_eq ▸ hu.userQ
  | fork parent inherits used priority_eq => exact priority_eq ▸ h parent used

theorem Ranked.step (h : Ranked u s) (hu : u.Sound slot) (he : Effect u s t e)
    (begins : BeginsBelow u s e) : Ranked u t := by
  refine EachUsed.step h hu he (fun rmp hp => ?_) (fun rmp hp => ?_) (fun _ _ _ hq _ => ⟨le_rfl, hq⟩)
    fun m schedctl schedule p rmp hstart pm found nice taken source => ?_
  · obtain ⟨hmax, hle, hmin⟩ := lowered_priority u hp.2
    rw [hmax]
    exact ⟨hp.1.trans hle, hmin⟩
  · obtain ⟨hmax, hle, hge⟩ := raised_priority rmp
    rw [hmax]
    exact ⟨hge hp.1, hle.trans hp.2⟩
  · subst hstart
    obtain ⟨root, fork⟩ := begins p rmp.maxPriority pm found nice taken
    cases source with
    | root own priority_eq =>
      rw [priority_eq]
      exact ⟨root own, hu.userQ⟩
    | fork parent inherits used priority_eq =>
      rw [priority_eq]
      exact ⟨fork parent inherits, (h parent used).2⟩

theorem InheritsFrom.unique {m : Message} {parent parent' : Fin n} (h : InheritsFrom u m s parent)
    (h' : InheritsFrom u m s parent') : parent = parent' := by
  obtain ⟨-, -, p, q, hp, hq, hparent⟩ := h
  obtain ⟨-, -, p', q', hp', hq', hparent'⟩ := h'
  obtain rfl : p = p' := Except.ok.inj (hp.symm.trans hp')
  obtain rfl : q = q' := Except.ok.inj (hq.symm.trans hq')
  exact Except.ok.inj (hparent.symm.trans hparent')

/-- A start that leaves no process above its maximal priority began below it. -/
theorem beginsBelow_of_ranked (hu : u.Sound slot) (hs : step u s e = .ok t) (h : Ranked u t) :
    BeginsBelow u s e := by
  cases e with
  | noquantum | stop | nice | balance => trivial
  | start m schedctl schedule =>
    intro p q pm found nice taken
    obtain rfl := Except.ok.inj hs
    have begun : ∀ t, inherit u m p (setMaxPriority q p (populate m p s)) = .ok t →
        ∃ priority timeSlice, Source u m s priority timeSlice ∧ q ≤ priority := by
      intro t ht
      obtain ⟨rmp, hrmp, -, hmax, -, hlog, source⟩ := inherit_slot hu pm found nice ht
      have slots := (takeOver_slot u m schedule taken hrmp hlog).1
      rw [← start_eq pm found nice ht] at slots
      have hp := h p (by rw [slots, Function.update_self])
      rw [slots, Function.update_self] at hp
      exact ⟨rmp.priority, rmp.timeSlice, source, hmax ▸ hp.1⟩
    refine ⟨fun own => ?_, fun parent inherits => ?_⟩
    · obtain ⟨priority, timeSlice, source, hle⟩ := begun _ (by rw [inherit, if_pos own])
      cases source with
      | root own priority_eq => exact priority_eq ▸ hle
      | fork parent inherits => exact absurd own inherits.2.1
    · obtain ⟨-, ne, p', q', found', nice', hparent⟩ := id inherits
      obtain rfl : p = p' := Except.ok.inj (found.symm.trans found')
      obtain rfl : q = q' := Except.ok.inj (nice.symm.trans nice')
      obtain ⟨t, ht⟩ := exists_inherit p ne hparent
      obtain ⟨priority, timeSlice, source, hle⟩ := begun t ht
      cases source with
      | root own => exact absurd own ne
      | fork parent' inherits' used priority_eq =>
        obtain rfl := inherits.unique inherits'
        exact priority_eq ▸ hle

end Priorities

/-- In every run no process in use falls below the lowest queue, and none rises above its maximal
priority exactly if none begins above it: nothing but a start can put a process there. -/
theorem ranked_iff_beginsBelow {u : Utility n} {slot : Int → Fin n} (hu : u.Sound slot) (es : List (Event n)) :
    Upholds (step u) (Bounded u) (boot n) es ∧
      (Upholds (step u) (Ranked u) (boot n) es ↔ Meets (step u) (BeginsBelow u) (boot n) es) := by
  have unused : ∀ P, EachUsed P (boot n) := fun P p hp => absurd hp (by simp [boot])
  have total : Meets (step u) (fun _ _ => True) (boot n) es := .of_forall (fun _ _ => trivial) _ _
  refine ⟨upholds_of_meets (fun _ h => h) (fun s e h _ => ?_) (unused _) total, fun h => ?_, fun h => ?_⟩
  · obtain ⟨t, ht⟩ := step_total u s e
    exact ⟨t, ht, Bounded.step h hu (step_effect hu ht)⟩
  · refine meets_of_upholds (I := Ranked u) (fun s e h _ begins => ?_)
      (fun s e t _ _ ht h => beginsBelow_of_ranked hu ht h) (unused _) total h
    obtain ⟨t, ht⟩ := step_total u s e
    exact ⟨t, ht, Ranked.step h hu (step_effect hu ht) begins⟩
  · refine upholds_of_meets (fun _ h => h) (fun s e h begins => ?_) (unused _) h
    obtain ⟨t, ht⟩ := step_total u s e
    exact ⟨t, ht, Ranked.step h hu (step_effect hu ht) begins⟩

theorem slotUtility_sound (n : Nat) (hn : 0 < n) :
    (slotUtility n).Sound fun e => if h : 0 ≤ e ∧ e.toNat < n then ⟨e.toNat, h.2⟩ else ⟨0, hn⟩ where
  ok := by
    intro table e p h
    simp only [slotUtility] at h
    split at h
    next range =>
      split at h
      next used =>
        obtain rfl := Except.ok.inj h
        rw [dif_pos range]
        exact ⟨rfl, used.2, used.1.symm⟩
      next => cases h
    next => cases h
  emty := by
    intro table e p h
    simp only [slotUtility] at h
    split at h
    next range =>
      split at h
      next => cases h
      next free =>
        obtain rfl := Except.ok.inj h
        rw [dif_pos range]
        exact ⟨rfl, by simpa using free⟩
    next => cases h
  nice := by
    intro nice q h
    obtain rfl := Except.ok.inj h
    simp [slotUtility]
  userQ := by simp [slotUtility]

theorem ranked_iff_beginsBelow_of_fork :
    Upholds (step (slotUtility 16)) (Bounded (slotUtility 16)) (boot 16) [fork 0, fork 1, .balance fun _ => 0] ∧
      (Upholds (step (slotUtility 16)) (Ranked (slotUtility 16)) (boot 16)
          [fork 0, fork 1, .balance fun _ => 0] ↔
        Meets (step (slotUtility 16)) (BeginsBelow (slotUtility 16)) (boot 16)
          [fork 0, fork 1, .balance fun _ => 0]) :=
  ranked_iff_beginsBelow (slotUtility_sound 16 (by decide)) _

end Schedule

end TcpAndParallel
