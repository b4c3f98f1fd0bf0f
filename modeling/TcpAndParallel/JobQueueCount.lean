import TcpAndParallel.JobQueue

namespace TcpAndParallel

namespace JobQueue

variable {τ : Type*} [DecidableEq τ]

/-- Past a `sem_wait` that succeeded, and not yet through with the queue. -/
def claims : Pc → Bool
  | .logger p => (p matches .lock | .take | .advance)
  | .enqueue _ => false

def making : Pc → Bool
  | .enqueue p => (p matches .fill | .lock | .insert)
  | .logger _ => false

def carried (pc : τ → Pc) (d : Jobs τ) (t : τ) : Option (τ × Nat) :=
  if making (pc t) then d.hand t else none

/-- No thread stands between its semaphore operation and its queue update. -/
def Settled (s : State τ) : Prop := ∀ t, s.pc t ≠ .enqueue .post ∧ claims (s.pc t) = false

/-- Jobs leave once and in order, a logger that got past the semaphore finds one, and the semaphore
counts the jobs that can be reached from `job_head`. -/
structure Agreement (s : State τ) : Prop where
  fifo : s.data.dequeued <+: s.data.enqueued
  once : s.data.dequeued.Nodup
  nonempty : ∀ t, s.pc t = .logger .take → s.data.tail ≠ none
  count : Settled s → s.data.count = {n | Linked s.data.next s.data.head n}.ncard

/-- No logger moves `job_end` on. -/
def NoDequeue (s : State τ) : Step τ → Prop
  | .run t _ _ => s.pc t ≠ .logger .advance
  | .spurious _ _ => True

instance (s : State τ) (e : Step τ) : Decidable (NoDequeue s e) :=
  match e with
  | .run t _ _ => inferInstanceAs (Decidable (s.pc t ≠ .logger .advance))
  | .spurious _ _ => inferInstanceAs (Decidable True)

/-- The list while nothing is taken from it. `posting` and `claimed` are the units that the
semaphore lacks. -/
structure Intact (posting claimed : Nat) (s : State τ) : Prop where
  made : Made (carried s.pc s.data) s.data.calls s.data.enqueued
  linked : ∀ n, Linked s.data.next s.data.head n ↔ n ∈ s.data.enqueued
  tail : s.data.tail = s.data.enqueued.head?
  kept : s.data.dequeued = []
  count : s.data.count + posting + claimed = s.data.enqueued.length
  one : posting ≤ 1
  posting : posting ≠ 0 ↔ ∃ t, s.pc t = .enqueue .post
  claimed : claimed ≠ 0 ↔ ∃ t, claims (s.pc t) = true

section List

variable {d : Jobs τ} {ptr : τ × Nat}

omit [DecidableEq τ] in
theorem head_eq_none_iff (linked : ∀ n, Linked d.next d.head n ↔ n ∈ d.enqueued) :
    d.head = none ↔ d.enqueued = [] := by
  constructor
  · intro h
    apply List.eq_nil_iff_forall_not_mem.mpr
    intro n hn
    have hl := (linked n).mpr hn
    rw [h] at hl
    exact linked_none hl
  · intro h
    cases hh : d.head with
    | none => rfl
    | some j =>
      have hj := (linked j).mp (hh ▸ .here j)
      simp [h] at hj

theorem insert_linked (linked : ∀ n, Linked d.next d.head n ↔ n ∈ d.enqueued)
    (tail : d.tail = d.enqueued.head?) (new : ptr ∉ d.enqueued) :
    (∀ n, Linked (insert ptr d).next (insert ptr d).head n ↔ n ∈ d.enqueued ++ [ptr]) ∧
      (insert ptr d).tail = (d.enqueued ++ [ptr]).head? := by
  unfold insert
  split
  next h =>
    have hnil := (head_eq_none_iff linked).mp h
    refine ⟨fun n => ?_, by simp [hnil]⟩
    simp only [hnil, List.nil_append, List.mem_singleton]
    exact linked_self (by simp)
  next h =>
    have hne : d.enqueued ≠ [] := fun he => h ((head_eq_none_iff linked).mpr he)
    refine ⟨fun n => ?_, ?_⟩
    · show Linked (Function.update d.next ptr d.head) (some ptr) n ↔ _
      rw [linked_push (fun hl => new ((linked ptr).mp hl)), linked n, List.mem_append,
        List.mem_singleton, or_comm]
    · show d.tail = _
      rw [tail, List.head?_append_of_ne_nil _ hne]

omit [DecidableEq τ] in
theorem ncard_linked (linked : ∀ n, Linked d.next d.head n ↔ n ∈ d.enqueued)
    (once : d.enqueued.Nodup) : {n | Linked d.next d.head n}.ncard = d.enqueued.length := by
  classical
  have hset : {n | Linked d.next d.head n} = (d.enqueued.toFinset : Set (τ × Nat)) := by
    ext n
    simp [linked n]
  rw [hset, Set.ncard_coe_finset, List.toFinset_card_of_nodup once]

end List

section Step

variable {s s' : State τ} {t : τ} {call : Choice} {woken : Finset τ} {posting claimed : Nat}

theorem posting_iff (h : s.step code (.run t call woken) = some s') (hp : s.pc t ≠ .enqueue .post)
    (hp' : s'.pc t ≠ .enqueue .post) :
    (∃ u, s'.pc u = .enqueue .post) ↔ ∃ u, s.pc u = .enqueue .post := by
  constructor
  · rintro ⟨u, hu⟩
    have hne : u ≠ t := by
      rintro rfl
      exact hp' hu
    exact ⟨u, by rw [← pc_of_ne h hne, hu]⟩
  · rintro ⟨u, hu⟩
    have hne : u ≠ t := by
      rintro rfl
      exact hp hu
    exact ⟨u, by rw [pc_of_ne h hne, hu]⟩

theorem claimed_iff (h : s.step code (.run t call woken) = some s')
    (same : claims (s'.pc t) = claims (s.pc t)) :
    (∃ u, claims (s'.pc u) = true) ↔ ∃ u, claims (s.pc u) = true := by
  have all : ∀ u, claims (s'.pc u) = claims (s.pc u) :=
    forall_pc_of_step (P := fun u p => claims p = claims (s.pc u)) h (fun _ => rfl) same
  simp only [all]

theorem carried_of_ne (h : s.step code (.run t call woken) = some s')
    (hh : ∀ u ≠ t, s'.data.hand u = s.data.hand u) {u : τ} (hu : u ≠ t) :
    carried s'.pc s'.data u = carried s.pc s.data u := by
  unfold carried
  rw [pc_of_ne h hu, hh u hu]

theorem made_quiet (hm : Made (carried s.pc s.data) s.data.calls s.data.enqueued)
    (h : s.step code (.run t call woken) = some s')
    (hh : ∀ u ≠ t, s'.data.hand u = s.data.hand u) (hcalls : s'.data.calls = s.data.calls)
    (hout : s'.data.enqueued = s.data.enqueued)
    (self : making (s'.pc t) = true → making (s.pc t) = true ∧ s'.data.hand t = s.data.hand t) :
    Made (carried s'.pc s'.data) s'.data.calls s'.data.enqueued := by
  rw [hcalls, hout]
  apply hm.keep
  intro u
  by_cases hu : u = t
  · subst hu
    unfold carried
    by_cases hmk : making (s'.pc u) = true
    · obtain ⟨hbefore, hhand⟩ := self hmk
      rw [if_pos hmk, if_pos hbefore, hhand]
      exact .inl rfl
    · rw [if_neg hmk]
      exact .inr rfl
  · exact .inl (carried_of_ne h hh hu)

end Step

section Run

variable {s s' : State τ} {t : τ} {call : Choice} {woken : Finset τ} {posting claimed : Nat}

theorem next_quiet {p q : Pc} (hn : (code p : Op τ).next? = some q) :
    claims q = claims p ∧ (making q = true → making p = true) ∧ p ≠ .enqueue .post ∧
      q ≠ .enqueue .post := by
  rcases p with p | p <;> cases p <;> simp [Instr.next?] at hn <;> subst hn <;> simp [claims, making]

theorem Intact.quiet (hs : Intact posting claimed s) (h : s.step code (.run t call woken) = some s')
    (hh : ∀ u ≠ t, s'.data.hand u = s.data.hand u)
    (data : s'.data.calls = s.data.calls ∧ s'.data.next = s.data.next ∧ s'.data.head = s.data.head ∧
      s'.data.tail = s.data.tail ∧ s'.data.count = s.data.count ∧
      s'.data.enqueued = s.data.enqueued ∧ s'.data.dequeued = s.data.dequeued)
    (hclaims : claims (s'.pc t) = claims (s.pc t))
    (hmaking : making (s'.pc t) = true → making (s.pc t) = true ∧ s'.data.hand t = s.data.hand t)
    (hp : s.pc t ≠ .enqueue .post) (hp' : s'.pc t ≠ .enqueue .post) : Intact posting claimed s' := by
  obtain ⟨hcalls, hnext, hhead, htail, hcount, henq, hdeq⟩ := data
  refine ⟨made_quiet hs.made h hh hcalls henq hmaking, ?_, ?_, ?_, ?_, hs.one, ?_, ?_⟩
  · rw [hnext, hhead, henq]
    exact hs.linked
  · rw [htail, henq]
    exact hs.tail
  · rw [hdeq]
    exact hs.kept
  · rw [hcount, henq]
    exact hs.count
  · rw [posting_iff h hp hp']
    exact hs.posting
  · rw [claimed_iff h hclaims]
    exact hs.claimed

omit [DecidableEq τ] in
/-- Only one thread can be at its `post`. -/
theorem post_unique (hg : Guarded () critical (fun _ => True) s) {u v : τ}
    (hu : critical (s.pc u) = true) (hv : critical (s.pc v) = true) : u = v := by
  have hou := (hg.owner u).mpr hu
  have hov := (hg.owner v).mpr hv
  exact Option.some.inj (hou.symm.trans hov)

theorem Intact.insert (hs : Intact posting claimed s) (hg : Guarded () critical (fun _ => True) s)
    (h : s.step code (.run t call woken) = some s') {ptr : τ × Nat} (hptr : s.data.hand t = some ptr)
    (hp : s.pc t = .enqueue .insert) (hp' : s'.pc t = .enqueue .post)
    (hd : s'.data = JobQueue.insert ptr s.data) : Intact 1 claimed s' := by
  have hcarried : carried s.pc s.data t = some ptr := by
    simp [carried, hp, making, hptr]
  have hand : s'.data.hand = s.data.hand := by
    rw [hd]
    unfold JobQueue.insert
    split <;> rfl
  have rest : s'.data.calls = s.data.calls ∧ s'.data.count = s.data.count ∧
      s'.data.enqueued = s.data.enqueued ++ [ptr] ∧ s'.data.dequeued = s.data.dequeued := by
    rw [hd]
    unfold JobQueue.insert
    split <;> exact ⟨rfl, rfl, rfl, rfl⟩
  obtain ⟨hcalls, hcount, henq, hdeq⟩ := rest
  obtain ⟨hlinked, htail⟩ := insert_linked hs.linked hs.tail (hs.made.own t ptr hcarried).2.2
  have noPost : posting = 0 := by
    by_contra hne
    obtain ⟨u, hu⟩ := hs.posting.mp hne
    obtain rfl := post_unique hg (u := u) (v := t) (by rw [hu]; rfl) (by rw [hp]; rfl)
    simp [hp] at hu
  refine ⟨?_, ?_, ?_, ?_, ?_, le_refl 1, ?_, ?_⟩
  · rw [hcalls, henq]
    apply hs.made.put hcarried
    · exact fun u hu => carried_of_ne h (fun _ _ => by rw [hand]) hu
    · simp [carried, hp', making]
  · rw [hd, ← hd, henq, hd]
    exact hlinked
  · rw [henq, hd]
    exact htail
  · rw [hdeq]
    exact hs.kept
  · have := hs.count
    rw [hcount, henq, List.length_append, List.length_singleton]
    omega
  · exact ⟨fun _ => ⟨t, hp'⟩, fun _ => one_ne_zero⟩
  · rw [claimed_iff h (by rw [hp, hp']; rfl)]
    exact hs.claimed

theorem Intact.calloc (hs : Intact posting claimed s)
    (h : s.step code (.run t call woken) = some s') (hp : s.pc t = .enqueue .calloc)
    (hp' : s'.pc t = .enqueue .fill)
    (hd : s'.data = { s.data with
      hand := Function.update s.data.hand t (some (t, s.data.calls t))
      calls := Function.update s.data.calls t (s.data.calls t + 1)
      next := Function.update s.data.next (t, s.data.calls t) none }) :
    Intact posting claimed s' := by
  have new : ¬Linked s.data.next s.data.head (t, s.data.calls t) := fun hl =>
    absurd (hs.made.made _ ((hs.linked _).mp hl)) (Nat.lt_irrefl _)
  have others : ∀ u ≠ t, carried s'.pc s'.data u = carried s.pc s.data u := fun u hu =>
    carried_of_ne h (fun v hv => by rw [hd]; exact Function.update_of_ne hv ..) hu
  have hmade := hs.made.make others (by simp [carried, hp', making, hd])
  refine ⟨?_, fun n => ?_, by rw [hd]; exact hs.tail, by rw [hd]; exact hs.kept,
    by rw [hd]; exact hs.count, hs.one, ?_, ?_⟩
  · rw [hd] at hmade ⊢
    exact hmade
  · rw [hd]
    exact (linked_update_iff new).trans (hs.linked n)
  · rw [posting_iff h (by simp [hp]) (by simp [hp'])]
    exact hs.posting
  · rw [claimed_iff h (by rw [hp, hp']; rfl)]
    exact hs.claimed

theorem Intact.post (hs : Intact posting claimed s) (hg : Guarded () critical (fun _ => True) s)
    (h : s.step code (.run t call woken) = some s') (hp : s.pc t = .enqueue .post)
    (hp' : s'.pc t = .enqueue .unlock)
    (hd : s'.data = { s.data with count := s.data.count + 1 }) : Intact 0 claimed s' := by
  have hone : posting = 1 := by
    have := hs.one
    have := hs.posting.mpr ⟨t, hp⟩
    omega
  have made := made_quiet hs.made h (fun _ _ => by rw [hd]) (by rw [hd]) (by rw [hd])
    (by simp [hp', making])
  refine ⟨made, by rw [hd]; exact hs.linked, by rw [hd]; exact hs.tail, by rw [hd]; exact hs.kept,
    ?_, Nat.zero_le 1, ?_, ?_⟩
  · have := hs.count
    rw [hd]
    show s.data.count + 1 + 0 + claimed = s.data.enqueued.length
    omega
  · refine ⟨fun h => absurd rfl h, ?_⟩
    rintro ⟨u, hu⟩
    by_cases hut : u = t
    · simp [hut, hp'] at hu
    · rw [pc_of_ne h hut] at hu
      exact absurd (post_unique hg (by rw [hu]; rfl) (by rw [hp]; rfl)) hut
  · rw [claimed_iff h (by rw [hp, hp']; rfl)]
    exact hs.claimed

theorem Intact.semWait (hs : Intact posting claimed s)
    (h : s.step code (.run t call woken) = some s') (hp : s.pc t = .logger .semWait)
    (hp' : s'.pc t = .logger .lock) (hpos : s.data.count ≠ 0)
    (hd : s'.data = { s.data with count := s.data.count - 1 }) :
    Intact posting (claimed + 1) s' := by
  have made := made_quiet hs.made h (fun _ _ => by rw [hd]) (by rw [hd]) (by rw [hd])
    (by simp [hp', making])
  refine ⟨made, by rw [hd]; exact hs.linked, by rw [hd]; exact hs.tail, by rw [hd]; exact hs.kept,
    ?_, hs.one, ?_, ?_⟩
  · have := hs.count
    rw [hd]
    show s.data.count - 1 + posting + (claimed + 1) = s.data.enqueued.length
    omega
  · rw [posting_iff h (by simp [hp]) (by simp [hp'])]
    exact hs.posting
  · exact ⟨fun _ => ⟨t, by rw [hp']; rfl⟩, fun _ => Nat.succ_ne_zero claimed⟩

theorem Intact.run (hs : Intact posting claimed s) (hg : Guarded () critical (fun _ => True) s)
    (h : s.step code (.run t call woken) = some s') (hC : s.pc t ≠ .logger .advance) :
    ∃ posting' claimed', Intact posting' claimed' s' := by
  obtain ⟨next, hpc, ⟨hn, hd⟩ | he⟩ := step_effect h
  · have hnext : s'.pc t = next := by rw [hpc, Function.update_self]
    obtain ⟨hclaims, hmaking, hp, hp'⟩ := next_quiet hn
    refine ⟨posting, claimed, hs.quiet h (fun _ _ => by rw [hd]) (by simp [hd]) ?_ ?_ hp ?_⟩
    · rw [hnext, hclaims]
    · rw [hnext, hd]
      exact fun hm => ⟨hmaking hm, rfl⟩
    · rw [hnext]
      exact hp'
  · have hnext : s'.pc t = next := by rw [hpc, Function.update_self]
    generalize hp : s.pc t = p at he hC
    generalize hd : s'.data = d' at he
    cases he with
    | calloc => exact ⟨posting, claimed, hs.calloc h hp hnext hd⟩
    | fill msg id =>
      refine ⟨posting, claimed, hs.quiet h (fun _ _ => by rw [hd]) (by simp [hd]) ?_ ?_ ?_ ?_⟩
      · rw [hp, hnext]
        rfl
      · rw [hp, hd]
        exact fun _ => ⟨rfl, rfl⟩
      · simp [hp]
      · simp [hnext]
    | insert hptr => exact ⟨1, claimed, hs.insert hg h hptr hp hnext hd⟩
    | post => exact ⟨0, claimed, hs.post hg h hp hnext hd⟩
    | semWait hpos => exact ⟨posting, claimed + 1, hs.semWait h hp hnext hpos hd⟩
    | take =>
      refine ⟨posting, claimed, hs.quiet h ?_ (by simp [hd]) ?_ ?_ ?_ ?_⟩
      · intro u hu
        rw [hd]
        exact Function.update_of_ne hu ..
      · rw [hp, hnext]
        rfl
      · simp [hnext, making]
      · simp [hp]
      · simp [hnext]
    | advance => exact absurd rfl hC
    | write | free =>
      refine ⟨posting, claimed, hs.quiet h (fun _ _ => by rw [hd]) (by simp [hd]) ?_ ?_ ?_ ?_⟩
      · rw [hp, hnext]
        rfl
      · simp [hnext, making]
      · simp [hp]
      · simp [hnext]

end Run

theorem intact {pc : τ → Pc} (hpc : ∀ t, Entry (pc t)) {s : State τ}
    (h : Reaches (Machine.step code) NoDequeue (init pc) s) :
    ∃ posting claimed, Intact posting claimed s := by
  induction h with
  | start =>
    have hcarried : ∀ t, carried pc (initializeJobQueue τ) t = none := by
      intro t
      rcases hpc t with h | h <;> simp [carried, h, making]
    refine ⟨0, 0, made_start hcarried, fun n => ?_, rfl, rfl, rfl, Nat.zero_le 1, ?_, ?_⟩
    · simp only [init, Machine.start, initializeJobQueue, List.not_mem_nil, iff_false]
      exact linked_none
    · refine ⟨fun h => absurd rfl h, ?_⟩
      rintro ⟨t, ht⟩
      rcases hpc t with h | h <;> simp [init, Machine.start, h] at ht
    · refine ⟨fun h => absurd rfl h, ?_⟩
      rintro ⟨t, ht⟩
      rcases hpc t with h | h <;> simp [init, Machine.start, h, claims] at ht
  | @next s s' e hr hc he ih =>
    obtain ⟨posting, claimed, hs⟩ := ih
    cases e with
    | spurious c _ => exact c.elim
    | run t call woken => exact hs.run (guarded hpc hr) he hc

omit [DecidableEq τ] in
theorem Intact.agreement {s : State τ} {posting claimed : Nat} (hs : Intact posting claimed s) :
    Agreement s := by
  refine ⟨?_, ?_, fun t ht => ?_, fun hsettled => ?_⟩
  · rw [hs.kept]
    exact List.nil_prefix
  · rw [hs.kept]
    exact List.nodup_nil
  · have hclaimed := hs.claimed.mpr ⟨t, by rw [ht]; rfl⟩
    have hcount := hs.count
    rw [hs.tail, ne_eq, List.head?_eq_none_iff]
    intro hnil
    rw [hnil, List.length_nil] at hcount
    omega
  · rw [ncard_linked hs.linked hs.made.once]
    have hcount := hs.count
    have hposting : posting = 0 := by
      by_contra hne
      obtain ⟨t, ht⟩ := hs.posting.mp hne
      exact (hsettled t).1 ht
    have hclaimed : claimed = 0 := by
      by_contra hne
      obtain ⟨t, ht⟩ := hs.claimed.mp hne
      simp [(hsettled t).2] at ht
    omega

/-- A job that is dequeued stays on the list, which the semaphore no longer counts. -/
theorem Intact.disagreement {s s' : State τ} {t : τ} {call : Choice} {woken : Finset τ}
    {posting claimed : Nat} (hs : Intact posting claimed s)
    (h : s.step code (.run t call woken) = some s') (hp : s.pc t = .logger .advance)
    (hsettled : Settled s') : ¬Agreement s' := by
  intro ha
  obtain ⟨next, -, ⟨hn, -⟩ | he⟩ := step_effect h
  · simp [hp, Instr.next?] at hn
  · rw [hp] at he
    have hcount := ha.count hsettled
    generalize s'.data = d' at he hcount
    cases he with
    | advance hjob hj =>
      have hsame : s.data.count = {n | Linked s.data.next s.data.head n}.ncard := hcount
      rw [ncard_linked hs.linked hs.made.once] at hsame
      have hclaimed := hs.claimed.mpr ⟨t, by rw [hp]; rfl⟩
      have htotal := hs.count
      omega

/-- The semaphore, the list and the loggers agree until a logger dequeues a job; when the threads
have settled after that, they do not. -/
theorem agrees_until_dequeue {pc : τ → Pc} (hpc : ∀ t, Entry (pc t)) {s : State τ}
    (h : Reaches (Machine.step code) NoDequeue (init pc) s) :
    Agreement s ∧ ∀ e s', s.step code e = some s' → ¬NoDequeue s e → Settled s' → ¬Agreement s' := by
  obtain ⟨posting, claimed, hs⟩ := intact hpc h
  refine ⟨hs.agreement, fun e s' he hC hsettled => ?_⟩
  cases e with
  | spurious c _ => exact c.elim
  | run t call woken => exact hs.disagreement he (not_not.mp hC) hsettled

abbrev go (t : τ) : Step τ := .run t ⟨[], 0, true⟩ ∅

/-- One thread that enqueues and one logger. -/
abbrev pair (t : Fin 2) : Pc := if t.val = 0 then .enqueue .calloc else .logger .semWait

/-- A logger is about to take the first of two jobs. -/
theorem agrees_before_dequeue : ∃ s, Reaches (Machine.step code) NoDequeue (init pair) s ∧
    (s.pc 1 = .logger .take ∧ s.data.enqueued.length = 2) ∧ Agreement s := by
  have run : ∃ s, Reaches (Machine.step code) NoDequeue (init pair) s ∧
      s.pc 1 = .logger .take ∧ s.data.enqueued.length = 2 :=
    exists_reaches (List.replicate 12 (go 0) ++ List.replicate 2 (go 1)) (by decide)
  obtain ⟨s, hs, hp⟩ := run
  exact ⟨s, hs, hp, (agrees_until_dequeue (by decide) hs).1⟩

/-- After one job has come and gone, the list still holds it. -/
theorem job_stays_on_list : ∃ s, Reaches (Machine.step code) (fun _ _ => True) (init pair) s ∧
    ¬Agreement s := by
  have run : ∃ s, Reaches (Machine.step code) (fun _ _ => True) (init pair) s ∧
      (∀ t, s.pc t ≠ .enqueue .post ∧ claims (s.pc t) = false) ∧ s.data.count = 0 ∧
        s.data.head = some (0, 0) ∧ s.data.next (0, 0) = some (0, 0) :=
    exists_reaches (List.replicate 6 (go 0) ++ List.replicate 5 (go 1)) (by decide)
  obtain ⟨s, hs, hsettled, hcount, hhead, hnext⟩ := run
  refine ⟨s, hs, fun ha => ?_⟩
  have hlist : {n | Linked s.data.next s.data.head n} = {(0, 0)} := by
    ext n
    rw [hhead]
    exact linked_self hnext
  have hc := ha.count hsettled
  rw [hlist, hcount, Set.ncard_singleton] at hc
  exact absurd hc (by decide)

end JobQueue

end TcpAndParallel
