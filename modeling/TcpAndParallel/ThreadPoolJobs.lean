import TcpAndParallel.Chain
import TcpAndParallel.Custody
import TcpAndParallel.ThreadPoolRoll

namespace TcpAndParallel

namespace ThreadPool

variable {τ : Type*} [DecidableEq τ]

/-- Where a job is when no thread has it. -/
inductive Shelf
  | unborn | queue | finished
  deriving DecidableEq

/-- Where a thread has a job: a client before it has put it in the queue, a worker until it has
performed it. -/
def carries : Pc → Bool
  | .client p => (p matches .queueLock | .queue)
  | .worker p => (p matches .unlock | .run)

def isWorker : Pc → Bool
  | .worker _ => true
  | .client _ => false

def carried (pc : τ → Pc) (d : Pool τ) (t : τ) : Option Nat := if carries (pc t) then d.job t else none

/-- The job has been put in the queue, and may have left it. -/
def Given (place : Nat → Spot Shelf τ) (pc : τ → Pc) (job : Nat) : Prop :=
  place job = .shelf .queue ∨ place job = .shelf .finished ∨
    ∃ t, place job = .hand t ∧ isWorker (pc t) = true

/-- Every job is in the place that `place` gives, with the `pending` ones in the queue. -/
structure Served (place : Nat → Spot Shelf τ) (pending : List Nat) (pc : τ → Pc) (d : Pool τ) :
    Prop where
  chain : Chain d.jobNext d.head pending
  tail : d.tail = pending.getLast?
  order : d.queued = d.started ++ pending
  once : d.queued.Nodup
  done : d.done.Nodup
  unborn : Stocks place .unborn (d.made ≤ ·)
  queue : Stocks place .queue (· ∈ pending)
  finished : Stocks place .finished (· ∈ d.done)
  hands : Tracks place (carried pc d)
  given : ∀ job, job ∈ d.queued ↔ Given place pc job
  armed : ∀ t, carries (pc t) = true → d.job t ≠ none
  fresh : ∀ t job, isWorker (pc t) = false → carried pc d t = some job → d.jobNext job = none

/-- Two pools with the same jobs. -/
structure SameJobs (d d' : Pool τ) : Prop where
  head : d'.head = d.head
  tail : d'.tail = d.tail
  jobNext : d'.jobNext = d.jobNext
  job : d'.job = d.job
  made : d'.made = d.made
  queued : d'.queued = d.queued
  started : d'.started = d.started
  done : d'.done = d.done

variable {place : Nat → Spot Shelf τ} {pending : List Nat} {pc : τ → Pc} {d d' : Pool τ} {t : τ}
  {next : Pc} {job : Nat}

section Moves

omit [DecidableEq τ] in
theorem carried_same (hd : d'.job = d.job) : carried pc d' = carried pc d := by
  funext u
  rw [carried, carried, hd]

theorem carried_goto (others : ∀ u ≠ t, d'.job u = d.job u) :
    carried (Function.update pc t next) d' =
      Function.update (carried pc d) t (if carries next then d'.job t else none) := by
  funext u
  by_cases hu : u = t
  · subst hu
    simp [carried]
  · simp [carried, Function.update_of_ne hu, others u hu]

theorem carried_stay (hc : carries next = carries (pc t)) :
    carried (Function.update pc t next) d = carried pc d := by
  have hsame : (if carries (pc t) then d.job t else none) = carried pc d t := rfl
  rw [carried_goto (d := d) fun u _ => rfl, hc, hsame, Function.update_eq_self]

theorem carried_drop (hc : carries next = false) :
    carried (Function.update pc t next) d = Function.update (carried pc d) t none := by
  rw [carried_goto (d := d) fun u _ => rfl, if_neg (by simp [hc])]

theorem isWorker_goto (hw : isWorker next = isWorker (pc t)) (u : τ) :
    isWorker (Function.update pc t next u) = isWorker (pc u) := by
  by_cases hu : u = t
  · rw [hu, Function.update_self, hw]
  · rw [Function.update_of_ne hu]

theorem given_goto (hw : isWorker next = isWorker (pc t)) (job : Nat) :
    Given place (Function.update pc t next) job ↔ Given place pc job := by
  simp only [Given, isWorker_goto hw]

theorem given_move {spot : Spot Shelf τ} (hw : isWorker next = isWorker (pc t))
    (same : Given place pc job ↔
      spot = .shelf .queue ∨ spot = .shelf .finished ∨ ∃ u, spot = .hand u ∧ isWorker (pc u) = true)
    (other : Nat) :
    Given (Function.update place job spot) (Function.update pc t next) other ↔ Given place pc other := by
  rw [given_goto hw]
  by_cases ho : other = job
  · subst ho
    rw [same]
    simp [Given]
  · simp only [Given, Function.update_of_ne ho]

omit [DecidableEq τ] in
theorem Served.same (h : Served place pending pc d) (hd : SameJobs d d') :
    Served place pending pc d' := by
  refine ⟨?_, hd.tail ▸ h.tail, ?_, hd.queued ▸ h.once, hd.done ▸ h.done, hd.made ▸ h.unborn, h.queue,
    hd.done ▸ h.finished, ?_, hd.queued ▸ h.given, hd.job ▸ h.armed, ?_⟩
  · rw [hd.jobNext, hd.head]
    exact h.chain
  · rw [hd.queued, hd.started]
    exact h.order
  · rw [carried_same hd.job]
    exact h.hands
  · rw [carried_same hd.job, hd.jobNext]
    exact h.fresh

theorem Served.turn (h : Served place pending pc d) (hc : carries next = carries (pc t))
    (hw : isWorker next = isWorker (pc t)) (hd : SameJobs d d') :
    Served place pending (Function.update pc t next) d' := by
  refine Served.same ⟨h.chain, h.tail, h.order, h.once, h.done, h.unborn, h.queue, h.finished, ?_, ?_,
    fun u hu => ?_, fun u job hu hj => ?_⟩ hd
  · rw [carried_stay hc]
    exact h.hands
  · intro job
    rw [given_goto hw]
    exact h.given job
  · by_cases hut : u = t
    · subst hut
      rw [Function.update_self, hc] at hu
      exact h.armed u hu
    · rw [Function.update_of_ne hut] at hu
      exact h.armed u hu
  · rw [isWorker_goto hw] at hu
    rw [carried_stay hc] at hj
    exact h.fresh u job hu hj

omit [DecidableEq τ] in
theorem Served.carried_at (h : Served place pending pc d) (hc : carries (pc t) = true)
    (hj : d.job t = some job) : place job = .hand t := by
  refine (h.hands t job).mp ?_
  rw [carried, if_pos hc, hj]

theorem Served.armed_goto (h : Served place pending pc d) (hn : carries next = true → d'.job t ≠ none)
    (others : ∀ u ≠ t, d'.job u = d.job u) (u : τ)
    (hu : carries (Function.update pc t next u) = true) : d'.job u ≠ none := by
  by_cases hut : u = t
  · subst hut
    rw [Function.update_self] at hu
    exact hn hu
  · rw [Function.update_of_ne hut] at hu
    rw [others u hut]
    exact h.armed u hu

/-- `malloc` makes a job that nobody has had before. -/
theorem Served.malloc (h : Served place pending pc d) (hp : pc t = .client .call) :
    Served (Function.update place d.made (.hand t)) pending
      (Function.update pc t (.client .queueLock))
      { d with
        job := Function.update d.job t (some d.made)
        jobNext := Function.update d.jobNext d.made none
        made := d.made + 1 } := by
  have hn : place d.made = .shelf .unborn := (h.unborn _).mp le_rfl
  have hempty : carried pc d t = none := by simp [carried, hp, carries]
  have hpending : d.made ∉ pending := fun hm => by simpa [hn] using (h.queue _).mp hm
  have hw : isWorker (.client .queueLock) = isWorker (pc t) := by rw [hp]; rfl
  refine ⟨h.chain.update_of_notMem hpending, h.tail, h.order, h.once, h.done, ?_, ?_, ?_, ?_,
    fun job => ?_, h.armed_goto (by simp) fun u hu => Function.update_of_ne hu _ _,
    fun u job hu hj => ?_⟩
  · exact h.unborn.remove (fun job => by simp; omega) (by simp)
  · exact h.queue.frame hpending (by simp)
  · exact h.finished.frame (fun hm => by simpa [hn] using (h.finished _).mp hm) (by simp)
  · rw [carried_goto (d := d) fun u hu => Function.update_of_ne hu _ _]
    simpa [carries] using h.hands.take hempty hn
  · rw [h.given job, given_move hw]
    simp [Given, hn, hp, isWorker]
  · by_cases hut : u = t
    · subst hut
      have hjob : d.made = job := by simpa [carried, carries] using hj
      simp [hjob]
    · have hold : carried pc d u = some job := by
        simpa [carried, Function.update_of_ne hut] using hj
      have hne : job ≠ d.made := by
        rintro rfl
        simpa [hn] using (h.hands u _).mp hold
      rw [Function.update_of_ne hut] at hu
      simpa [Function.update_of_ne hne] using h.fresh u job hu hold

omit [DecidableEq τ] in
theorem queueJob_eq (hjob : d.job t = some job) : queueJob t d = { d with
    jobNext := (queueJob t d).jobNext
    head := (queueJob t d).head
    tail := some job
    queued := d.queued ++ [job] } := by
  simp only [queueJob, hjob]

omit [DecidableEq τ] in
theorem queueJob_chain (h : Chain d.jobNext d.head pending) (tail : d.tail = pending.getLast?)
    (hjob : d.job t = some job) (new : job ∉ pending) (fresh : d.jobNext job = none) :
    Chain (queueJob t d).jobNext (queueJob t d).head (pending ++ [job]) ∧
      ∀ other ∉ pending, (queueJob t d).jobNext other = d.jobNext other := by
  rcases pending.eq_nil_or_concat with rfl | ⟨before, last, rfl⟩
  · have hhead : d.head = none := h
    refine ⟨?_, fun other _ => ?_⟩
    · simp [queueJob, hjob, hhead, fresh]
    · simp [queueJob, hjob, hhead]
  · rw [List.concat_eq_append] at *
    have hlast : d.tail = some last := by simpa using tail
    obtain ⟨first, hfirst⟩ : ∃ first, d.head = some first := by
      rw [h.head_eq]
      cases before <;> simp
    have hchain := h.concat new
    rw [← fresh, Function.update_eq_self] at hchain
    refine ⟨?_, fun other ho => ?_⟩
    · simpa [queueJob, hjob, hfirst, hlast] using hchain
    · have hne : other ≠ last := fun he => ho (by simp [he])
      simp [queueJob, hjob, hfirst, hlast, Function.update_of_ne hne]

theorem Served.put (h : Served place pending pc d) (hp : pc t = .client .queue)
    (hc : carries next = false) (hw : isWorker next = false) :
    ∃ place' job, Served place' (pending ++ [job]) (Function.update pc t next) (queueJob t d) := by
  have hcarries : carries (pc t) = true := by rw [hp]; rfl
  have hclient : isWorker (pc t) = false := by rw [hp]; rfl
  have hworker : isWorker next = isWorker (pc t) := by rw [hw, hclient]
  obtain ⟨job, hjob⟩ := Option.ne_none_iff_exists'.mp (h.armed t hcarries)
  have hcarried : carried pc d t = some job := by rw [carried, if_pos hcarries, hjob]
  have hplace := h.carried_at hcarries hjob
  have hpending : job ∉ pending := fun hm => h.queue.ne_hand hm hplace
  have hgiven : job ∉ d.queued := by
    rw [h.given job, Given, hplace]
    rintro (hq | hf | ⟨u, hu, hw⟩)
    · simp at hq
    · simp at hf
    · rw [← Spot.hand.inj hu, hclient] at hw
      simp at hw
  obtain ⟨hchain, hframe⟩ := queueJob_chain h.chain h.tail hjob hpending
    (h.fresh t job hclient hcarried)
  refine ⟨Function.update place job (.shelf .queue), job, ?_⟩
  rw [queueJob_eq hjob]
  refine ⟨hchain, by simp, ?_, ?_, h.done, ?_, ?_, ?_, ?_, fun other => ?_, ?_, fun u other hu ho => ?_⟩
  · rw [h.order, List.append_assoc]
  · rw [List.nodup_append]
    refine ⟨h.once, List.nodup_singleton job, fun j hj k hk => ?_⟩
    obtain rfl := List.mem_singleton.mp hk
    rintro rfl
    exact hgiven hj
  · exact h.unborn.frame (fun hm => h.unborn.ne_hand hm hplace) (by simp)
  · exact h.queue.add fun j => by simp [or_comm]
  · exact h.finished.frame (fun hm => h.finished.ne_hand hm hplace) (by simp)
  · show Tracks _ (carried (Function.update pc t next) d)
    rw [carried_drop hc]
    exact h.hands.drop hcarried .queue
  · rw [given_goto hworker]
    by_cases ho : other = job
    · simp [ho, Given]
    · simp [ho, h.given other, Given]
  · exact h.armed_goto (by simp [hc]) fun u _ => rfl
  · rw [isWorker_goto hworker] at hu
    replace ho : carried (Function.update pc t next) d u = some other := ho
    rw [carried_drop hc] at ho
    by_cases hut : u = t
    · simp [hut] at ho
    · rw [Function.update_of_ne hut] at ho
      have hout : other ∉ pending := fun hm => h.queue.ne_hand hm ((h.hands u other).mp ho)
      exact (hframe other hout).trans (h.fresh u other hu ho)

theorem Served.take (h : Served place pending pc d) (hp : pc t = .worker .leave)
    (head : d.head = some job) :
    ∃ place' pending', Served place' pending' (Function.update pc t (.worker .unlock))
      (takeJob t job d) := by
  have hempty : carried pc d t = none := by simp [carried, hp, carries]
  have hw : isWorker (.worker .unlock) = isWorker (pc t) := by rw [hp]; rfl
  have hhead := h.chain.head_eq
  rw [head] at hhead
  obtain ⟨rest, rfl⟩ : ∃ rest, pending = job :: rest := by
    cases pending with
    | nil => simp at hhead
    | cons first rest => exact ⟨rest, by rw [Option.some.inj hhead]⟩
  have hpending := h.chain.nodup
  have hout := (List.nodup_cons.mp hpending).1
  have hn : place job = .shelf .queue := (h.queue job).mp List.mem_cons_self
  refine ⟨Function.update place job (.hand t), rest, h.chain.2, ?_, ?_, h.once, h.done, ?_,
    h.queue.tail hout (by simp), ?_, ?_, fun other => ?_,
    h.armed_goto (by simp [takeJob]) fun u hu => Function.update_of_ne hu _ _,
    fun u other hu ho => ?_⟩
  · show (if d.tail = some job then none else d.tail) = rest.getLast?
    rw [h.tail]
    cases rest with
    | nil => simp
    | cons second others =>
      have hlast := List.getLast?_eq_some_getLast (List.cons_ne_nil second others)
      rw [List.getLast?_cons_cons, hlast, if_neg]
      intro he
      exact hout (Option.some.inj he ▸ List.getLast_mem _)
  · show d.queued = d.started ++ [job] ++ rest
    rw [h.order, List.append_assoc]
    rfl
  · exact h.unborn.frame (fun hm => by simpa [hn] using (h.unborn _).mp hm) (by simp)
  · exact h.finished.frame (fun hm => by simpa [hn] using (h.finished _).mp hm) (by simp)
  · rw [carried_goto (d := d) fun u hu => Function.update_of_ne hu _ _]
    simpa [carries, takeJob] using h.hands.take hempty hn
  · show other ∈ d.queued ↔ _
    rw [h.given other, given_move hw]
    simp [Given, hn, hp, isWorker]
  · have hut : u ≠ t := by
      rintro rfl
      simp [isWorker] at hu
    rw [isWorker_goto hw] at hu
    rw [carried_goto (d := d) fun v hv => Function.update_of_ne hv _ _,
      Function.update_of_ne hut] at ho
    exact h.fresh u other hu ho

theorem Served.finish (h : Served place pending pc d) (hp : pc t = .worker .run) (exits : Bool) :
    ∃ place', Served place' pending (Function.update pc t (.worker (.jobLock exits)))
      { d with done := d.done ++ (d.job t).toList } := by
  have hcarries : carries (pc t) = true := by rw [hp]; rfl
  have hw : isWorker (.worker (.jobLock exits)) = isWorker (pc t) := by rw [hp]; rfl
  obtain ⟨job, hjob⟩ := Option.ne_none_iff_exists'.mp (h.armed t hcarries)
  have hcarried : carried pc d t = some job := by rw [carried, if_pos hcarries, hjob]
  have hplace := h.carried_at hcarries hjob
  refine ⟨Function.update place job (.shelf .finished), ?_⟩
  rw [hjob]
  refine ⟨h.chain, h.tail, h.order, h.once, ?_, ?_, ?_, ?_, ?_, fun other => ?_, ?_,
    fun u other hu ho => ?_⟩
  · show (d.done ++ [job]).Nodup
    rw [List.nodup_append]
    refine ⟨h.done, List.nodup_singleton job, fun j hj k hk => ?_⟩
    obtain rfl := List.mem_singleton.mp hk
    rintro rfl
    exact h.finished.ne_hand hj hplace
  · exact h.unborn.frame (fun hm => h.unborn.ne_hand hm hplace) (by simp)
  · exact h.queue.frame (fun hm => h.queue.ne_hand hm hplace) (by simp)
  · exact h.finished.add fun j => by simp [or_comm]
  · show Tracks _ (carried (Function.update pc t (.worker (.jobLock exits))) d)
    rw [carried_drop rfl]
    exact h.hands.drop hcarried .finished
  · show other ∈ d.queued ↔ _
    rw [h.given other, given_move hw]
    simp [Given, hplace, hp, isWorker]
  · exact h.armed_goto (by simp [carries]) fun u _ => rfl
  · have hut : u ≠ t := by
      rintro rfl
      simp [isWorker] at hu
    rw [isWorker_goto hw] at hu
    replace ho : carried (Function.update pc t (.worker (.jobLock exits))) d u = some other := ho
    rw [carried_drop rfl, Function.update_of_ne hut] at ho
    exact h.fresh u other hu ho

end Moves

section Runs

variable {lim : Limits} {s s' : State τ} {c : Choice τ} {woken : Finset τ}

@[simp] theorem carries_afterJob (exits : Bool) : carries (afterJob exits) = false := by
  cases exits <;> rfl

@[simp] theorem isWorker_afterJob (exits : Bool) : isWorker (afterJob exits) = true := by
  cases exits <;> rfl

theorem carries_of_next {p q : Pc} (h : (code lim p : Op τ).next? = some q) :
    carries q = carries p ∧ isWorker q = isWorker p := by
  rcases p with p | p <;> cases p <;> simp [Instr.next?, act] at h <;> subst h <;>
    simp [carries, isWorker]
  next exits => cases exits <;> simp [afterJob]

theorem Served.effect (h : Served place pending pc d) (he : Effect lim t d (pc t) next d')
    (alive : d'.freed = false) :
    ∃ place' pending', Served place' pending' (Function.update pc t next) d' := by
  generalize hp : pc t = p at he
  cases he with
  | newJob => exact ⟨_, _, h.malloc hp⟩
  | signal =>
    obtain ⟨place', job, hput⟩ := h.put hp (rfl : carries (.client .signal) = false) rfl
    exact ⟨_, _, hput⟩
  | queue =>
    obtain ⟨place', job, hput⟩ := h.put hp (rfl : carries (.client .queueUnlock) = false) rfl
    exact ⟨_, _, hput⟩
  | grow u =>
    obtain ⟨place', job, hput⟩ := h.put hp (rfl : carries (.client .queueUnlock) = false) rfl
    exact ⟨_, _, hput.same ⟨rfl, rfl, rfl, rfl, rfl, rfl, rfl, rfl⟩⟩
  | take job head =>
    have hsame : SameJobs d { d with idle := d.idle - 1 } := ⟨rfl, rfl, rfl, rfl, rfl, rfl, rfl, rfl⟩
    exact (h.same hsame).take hp head
  | run exits =>
    obtain ⟨place', hfinish⟩ := h.finish hp exits
    exact ⟨_, _, hfinish⟩
  | free => simp at alive
  | jobOver =>
    exact ⟨_, _, h.turn (by rw [hp, carries_afterJob]; rfl) (by rw [hp, isWorker_afterJob]; rfl)
      ⟨rfl, rfl, rfl, rfl, rfl, rfl, rfl, rfl⟩⟩
  | expire hq =>
    refine ⟨_, _, h.turn ?_ ?_ ⟨rfl, rfl, rfl, rfl, rfl, rfl, rfl, rfl⟩⟩
    · rcases hq with rfl | rfl <;> rw [hp] <;> rfl
    · rw [hp]
      rfl
  | goes hq =>
    refine ⟨_, _, h.turn ?_ ?_ ⟨rfl, rfl, rfl, rfl, rfl, rfl, rfl, rfl⟩⟩
    · rcases hq with rfl | rfl | rfl <;> rw [hp] <;> rfl
    · rw [hp]
      rfl
  | _ =>
    exact ⟨_, _, h.turn (by rw [hp]; rfl) (by rw [hp]; rfl) ⟨rfl, rfl, rfl, rfl, rfl, rfl, rfl, rfl⟩⟩

theorem freed_of_effect {p q : Pc} (h : Effect lim t d p q d') (alive : d'.freed = false) :
    d.freed = false := by
  cases h with
  | free => simp at alive
  | signal | queue | grow =>
    revert alive
    simp only [queueJob]
    split <;> exact id
  | _ => exact alive

theorem served_run (hs : s.data.freed = false → ∃ place pending, Served place pending s.pc s.data)
    (h : s.step (code lim) (.run t c woken) = some s') (alive : s'.data.freed = false) :
    ∃ place pending, Served place pending s'.pc s'.data := by
  obtain ⟨next, hpc, ⟨hn, hd⟩ | he⟩ := step_effect h
  · obtain ⟨place, pending, hserved⟩ := hs (hd ▸ alive)
    obtain ⟨hc, hw⟩ := carries_of_next hn
    rw [hpc, hd]
    exact ⟨place, pending, hserved.turn hc hw ⟨rfl, rfl, rfl, rfl, rfl, rfl, rfl, rfl⟩⟩
  · obtain ⟨place, pending, hserved⟩ := hs (freed_of_effect he alive)
    rw [hpc]
    exact hserved.effect he alive

omit [DecidableEq τ] in
theorem served_start {pc : τ → Pc} (hpc : ∀ t, Entry (pc t)) (jobNext : Nat → Option Nat) :
    Served (fun _ => .shelf .unborn) [] pc (init pc jobNext).data := by
  have hempty : ∀ t, carries (pc t) = false := fun t => by
    rcases hpc t with h | h <;> rw [h] <;> rfl
  refine ⟨rfl, rfl, rfl, List.nodup_nil, List.nodup_nil, fun job => ?_, fun job => ?_, fun job => ?_,
    fun t job => ?_, fun job => ?_, fun t ht => ?_, fun t job _ hj => ?_⟩
  · simp [init, Machine.start]
  · simp
  · simp [init, Machine.start]
  · simp [carried, hempty]
  · simp [Given, init, Machine.start]
  · simp [hempty] at ht
  · simp [carried, hempty] at hj

theorem served_of_reaches {pc : τ → Pc} (hpc : ∀ t, Entry (pc t)) {jobNext : Nat → Option Nat}
    {C : State τ → Step τ → Prop} (h : Reaches (Machine.step (code lim)) C (init pc jobNext) s)
    (alive : s.data.freed = false) : ∃ place pending, Served place pending s.pc s.data := by
  revert alive
  refine h.invariant
    (I := fun s => s.data.freed = false → ∃ place pending, Served place pending s.pc s.data)
    (fun _ => ⟨_, _, served_start hpc jobNext⟩) fun s e s' hs _ he => ?_
  cases e with
  | spurious c t =>
    obtain ⟨-, rfl⟩ := step_spurious he
    exact hs
  | run t c woken => exact served_run hs he

end Runs

/-- The worker has the job and has not performed it yet. -/
def Performs (s : State τ) (t : τ) (job : Nat) : Prop :=
  (s.pc t = .worker .unlock ∨ s.pc t = .worker .run) ∧ s.data.job t = some job

/-- The queue is the `pending` jobs. Jobs are started once and in the order in which they were
queued, and each that is started has either been performed, or is with one worker. -/
structure InOrder (s : State τ) (pending : List Nat) : Prop where
  chain : Chain s.data.jobNext s.data.head pending
  order : s.data.queued = s.data.started ++ pending
  once : s.data.queued.Nodup
  started : ∀ job, job ∈ s.data.started ↔ job ∈ s.data.done ∨ ∃ t, Performs s t job
  done : s.data.done.Nodup
  undone : ∀ t job, Performs s t job → job ∉ s.data.done
  alone : ∀ t u job, Performs s t job → Performs s u job → t = u

omit [DecidableEq τ] in
theorem Served.performs_iff {s : State τ} (h : Served place pending s.pc s.data) :
    Performs s t job ↔ place job = .hand t ∧ isWorker (s.pc t) = true := by
  rw [← h.hands t job, carried]
  unfold Performs
  rcases s.pc t with p | p <;> cases p <;> simp [carries, isWorker]

omit [DecidableEq τ] in
theorem Served.inOrder {s : State τ} (h : Served place pending s.pc s.data) : InOrder s pending := by
  have honce : (s.data.started ++ pending).Nodup := h.order ▸ h.once
  refine ⟨h.chain, h.order, h.once, fun job => ?_, h.done, fun t job ht hj => ?_,
    fun t u job ht hu => ?_⟩
  · have hstarted : job ∈ s.data.started ↔ job ∈ s.data.queued ∧ job ∉ pending := by
      rw [h.order, List.mem_append]
      refine ⟨fun hm => ⟨.inl hm, fun hp => ?_⟩, fun hm => hm.1.resolve_right hm.2⟩
      exact (List.nodup_append.mp honce).2.2 job hm job hp rfl
    have hpending := h.queue job
    have hdone := h.finished job
    simp only at hpending hdone
    rw [hstarted, h.given job, hpending, hdone]
    simp only [Given, h.performs_iff]
    constructor
    · rintro ⟨hq | hg, hno⟩
      · exact absurd hq hno
      · exact hg
    · rintro (hf | ⟨t, ht, hw⟩)
      · exact ⟨.inr (.inl hf), by simp [hf]⟩
      · exact ⟨.inr (.inr ⟨t, ht, hw⟩), by simp [ht]⟩
  · exact h.finished.ne_hand hj (h.performs_iff.mp ht).1
  · have hsame := (h.performs_iff.mp ht).1.symm.trans (h.performs_iff.mp hu).1
    exact Spot.hand.inj hsame

/-- First in, first out, and each job once, until the pool is freed. -/
theorem jobs_in_order {lim : Limits} {pc : τ → Pc} (hpc : ∀ t, Entry (pc t))
    {jobNext : Nat → Option Nat} {s : State τ}
    (h : Reaches (Machine.step (code lim)) (fun _ _ => True) (init pc jobNext) s)
    (alive : s.data.freed = false) : ∃ pending, InOrder s pending := by
  obtain ⟨place, pending, hserved⟩ := served_of_reaches hpc h alive
  exact ⟨pending, hserved.inOrder⟩

theorem jobs_in_order_first : ∃ s, Reaches (Machine.step (code ⟨1, 2, 60⟩)) (fun _ _ => True)
    (init oneClient fun _ => none) s ∧ s.data.started = [0] ∧ ∃ pending, InOrder s pending := by
  have run : ∃ s, Reaches (Machine.step (code ⟨1, 2, 60⟩)) (fun _ _ => True)
      (init oneClient fun _ => none) s ∧ s.data.started = [0] ∧ s.data.freed = false :=
    exists_reaches (List.replicate 4 (runs 0 (some 1) .queue) ++
      List.replicate 5 (runs 1 none .queue)) (by decide)
  obtain ⟨s, hr, hstarted, alive⟩ := run
  exact ⟨s, hr, hstarted, jobs_in_order oneClient_entry hr alive⟩

end ThreadPool

end TcpAndParallel
